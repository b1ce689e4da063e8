import PhpScript.Proofs.Node.Bare
import PhpScript.Proofs.Parse.Meeting

/-!
# What a closing tag ends

Where a semicolon ends a statement, a closing tag does so too, but for two kinds
of statements: an empty statement is the semicolon itself, and an import reads
over a closing tag up to the next semicolon. Either may also be the last part of
a condition (`Node.EndsIn`).

The statement that is read up to the ending is followed through both runs, form
by form (`Parse.EndsAlike`), and from there on through the levels of nesting.

* `statement_closeTag_iff`: which statements a closing tag ends as a semicolon
  does.
-/

namespace PhpScript

/-! ## Last parts of conditions -/

namespace Node

/-- Whether nodes of a kind end with their last child: those of a condition do. -/
def isBranching (kind : String) : Bool :=
  kind == "Stmt_If" || kind == "Stmt_ElseIf" || kind == "Stmt_Else"

/-- The last part of a statement, through the branches of conditions, is of a kind without a
    rule. -/
inductive EndsIn (kind : String) : Node → Prop
  | here {children s} : EndsIn kind (.other kind children s)
  | inside {outer children s last} : isBranching outer → last ∈ children.getLast? →
      EndsIn kind last → EndsIn kind (.other outer children s)

/-- The statement ends with an empty statement or with an import. -/
def NeedsSemicolon (n : Node) : Prop := n.EndsIn "Stmt_Nop" ∨ n.EndsIn "Stmt_Use"

theorem endsIn_branching_iff {kind outer : String} {children : List Node} {s : Span} {last : Node}
    (houter : isBranching outer) (hkind : isBranching kind = false)
    (hlast : last ∈ children.getLast?) :
    (Node.other outer children s).EndsIn kind ↔ last.EndsIn kind := by
  constructor
  · intro h
    cases h with
    | here => cases houter.symm.trans hkind
    | inside _ hlast' hin =>
      cases (Option.mem_def.1 hlast).symm.trans hlast'
      exact hin
  · exact .inside houter hlast

theorem needsSemicolon_branching_iff {outer : String} {children : List Node} {s : Span}
    {last : Node} (houter : isBranching outer) (hlast : last ∈ children.getLast?) :
    (Node.other outer children s).NeedsSemicolon ↔ last.NeedsSemicolon :=
  or_congr (endsIn_branching_iff houter rfl hlast) (endsIn_branching_iff houter rfl hlast)

theorem not_endsIn {kind outer : String} {children : List Node} {s : Span} (hne : outer ≠ kind)
    (houter : isBranching outer = false) : ¬(Node.other outer children s).EndsIn kind := by
  intro h
  cases h with
  | here => exact hne rfl
  | inside houter' => cases houter.symm.trans houter'

theorem not_needsSemicolon {outer : String} {children : List Node} {s : Span}
    (hnop : outer ≠ "Stmt_Nop") (huse : outer ≠ "Stmt_Use")
    (houter : isBranching outer = false) :
    ¬(Node.other outer children s).NeedsSemicolon :=
  not_or.2 ⟨not_endsIn hnop houter, not_endsIn huse houter⟩

end Node

namespace Parse

variable {e : Ending}

/-! ## Statements before a terminator -/

/-- The tree is the same up to the places. -/
def SameTree (n m : Node) : Prop := m.bare = n.bare

/-- A closing tag ends a statement as a semicolon does, unless the statement needs a
    semicolon. -/
abbrev EndsAlike (e : Ending) (p : Parser Node) : Prop := Meets e Node.NeedsSemicolon SameTree p

/-- What comes before a terminator is read in both runs alike, and the terminator is the
    semicolon in the one and the tag in the other. -/
theorem Meets.terminated {p : Parser α} {w : α → Span → Node} {start : Span} (hp : Echoes e p)
    (hw : ∀ a s, ¬(w a s).NeedsSemicolon) (hbare : ∀ a s s', SameTree (w a s) (w a s')) :
    EndsAlike e
      (p >>= fun a => terminator >>= fun _ => spanFrom start >>= fun s => pure (w a s)) where
  advances := hp.advances.bind fun a => terminator_enters (e := e).advances.bind fun _ =>
    (spanned_echoes (e := e)).advances
  at_ ts lastStop depth b after h := by
    obtain ⟨a, between, hpa, hfa⟩ := exists_of_bind_eq_ok h
    obtain ⟨_, ended, hended, hspan⟩ := exists_of_bind_eq_ok hfa
    obtain ⟨t, rest, ht, hbetween, rfl⟩ := terminator_eq_ok_iff.1 hended
    cases hspan
    rcases hp.echo ts hpa with hgone | ⟨us, lastStop', depth', rfl, hrun⟩
    · rw [hbetween] at hgone
      exact .beyond hgone.length_le
    · cases us with
      | nil =>
        cases hbetween
        have hend : terminator (e.withTag [] lastStop' depth') =
            .ok () ⟨e.rest, e.tag.span.stop, depth'⟩ :=
          terminator_of_endsStatement (t := e.tag) rfl rfl
        exact .same rfl (hw _ _) (by rw [bind_of_ok hrun, bind_of_ok hend]; rfl) rfl (hbare _ _ _)
      | cons u us =>
        cases hbetween
        have hend : terminator (e.withTag (t :: us) lastStop' depth') =
            .ok () (e.withTag us t.span.stop depth') :=
          terminator_of_endsStatement (t := t) ht rfl
        exact .before rfl (by rw [bind_of_ok hrun, bind_of_ok hend]; rfl)

theorem Shortens.terminated {p : Parser α} {w : α → Span → Node} {start : Span} (hp : Advances p) :
    Shortens (p >>= fun a => terminator >>= fun _ => spanFrom start >>= fun s => pure (w a s)) :=
  .andThen hp fun _ => terminator_shortens.bind fun _ => .of_rest_eq fun _ => ⟨_, _, rfl, rfl⟩

/-- Whether a statement ends at the cursor is seen alike. -/
theorem Meets.peekEnd {p q : Parser Node} (hp : EndsAlike e p) (hq : EndsAlike e q) :
    EndsAlike e (isAt (.symbol .semicolon) >>= fun b =>
      isAt (.symbol .closeTag) >>= fun b' => if b || b' then p else q) where
  advances := isAt_advances.bind fun _ => isAt_advances.bind fun _ => by
    split
    · exact hp.advances
    · exact hq.advances
  at_ ts lastStop depth a after h := by
    cases ts with
    | nil => exact hp.at_ [] h
    | cons t ts =>
      have hite : MeetsAt e Node.NeedsSemicolon SameTree
          (if t.kind == .symbol .semicolon || t.kind == .symbol .closeTag then p else q)
          (t :: ts) := by
        split
        · exact hp.at_ _
        · exact hq.at_ _
      exact hite h

/-- A statement that comes to a terminator, and so takes at least one token away. -/
structure Concludes (e : Ending) (p : Parser Node) : Prop where
  meets : EndsAlike e p
  shortens : Shortens p

namespace Concludes

theorem terminated {p : Parser α} {w : α → Span → Node} {start : Span} (hp : Echoes e p)
    (hw : ∀ a s, ¬(w a s).NeedsSemicolon) (hbare : ∀ a s s', SameTree (w a s) (w a s')) :
    Concludes e (p >>= fun a => terminator >>= fun _ => spanFrom start >>= fun s =>
      pure (w a s)) :=
  ⟨.terminated hp hw hbare, .terminated hp.advances⟩

theorem after {p : Parser α} {f : α → Parser Node} (hp : Echoes e p)
    (hf : ∀ a, Concludes e (f a)) : Concludes e (p >>= f) :=
  ⟨.after hp (fun a => (hf a).meets) fun a => (hf a).shortens,
    .andThen hp.advances fun a => (hf a).shortens⟩

theorem peekEnd {p q : Parser Node} (hp : Concludes e p) (hq : Concludes e q) :
    Concludes e (isAt (.symbol .semicolon) >>= fun b =>
      isAt (.symbol .closeTag) >>= fun b' => if b || b' then p else q) :=
  ⟨.peekEnd hp.meets hq.meets, .andThen isAt_advances fun _ => .andThen isAt_advances fun _ =>
    .ite hp.shortens hq.shortens⟩

end Concludes

section

variable {expression statement : Parser Node} {start : Span}

theorem declareStatement_concludes : Concludes e (declareStatement start) := by
  refine .after advance_enters.echoes fun _ => .after expect_enters.echoes fun _ => ?_
  refine .after (skipUntil_echoes rfl) fun _ => .terminated expect_enters.echoes ?_ ?_
  · exact fun _ _ => Node.not_needsSemicolon (by decide) (by decide) rfl
  · exact fun _ _ _ => by simp [SameTree]

/-- An import ends where the next semicolon is, so a closing tag does not end it. -/
theorem useStatement_concludes : Concludes e (useStatement start) := by
  have hend : Shortens (terminator >>= fun _ => other "Stmt_Use" [] start) :=
    terminator_shortens.bind fun _ => (other_echoes (e := e)).advances
  refine .after advance_enters.echoes fun _ => ⟨⟨?_, ?_⟩, .andThen skipUntil_advances fun _ => hend⟩
  · exact skipUntil_advances.bind fun _ =>
      (terminator_enters (e := e).bind fun _ => other_echoes).advances
  · intro ts lastStop depth n after h
    rcases skipUntil_semicolon e ts lastStop depth with
      ⟨u, us, lastStop', hleft, hright⟩ | ⟨lastStop', between, hleft, hright, hrest, -⟩
    · rw [bind_of_ok hleft] at h
      rw [bind_of_ok hright]
      obtain ⟨_, ended, hended, hspan⟩ := exists_of_bind_eq_ok h
      obtain ⟨t, rest, ht, hcut, rfl⟩ := terminator_eq_ok_iff.1 hended
      cases hcut
      cases hspan
      have hrun : terminator (e.withTag (u :: us) lastStop' depth) =
          .ok () (e.withTag us u.span.stop depth) :=
        terminator_of_endsStatement (t := u) ht rfl
      exact .before rfl (by rw [bind_of_ok hrun]; rfl)
    · rw [bind_of_ok hleft] at h
      have hrun : terminator (e.withSemicolon [] lastStop' depth) =
          .ok () ⟨e.rest, e.semicolonSpan.stop, depth⟩ :=
        terminator_of_endsStatement (t := e.semicolon) rfl rfl
      rw [bind_of_ok hrun] at h
      cases h
      refine .apart rfl (.inr .here) fun m after' h' => ?_
      rw [bind_of_ok hright] at h'
      exact Nat.lt_of_lt_of_le (hend h') hrest.length_le

section

variable (he : Enters e expression)

include he

theorem expressionStatement_concludes : Concludes e (expressionStatement expression start) := by
  refine .terminated he.echoes ?_ fun _ _ _ => by simp [SameTree]
  rintro _ _ (h | h) <;> cases h

theorem echoStatement_concludes : Concludes e (echoStatement expression start) := by
  refine .after advance_enters.echoes fun _ => .terminated (commaSeparated_enters he).echoes ?_ ?_
  · exact fun _ _ => Node.not_needsSemicolon (by decide) (by decide) rfl
  · exact fun _ _ _ => by simp [SameTree]

theorem returnStatement_concludes : Concludes e (returnStatement expression start) := by
  have hend {p : Parser (Option Node)} (hp : Echoes e p) :
      Concludes e (p >>= fun value => terminator >>= fun _ => spanFrom start >>= fun s =>
        pure (Node.returns value s)) := by
    refine .terminated hp ?_ fun _ _ _ => by simp [SameTree]
    rintro _ _ (h | h) <;> cases h
  exact .after advance_enters.echoes fun _ => .peekEnd (hend .pure) (hend he.map.echoes)

end

/-! ## Statements that close with a brace -/

variable (he : Enters e expression) (hs : Enters e statement)

section

include hs

theorem block_stopsBehind : StopsBehind (.symbol .closeBrace) (block statement) :=
  .andThen (expect_enters (e := e)).advances fun _ =>
    .andThen (gather_echoes (statementUntil_echoes hs rfl)).advances fun _ =>
      .close (expect_stopsBehind _ nofun) fun _ _ _ _ h => by cases h; rfl

theorem blockStatement_meets : EndsAlike e
    (block statement >>= fun body => other "Stmt_Block" body start) :=
  .behind ((block_enters hs).bind fun _ => other_echoes).echoes
    (.close (block_stopsBehind hs) fun _ _ _ _ h => by cases h; rfl) nofun

theorem functionDeclaration_meets : EndsAlike e (functionDeclaration statement) :=
  .behind (functionDeclaration_enters hs).echoes
    (.andThen (expect_enters (e := e)).advances fun _ =>
      .andThen (identifier_enters (e := e)).advances fun _ =>
        .andThen (parameterList_enters (e := e)).advances fun _ =>
          .andThen (skipReturnType_echoes (e := e)).advances fun _ =>
            .close (block_stopsBehind hs) fun _ _ _ _ h => by cases h; rfl) nofun

theorem method_shortens {flags : Modifiers} : Shortens (method statement flags start) := by
  have hparams : Shortens parameterList := by
    refine .bind (expect_stopsBehind (.symbol .openParen) nofun).shortens fun _ => ?_
    exact ((commaListUntil_echoes (e := e) parameter_enters).bind fun _ =>
      expect_enters.echoes.bind fun _ => .pure).advances
  refine .andThen (refuseByRefReturn_echoes (e := e)).advances fun _ => ?_
  refine .andThen (identifier_enters (e := e)).advances fun _ => hparams.bind fun _ => ?_
  exact (skipReturnType_echoes.bind fun _ => accept_semicolon_echoes.bind fun _ => Echoes.ite
    (Echoes.pure.bind fun _ => spanned_echoes)
    ((block_enters hs).map.echoes.bind fun _ => spanned_echoes)).advances

end

section

include he

theorem property_shortens {flags : Modifiers} : Shortens (property expression flags start) := by
  refine .andThen (skipType_echoes (e := e)).advances fun _ => ?_
  exact .terminated (commaSeparated_enters (propertyItem_enters he)).advances

include hs

theorem classMember_shortens : Shortens (classMember expression statement) := by
  have hrefused {complaint : Complaint} {k : Unit → Parser Node} :
      Shortens (complain complaint >>= k) := .of_error fun _ => ⟨_, _, rfl⟩
  have htraits {start : Span} : Shortens (traitUse start) :=
    .terminated (commaSeparated_enters (e := e) name_enters).advances
  have haccept {kind : TokenKind} : Advances (accept kind) := (accept_watches (e := e)).advances
  refine .andThen current_advances fun _ => .andThen haccept fun _ => .ite htraits ?_
  refine .andThen isAt_advances fun _ => .ite hrefused ?_
  refine .andThen (modifiers_echoes (e := e)).advances fun _ => .andThen haccept fun _ => ?_
  refine .ite (method_shortens hs) (.ite ?_ (property_shortens he))
  exact .andThen current_advances fun _ => .ite hrefused (.of_error fun _ => ⟨_, _, rfl⟩)

/-- A class goes on to a brace, and each of its members takes tokens away. -/
theorem classMemberUntil_eq_ok {c after : Cursor} {r : Round Node}
    (h : classMemberUntil expression statement c = .ok r after) :
    (r = .stop ∧ ∃ t, c.rest = t :: after.rest ∧ t.kind = .symbol .closeBrace) ∨
      ∃ n, r = .more n ∧ after.rest <:+ c.rest ∧ after.rest.length < c.rest.length := by
  obtain ⟨closed, between, haccept, hgo⟩ := exists_of_bind_eq_ok h
  cases closed with
  | true =>
    cases hgo
    exact .inl ⟨rfl, accept_eq_true haccept nofun⟩
  | false =>
    obtain rfl : between = c := accept_eq_false haccept nofun
    rw [if_neg Bool.false_ne_true] at hgo
    obtain ⟨atEnd, here, hat, hmember⟩ := exists_of_bind_eq_ok hgo
    obtain rfl : between = here := by injection hat
    cases atEnd with
    | true => cases hmember
    | false =>
      dsimp only at hmember
      rw [if_neg Bool.false_ne_true] at hmember
      obtain ⟨n, behind, hn, hround⟩ := exists_of_bind_eq_ok hmember
      cases hround
      exact .inr ⟨n, rfl, (classMember_enters he hs).advances hn, classMember_shortens he hs hn⟩

/-- The members of a class are read up to its brace: the bound does not run out before. -/
theorem gatherFor_classMemberUntil {bound : List Token} {c after : Cursor} {members : List Node}
    (hbound : c.rest.length ≤ bound.length)
    (h : gatherFor (classMemberUntil expression statement) bound c = .ok members after) :
    ∃ done t, c.rest = done ++ t :: after.rest ∧ t.kind = .symbol .closeBrace := by
  induction bound generalizing c members with
  | nil =>
    obtain ⟨r, between, hround, h⟩ := exists_of_bind_eq_ok h
    obtain ⟨rfl, t, hcut, ht⟩ | ⟨n, -, -, hlt⟩ := classMemberUntil_eq_ok he hs hround
    · cases h
      exact ⟨[], t, hcut, ht⟩
    · exact absurd (Nat.lt_of_lt_of_le hlt hbound) (Nat.not_lt_zero _)
  | cons u bound ih =>
    obtain ⟨r, between, hround, h⟩ := exists_of_bind_eq_ok h
    obtain ⟨rfl, t, hcut, ht⟩ | ⟨n, rfl, ⟨read, hread⟩, hlt⟩ := classMemberUntil_eq_ok he hs hround
    · cases h
      exact ⟨[], t, hcut, ht⟩
    · obtain ⟨ns, behind, hns, h⟩ := exists_of_bind_eq_ok h
      cases h
      obtain ⟨done, t, hcut, ht⟩ := ih (Nat.le_of_lt_succ (Nat.lt_of_lt_of_le hlt hbound)) hns
      exact ⟨read ++ done, t, by rw [← hread, hcut, List.append_assoc], ht⟩

theorem classDeclaration_stopsBehind :
    StopsBehind (.symbol .closeBrace) (classDeclaration expression statement start) := by
  have hmembers : StopsBehind (.symbol .closeBrace)
      (gather (classMemberUntil expression statement)) :=
    fun c _ _ h => gatherFor_classMemberUntil he hs (Nat.le_refl c.rest.length) h
  refine .andThen (expect_enters (e := e)).advances fun _ => ?_
  refine .andThen (identifier_enters (e := e)).advances fun _ => ?_
  refine .andThen current_advances fun _ => .guard ?_
  refine .andThen (expect_enters (e := e)).advances fun _ => ?_
  exact hmembers.close fun _ _ _ _ h => by cases h; rfl

theorem classDeclaration_meets : EndsAlike e (classDeclaration expression statement start) :=
  .behind (classDeclaration_enters he hs).echoes (classDeclaration_stopsBehind he hs) nofun

theorem modifiedClass_meets : EndsAlike e (modifiedClass expression statement start) :=
  .behind (classModifiers_echoes.bind fun _ => (classDeclaration_enters he hs).echoes)
    (.andThen (classModifiers_echoes (e := e)).advances fun _ =>
      classDeclaration_stopsBehind he hs) nofun

end

/-! ## Branches -/

/-- The last of some statements is one that a closing tag does not end. -/
def LastNeedsSemicolon (ns : List Node) : Prop := ∃ n ∈ ns.getLast?, n.NeedsSemicolon

/-- The trees are the same up to the places, and there is one. -/
def SameTrees (ns ms : List Node) : Prop := ns ≠ [] ∧ ms.map Node.bare = ns.map Node.bare

/-- The parser of the branches that follow a statement: it reads at least one token or finds
    no branch, whatever the cursor is like besides its tokens. -/
structure Trails (e : Ending) (q : Parser (List Node)) : Prop where
  advances : Advances q
  at_ : ∀ ts, MeetsAt e LastNeedsSemicolon SameTrees q ts
  moves : ∀ ⦃c ns after⦄, q c = .ok ns after → after.rest.length < c.rest.length ∨
    ns = [] ∧ after = c ∧ ∀ c' : Cursor, c'.rest = c.rest → q c' = .ok [] c'

theorem Trails.nil : Trails e (pure []) where
  advances := (Echoes.pure (e := e)).advances
  at_ ts _ _ _ _ h := by
    cases h
    exact .before rfl rfl
  moves c ns after h := by
    cases h
    exact .inr ⟨rfl, rfl, fun _ _ => rfl⟩

/-- A statement with the branches after it. -/
theorem Meets.trailed {p : Parser Node} {q : Parser (List Node)}
    (hp : EndsAlike e p) (hq : Trails e q) :
    Meets e LastNeedsSemicolon SameTrees (p >>= fun n => q >>= fun ns => pure (n :: ns)) where
  advances := hp.advances.bind fun _ => hq.advances.bind fun _ => (Echoes.pure (e := e)).advances
  at_ ts lastStop depth l after h := by
    obtain ⟨n, between, hpn, h⟩ := exists_of_bind_eq_ok h
    obtain ⟨ns, after, hqn, h⟩ := exists_of_bind_eq_ok h
    cases h
    cases hp.at_ ts hpn with
    | beyond hlt => exact .beyond (Nat.lt_of_le_of_lt (hq.advances hqn).length_le hlt)
    | before hbetween hrun =>
      subst hbetween
      rw [bind_of_ok hrun]
      cases hq.at_ _ hqn with
      | beyond hlt => exact .beyond hlt
      | before hafter hrun' =>
        subst hafter
        exact .before rfl (by rw [bind_of_ok hrun']; rfl)
      | same hrest hne hrun' hrest' hab =>
        obtain ⟨hnil, hbare⟩ := hab
        obtain ⟨m, ms, rfl⟩ := List.exists_cons_of_ne_nil hnil
        refine .same hrest ?_ (by rw [bind_of_ok hrun']; rfl) hrest' ⟨by simp, ?_⟩
        · rwa [LastNeedsSemicolon, List.getLast?_cons_cons]
        · rw [List.map_cons, List.map_cons, hbare]
      | apart hrest hlast hrun' =>
        refine .apart hrest ?_ fun l' after' h' => ?_
        · obtain ⟨m, hm, hneeds⟩ := hlast
          exact ⟨m, by rw [List.getLast?_cons, Option.mem_def.1 hm]; rfl, hneeds⟩
        · obtain ⟨ms, between', hms, h'⟩ := exists_of_bind_eq_ok h'
          cases h'
          exact hrun' hms
    | @same m after' hrest hne hrun hrest' hab =>
      -- The same tokens follow in both runs, so they find a branch or none alike.
      rcases hq.moves hqn with hlt | ⟨rfl, rfl, hstill⟩
      · exact .beyond (hrest ▸ hlt)
      · have hrun' : (p >>= fun n => q >>= fun ns => pure (n :: ns)) (e.withTag ts lastStop depth) =
            .ok [m] after' := by
          rw [bind_of_ok hrun, bind_of_ok (hstill _ (hrest'.trans hrest.symm))]
          rfl
        refine .same hrest ?_ hrun' hrest' ⟨by simp, congrArg (· :: []) hab⟩
        rintro ⟨_, hlast, hneeds⟩
        cases hlast
        exact hne hneeds
    | apart hrest hneeds hrun =>
      rcases hq.moves hqn with hlt | ⟨rfl, rfl, -⟩
      · exact .beyond (hrest ▸ hlt)
      · refine .apart hrest ⟨n, rfl, hneeds⟩ fun l' after' h' => ?_
        obtain ⟨m, between', hm, h'⟩ := exists_of_bind_eq_ok h'
        obtain ⟨ms, after'', hms, h'⟩ := exists_of_bind_eq_ok h'
        cases h'
        exact Nat.lt_of_le_of_lt (hq.advances hms).length_le (hrun hm)

theorem needsSemicolon_of_last {kind : String} {children ns : List Node} {s : Span}
    (hkind : Node.isBranching kind) (h : LastNeedsSemicolon ns) :
    (Node.other kind (children ++ ns) s).NeedsSemicolon := by
  obtain ⟨n, hn, hneeds⟩ := h
  refine (Node.needsSemicolon_branching_iff hkind ?_).2 hneeds
  rw [List.getLast?_append, Option.mem_def.1 hn]
  rfl

theorem not_needsSemicolon_of_last {kind : String} {children ns : List Node} {s : Span}
    (hkind : Node.isBranching kind) (hnil : ns ≠ []) (h : ¬LastNeedsSemicolon ns) :
    ¬(Node.other kind (children ++ ns) s).NeedsSemicolon := by
  intro hneeds
  have hlast := List.getLast?_eq_some_getLast hnil
  refine h ⟨ns.getLast hnil, hlast, (Node.needsSemicolon_branching_iff hkind ?_).1 hneeds⟩
  rw [List.getLast?_append, hlast]
  rfl

/-- A condition ends with the last of its branches. -/
theorem Meets.branching {kind : String} (hkind : Node.isBranching kind) {children : List Node}
    {p : Parser (List Node)} (hp : Meets e LastNeedsSemicolon SameTrees p) :
    EndsAlike e (p >>= fun ns => other kind (children ++ ns) start) :=
  .close hp (fun _ _ => needsSemicolon_of_last hkind) fun ns ms s s' hne ⟨hnil, hbare⟩ =>
    ⟨not_needsSemicolon_of_last hkind hnil hne, by simp [SameTree, hbare]⟩

/-- A branch with one statement. -/
theorem Meets.branch {kind : String} (hkind : Node.isBranching kind) (children : List Node)
    {p : Parser Node} (hp : EndsAlike e p) :
    EndsAlike e (p >>= fun n => other kind (children ++ [n]) start) := by
  have h : EndsAlike e ((p >>= fun n => pure [] >>= fun ns =>
      pure (n :: ns)) >>= fun ns => other kind (children ++ ns) start) :=
    (hp.trailed .nil).branching hkind
  simpa only [bind_assoc, pure_bind] using h

section

variable (hs' : EndsAlike e statement)

include he in
theorem condition_stopsBehind : StopsBehind (.symbol .closeParen) (condition expression) :=
  .andThen (expect_enters (e := e)).advances fun _ => .andThen he.advances fun _ =>
    .close (expect_stopsBehind _ nofun) fun _ _ _ _ h => by cases h; rfl

include hs' in
theorem elseStatement_meets : EndsAlike e
    (statement >>= fun body => other "Stmt_Else" [body] start) :=
  .branch rfl [] hs'

include he hs' in
theorem elseIfStatement_meets : EndsAlike e
    (condition expression >>= fun test => statement >>= fun body =>
      other "Stmt_ElseIf" [test, body] start) :=
  .andThen (condition_enters he).echoes (condition_stopsBehind he) nofun fun test =>
    .branch rfl [test] hs'

/-- What is read at the word that begins a further branch. -/
theorem branch_of_elseIf {t : Token} {rest : List Token} {lastStop depth : Nat}
    (ht : t.kind = .keyword .elseIfKw) :
    branch expression statement ⟨t :: rest, lastStop, depth⟩ =
      ((condition expression >>= fun test => statement >>= fun body =>
        other "Stmt_ElseIf" [test, body] t.span) >>= fun n => pure (.more n))
        ⟨rest, t.span.stop, depth⟩ := by
  obtain ⟨kind, span, text⟩ := t
  cases ht
  simp only [bind_assoc]
  rfl

theorem branch_of_else {t : Token} {rest : List Token} {lastStop depth : Nat}
    (ht : t.kind = .keyword .elseKw) :
    branch expression statement ⟨t :: rest, lastStop, depth⟩ =
      ((statement >>= fun body => other "Stmt_Else" [body] t.span) >>= fun n => pure (.last n))
        ⟨rest, t.span.stop, depth⟩ := by
  obtain ⟨kind, span, text⟩ := t
  cases ht
  simp only [bind_assoc]
  rfl

theorem branch_of_ne {c : Cursor} (helseIf : c.current.kind ≠ .keyword .elseIfKw)
    (helse : c.current.kind ≠ .keyword .elseKw) :
    branch expression statement c = .ok .stop c := by
  simp [branch, current, accept, isAt, Bind.bind, EStateM.bind, Pure.pure, EStateM.pure, helseIf,
    helse]

/-- What a round of branches goes on with, given how the rest of them is read. -/
def goOn (q : Parser (List Node)) : Round Node → Parser (List Node)
  | .stop => pure []
  | .last n => pure [n]
  | .more n => q >>= fun ns => pure (n :: ns)

section

variable {q : Parser (List Node)} {t : Token} {rest : List Token} {lastStop depth : Nat}

theorem round_of_elseIf (ht : t.kind = .keyword .elseIfKw) :
    (branch expression statement >>= goOn q) ⟨t :: rest, lastStop, depth⟩ =
      ((condition expression >>= fun test => statement >>= fun body =>
        other "Stmt_ElseIf" [test, body] t.span) >>= fun n => q >>= fun ns => pure (n :: ns))
        ⟨rest, t.span.stop, depth⟩ := by
  rw [bind_congr_at (branch_of_elseIf ht)]
  simp only [bind_assoc, pure_bind]
  rfl

theorem round_of_else (ht : t.kind = .keyword .elseKw) :
    (branch expression statement >>= goOn q) ⟨t :: rest, lastStop, depth⟩ =
      ((statement >>= fun body => other "Stmt_Else" [body] t.span) >>= fun n => pure [] >>=
        fun ns => pure (n :: ns)) ⟨rest, t.span.stop, depth⟩ := by
  rw [bind_congr_at (branch_of_else ht)]
  simp only [bind_assoc, pure_bind]
  rfl

theorem round_of_ne {c : Cursor} (helseIf : c.current.kind ≠ .keyword .elseIfKw)
    (helse : c.current.kind ≠ .keyword .elseKw) :
    (branch expression statement >>= goOn q) c = .ok [] c := by
  rw [bind_of_ok (branch_of_ne helseIf helse)]
  rfl

include he hs' in
/-- Which branch comes, if any, is told by the token at the cursor. -/
theorem round_meetsAt (hq : Trails e q) (ts : List Token) :
    MeetsAt e LastNeedsSemicolon SameTrees (branch expression statement >>= goOn q) ts := by
  intro lastStop depth ns after h
  cases ts with
  | nil =>
    cases (round_of_ne (c := e.withSemicolon [] lastStop depth) nofun nofun).symm.trans h
    exact .before rfl (round_of_ne (c := e.withTag [] lastStop depth) nofun nofun)
  | cons t us =>
    by_cases helseIf : t.kind = .keyword .elseIfKw
    · rw [Ending.withTag, List.cons_append, round_of_elseIf helseIf]
      have htail := (round_of_elseIf helseIf).symm.trans h
      exact ((elseIfStatement_meets he hs').trailed hq).at_ us htail
    · by_cases helse : t.kind = .keyword .elseKw
      · rw [Ending.withTag, List.cons_append, round_of_else helse]
        have htail := (round_of_else helse).symm.trans h
        exact ((elseStatement_meets hs').trailed .nil).at_ us htail
      · cases (round_of_ne (c := e.withSemicolon (t :: us) _ _) helseIf helse).symm.trans h
        exact .before rfl (round_of_ne (c := e.withTag (t :: us) lastStop depth) helseIf helse)

include he hs in
theorem round_advances (hq : Advances q) : Advances (branch expression statement >>= goOn q) := by
  refine (branch_echoes he hs).advances.bind fun r => ?_
  cases r with
  | stop => exact (Echoes.pure (e := e)).advances
  | last n => exact (Echoes.pure (e := e)).advances
  | more n => exact hq.bind fun _ => (Echoes.pure (e := e)).advances

include he hs' in
theorem round_shortens {ns : List Node} {after : Cursor} (hq : Trails e q)
    (ht : t.kind = .keyword .elseIfKw ∨ t.kind = .keyword .elseKw)
    (h : (branch expression statement >>= goOn q) ⟨t :: rest, lastStop, depth⟩ = .ok ns after) :
    after.rest.length < (t :: rest).length := by
  rcases ht with ht | ht
  · rw [round_of_elseIf ht] at h
    have hsuffix := ((elseIfStatement_meets he hs').trailed hq).advances h
    exact Nat.lt_succ_of_le hsuffix.length_le
  · rw [round_of_else ht] at h
    have hsuffix := ((elseStatement_meets hs').trailed .nil).advances h
    exact Nat.lt_succ_of_le hsuffix.length_le

include he hs hs'

theorem Trails.round (hq : Trails e q) : Trails e (branch expression statement >>= goOn q) where
  advances := round_advances he hs hq.advances
  at_ := round_meetsAt he hs' hq
  moves c ns after h := by
    obtain ⟨rest, lastStop, depth⟩ := c
    by_cases hword : (rest.headD ⟨.endOfFile, .unknown, ""⟩).kind = .keyword .elseIfKw ∨
        (rest.headD ⟨.endOfFile, .unknown, ""⟩).kind = .keyword .elseKw
    · cases rest with
      | nil => rcases hword with hword | hword <;> cases hword
      | cons t rest => exact .inl (round_shortens he hs' hq hword h)
    · obtain ⟨helseIf, helse⟩ := not_or.1 hword
      have hnone (c' : Cursor) (hc' : c'.rest = rest) :
          (branch expression statement >>= goOn q) c' = .ok [] c' := by
        cases hc'
        exact round_of_ne (c := c') helseIf helse
      cases (hnone _ rfl).symm.trans h
      exact .inr ⟨rfl, rfl, hnone⟩

theorem gatherFor_branch_trails (bound : List Token) :
    Trails e (gatherFor (branch expression statement) bound) := by
  induction bound with
  | nil =>
    have hround : gatherFor (branch expression statement) [] =
        branch expression statement >>= goOn (pure []) := by
      refine bind_congr fun r => ?_
      cases r <;> rfl
    rw [hround]
    exact Trails.nil.round he hs hs'
  | cons t bound ih =>
    have hround : gatherFor (branch expression statement) (t :: bound) =
        branch expression statement >>= goOn (gatherFor (branch expression statement) bound) := by
      refine bind_congr fun r => ?_
      cases r <;> rfl
    rw [hround]
    exact ih.round he hs hs'

theorem gather_branch_trails : Trails e (gather (branch expression statement)) where
  advances := (gather_echoes (branch_echoes he hs)).advances
  at_ ts lastStop depth ns after h := by
    rw [gather_withTag]
    exact (gatherFor_branch_trails he hs hs' _).at_ ts h
  moves c ns after h := by
    rcases (gatherFor_branch_trails he hs hs' c.rest).moves h with hlt | ⟨hns, hafter, hstill⟩
    · exact .inl hlt
    · refine .inr ⟨hns, hafter, fun c' hc' => ?_⟩
      rw [gather, hc']
      exact hstill c' hc'

theorem conditional_meets : EndsAlike e (conditional expression statement) := by
  have htail {start : Span} (test : Node) : EndsAlike e
      ((statement >>= fun body => gather (branch expression statement) >>= fun branches =>
        pure (body :: branches)) >>= fun ns => other "Stmt_If" ([test] ++ ns) start) :=
    (hs'.trailed (gather_branch_trails he hs hs')).branching rfl
  refine .andThen expect_enters.echoes (expect_stopsBehind _ nofun) nofun fun t => ?_
  refine .andThen (condition_enters he).echoes (condition_stopsBehind he) nofun fun test => ?_
  simpa only [bind_assoc, pure_bind, List.cons_append, List.nil_append] using htail test

end

end

/-! ## Statements -/

theorem advance_meetsAt {kind : String} {t : Token} {ts : List Token} (ht : t.kind ≠ .endOfFile) :
    MeetsAt e S R (advance >>= fun _ => other kind [] start) (t :: ts) := by
  intro lastStop depth a after h
  have hadvance (rest : List Token) : advance ⟨t :: rest, lastStop, depth⟩ =
      .ok t ⟨rest, t.span.stop, depth⟩ := by
    simp [advance, Cursor.current, ht]
  rw [Ending.withSemicolon, List.cons_append, bind_of_ok (hadvance _)] at h
  cases h
  rw [Ending.withTag, List.cons_append, bind_of_ok (hadvance _)]
  exact .before rfl rfl

include he hs in
theorem statementBody_meets (hs' : EndsAlike e statement) :
    EndsAlike e (statementBody expression statement) where
  advances := (statementBody_enters he hs).advances
  at_ ts := by
    cases ts with
    | nil =>
      intro lastStop depth n after h
      cases h
      -- The semicolon is a statement of its own, and the tag begins an expression.
      refine .apart rfl (.inl .here) fun m after' h' => ?_
      have hrun : expressionStatement expression e.tagSpan (e.withTag [] lastStop depth) =
        .ok m after' := h'
      obtain ⟨expr, between, hexpr, hend⟩ := exists_of_bind_eq_ok hrun
      have hpassed := he.passes (t := e.tag) rfl rfl hexpr
      obtain ⟨_, ended, hended, hspan⟩ := exists_of_bind_eq_ok hend
      cases hspan
      exact Nat.lt_of_lt_of_le (terminator_shortens hended) hpassed.length_le
    | cons t ts =>
      refine .peek ?_
      dsimp only
      split
      · next ht => exact advance_meetsAt (by rw [ht]; nofun)
      · next ht => exact advance_meetsAt (by rw [ht]; nofun)
      · exact (blockStatement_meets hs).at_ _
      · exact (returnStatement_concludes he).meets.at_ _
      · exact (echoStatement_concludes he).meets.at_ _
      · exact (conditional_meets he hs hs').at_ _
      · exact useStatement_concludes.meets.at_ _
      · exact declareStatement_concludes.meets.at_ _
      · exact .peekFollowing rfl fun kind => by
          split
          · exact functionDeclaration_meets hs
          · exact (expressionStatement_concludes he).meets
      · exact (classDeclaration_meets he hs).at_ _
      all_goals first
        | exact (modifiedClass_meets he hs).at_ _
        | exact Meets.complain.at_ _
        | exact (expressionStatement_concludes he).meets.at_ _

end

/-! ## Levels -/

theorem Grammar.ofLevels_statement_meets (levels : Nat) :
    EndsAlike e (ofLevels levels).statement := by
  induction levels with
  | zero => exact ⟨(Enters.tooDeep (e := e)).advances, fun _ _ _ _ _ h => by cases h⟩
  | succ levels ih =>
    have hg := ofLevels_echoes e levels
    exact .within (statementBody_meets hg.expression hg.statement ih)

/-- A closing tag ends the statements that a semicolon ends, but for empty statements and
    imports, and those that end in one. -/
theorem statement_closeTag_iff {semicolon tag : Token} {ts rest : List Token}
    {lastStop depth : Nat} {n : Node} {after : Cursor}
    (hsemicolon : semicolon.kind = .symbol .semicolon) (htag : tag.kind = .symbol .closeTag)
    (hn : statement ⟨ts ++ semicolon :: rest, lastStop, depth⟩ = .ok n after)
    (hafter : after.rest = rest) :
    (∃ m after', statement ⟨ts ++ tag :: rest, lastStop, depth⟩ = .ok m after' ∧
      after'.rest = rest ∧ m.bare = n.bare) ↔
      ¬n.EndsIn "Stmt_Nop" ∧ ¬n.EndsIn "Stmt_Use" := by
  obtain ⟨_, semicolonSpan, semicolonText⟩ := semicolon
  obtain ⟨_, tagSpan, tagText⟩ := tag
  cases hsemicolon
  cases htag
  have hmeets := (Grammar.ofLevels_statement_meets (maxDepth - depth)).at_
    (e := ⟨semicolonSpan, semicolonText, tagSpan, tagText, rest⟩) ts hn
  rw [← not_or]
  cases hmeets with
  | beyond hlt => exact absurd hlt (by rw [hafter]; exact Nat.lt_irrefl _)
  | before hbefore _ =>
    have hlen := congrArg (fun c => c.rest.length) hbefore
    simp [Ending.withSemicolon, hafter] at hlen
    omega
  | same hrest hne hrun hrest' hab => exact ⟨fun _ => hne, fun _ => ⟨_, _, hrun, hrest', hab⟩⟩
  | apart hrest hneeds hrun =>
    refine ⟨?_, fun hne => absurd hneeds hne⟩
    rintro ⟨m, after', hm, hrest', -⟩
    exact absurd (hrun hm) (by rw [hrest']; exact Nat.lt_irrefl _)

/-- The tokens of `if ($a) return`. -/
def conditionalReturn : List Token :=
  [⟨.keyword .ifKw, ⟨6, 8⟩, "if"⟩, ⟨.symbol .openParen, ⟨9, 10⟩, "("⟩,
    ⟨.varName, ⟨10, 12⟩, "$a"⟩, ⟨.symbol .closeParen, ⟨12, 13⟩, ")"⟩,
    ⟨.keyword .returnKw, ⟨14, 20⟩, "return"⟩]

/-- A condition on `$a` with an empty return in it, read up to the end of the file. -/
def isConditionalReturn : EStateM.Result ParseError Cursor Node → Bool
  | .ok (.other "Stmt_If" [.var "a" _, .returns none _] _) ⟨[⟨.endOfFile, ⟨23, 23⟩, ""⟩], _, _⟩ =>
    true
  | _ => false

theorem conditionalReturn_closeTag :
    ∃ m after, statement ⟨conditionalReturn ++ ⟨.symbol .closeTag, ⟨21, 23⟩, "?>"⟩ ::
        [⟨.endOfFile, ⟨23, 23⟩, ""⟩], 0, 0⟩ = .ok m after ∧
      after.rest = [⟨.endOfFile, ⟨23, 23⟩, ""⟩] ∧
      m.bare = .other "Stmt_If" [.var "a" .unknown, .returns none .unknown] .unknown := by
  have hcheck : isConditionalReturn (statement ⟨conditionalReturn ++
      ⟨.symbol .semicolon, ⟨20, 21⟩, ";"⟩ :: [⟨.endOfFile, ⟨23, 23⟩, ""⟩], 0, 0⟩) := by
    decide +kernel
  unfold isConditionalReturn at hcheck
  split at hcheck
  · next s₁ s₂ s₃ _ _ hn =>
    have hlast (kind : String) (hkind : Node.isBranching kind = false) :
        ¬(Node.other "Stmt_If" [.var "a" s₁, .returns none s₂] s₃).EndsIn kind := by
      rw [Node.endsIn_branching_iff rfl hkind rfl]
      nofun
    have htag : Token.kind ⟨.symbol .closeTag, ⟨21, 23⟩, "?>"⟩ = .symbol .closeTag := rfl
    obtain ⟨m, after, hm, hrest, hbare⟩ :=
      (statement_closeTag_iff rfl htag hn rfl).2 ⟨hlast _ rfl, hlast _ rfl⟩
    exact ⟨m, after, hm, hrest, by simpa using hbare⟩
  · cases hcheck

/-- The tokens of `use A`. -/
def importOfA : List Token :=
  [⟨.keyword .useKw, ⟨6, 9⟩, "use"⟩, ⟨.identifier, ⟨10, 11⟩, "A"⟩]

/-- Not every statement that a semicolon ends is ended by a closing tag, also where the semicolon
    is no statement of its own: an import goes on. -/
theorem not_always_closeTag :
    ¬∀ (semicolon tag : Token) (ts rest : List Token) (lastStop depth : Nat) (n : Node)
      (after : Cursor), semicolon.kind = .symbol .semicolon → tag.kind = .symbol .closeTag →
      statement ⟨ts ++ semicolon :: rest, lastStop, depth⟩ = .ok n after → after.rest = rest →
      ¬n.EndsIn "Stmt_Nop" →
      ∃ m after', statement ⟨ts ++ tag :: rest, lastStop, depth⟩ = .ok m after' ∧
        after'.rest = rest ∧ m.bare = n.bare := by
  intro h
  let eof : Token := ⟨.endOfFile, ⟨14, 14⟩, ""⟩
  have hn : statement ⟨importOfA ++ ⟨.symbol .semicolon, ⟨11, 12⟩, ";"⟩ :: [eof], 0, 0⟩ =
    .ok (.other "Stmt_Use" [] ⟨6, 12⟩) ⟨[eof], 12, 0⟩ := rfl
  have herror : statement ⟨importOfA ++ ⟨.symbol .closeTag, ⟨12, 14⟩, "?>"⟩ :: [eof], 0, 0⟩ =
    .error (.unexpected (.expectedToken (.symbol .semicolon)) eof) ⟨[eof], 14, 0⟩ := rfl
  obtain ⟨m, after, hm, -⟩ := h _ ⟨.symbol .closeTag, ⟨12, 14⟩, "?>"⟩ _ _ _ _ _ _ rfl rfl hn rfl
    (Node.not_endsIn (by decide) rfl)
  cases herror.symm.trans hm

end Parse

end PhpScript
