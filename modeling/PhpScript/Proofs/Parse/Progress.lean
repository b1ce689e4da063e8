import PhpScript.Parse.Grammar
import PhpScript.Proofs.Parse.Lockstep

/-!
# Parsers go forward

A parser takes tokens off the front of those that are left, and never the end of the file.
`Moves` says so, also of a parser that fails, and with it two things that parsing ends by:

* for which results a token has been read, as a loop needs it to come to an end
  (`Round.GoesOn`);
* how many tokens are left at least where a level is refused, as each level of a grammar
  takes a token.

It goes through the combinators of the cursor, and then through the parsers of names and
expressions.
-/

namespace PhpScript

/-! ## The way of the cursor -/

/-- The tokens between two cursors, none of which is the end of the file. -/
def Cursor.Passes (c : Cursor) (ts : List Token) (d : Cursor) : Prop :=
  c.rest = ts ++ d.rest ∧ ∀ t ∈ ts, t.kind ≠ .endOfFile

namespace Cursor.Passes

variable {c d e : Cursor} {ts us : List Token}

theorem stay (h : c.rest = d.rest) : c.Passes [] d := ⟨h, List.forall_mem_nil _⟩

theorem trans (hcd : c.Passes ts d) (hde : d.Passes us e) : c.Passes (ts ++ us) e :=
  ⟨by rw [hcd.1, hde.1, List.append_assoc], List.forall_mem_append.2 ⟨hcd.2, hde.2⟩⟩

theorem next (h : c.current.kind ≠ .endOfFile) : c.Passes [c.current] c.next := by
  refine ⟨?_, List.forall_mem_singleton.2 h⟩
  cases hrest : c.rest with
  | nil => simp [Cursor.current, hrest] at h
  | cons t rest => simp [Cursor.current, Cursor.next, hrest]

theorem length_eq (h : c.Passes ts d) : c.rest.length = ts.length + d.rest.length := by
  rw [h.1, List.length_append]

/-- Up to the end of the file these are all the tokens there are. -/
theorem eq_takeWhile (h : c.Passes ts d) (hend : d.current.kind = .endOfFile) :
    ts = c.rest.takeWhile (·.kind != .endOfFile) := by
  have hrest : d.rest.takeWhile (·.kind != .endOfFile) = [] := by
    cases hd : d.rest with
    | nil => rfl
    | cons t rest =>
      have hkind : t.kind = .endOfFile := by simpa [Cursor.current, hd] using hend
      simp [hkind]
  rw [h.1, List.takeWhile_append_of_pos (by simpa using h.2), hrest, List.append_nil]

end Cursor.Passes

/-- The tokens left end with the end of the file. -/
def Cursor.IsClosed (c : Cursor) : Prop :=
  ∃ before last, c.rest = before ++ [last] ∧ last.kind = .endOfFile

/-- The end of the file is not passed. -/
theorem Cursor.IsClosed.of_passes {c d : Cursor} {ts : List Token} (hc : c.IsClosed)
    (h : c.Passes ts d) : d.IsClosed := by
  obtain ⟨before, last, hrest, hlast⟩ := hc
  rw [h.1] at hrest
  obtain hnil | ⟨rest, t, hcut⟩ := List.eq_nil_or_concat d.rest
  · have hmem : last ∈ ts := by
      rw [hnil, List.append_nil] at hrest
      simp [hrest]
    exact absurd hlast (h.2 last hmem)
  · rw [List.concat_eq_append] at hcut
    rw [hcut, ← List.append_assoc] at hrest
    obtain ⟨-, hlasts⟩ := List.append_inj' hrest rfl
    cases hlasts
    exact ⟨rest, last, hcut, hlast⟩

/-! ## The judgement -/

namespace Parse

/-- There may be another round. -/
def Round.GoesOn : Round α → Prop
  | .more _ => True
  | _ => False

/-- Whatever the result is. -/
abbrev always : α → Prop := fun _ => True

/-- For no result. -/
abbrev never : α → Prop := fun _ => False

/-- From the cursor the parser only goes forward. It has read a token if the result is one of
    `reads`, and where it refuses a level there are at least `room` tokens. -/
structure MovesFrom (c : Cursor) (room : Nat) (reads : α → Prop) (p : Parser α) : Prop where
  ok : ∀ {a d}, p c = .ok a d → ∃ ts, c.Passes ts d ∧ (reads a → ts ≠ [])
  error : ∀ {e d}, p c = .error e d →
    (∃ ts, c.Passes ts d) ∧ ∀ s, e = .tooDeep s → room ≤ c.rest.length

/-- The parser goes forward from everywhere. -/
def Moves (room : Nat) (reads : α → Prop) (p : Parser α) : Prop := ∀ c, MovesFrom c room reads p

section

variable {c : Cursor} {room room' : Nat} {p q : Parser α} {f : α → Parser β} {reads : α → Prop}
  {reads' : β → Prop}

namespace MovesFrom

/-- A parser that ends well where it stands. -/
theorem of_ok {a₀ : α} {d₀ : Cursor} (hp : p c = .ok a₀ d₀) (hrest : c.rest = d₀.rest)
    (hreads : ¬reads a₀) : MovesFrom c room reads p where
  ok h := by
    cases hp.symm.trans h
    exact ⟨[], .stay hrest, fun ha => absurd ha hreads⟩
  error h := by cases hp.symm.trans h

/-- A parser that fails where it stands. -/
theorem of_error {e₀ : ParseError} {d₀ : Cursor} (hp : p c = .error e₀ d₀)
    (hrest : c.rest = d₀.rest) (hdeep : ∀ s, e₀ = .tooDeep s → room ≤ c.rest.length) :
    MovesFrom c room reads p where
  ok h := by cases hp.symm.trans h
  error h := by
    cases hp.symm.trans h
    exact ⟨⟨[], .stay hrest⟩, hdeep⟩

theorem pureOf {a : α} (h : ¬reads a) : MovesFrom c room reads (Pure.pure a) := .of_ok rfl rfl h

theorem pure {a : α} : MovesFrom c room never (Pure.pure a) := .pureOf id

theorem throw {error : ParseError} (h : ∀ s, error ≠ .tooDeep s) :
    MovesFrom c room reads (throw error : Parser α) :=
  .of_error rfl rfl fun s hs => absurd hs (h s)

theorem complain {complaint : Complaint} :
    MovesFrom c room reads (Parse.complain complaint : Parser α) :=
  .of_error rfl rfl (by simp)

theorem tooDeep : MovesFrom c 0 reads (Parse.tooDeep : Parser α) :=
  .of_error rfl rfl fun _ _ => Nat.zero_le _

theorem mono {reads₀ : α → Prop} (h : MovesFrom c room' reads₀ p) (hroom : room ≤ room')
    (hreads : ∀ a, reads a → reads₀ a) : MovesFrom c room reads p where
  ok hp := by
    obtain ⟨ts, hts, hne⟩ := h.ok hp
    exact ⟨ts, hts, fun ha => hne (hreads _ ha)⟩
  error hp := ⟨(h.error hp).1, fun s hs => Nat.le_trans hroom ((h.error hp).2 s hs)⟩

/-- What comes after may have read a token already, and then it needs less room. -/
theorem andThen {reads₀ : α → Prop} (hp : MovesFrom c room reads₀ p)
    (hf : ∀ a d ts, c.Passes ts d → (reads₀ a → ts ≠ []) →
      MovesFrom d (room - ts.length) (fun b => reads' b ∧ ts = []) (f a)) :
    MovesFrom c room reads' (p >>= f) where
  ok {b e} h := by
    obtain ⟨a, d, hpa, hfa⟩ := exists_of_bind_eq_ok h
    obtain ⟨ts, hts, hne⟩ := hp.ok hpa
    obtain ⟨us, hus, hreads⟩ := (hf a d ts hts hne).ok hfa
    refine ⟨ts ++ us, hts.trans hus, fun hb happend => ?_⟩
    obtain ⟨htsnil, husnil⟩ := List.append_eq_nil_iff.1 happend
    exact hreads ⟨hb, htsnil⟩ husnil
  error {e d} h := by
    simp only [Bind.bind, EStateM.bind] at h
    split at h
    · next a between hpa =>
      obtain ⟨ts, hts, hne⟩ := hp.ok hpa
      obtain ⟨⟨us, hus⟩, hdepth⟩ := (hf a between ts hts hne).error h
      refine ⟨⟨ts ++ us, hts.trans hus⟩, fun s hs => ?_⟩
      have hle := hdepth s hs
      rw [hts.length_eq]
      omega
    · next hpe =>
      cases h
      exact hp.error hpe

/-- What comes after reads a token where one has to be read. -/
theorem bind {reads₀ : α → Prop} (hp : MovesFrom c room reads₀ p)
    (hf : ∀ a, Moves room reads' (f a)) : MovesFrom c room reads' (p >>= f) :=
  hp.andThen fun a d _ _ _ => (hf a d).mono (Nat.sub_le _ _) fun _ h => h.1

/-- The first parser has read a token. -/
theorem next (hp : MovesFrom c room always p) (hf : ∀ a, Moves (room - 1) never (f a)) :
    MovesFrom c room reads' (p >>= f) :=
  hp.andThen fun a d ts _ hne => by
    have hpos := List.length_pos_iff.2 (hne trivial)
    exact (hf a d).mono (by omega) fun _ h => hne trivial h.2

/-- The first parser has read a token if one has to be read. -/
theorem keep {P : Prop} (hp : MovesFrom c room (fun _ => P) p) (hf : ∀ a, Moves room never (f a)) :
    MovesFrom c room (fun _ => P) (p >>= f) :=
  hp.andThen fun a d _ _ hne => (hf a d).mono (Nat.sub_le _ _) fun _ h => hne h.1 h.2

theorem map {g : α → β} (hp : MovesFrom c room reads p) : MovesFrom c room never (g <$> p) := by
  rw [map_eq_pure_bind]
  exact hp.bind fun _ _ => .pure

theorem ite {b : Prop} [Decidable b] (hp : b → MovesFrom c room reads p)
    (hq : ¬b → MovesFrom c room reads q) : MovesFrom c room reads (if b then p else q) := by
  split
  · next h => exact hp h
  · next h => exact hq h

/-- A parser that ends as another one does, with the same tokens left before and after. -/
theorem of_outcomes {d : Cursor} {p' : Parser α} (h : MovesFrom d room reads p)
    (hok : ∀ {a after}, p' c = .ok a after → ∃ d', p d = .ok a d' ∧ d'.rest = after.rest)
    (herror : ∀ {e after}, p' c = .error e after → ∃ d', p d = .error e d' ∧ d'.rest = after.rest)
    (hrest : c.rest = d.rest) : MovesFrom c room reads p' where
  ok hp := by
    obtain ⟨d', hd, hafter⟩ := hok hp
    obtain ⟨ts, hts, hne⟩ := h.ok hd
    exact ⟨ts, ⟨by rw [hrest, ← hafter, hts.1], hts.2⟩, hne⟩
  error hp := by
    obtain ⟨d', hd, hafter⟩ := herror hp
    obtain ⟨⟨ts, hts⟩, hdepth⟩ := h.error hd
    exact ⟨⟨ts, by rw [hrest, ← hafter, hts.1], hts.2⟩, hrest ▸ hdepth⟩

theorem of_run {d : Cursor} {p' : Parser α} (h : MovesFrom d room reads p) (hp : p' c = p d)
    (hrest : c.rest = d.rest) : MovesFrom c room reads p' :=
  h.of_outcomes (fun hrun => ⟨_, hp ▸ hrun, rfl⟩) (fun hrun => ⟨_, hp ▸ hrun, rfl⟩) hrest

/-- A refusal before the rest. -/
theorem guard {b : Prop} [Decidable b] {complaint : Complaint} {k : Unit → Parser α}
    (hk : ¬b → MovesFrom c room reads (k ())) :
    MovesFrom c room reads (if b then Parse.complain complaint >>= k else k ()) :=
  .ite (fun _ => of_run (p := Parse.complain complaint) .complain rfl rfl) hk

/-! ### Tokens -/

theorem peek {g : Token → Parser β} (h : MovesFrom c room reads' (g c.current)) :
    MovesFrom c room reads' (current >>= g) := h.of_run rfl rfl

theorem isAt {kind : TokenKind} {g : Bool → Parser β}
    (h : MovesFrom c room reads' (g (c.current.kind == kind))) :
    MovesFrom c room reads' (isAt kind >>= g) := h.of_run rfl rfl

theorem following {g : TokenKind → Parser β} (h : ∀ kind, MovesFrom c room reads' (g kind)) :
    MovesFrom c room reads' (following >>= g) := (h _).of_run rfl rfl

/-- The depth is not where the cursor is. -/
theorem link {g : Unit → Parser β}
    (h : MovesFrom { c with depth := c.depth + 1 } room reads' (g ())) :
    MovesFrom c room reads' (link >>= g) := h.of_run rfl rfl

theorem advance : MovesFrom c room (fun _ => c.current.kind ≠ .endOfFile) advance where
  ok {t d} h := by
    by_cases hk : c.current.kind = .endOfFile
    · have hstay : c.rest = d.rest := by
        simp only [Parse.advance, hk] at h
        cases h
        rfl
      exact ⟨[], .stay hstay, fun hne => absurd hk hne⟩
    · rw [Cursor.advance_eq hk] at h
      cases h
      exact ⟨[c.current], .next hk, fun _ => List.cons_ne_nil _ _⟩
  error h := by cases h

/-- A token that is not the end of the file is read. -/
theorem advanceOver {reads : Token → Prop} (hk : c.current.kind ≠ .endOfFile) :
    MovesFrom c room reads Parse.advance :=
  advance.mono (Nat.le_refl _) fun _ _ => hk

/-- With a token of the kind at the cursor, it is read. -/
theorem accept {kind : TokenKind} {p q : Parser β} (hkind : kind ≠ .endOfFile)
    (hp : Moves (room - 1) never p) (hq : MovesFrom c room reads' q) :
    MovesFrom c room reads' (accept kind >>= fun b => if b = true then p else q) := by
  by_cases hk : c.current.kind = kind
  · have hread : MovesFrom c room always Parse.advance := advanceOver (hk ▸ hkind)
    refine (hread.next fun _ => hp).of_run ?_ rfl
    simp [Parse.accept, Parse.isAt, Bind.bind, EStateM.bind, Pure.pure, EStateM.pure, hk,
      Parse.advance]
  · refine hq.of_run ?_ rfl
    simp [Parse.accept, Parse.isAt, Bind.bind, EStateM.bind, Pure.pure, EStateM.pure, hk]

theorem expect {kind : TokenKind} {g : Token → Parser β} (hkind : kind ≠ .endOfFile)
    (hg : ∀ t, Moves (room - 1) never (g t)) : MovesFrom c room reads' (expect kind >>= g) := by
  have hread : MovesFrom c room always (Parse.expect kind) :=
    .isAt <| .ite (fun h => .advanceOver (eq_of_beq h ▸ hkind)) fun _ => .complain
  exact hread.next hg

/-- The link after an operator, if one is at the cursor. -/
theorem operatorFrom? {least : Nat} {g : Option (TokenKind × Nat × String) → Parser β}
    (hsome : ∀ operator, c.current.kind ≠ .endOfFile →
      MovesFrom c room reads' (g (some operator)))
    (hnone : MovesFrom c room reads' (g none)) :
    MovesFrom c room reads' (Grammar.operatorFrom? least >>= g) := by
  have hrun : ∀ operator, Grammar.operatorFrom? least c = .ok operator c →
      (Grammar.operatorFrom? least >>= g) c = g operator c := fun _ h => bind_of_ok h
  cases hkind : binaryOperator? c.current.kind with
  | none =>
    refine hnone.of_run (hrun none ?_) rfl
    simp [Grammar.operatorFrom?, current, Bind.bind, EStateM.bind, Pure.pure, EStateM.pure, hkind]
  | some operator =>
    have hne : c.current.kind ≠ .endOfFile := fun h => by simp [h, binaryOperator?] at hkind
    by_cases hle : least ≤ operator.1
    · refine (hsome (c.current.kind, operator) hne).of_run (hrun _ ?_) rfl
      simp [Grammar.operatorFrom?, current, Bind.bind, EStateM.bind, Pure.pure, EStateM.pure, hkind,
        hle]
    · refine hnone.of_run (hrun none ?_) rfl
      simp [Grammar.operatorFrom?, current, Bind.bind, EStateM.bind, Pure.pure, EStateM.pure, hkind,
        hle]

end MovesFrom

namespace Moves

theorem pure {a : α} : Moves room never (Pure.pure a) := fun _ => .pure

theorem stop : Moves room Round.GoesOn (Pure.pure (Round.stop : Round α)) := fun _ => .pureOf id

theorem last {a : α} : Moves room Round.GoesOn (Pure.pure (Round.last a)) := fun _ => .pureOf id

theorem complain {complaint : Complaint} :
    Moves room reads (Parse.complain complaint : Parser α) := fun _ => .complain

theorem bind {reads₀ : α → Prop} (hp : Moves room reads₀ p) (hf : ∀ a, Moves room reads' (f a)) :
    Moves room reads' (p >>= f) := fun c => (hp c).bind hf

theorem next (hp : Moves room always p) (hf : ∀ a, Moves (room - 1) never (f a)) :
    Moves room reads' (p >>= f) := fun c => (hp c).next hf

theorem map {g : α → β} (hp : Moves room reads p) : Moves room never (g <$> p) :=
  fun c => (hp c).map

theorem ite {b : Prop} [Decidable b] (hp : Moves room reads p) (hq : Moves room reads q) :
    Moves room reads (if b then p else q) := fun c => .ite (fun _ => hp c) fun _ => hq c

theorem guard {b : Prop} [Decidable b] {complaint : Complaint} {k : Unit → Parser α}
    (hk : Moves room reads (k ())) :
    Moves room reads (if b then Parse.complain complaint >>= k else k ()) :=
  fun c => .guard fun _ => hk c

theorem peek {g : Token → Parser β} (h : ∀ c : Cursor, MovesFrom c room reads' (g c.current)) :
    Moves room reads' (current >>= g) := fun c => .peek (h c)

theorem accept {kind : TokenKind} {p q : Parser β} (hkind : kind ≠ .endOfFile)
    (hp : Moves (room - 1) never p) (hq : Moves room reads' q) :
    Moves room reads' (accept kind >>= fun b => if b = true then p else q) :=
  fun c => .accept hkind hp (hq c)

theorem expect {kind : TokenKind} {g : Token → Parser β} (hkind : kind ≠ .endOfFile)
    (hg : ∀ t, Moves (room - 1) never (g t)) : Moves room reads' (expect kind >>= g) :=
  fun _ => .expect hkind hg

/-- What reads a token, or has room for more, goes forward with less. -/
theorem any (h : Moves room' reads p) (hroom : room ≤ room') : Moves room never p :=
  fun c => (h c).mono hroom fun _ => False.elim

theorem withRoom (h : Moves room' reads p) (hroom : room ≤ room') : Moves room reads p :=
  fun c => (h c).mono hroom fun _ => id

theorem within (h : Moves room reads p) : Moves room reads (Parse.within p) := by
  intro c
  refine (h { c with depth := c.depth + 1 }).of_outcomes (fun hrun => ?_) (fun hrun => ?_) rfl
  · obtain ⟨inner, hinner, rfl⟩ := within_eq_ok_iff.1 hrun
    exact ⟨inner, hinner, rfl⟩
  · simp only [Parse.within] at hrun
    split at hrun
    · cases hrun
    · next hinner =>
      cases hrun
      exact ⟨_, hinner, rfl⟩

theorem chain (h : Moves room reads p) : Moves room reads (Parse.chain p) := by
  refine fun c => (h c).of_outcomes (fun hrun => ?_) (fun hrun => ?_) rfl
  · obtain ⟨inner, hinner, rfl⟩ := chain_eq_ok_iff.1 hrun
    exact ⟨inner, hinner, rfl⟩
  · simp only [Parse.chain] at hrun
    split at hrun
    · cases hrun
    · next hinner =>
      cases hrun
      exact ⟨_, hinner, rfl⟩

end Moves

/-! ## Tokens -/

theorem current_moves : Moves room never current := fun _ => .of_ok rfl rfl id

theorem following_moves : Moves room never following := fun _ => .of_ok rfl rfl id

theorem isAt_moves {kind : TokenKind} : Moves room never (isAt kind) := fun _ => .of_ok rfl rfl id

theorem spanFrom_moves {start : Span} : Moves room never (spanFrom start) :=
  fun _ => .of_ok rfl rfl id

theorem link_moves : Moves room never link := fun _ => .of_ok rfl rfl id

theorem advance_moves : Moves room never advance :=
  fun _ => MovesFrom.advance.mono (Nat.le_refl _) fun _ => False.elim

theorem accept_moves {kind : TokenKind} : Moves room never (accept kind) :=
  isAt_moves.bind fun _ => .ite (advance_moves.bind fun _ => .pure) .pure

theorem terminator_moves : Moves room always terminator :=
  .accept (by simp) .pure <| .accept (by simp) .pure .complain

theorem other_moves {kind : String} {children : List Node} {start : Span} :
    Moves room never (other kind children start) :=
  spanFrom_moves.bind fun _ => .pure

/-- A node with the span up to the token read last. -/
theorem spanned_moves {start : Span} {mk : Span → α} :
    Moves room never (spanFrom start >>= fun s => Pure.pure (mk s)) :=
  spanFrom_moves.bind fun _ => .pure

/-! ## Repetition -/

/-- What comes after a round: `goOn`, if there may be another one. -/
def Round.followedBy (goOn : α → Parser (List α)) : Round α → Parser (List α)
  | .stop => return []
  | .last a => return [a]
  | .more a => goOn a

section

variable {step : Parser (Round α)} {reads : Round α → Prop}

theorem gatherFor_nil : gatherFor step [] = step >>= Round.followedBy fun a => return [a] := by
  rw [gatherFor]
  congr 1

theorem gatherFor_cons {t : Token} {bound : List Token} :
    gatherFor step (t :: bound) =
      step >>= Round.followedBy fun a => do return a :: (← gatherFor step bound) := by
  rw [gatherFor]
  congr 1

theorem followedBy_moves {goOn : α → Parser (List α)} (h : ∀ a, Moves room never (goOn a))
    (r : Round α) : Moves room never (r.followedBy goOn) := by
  cases r with
  | stop => exact .pure
  | last a => exact .pure
  | more a => exact h a

theorem gatherFor_moves (h : Moves room reads step) (bound : List Token) :
    Moves room never (gatherFor step bound) := by
  induction bound with
  | nil =>
    rw [gatherFor_nil]
    exact h.bind (followedBy_moves fun _ => .pure)
  | cons t bound ih =>
    rw [gatherFor_cons]
    exact h.bind (followedBy_moves fun _ => ih.bind fun _ => .pure)

theorem gather_moves (h : Moves room reads step) : Moves room never (gather step) :=
  fun c => (gatherFor_moves h c.rest c).of_run rfl rfl

/-- The first round has read a token. -/
theorem gather_reads (h : Moves room always step) : Moves room always (gather step) := by
  have hfor (bound : List Token) : Moves room always (gatherFor step bound) := by
    cases bound with
    | nil =>
      rw [gatherFor_nil]
      exact h.next (followedBy_moves fun _ => .pure)
    | cons t bound =>
      rw [gatherFor_cons]
      exact h.next <| followedBy_moves fun _ =>
        ((gatherFor_moves h bound).any (Nat.sub_le _ _)).bind fun _ => .pure
  exact fun c => (hfor c.rest c).of_run rfl rfl

end

theorem commaItem_moves (h : Moves room reads p) : Moves room Round.GoesOn (commaItem p) :=
  h.bind fun _ => .accept (by simp) .pure .last

theorem commaItem_reads (h : Moves room always p) : Moves room always (commaItem p) :=
  h.next fun _ => accept_moves.bind fun _ => .ite .pure .pure

theorem commaSeparated_moves (h : Moves room always p) : Moves room always (commaSeparated p) :=
  gather_reads (commaItem_reads h)

/-- One round of a list up to a closing mark. -/
def listRound (close : Symbol) (item : Parser α) : Parser (Round α) := do
  if ← isAt (.symbol close) then return .stop else commaItem item

theorem listRound_moves {close : Symbol} (h : Moves room reads p) :
    Moves room Round.GoesOn (listRound close p) :=
  isAt_moves.bind fun _ => .ite .stop (commaItem_moves h)

theorem commaListUntil_moves {close : Symbol} (h : Moves room reads p) :
    Moves room never (commaListUntil close p) :=
  gather_moves (listRound_moves h)

/-- A list between parentheses. -/
theorem parenthesized_moves (h : Moves room reads p) :
    Moves (room + 1) always do
      let _ ← expect (.symbol .openParen)
      let items ← commaListUntil .closeParen p
      let _ ← expect (.symbol .closeParen)
      return items :=
  .expect (by simp) fun _ => (commaListUntil_moves h).bind fun _ => .expect (by simp) fun _ => .pure

theorem operatorFrom?_moves {least : Nat} : Moves room never (Grammar.operatorFrom? least) := by
  refine .peek fun c => ?_
  dsimp only
  split
  · exact .pure
  · exact .pure

end

/-! ## Names, types and parameters -/

section

variable {room : Nat}

theorem identifier_moves : Moves room always identifier :=
  .peek fun _ => .guard fun h =>
    (MovesFrom.advanceOver (ne_endOfFile_of_isIdentifierLike (by simpa using h))).next fun _ =>
      .pure

/-- Each part of a name reads a token. -/
theorem namePart_moves : Moves room always namePart :=
  .peek fun _ => .guard fun h =>
    (MovesFrom.advanceOver (ne_endOfFile_of_isIdentifierLike (by simpa using h))).next fun _ =>
      isAt_moves.bind fun _ => following_moves.bind fun _ =>
        .ite (advance_moves.bind fun _ => .pure) .pure

theorem name_moves : Moves room always name :=
  .peek fun c => (accept_moves c).bind fun _ => (gather_reads namePart_moves).next fun _ =>
    spanned_moves

theorem typePart_moves : Moves room Round.GoesOn typePart := by
  refine .peek fun c => ?_
  split
  · next hkind => exact (MovesFrom.advanceOver (by simp [hkind])).next fun _ => .pure
  iterate 3
    next hkind =>
    refine (MovesFrom.advanceOver (by simp [hkind])).next fun _ => .peek fun c => ?_
    split
    · exact .pure
    · exact (advance_moves c).bind fun _ => .pure
    · exact .following fun _ => .ite (fun _ => .pure) fun _ => (advance_moves c).bind fun _ => .pure
    · exact .pure
  · exact Moves.stop c

theorem skipType_moves : Moves room never skipType :=
  accept_moves.bind fun _ => (gather_moves typePart_moves).bind fun _ => .guard .pure

theorem skipReturnType_moves : Moves room never skipReturnType :=
  .accept (by simp) (skipType_moves.bind fun _ => .ite .complain .pure) .pure

theorem parameter_moves : Moves room always parameter :=
  .peek fun c => .peek <| .guard fun _ => (skipType_moves c).bind fun _ =>
    isAt_moves.bind fun _ => .guard <| isAt_moves.bind fun _ => .guard <|
      Moves.expect (by simp) fun _ => isAt_moves.bind fun _ => .guard spanned_moves

theorem parameterList_moves : Moves room always parameterList :=
  (parenthesized_moves parameter_moves).withRoom (Nat.le_succ _)

theorem refuseByRefReturn_moves : Moves room never refuseByRefReturn :=
  isAt_moves.bind fun _ => .ite .complain .pure

theorem closureBinding_moves : Moves room always closureBinding :=
  isAt_moves.bind fun _ => .guard <| Moves.expect (by simp) fun _ => .pure

theorem closureBindings_moves : Moves room never closureBindings := by
  have hlist : Moves (room + 1) _ _ := parenthesized_moves closureBinding_moves
  exact .accept (by simp) (hlist.any (by omega)) .pure

end

/-! ## Expressions -/

section

variable {room : Nat} {expression : Parser Node} {block : Parser (List Node)} {start : Span}
  (he : Moves room always expression) (hb : Moves room always block)

include he

theorem argument_moves : Moves room always (argument expression) :=
  .peek fun c => .following fun _ => .guard fun _ => .isAt <| .guard fun _ => .peek <|
    (he c).next fun _ => spanned_moves

theorem arguments_moves : Moves (room + 1) always (arguments expression) :=
  parenthesized_moves (argument_moves he)

theorem enclosed_moves {close : Symbol} : Moves room always (enclosed expression close) :=
  he.next fun _ => .expect (by simp) fun _ => .pure

theorem memberName_moves : Moves (room + 1) always (memberName expression) := by
  refine .peek fun c => ?_
  split
  · next hkind => exact (MovesFrom.advanceOver (by simp [hkind])).next fun _ => .pure
  · next hkind =>
    exact (MovesFrom.advanceOver (by simp [hkind])).next fun _ => (enclosed_moves he).any le_rfl
  · exact identifier_moves c

theorem staticAccess_moves {cls : Node} :
    Moves (room + 1) always (staticAccess expression cls start) := fun c =>
  .isAt <| .ite
    (fun h => (MovesFrom.advanceOver (by simp [eq_of_beq h])).next fun _ => other_moves)
    fun _ => (identifier_moves c).next fun _ => isAt_moves.bind fun _ =>
      .ite (((arguments_moves he).any (by omega)).bind fun _ => other_moves) other_moves

/-- A token of an access or of a call is read, if one is at the cursor. -/
theorem postfixLink_moves {base : Node} (c : Cursor) :
    MovesFrom c (room + 1) (fun _ => isPostfix c.current.kind)
      (postfixLink expression base start) := by
  have hargs := arguments_moves he
  have hmember := memberName_moves he
  refine .peek ?_
  split
  · next hkind =>
    exact (MovesFrom.advanceOver (by simp [hkind])).next fun _ =>
      (hmember.withRoom (by omega)).bind fun _ => isAt_moves.bind fun _ =>
        .ite ((hargs.withRoom (by omega)).bind fun _ => spanned_moves) spanned_moves
  · next hkind =>
    exact (MovesFrom.advanceOver (by simp [hkind])).next fun _ =>
      (hmember.withRoom (by omega)).bind fun _ => isAt_moves.bind fun _ =>
        .ite ((hargs.withRoom (by omega)).bind fun _ => other_moves) other_moves
  · next hkind =>
    have hend : ∀ key, Moves room never do
        let _ ← expect (.symbol .closeBracket)
        return Node.index base key (← spanFrom start) :=
      fun _ => .expect (by simp) fun _ => spanned_moves
    exact (MovesFrom.advanceOver (by simp [hkind])).next fun _ => isAt_moves.bind fun _ =>
      .ite (Moves.pure.bind hend) (he.map.bind hend)
  · exact (hargs c).next fun _ => spanned_moves
  · next hkind =>
    exact (MovesFrom.advanceOver (by simp [hkind])).next fun _ =>
      (staticAccess_moves he).any (by omega)
  · exact .pureOf (by simp_all [isPostfix])

theorem constructedClass_moves : Moves (room + 1) always (constructedClass expression) := by
  refine .peek fun c => ?_
  split
  · exact .complain
  · next hkind => exact (MovesFrom.advanceOver (by simp [hkind])).next fun _ => .pure
  · next hkind =>
    exact (MovesFrom.advanceOver (by simp [hkind])).next fun _ => (enclosed_moves he).any le_rfl
  · exact name_moves c

theorem construction_moves : Moves (room + 1) always (construction expression) :=
  .expect (by simp) fun _ => ((constructedClass_moves he).withRoom (by omega)).bind fun _ =>
    isAt_moves.bind fun _ =>
      .ite (((arguments_moves he).withRoom (by omega)).bind fun _ => spanned_moves)
        (Moves.pure.bind fun _ => spanned_moves)

theorem arrayItem_moves : Moves room always (arrayItem expression) :=
  .peek fun c => .isAt <| .guard fun _ => .isAt <| .guard fun _ => (he c).next fun _ =>
    .accept (by simp) ((he.withRoom (by omega)).bind fun _ => spanned_moves) spanned_moves

theorem arraySlot_moves {close : Symbol} :
    Moves room Round.GoesOn (arraySlot expression close) :=
  .accept (by simp) .pure <| .accept (by simp) .pure <| (arrayItem_moves he).next fun _ =>
    .accept (by simp) .pure <| .expect (by simp) fun _ => .pure

theorem arrayLiteral_moves {opening close : Symbol} :
    Moves (room + 1) always (arrayLiteral expression opening close start) :=
  .expect (by simp) fun _ => (gather_moves (arraySlot_moves he)).bind fun _ => spanned_moves

theorem arrowFunction_moves : Moves (room + 1) always (arrowFunction expression start) :=
  .expect (by simp) fun _ => refuseByRefReturn_moves.bind fun _ => parameterList_moves.bind fun _ =>
    skipReturnType_moves.bind fun _ => .expect (by simp) fun _ =>
      (he.withRoom (by omega)).bind fun _ => spanned_moves

omit he in
theorem nameOrConstant_moves : Moves room always (nameOrConstant start) :=
  name_moves.next fun _ => isAt_moves.bind fun _ => isAt_moves.bind fun _ => .ite .pure .pure

include hb

omit he in
theorem closure_moves : Moves (room + 1) always (closure block start) :=
  .expect (by simp) fun _ => refuseByRefReturn_moves.bind fun _ => parameterList_moves.bind fun _ =>
    closureBindings_moves.bind fun _ => skipReturnType_moves.bind fun _ => hb.bind fun _ =>
      spanned_moves

theorem primary_moves : Moves (room + 1) always (primary expression block) := by
  refine .peek fun c => ?_
  dsimp only
  split
  · next hkind => exact (MovesFrom.advanceOver (by simp [hkind])).next fun _ => .pure
  · next hkind =>
    refine (MovesFrom.advanceOver (by simp [hkind])).next fun _ => ?_
    split
    · exact .pure
    · exact fun _ => .throw (by simp)
  · next hkind =>
    refine (MovesFrom.advanceOver (by simp [hkind])).next fun _ => ?_
    split
    · exact .pure
    · exact fun _ => .throw (by simp)
  · next hkind => exact (MovesFrom.advanceOver (by simp [hkind])).next fun _ => .pure
  · next hkind =>
    refine (MovesFrom.advanceOver (by simp [hkind])).next fun _ => ?_
    split
    · exact .pure
    · exact other_moves
  · exact arrayLiteral_moves he c
  · next hkind =>
    exact .following fun _ => .ite
      (fun _ => (MovesFrom.advanceOver (by simp [hkind])).next fun _ =>
        (arrayLiteral_moves he).any (by omega))
      fun _ => .complain
  · next hkind =>
    exact (MovesFrom.advanceOver (by simp [hkind])).next fun _ => (enclosed_moves he).any le_rfl
  · exact construction_moves he c
  · exact arrowFunction_moves he c
  · exact closure_moves hb c
  · next hkind =>
    refine .following fun _ => ?_
    split
    · exact (MovesFrom.advanceOver (by simp [hkind])).next fun _ =>
        (arrowFunction_moves he).any (by omega)
    · exact (MovesFrom.advanceOver (by simp [hkind])).next fun _ =>
        (closure_moves hb).any (by omega)
    · exact nameOrConstant_moves c
  · exact nameOrConstant_moves c
  · exact nameOrConstant_moves c
  · exact .complain

end

end Parse

end PhpScript
