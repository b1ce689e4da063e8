import Mathlib.Data.List.Forall2
import PhpScript.Proofs.Node.Bare
import PhpScript.Proofs.Parse.Occurrence

/-!
# Parsing does not look at places

Two runs of a parser over the same tokens at different places do the same:
both fail, or both read the same tree up to the places of its nodes. What is
said of the places is left open: a `Placing` relates those of the one run to
those of the other, and all it has to allow is that a span is extended to the
end of another one.

`Agrees P R p q` says this of two parsers, with `R` for what they read. It goes
through the combinators of the cursor, so each parser built from them needs one
lemma about its own steps. Here are the combinators, and the parsers for names,
types and parameters.
-/

namespace PhpScript

/-! ## Alike tokens, cursors and trees -/

section

/-- How the places of two runs belong together. -/
structure Placing where
  /-- A span of the one run, and the span of the other that belongs to it. -/
  Rel : Span → Span → Prop
  /-- A span may be extended to the end of another one. -/
  extend : ∀ {s s' t t' : Span}, Rel s s' → Rel t t' →
    Rel ⟨s.start, max t.stop s.stop⟩ ⟨s'.start, max t'.stop s'.stop⟩

variable (P : Placing)

/-- Tokens of one kind and text, at related places. -/
inductive Token.Alike : Token → Token → Prop
  | mk {kind text s s'} : P.Rel s s' → Alike ⟨kind, s, text⟩ ⟨kind, s', text⟩

/-- Cursors over like tokens. -/
structure Cursor.Alike (c d : Cursor) : Prop where
  rest : List.Forall₂ (Token.Alike P) c.rest d.rest
  /-- Related spans stay related when they are extended to what has been read. -/
  lastStop : ∀ ⦃s s' : Span⦄, P.Rel s s' →
    P.Rel ⟨s.start, max c.lastStop s.stop⟩ ⟨s'.start, max d.lastStop s'.stop⟩
  depth : c.depth = d.depth
  /-- The end of the file has not been passed. -/
  ends : ∃ t ∈ c.rest, t.kind = .endOfFile

/-- Trees that are equal up to their places, which are related. The children do
    not tell which parts a node lacks, so the trees are compared bare as well. -/
inductive Node.Alike : Node → Node → Prop
  | intro {n m : Node} : n.bare = m.bare → P.Rel n.span m.span →
    List.Forall₂ Alike n.children m.children → Alike n m

end

variable {P : Placing}

theorem Token.Alike.kind_eq {t u : Token} (h : t.Alike P u) : t.kind = u.kind := by
  cases h
  rfl

theorem Token.Alike.rel_span {t u : Token} (h : t.Alike P u) : P.Rel t.span u.span := by
  obtain ⟨hs⟩ := h
  exact hs

theorem Cursor.Alike.withDepth {c d : Cursor} (h : c.Alike P d) (depth : Nat) :
    Cursor.Alike P { c with depth } { d with depth } :=
  ⟨h.rest, h.lastStop, rfl, h.ends⟩

theorem Cursor.Alike.current {c d : Cursor} (h : c.Alike P d) :
    c.current.Alike P d.current := by
  obtain ⟨hrest, -, -, t, ht, -⟩ := h
  unfold Cursor.current
  generalize c.rest = cs, d.rest = ds at hrest ht
  cases hrest with
  | nil => cases ht
  | cons h _ => exact h

namespace Node.Alike

theorem bare_eq {n m : Node} (h : n.Alike P m) : n.bare = m.bare := by
  obtain ⟨hbare, _, _⟩ := h
  exact hbare

theorem map_bare_eq {ns ms : List Node} (h : List.Forall₂ (Alike P) ns ms) :
    ns.map bare = ms.map bare := by
  rw [← List.forall₂_eq_eq_eq]
  exact List.rel_map (fun _ _ h => h.bare_eq) h

theorem option_map_bare_eq {n? m? : Option Node} (h : Option.Rel (Alike P) n? m?) :
    n?.map bare = m?.map bare := by
  cases h with
  | none => rfl
  | some h => rw [Option.map_some, Option.map_some, h.bare_eq]

theorem toList {n? m? : Option Node} (h : Option.Rel (Alike P) n? m?) :
    List.Forall₂ (Alike P) n?.toList m?.toList := by
  cases h with
  | none => exact .nil
  | some h => exact .cons h .nil

theorem bareBody_eq {ns? ms? : Option (List Node)}
    (h : Option.Rel (List.Forall₂ (Alike P)) ns? ms?) : bareBody ns? = bareBody ms? := by
  cases h with
  | none => rfl
  | some h => simp [bareBody, map_bare_eq h]

theorem body_toList {ns? ms? : Option (List Node)}
    (h : Option.Rel (List.Forall₂ (Alike P)) ns? ms?) :
    List.Forall₂ (Alike P) ns?.toList.flatten ms?.toList.flatten := by
  cases h with
  | none => exact .nil
  | some h => simpa using h

theorem slots_map_bare_eq {ns ms : List (Option Node)}
    (h : List.Forall₂ (Option.Rel (Alike P)) ns ms) :
    ns.map (Option.map bare) = ms.map (Option.map bare) := by
  rw [← List.forall₂_eq_eq_eq]
  exact List.rel_map (fun _ _ h => option_map_bare_eq h) h

theorem filterMap_id {ns ms : List (Option Node)} (h : List.Forall₂ (Option.Rel (Alike P)) ns ms) :
    List.Forall₂ (Alike P) (ns.filterMap id) (ms.filterMap id) :=
  List.rel_filterMap (fun _ _ h => h) h

theorem var {label : String} {s s' : Span} (hs : P.Rel s s') :
    (Node.var label s).Alike P (.var label s') :=
  .intro (by simp) hs .nil

theorem identifier {label : String} {s s' : Span} (hs : P.Rel s s') :
    (Node.identifier label s).Alike P (.identifier label s') :=
  .intro (by simp) hs .nil

end Node.Alike

namespace Parse

/-- Two results of one kind: related values with like cursors behind them, or
    errors at related places. -/
inductive Matches (P : Placing) (R : α → β → Prop) :
    EStateM.Result ParseError Cursor α → EStateM.Result ParseError Cursor β → Prop
  | ok {a b c d} : R a b → c.Alike P d → Matches P R (.ok a c) (.ok b d)
  | error {e e' c d} : P.Rel e.span e'.span → Matches P R (.error e c) (.error e' d)

/-- On like cursors the parsers give matching results. -/
def Agrees (P : Placing) (R : α → β → Prop) (p : Parser α) (q : Parser β) : Prop :=
  ∀ ⦃c d : Cursor⦄, c.Alike P d → Matches P R (p c) (q d)

section

variable {p : Parser α} {q : Parser β} {f : α → Parser γ} {g : β → Parser δ} {R : α → β → Prop}
  {R' : γ → δ → Prop}

namespace Agrees

theorem pure {a : α} {b : β} (h : R a b) : Agrees P R (Pure.pure a) (Pure.pure b) :=
  fun _ _ hc => .ok h hc

theorem bind (hp : Agrees P R p q) (hf : ∀ a b, R a b → Agrees P R' (f a) (g b)) :
    Agrees P R' (p >>= f) (q >>= g) := by
  intro c d hc
  have hpq := hp hc
  simp only [Bind.bind, EStateM.bind]
  generalize p c = x, q d = y at hpq
  cases hpq with
  | ok hab hc' => exact hf _ _ hab hc'
  | error he => exact .error he

/-- Going on after parsers that read the same. -/
theorem andThen {p q : Parser α} {f : α → Parser γ} {g : α → Parser δ} (hp : Agrees P Eq p q)
    (hf : ∀ a, Agrees P R' (f a) (g a)) : Agrees P R' (p >>= f) (q >>= g) :=
  hp.bind fun a b hab => by
    subst hab
    exact hf a

theorem map {f : α → γ} {g : β → δ} (hp : Agrees P R p q) (h : ∀ a b, R a b → R' (f a) (g b)) :
    Agrees P R' (f <$> p) (g <$> q) := by
  rw [map_eq_pure_bind, map_eq_pure_bind]
  exact hp.bind fun a b hab => .pure (h a b hab)

theorem optional (hp : Agrees P R p q) : Agrees P (Option.Rel R) (some <$> p) (some <$> q) :=
  hp.map fun _ _ => .some

theorem ite {b : Prop} [Decidable b] {p₂ : Parser α} {q₂ : Parser β} (hp : Agrees P R p q)
    (hq : Agrees P R p₂ q₂) : Agrees P R (if b then p else p₂) (if b then q else q₂) := by
  split
  · exact hp
  · exact hq

theorem complain {complaint : Complaint} :
    Agrees P R (Parse.complain complaint) (Parse.complain complaint) :=
  fun _ _ hc => .error hc.current.rel_span

theorem invalidNumber {s s' : Span} (hs : P.Rel s s') :
    Agrees P R (throw (.invalidNumber s)) (throw (.invalidNumber s')) :=
  fun _ _ _ => .error hs

theorem tooDeep : Agrees P R Parse.tooDeep Parse.tooDeep :=
  fun _ _ hc => .error hc.current.rel_span

/-- Both are refused, or the rest of both goes on. -/
theorem guard {b : Prop} [Decidable b] {complaint : Complaint} {k : Unit → Parser α}
    {l : Unit → Parser β} (hk : Agrees P R (k ()) (l ())) :
    Agrees P R (if b then Parse.complain complaint >>= k else k ())
      (if b then Parse.complain complaint >>= l else l ()) :=
  .ite (complain.andThen fun _ => hk) hk

/-! ## Nesting -/

theorem within (hp : Agrees P R p q) : Agrees P R (Parse.within p) (Parse.within q) := by
  intro c d hc
  have hpq := hp (hc.withDepth (c.depth + 1))
  simp only [Parse.within, ← hc.depth]
  generalize p { c with depth := c.depth + 1 } = x,
    q { d with depth := c.depth + 1 } = y at hpq
  cases hpq with
  | ok hab hc' =>
    refine .ok hab ?_
    rw [← hc'.depth]
    exact hc'.withDepth _
  | error he => exact .error he

theorem chain (hp : Agrees P R p q) : Agrees P R (Parse.chain p) (Parse.chain q) := by
  intro c d hc
  have hpq := hp hc
  simp only [Parse.chain, ← hc.depth]
  generalize p c = x, q d = y at hpq
  cases hpq with
  | ok hab hc' => exact .ok hab (hc'.withDepth _)
  | error he => exact .error he

end Agrees

theorem link_agrees : Agrees P Eq link link := by
  intro c d hc
  simp only [link, ← hc.depth]
  exact .ok rfl (hc.withDepth _)

/-! ## Tokens -/

theorem current_agrees : Agrees P (Token.Alike P) current current :=
  fun _ _ hc => .ok hc.current hc

theorem isAt_agrees {kind : TokenKind} : Agrees P Eq (isAt kind) (isAt kind) := by
  intro c d hc
  unfold isAt
  rw [hc.current.kind_eq]
  exact .ok rfl hc

theorem following_agrees : Agrees P Eq following following := by
  intro c d hc
  refine .ok ?_ hc
  have hrest := hc.rest
  generalize c.rest = cs, d.rest = ds at hrest
  cases hrest with
  | nil => rfl
  | cons _ hrest =>
    cases hrest with
    | nil => rfl
    | cons h _ => exact h.kind_eq

theorem advance_agrees : Agrees P (Token.Alike P) advance advance := by
  intro c d hc
  refine .ok hc.current ?_
  simp only [← hc.current.kind_eq]
  split
  · exact ⟨hc.rest, fun _ _ hs => P.extend hs hc.current.rel_span, hc.depth, hc.ends⟩
  · next hne =>
    -- What is read is not the end of the file, so that is still ahead.
    refine ⟨?_, fun _ _ hs => P.extend hs hc.current.rel_span, hc.depth, ?_⟩
    · have hrest := hc.rest
      generalize c.rest = cs, d.rest = ds at hrest
      cases hrest with
      | nil => exact .nil
      | cons _ hrest => exact hrest
    · obtain ⟨t, ht, hk⟩ := hc.ends
      cases hr : c.rest with
      | nil => simp [hr] at ht
      | cons u rest =>
        rw [hr, List.mem_cons] at ht
        rcases ht with rfl | ht
        · simp [Cursor.current, hr, hk] at hne
        · exact ⟨t, ht, hk⟩

theorem accept_agrees {kind : TokenKind} : Agrees P Eq (accept kind) (accept kind) :=
  isAt_agrees.andThen fun _ => .ite (advance_agrees.bind fun _ _ _ => .pure rfl) (.pure rfl)

theorem expect_agrees {kind : TokenKind} :
    Agrees P (Token.Alike P) (expect kind) (expect kind) :=
  isAt_agrees.andThen fun _ => .ite advance_agrees .complain

theorem terminator_agrees : Agrees P Eq terminator terminator :=
  accept_agrees.andThen fun _ => .ite (.pure rfl) <|
    accept_agrees.andThen fun _ => .ite (.pure rfl) .complain

theorem spanFrom_agrees {s s' : Span} (hs : P.Rel s s') :
    Agrees P P.Rel (spanFrom s) (spanFrom s') :=
  fun _ _ hc => .ok (hc.lastStop hs) hc

theorem other_agrees {kind : String} {children children' : List Node} {s s' : Span}
    (h : List.Forall₂ (Node.Alike P) children children') (hs : P.Rel s s') :
    Agrees P (Node.Alike P) (other kind children s) (other kind children' s') :=
  (spanFrom_agrees hs).bind fun _ _ hs => .pure (.intro (by simp [Node.Alike.map_bare_eq h]) hs h)

/-! ## Repetition -/

/-- Rounds that end alike, with related values. -/
inductive Round.Rel (R : α → β → Prop) : Round α → Round β → Prop
  | stop : Rel R .stop .stop
  | last {a b} : R a b → Rel R (.last a) (.last b)
  | more {a b} : R a b → Rel R (.more a) (.more b)

theorem gatherFor_agrees {step : Parser (Round α)} {step' : Parser (Round β)}
    (h : Agrees P (Round.Rel R) step step') {bound bound' : List Token}
    (hb : List.Forall₂ (Token.Alike P) bound bound') :
    Agrees P (List.Forall₂ R) (gatherFor step bound) (gatherFor step' bound') := by
  induction hb with
  | nil =>
    refine h.bind fun r r' hr => ?_
    cases hr with
    | stop => exact .pure .nil
    | last h => exact .pure (.cons h .nil)
    | more h => exact .pure (.cons h .nil)
  | cons _ _ ih =>
    refine h.bind fun r r' hr => ?_
    cases hr with
    | stop => exact .pure .nil
    | last h => exact .pure (.cons h .nil)
    | more h => exact ih.bind fun _ _ hrest => .pure (.cons h hrest)

theorem gather_agrees {step : Parser (Round α)} {step' : Parser (Round β)}
    (h : Agrees P (Round.Rel R) step step') :
    Agrees P (List.Forall₂ R) (gather step) (gather step') :=
  fun _ _ hc => gatherFor_agrees h hc.rest hc

theorem commaItem_agrees (h : Agrees P R p q) :
    Agrees P (Round.Rel R) (commaItem p) (commaItem q) :=
  h.bind fun _ _ hab => accept_agrees.andThen fun _ =>
    .ite (.pure (.more hab)) (.pure (.last hab))

theorem commaSeparated_agrees (h : Agrees P R p q) :
    Agrees P (List.Forall₂ R) (commaSeparated p) (commaSeparated q) :=
  gather_agrees (commaItem_agrees h)

theorem commaListUntil_agrees {close : Symbol} (h : Agrees P R p q) :
    Agrees P (List.Forall₂ R) (commaListUntil close p) (commaListUntil close q) :=
  gather_agrees <| isAt_agrees.andThen fun _ => .ite (.pure .stop) (commaItem_agrees h)

/-- A repetition of a step that reads the same reads the same. -/
theorem gather_agrees_eq {step : Parser (Round α)} (h : Agrees P (Round.Rel Eq) step step) :
    Agrees P Eq (gather step) (gather step) := by
  have hg := gather_agrees h
  rwa [List.forall₂_eq_eq_eq] at hg

end

/-! ## Names -/

theorem identifier_agrees : Agrees P (Node.Alike P) identifier identifier :=
  current_agrees.bind fun _ _ (.mk hs) => .guard <| advance_agrees.bind fun _ _ _ =>
    .pure (.identifier hs)

theorem namePart_agrees : Agrees P (Round.Rel Eq) namePart namePart :=
  current_agrees.bind fun _ _ (.mk _) => .guard <| advance_agrees.bind fun _ _ _ =>
    isAt_agrees.andThen fun _ => following_agrees.andThen fun _ =>
      .ite (advance_agrees.bind fun _ _ _ => .pure (.more rfl)) (.pure (.last rfl))

theorem name_agrees : Agrees P (Node.Alike P) name name :=
  current_agrees.bind fun _ _ (.mk hs) => accept_agrees.andThen fun _ =>
    (gather_agrees_eq namePart_agrees).andThen fun _ =>
      (spanFrom_agrees hs).bind fun _ _ hs => .pure (.intro (by simp) hs .nil)

/-! ## Types and parameters -/

theorem typePart_agrees : Agrees P (Round.Rel Eq) typePart typePart := by
  refine current_agrees.bind fun _ _ (.mk _) => ?_
  dsimp only
  split
  · exact advance_agrees.bind fun _ _ _ => .pure (.more rfl)
  all_goals try exact .pure .stop
  all_goals
    refine advance_agrees.bind fun _ _ _ => current_agrees.bind fun _ _ (.mk _) => ?_
    dsimp only
    split
    · exact .pure (.more rfl)
    · exact advance_agrees.bind fun _ _ _ => .pure (.more rfl)
    · exact following_agrees.andThen fun _ => .ite (.pure (.last rfl)) <|
        advance_agrees.bind fun _ _ _ => .pure (.more rfl)
    · exact .pure (.last rfl)

theorem skipType_agrees : Agrees P Eq skipType skipType :=
  accept_agrees.andThen fun _ => (gather_agrees_eq typePart_agrees).andThen fun _ =>
    .guard (.pure rfl)

theorem skipReturnType_agrees : Agrees P Eq skipReturnType skipReturnType :=
  accept_agrees.andThen fun _ =>
    .ite (skipType_agrees.andThen fun _ => .ite .complain (.pure rfl)) (.pure rfl)

theorem parameter_agrees : Agrees P (Node.Alike P) parameter parameter :=
  current_agrees.bind fun _ _ (.mk hs) => current_agrees.bind fun _ _ (.mk _) => .guard <|
    skipType_agrees.andThen fun _ => isAt_agrees.andThen fun _ => .guard <|
      isAt_agrees.andThen fun _ => .guard <| expect_agrees.bind fun _ _ (.mk ht) =>
        isAt_agrees.andThen fun _ => .guard <| (spanFrom_agrees hs).bind fun _ _ hs =>
          .pure (.intro (by simp [varOf, varNameOf]) hs (.cons (.var ht) .nil))

theorem parameterList_agrees :
    Agrees P (List.Forall₂ (Node.Alike P)) parameterList parameterList :=
  expect_agrees.bind fun _ _ _ =>
    (commaListUntil_agrees parameter_agrees).bind fun _ _ hps =>
      expect_agrees.bind fun _ _ _ => .pure hps

theorem refuseByRefReturn_agrees : Agrees P Eq refuseByRefReturn refuseByRefReturn :=
  isAt_agrees.andThen fun _ => .ite .complain (.pure rfl)

theorem closureBinding_agrees : Agrees P (Node.Alike P) closureBinding closureBinding :=
  isAt_agrees.andThen fun _ => .guard <| expect_agrees.bind fun _ _ (.mk ht) =>
    .pure (.var ht)

theorem closureBindings_agrees :
    Agrees P (List.Forall₂ (Node.Alike P)) closureBindings closureBindings :=
  accept_agrees.andThen fun _ => .ite
    (expect_agrees.bind fun _ _ _ =>
      (commaListUntil_agrees closureBinding_agrees).bind fun _ _ hus =>
        expect_agrees.bind fun _ _ _ => .pure hus)
    (.pure .nil)

end Parse

end PhpScript
