import PhpScript.Proofs.Parse.Derivation

/-!
# What parsers yield

`Yields W p Q` says that whatever the parser `p` reads is `Q`, on every cursor
over tokens spelled with the names `W`, and that it leaves such a cursor behind;
`YieldsOn` says the same of one cursor. Both are about success only: a parser that fails
yields nothing.

It goes through the combinators of the cursor, so each parser built from them
needs one lemma about its own steps. Here are the combinators, and the parsers
for names, types and parameters.
-/

namespace PhpScript

/-- All tokens that are still to be read are spelled as their kinds ask. -/
def Cursor.IsSpelled (W : List Char → Prop) (c : Cursor) : Prop := ∀ t ∈ c.rest, t.IsSpelled W

namespace Parse

/-- Whatever `p` reads on the cursor `c` is `R`, with the cursor it leaves behind. -/
def YieldsOn (W : List Char → Prop) (c : Cursor) (p : Parser α) (R : α → Cursor → Prop) : Prop :=
  ∀ ⦃a after⦄, p c = .ok a after → after.IsSpelled W ∧ R a after

/-- Whatever `p` reads is `Q`. -/
def Yields (W : List Char → Prop) (p : Parser α) (Q : α → Prop) : Prop :=
  ∀ ⦃c : Cursor⦄, c.IsSpelled W → YieldsOn W c p fun a _ => Q a

/-- Nothing is claimed about what is read. -/
abbrev Anything : α → Prop := fun _ => True

variable {W : List Char → Prop}

section

variable {p : Parser α} {f : α → Parser β} {P P' : α → Prop} {Q : β → Prop}

/-- A parser that looks at the token at the cursor goes on with that token. -/
theorem YieldsOn.peek {g : Token → Parser β} {c : Cursor} {R : β → Cursor → Prop}
    (h : YieldsOn W c (g c.current) R) : YieldsOn W c (current >>= g) R :=
  h

theorem YieldsOn.peekFollowing {g : TokenKind → Parser β} {c : Cursor} {R : β → Cursor → Prop}
    (h : ∀ kind, YieldsOn W c (g kind) R) : YieldsOn W c (following >>= g) R :=
  h _

namespace Yields

theorem pure {a : α} (h : P a) : Yields W (Pure.pure a) P := by
  intro c hc b after hp
  cases hp
  exact ⟨hc, h⟩

theorem bind (hp : Yields W p P) (hf : ∀ a, P a → Yields W (f a) Q) : Yields W (p >>= f) Q := by
  intro c hc b after h
  simp only [Bind.bind, EStateM.bind] at h
  split at h
  · next a between h₁ =>
    obtain ⟨hb, ha⟩ := hp hc h₁
    exact hf a ha hb h
  · cases h

theorem mono (hp : Yields W p P) (h : ∀ a, P a → P' a) : Yields W p P' := by
  intro c hc a after ha
  obtain ⟨hafter, hPa⟩ := hp hc ha
  exact ⟨hafter, h a hPa⟩

theorem map {g : α → β} (hp : Yields W p P) (h : ∀ a, P a → Q (g a)) : Yields W (g <$> p) Q := by
  rw [map_eq_pure_bind]
  exact hp.bind fun a ha => .pure (h a ha)

/-- What may be missing in a tree is read as something that is there. -/
theorem optional (hp : Yields W p P) : Yields W (some <$> p) fun a? => ∀ a ∈ a?, P a :=
  hp.map (by simp)

theorem ite {b : Prop} [Decidable b] {q : Parser α} (hp : b → Yields W p P)
    (hq : ¬b → Yields W q P) : Yields W (if b then p else q) P := by
  split
  · next h => exact hp h
  · next h => exact hq h

/-- Failing yields nothing. -/
theorem complain {complaint : Complaint} : Yields W (Parse.complain complaint) P := by
  intro c hc a after h
  cases h

theorem throw {error : ParseError} : Yields W (throw error : Parser α) P := by
  intro c hc a after h
  cases h

theorem tooDeep : Yields W (Parse.tooDeep : Parser α) P := by
  intro c hc a after h
  cases h

/-- A refusal before the rest of a parser leaves the rest to yield. -/
theorem guard {b : Prop} [Decidable b] {complaint : Complaint} {k : Unit → Parser α}
    (hk : ¬b → Yields W (k ()) P) :
    Yields W (if b then Parse.complain complaint >>= k else k ()) P :=
  .ite (fun _ => complain.bind (P := fun _ => False) fun _ h => h.elim) hk

/-- A parser that looks at the token at the cursor is judged on each cursor. -/
theorem peek {g : Token → Parser β}
    (h : ∀ c : Cursor, c.IsSpelled W → YieldsOn W c (g c.current) fun b _ => Q b) :
    Yields W (current >>= g) Q :=
  fun c hc => .peek (h c hc)

theorem peekAt {kind : TokenKind} {g : Bool → Parser β}
    (h : ∀ c : Cursor, c.IsSpelled W → YieldsOn W c (g (c.current.kind == kind)) fun b _ => Q b) :
    Yields W (isAt kind >>= g) Q :=
  fun c hc _ _ hg => h c hc hg

/-! ## Nesting -/

theorem within (hp : Yields W p P) : Yields W (Parse.within p) P := by
  intro c hc a after h
  simp only [Parse.within] at h
  split at h
  · next a' c' h' =>
    cases h
    obtain ⟨hc', ha⟩ := hp (c := { c with depth := c.depth + 1 }) hc h'
    exact ⟨hc', ha⟩
  · cases h

theorem chain (hp : Yields W p P) : Yields W (Parse.chain p) P := by
  intro c hc a after h
  simp only [Parse.chain] at h
  split at h
  · next a' c' h' =>
    cases h
    obtain ⟨hc', ha⟩ := hp hc h'
    exact ⟨hc', ha⟩
  · cases h

end Yields

theorem link_yields : Yields W link Anything := by
  intro c hc a after h
  cases h
  exact ⟨hc, trivial⟩

/-! ## Tokens -/

theorem current_isSpelled {c : Cursor} (hc : c.IsSpelled W) : c.current.IsSpelled W := by
  cases hr : c.rest with
  | nil => simp [Cursor.current, hr, Token.IsSpelled]
  | cons t rest => simpa [Cursor.current, hr] using hc t (by simp [hr])

theorem current_yields : Yields W current (Token.IsSpelled W) := by
  intro c hc a after h
  cases h
  exact ⟨hc, current_isSpelled hc⟩

theorem following_yields : Yields W following Anything := by
  intro c hc a after h
  cases h
  exact ⟨hc, trivial⟩

theorem isAt_yields {kind : TokenKind} : Yields W (isAt kind) Anything := by
  intro c hc a after h
  cases h
  exact ⟨hc, trivial⟩

theorem advance_yields : Yields W advance (Token.IsSpelled W) := by
  intro c hc a after h
  cases h
  refine ⟨fun t ht => ?_, current_isSpelled hc⟩
  simp only at ht
  split at ht
  · exact hc t ht
  · exact hc t (List.mem_of_mem_tail ht)

theorem accept_yields {kind : TokenKind} : Yields W (accept kind) Anything :=
  isAt_yields.bind fun _ _ =>
    .ite (fun _ => advance_yields.bind fun _ _ => .pure trivial) fun _ => .pure trivial

/-- What an expected token is. -/
theorem expect_yields {kind : TokenKind} :
    Yields W (expect kind) fun t => t.kind = kind ∧ t.IsSpelled W := by
  intro c hc a after h
  simp only [expect, Bind.bind, EStateM.bind, isAt] at h
  split at h
  · next hk =>
    obtain ⟨hafter, ha⟩ := advance_yields hc h
    cases h
    exact ⟨hafter, eq_of_beq hk, ha⟩
  · cases h

theorem terminator_yields : Yields W terminator Anything :=
  accept_yields.bind fun _ _ => .ite (fun _ => .pure trivial) fun _ =>
    accept_yields.bind fun _ _ => .ite (fun _ => .pure trivial) fun _ => .complain

theorem spanFrom_yields {start : Span} : Yields W (spanFrom start) Anything := by
  intro c hc a after h
  cases h
  exact ⟨hc, trivial⟩

theorem other_yields {kind : String} {children : List Node} {start : Span} {R : Node → Prop}
    (h : ∀ s, R (.other kind children s)) : Yields W (other kind children start) R :=
  spanFrom_yields.bind fun s _ => .pure (h s)

/-! ## Repetition -/

/-- What a round brings is `P`. -/
def Round.Brings (P : α → Prop) : Round α → Prop
  | stop => True
  | last a | more a => P a

/-- What a round brings is `P`, and it does bring something. -/
def Round.Surely (P : α → Prop) : Round α → Prop
  | stop => False
  | last a | more a => P a

theorem Round.Surely.brings {r : Round α} (h : r.Surely P) : r.Brings P := by
  cases r with
  | stop => trivial
  | last a => exact h
  | more a => exact h

theorem gatherFor_yields {step : Parser (Round α)} (h : Yields W step (Round.Brings P))
    (bound : List Token) : Yields W (gatherFor step bound) fun as => ∀ a ∈ as, P a := by
  induction bound with
  | nil =>
    refine h.bind fun r hr => ?_
    cases r with
    | stop => exact .pure (by simp)
    | last a => exact .pure (List.forall_mem_singleton.2 hr)
    | more a => exact .pure (List.forall_mem_singleton.2 hr)
  | cons t bound ih =>
    refine h.bind fun r hr => ?_
    cases r with
    | stop => exact .pure (by simp)
    | last a => exact .pure (List.forall_mem_singleton.2 hr)
    | more a => exact ih.bind fun as has => .pure (List.forall_mem_cons.2 ⟨hr, has⟩)

theorem gather_yields {step : Parser (Round α)} (h : Yields W step (Round.Brings P)) :
    Yields W (gather step) fun as => ∀ a ∈ as, P a :=
  fun c hc _ _ hg => gatherFor_yields h c.rest hc hg

/-- A step that never stops by itself brings at least one value. -/
theorem gather_yields_ne_nil {step : Parser (Round α)} (h : Yields W step (Round.Surely P)) :
    Yields W (gather step) fun as => as ≠ [] ∧ ∀ a ∈ as, P a := by
  have hb : Yields W step (Round.Brings P) := h.mono fun _ => Round.Surely.brings
  intro c hc as after hg
  have hall := gather_yields hb hc hg
  refine ⟨hall.1, ?_, hall.2⟩
  -- The first round brings a value whether the bound is used up or not.
  have hne : Yields W (gatherFor step c.rest) (· ≠ []) := by
    cases c.rest with
    | nil =>
      refine h.bind fun r hr => ?_
      cases r with
      | stop => exact hr.elim
      | last a => exact .pure (by simp)
      | more a => exact .pure (by simp)
    | cons t bound =>
      refine h.bind fun r hr => ?_
      cases r with
      | stop => exact hr.elim
      | last a => exact .pure (by simp)
      | more a => exact (gatherFor_yields hb bound).bind fun as _ => .pure (by simp)
  exact (hne hc hg).2

theorem commaItem_yields (h : Yields W p P) : Yields W (commaItem p) (Round.Surely P) :=
  h.bind fun _ ha => accept_yields.bind fun _ _ => .ite (fun _ => .pure ha) fun _ => .pure ha

theorem commaSeparated_yields (h : Yields W p P) :
    Yields W (commaSeparated p) fun as => as ≠ [] ∧ ∀ a ∈ as, P a :=
  gather_yields_ne_nil (commaItem_yields h)

theorem commaListUntil_yields {close : Symbol} (h : Yields W p P) :
    Yields W (commaListUntil close p) fun as => ∀ a ∈ as, P a :=
  gather_yields <| isAt_yields.bind fun _ _ => .ite (fun _ => .pure trivial) fun _ =>
    (commaItem_yields h).mono fun _ => Round.Surely.brings

end

/-! ## Names -/

theorem isSpelled_text {t : Token} (ht : t.IsSpelled W) (hk : t.kind.isIdentifierLike) :
    W t.text.toList := by
  unfold Token.IsSpelled at ht
  split at ht <;> simp_all [TokenKind.isIdentifierLike]

theorem varOf_derives {t : Token} (hk : t.kind = .varName) (ht : t.IsSpelled W) :
    Derives W .var (varOf t) := by
  simp only [Token.IsSpelled, hk] at ht
  exact .var (by rwa [varNameOf, String.toList_ofList])

/-- Reading on after a variable. -/
theorem YieldsOn.advance_var {c : Cursor} (hc : c.IsSpelled W) (hk : c.current.kind = .varName)
    {g : Token → Parser α} {Q : α → Prop} (hg : ∀ t, Derives W .var (varOf t) → Yields W (g t) Q) :
    YieldsOn W c (advance >>= g) fun a _ => Q a :=
  fun _ _ h => hg c.current (varOf_derives hk (current_isSpelled hc)) (advance_yields hc rfl).1 h

theorem identifier_yields : Yields W identifier (Derives W .label) :=
  current_yields.bind fun _ ht => .guard fun hk => advance_yields.bind fun _ _ =>
    .pure (.label (isSpelled_text ht (by simpa using hk)))

theorem namePart_yields : Yields W namePart (Round.Surely fun part => W part.toList) :=
  current_yields.bind fun _ ht => .guard fun hk => advance_yields.bind fun _ _ =>
    isAt_yields.bind fun _ _ => following_yields.bind fun _ _ =>
      have hw := isSpelled_text ht (by simpa using hk)
      .ite (fun _ => advance_yields.bind fun _ _ => .pure hw) fun _ => .pure hw

theorem name_yields : Yields W name (Derives W .name) :=
  current_yields.bind fun _ _ => accept_yields.bind fun _ _ =>
    (gather_yields_ne_nil namePart_yields).bind fun _ hparts =>
      spanFrom_yields.bind fun _ _ => .pure (.name hparts.1 hparts.2)

/-! ## Types and parameters -/

theorem typePart_yields : Yields W typePart (Round.Brings Anything) := by
  refine current_yields.bind fun t _ => ?_
  split
  · exact advance_yields.bind fun _ _ => .pure trivial
  all_goals try exact .pure trivial
  all_goals
    refine advance_yields.bind fun _ _ => current_yields.bind fun t _ => ?_
    split
    · exact .pure trivial
    · exact advance_yields.bind fun _ _ => .pure trivial
    · exact following_yields.bind fun _ _ => .ite (fun _ => .pure trivial) fun _ =>
        advance_yields.bind fun _ _ => .pure trivial
    · exact .pure trivial

theorem skipType_yields : Yields W skipType Anything :=
  accept_yields.bind fun _ _ => (gather_yields typePart_yields).bind fun _ _ =>
    .guard fun _ => .pure trivial

theorem skipReturnType_yields : Yields W skipReturnType Anything :=
  accept_yields.bind fun _ _ => .ite
    (fun _ => skipType_yields.bind fun _ _ => .ite (fun _ => .complain) fun _ => .pure trivial)
    fun _ => .pure trivial

theorem parameter_yields : Yields W parameter (Derives W .parameter) :=
  current_yields.bind fun _ _ => current_yields.bind fun _ _ => .guard fun _ =>
    skipType_yields.bind fun _ _ => isAt_yields.bind fun _ _ => .guard fun _ =>
      isAt_yields.bind fun _ _ => .guard fun _ => expect_yields.bind fun _ ht =>
        isAt_yields.bind fun _ _ => .guard fun _ => spanFrom_yields.bind fun _ _ =>
          .pure (.parameter (varOf_derives ht.1 ht.2))

theorem parameterList_yields : Yields W parameterList fun ps => ∀ p ∈ ps, Derives W .parameter p :=
  expect_yields.bind fun _ _ => (commaListUntil_yields parameter_yields).bind fun _ hps =>
    expect_yields.bind fun _ _ => .pure hps

theorem refuseByRefReturn_yields : Yields W refuseByRefReturn Anything :=
  isAt_yields.bind fun _ _ => .ite (fun _ => .complain) fun _ => .pure trivial

theorem closureBinding_yields : Yields W closureBinding (Derives W .var) :=
  isAt_yields.bind fun _ _ => .guard fun _ => expect_yields.bind fun _ ht =>
    .pure (varOf_derives ht.1 ht.2)

theorem closureBindings_yields :
    Yields W closureBindings fun uses => ∀ u ∈ uses, Derives W .var u :=
  accept_yields.bind fun _ _ => .ite
    (fun _ => expect_yields.bind fun _ _ =>
      (commaListUntil_yields closureBinding_yields).bind fun _ hus =>
        expect_yields.bind fun _ _ => .pure hus)
    fun _ => .pure (by simp)

end Parse

end PhpScript
