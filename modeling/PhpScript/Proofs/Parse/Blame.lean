import PhpScript.Parse.Program
import PhpScript.Proofs.Parse.Extent

/-!
# What a parse error is about

Every error of a parser is about a token of the row that the cursor goes along
(`ParseError.IsAbout`): the token that was not expected, the one at which a level was
refused, or a number that has no value. `Blames` goes through the combinators of the
cursor, and then through the parsers in the layers they are built in.

`source_error_cases` says what that is for a source text: the scanner has refused it, or
the error is about one of its tokens.
-/

namespace PhpScript

/-- The token is a number without a value. -/
def Token.IsMisspelled (t : Token) : Prop :=
  t.kind = .integer ∧ Literal.integer? t.text = none ∨
    t.kind = .float ∧ Literal.float? t.text = none

/-- The error is about one of the tokens. -/
def ParseError.IsAbout (tokens : List Token) : ParseError → Prop
  | scan _ => False
  | unexpected _ found => found ∈ tokens
  | invalidNumber span => ∃ t ∈ tokens, t.span = span ∧ t.IsMisspelled
  | tooDeep span => ∃ t ∈ tokens, t.span = span

namespace Parse

/-- The parser stays in the row of tokens, and fails only with an error about one of them. -/
structure Blames (tokens : List Token) (p : Parser α) : Prop where
  ok : ∀ {c d : Cursor} {a : α}, c.IsOn tokens → p c = .ok a d → d.IsOn tokens
  error : ∀ {c d : Cursor} {e : ParseError}, c.IsOn tokens → p c = .error e d → e.IsAbout tokens

variable {tokens : List Token}

section

variable {p q : Parser α} {f : α → Parser β}

namespace Blames

/-- A parser that never fails and does not move the cursor. -/
theorem of_ok (h : ∀ c, ∃ a, p c = .ok a c) : Blames tokens p where
  ok {c _ _} hc hp := by
    obtain ⟨a, ha⟩ := h c
    cases ha.symm.trans hp
    exact hc
  error {c _ _} _ hp := by
    obtain ⟨a, ha⟩ := h c
    cases ha.symm.trans hp

/-- A parser that only fails. -/
theorem of_error (h : ∀ c, c.IsOn tokens → ∃ e d, p c = .error e d ∧ e.IsAbout tokens) :
    Blames tokens p where
  ok {c _ _} hc hp := by
    obtain ⟨e, d, he, -⟩ := h c hc
    cases he.symm.trans hp
  error {c _ _} hc hp := by
    obtain ⟨e, d, he, habout⟩ := h c hc
    cases he.symm.trans hp
    exact habout

theorem pure {a : α} : Blames tokens (Pure.pure a) := of_ok fun _ => ⟨a, rfl⟩

theorem bind (hp : Blames tokens p) (hf : ∀ a, Blames tokens (f a)) : Blames tokens (p >>= f) where
  ok {c d b} hc h := by
    obtain ⟨a, between, hpa, hfa⟩ := exists_of_bind_eq_ok h
    exact (hf a).ok (hp.ok hc hpa) hfa
  error {c d e} hc h := by
    simp only [Bind.bind, EStateM.bind] at h
    split at h
    · next a between hpa => exact (hf a).error (hp.ok hc hpa) h
    · next hpe =>
      cases h
      exact hp.error hc hpe

theorem map {g : α → β} (hp : Blames tokens p) : Blames tokens (g <$> p) := by
  rw [map_eq_pure_bind]
  exact hp.bind fun _ => pure

theorem ite {b : Prop} [Decidable b] (hp : Blames tokens p) (hq : Blames tokens q) :
    Blames tokens (if b then p else q) := by
  split
  · exact hp
  · exact hq

theorem complain {complaint : Complaint} : Blames tokens (Parse.complain complaint : Parser α) :=
  of_error fun _ hc => ⟨_, _, rfl, hc.current_mem⟩

theorem tooDeep : Blames tokens (Parse.tooDeep : Parser α) :=
  of_error fun _ hc => ⟨_, _, rfl, _, hc.current_mem, rfl⟩

theorem throw {error : ParseError} (h : error.IsAbout tokens) :
    Blames tokens (throw error : Parser α) :=
  of_error fun c _ => ⟨error, c, rfl, h⟩

theorem guard {b : Prop} [Decidable b] {complaint : Complaint} {k : Unit → Parser α}
    (hk : Blames tokens (k ())) :
    Blames tokens (if b then Parse.complain complaint >>= k else k ()) :=
  .ite (complain.bind fun _ => hk) hk

/-- What is done with the token at the cursor is done with one of the row. -/
theorem peek {g : Token → Parser β} (h : ∀ t ∈ tokens, Blames tokens (g t)) :
    Blames tokens (current >>= g) where
  ok {c _ _} hc hg := (h c.current hc.current_mem).ok hc hg
  error {c _ _} hc hg := (h c.current hc.current_mem).error hc hg

theorem within (hp : Blames tokens p) : Blames tokens (Parse.within p) where
  ok {c d a} hc h := by
    simp only [Parse.within] at h
    split at h
    · next hpa =>
      cases h
      exact (hp.ok (hc.withDepth _) hpa).withDepth _
    · cases h
  error {c d e} hc h := by
    simp only [Parse.within] at h
    split at h
    · cases h
    · next hpe =>
      cases h
      exact hp.error (hc.withDepth _) hpe

theorem chain (hp : Blames tokens p) : Blames tokens (Parse.chain p) where
  ok {c d a} hc h := by
    simp only [Parse.chain] at h
    split at h
    · next hpa =>
      cases h
      exact (hp.ok hc hpa).withDepth _
    · cases h
  error {c d e} hc h := by
    simp only [Parse.chain] at h
    split at h
    · cases h
    · next hpe =>
      cases h
      exact hp.error hc hpe

end Blames

/-! ## Tokens -/

theorem following_blames : Blames tokens following := .of_ok fun _ => ⟨_, rfl⟩

theorem isAt_blames {kind : TokenKind} : Blames tokens (isAt kind) := .of_ok fun _ => ⟨_, rfl⟩

theorem spanFrom_blames {start : Span} : Blames tokens (spanFrom start) :=
  .of_ok fun _ => ⟨_, rfl⟩

theorem link_blames : Blames tokens link where
  ok hc h := by
    cases h
    exact hc.withDepth _
  error _ h := by cases h

theorem advance_blames : Blames tokens advance where
  ok hc h := (hc.advance h).isOn
  error _ h := by cases h

theorem accept_blames {kind : TokenKind} : Blames tokens (accept kind) :=
  isAt_blames.bind fun _ => .ite (advance_blames.bind fun _ => .pure) .pure

theorem expect_blames {kind : TokenKind} : Blames tokens (expect kind) :=
  isAt_blames.bind fun _ => .ite advance_blames .complain

theorem terminator_blames : Blames tokens terminator :=
  accept_blames.bind fun _ => .ite .pure <| accept_blames.bind fun _ => .ite .pure .complain

theorem other_blames {kind : String} {children : List Node} {start : Span} :
    Blames tokens (other kind children start) :=
  spanFrom_blames.bind fun _ => .pure

/-- A node with the span up to the token read last. -/
theorem spanned_blames {start : Span} {mk : Span → α} :
    Blames tokens (spanFrom start >>= fun s => Pure.pure (mk s)) :=
  spanFrom_blames.bind fun _ => .pure

/-! ## Repetition -/

theorem gatherFor_blames {step : Parser (Round α)} (h : Blames tokens step) (bound : List Token) :
    Blames tokens (gatherFor step bound) := by
  induction bound with
  | nil =>
    refine h.bind fun r => ?_
    cases r with
    | stop => exact .pure
    | last a => exact .pure
    | more a => exact .pure
  | cons t bound ih =>
    refine h.bind fun r => ?_
    cases r with
    | stop => exact .pure
    | last a => exact .pure
    | more a => exact ih.bind fun _ => .pure

theorem gather_blames {step : Parser (Round α)} (h : Blames tokens step) :
    Blames tokens (gather step) where
  ok {c _ _} hc hg := (gatherFor_blames h c.rest).ok hc hg
  error {c _ _} hc hg := (gatherFor_blames h c.rest).error hc hg

theorem commaItem_blames (h : Blames tokens p) : Blames tokens (commaItem p) :=
  h.bind fun _ => accept_blames.bind fun _ => .ite .pure .pure

theorem commaSeparated_blames (h : Blames tokens p) : Blames tokens (commaSeparated p) :=
  gather_blames (commaItem_blames h)

theorem commaListUntil_blames {close : Symbol} (h : Blames tokens p) :
    Blames tokens (commaListUntil close p) :=
  gather_blames <| isAt_blames.bind fun _ => .ite .pure (commaItem_blames h)

/-- A list between parentheses. -/
theorem parenthesized_blames (h : Blames tokens p) :
    Blames tokens do
      let _ ← expect (.symbol .openParen)
      let items ← commaListUntil .closeParen p
      let _ ← expect (.symbol .closeParen)
      return items :=
  expect_blames.bind fun _ => (commaListUntil_blames h).bind fun _ =>
    expect_blames.bind fun _ => .pure

end

/-! ## Names, types and parameters -/

theorem identifier_blames : Blames tokens identifier :=
  .peek fun _ _ => .guard <| advance_blames.bind fun _ => .pure

theorem name_blames : Blames tokens name := by
  have hstep : Blames tokens namePart :=
    .peek fun _ _ => .guard <| advance_blames.bind fun _ => isAt_blames.bind fun _ =>
      following_blames.bind fun _ => .ite (advance_blames.bind fun _ => .pure) .pure
  exact .peek fun _ _ => accept_blames.bind fun _ => (gather_blames hstep).bind fun _ =>
    spanned_blames

theorem typePart_blames : Blames tokens typePart := by
  refine .peek fun t _ => ?_
  split
  · exact advance_blames.bind fun _ => .pure
  all_goals try exact .pure
  all_goals
    refine advance_blames.bind fun _ => .peek fun t _ => ?_
    split
    · exact .pure
    · exact advance_blames.bind fun _ => .pure
    · exact following_blames.bind fun _ => .ite .pure (advance_blames.bind fun _ => .pure)
    · exact .pure

theorem skipType_blames : Blames tokens skipType :=
  accept_blames.bind fun _ => (gather_blames typePart_blames).bind fun _ => .guard .pure

theorem skipReturnType_blames : Blames tokens skipReturnType :=
  accept_blames.bind fun _ => .ite (skipType_blames.bind fun _ => .ite .complain .pure) .pure

theorem parameterList_blames : Blames tokens parameterList :=
  parenthesized_blames <| .peek fun _ _ => .peek fun _ _ => .guard <|
    skipType_blames.bind fun _ => isAt_blames.bind fun _ => .guard <|
      isAt_blames.bind fun _ => .guard <| expect_blames.bind fun _ =>
        isAt_blames.bind fun _ => .guard spanned_blames

theorem refuseByRefReturn_blames : Blames tokens refuseByRefReturn :=
  isAt_blames.bind fun _ => .ite .complain .pure

theorem closureBindings_blames : Blames tokens closureBindings := by
  have hbinding : Blames tokens closureBinding :=
    isAt_blames.bind fun _ => .guard <| expect_blames.bind fun _ => .pure
  exact accept_blames.bind fun _ => .ite (parenthesized_blames hbinding) .pure

/-! ## Expressions -/

section

variable {expression : Parser Node} {block : Parser (List Node)} {start : Span}
  (he : Blames tokens expression) (hb : Blames tokens block)

include he

theorem arguments_blames : Blames tokens (arguments expression) :=
  parenthesized_blames <| .peek fun _ _ => following_blames.bind fun _ => .guard <|
    isAt_blames.bind fun _ => .guard <| .peek fun _ _ => he.bind fun _ => spanned_blames

theorem enclosed_blames {close : Symbol} : Blames tokens (enclosed expression close) :=
  he.bind fun _ => expect_blames.bind fun _ => .pure

theorem memberName_blames : Blames tokens (memberName expression) := by
  refine .peek fun _ _ => ?_
  split
  · exact advance_blames.bind fun _ => .pure
  · exact advance_blames.bind fun _ => enclosed_blames he
  · exact identifier_blames

theorem staticAccess_blames {cls : Node} : Blames tokens (staticAccess expression cls start) :=
  isAt_blames.bind fun _ => .ite (advance_blames.bind fun _ => other_blames) <|
    identifier_blames.bind fun _ => isAt_blames.bind fun _ =>
      .ite ((arguments_blames he).bind fun _ => other_blames) other_blames

theorem postfixLink_blames {base : Node} : Blames tokens (postfixLink expression base start) := by
  have hargs := arguments_blames he
  have hmember := memberName_blames he
  refine .peek fun _ _ => ?_
  split
  · exact advance_blames.bind fun _ => hmember.bind fun _ => isAt_blames.bind fun _ =>
      .ite (hargs.bind fun _ => spanned_blames) spanned_blames
  · exact advance_blames.bind fun _ => hmember.bind fun _ => isAt_blames.bind fun _ =>
      .ite (hargs.bind fun _ => other_blames) other_blames
  · have hend : ∀ key, Blames tokens do
        let _ ← expect (.symbol .closeBracket)
        return Node.index base key (← spanFrom start) :=
      fun _ => expect_blames.bind fun _ => spanned_blames
    exact advance_blames.bind fun _ => isAt_blames.bind fun _ =>
      .ite (Blames.pure.bind hend) (he.map.bind hend)
  · exact hargs.bind fun _ => spanned_blames
  · exact advance_blames.bind fun _ => staticAccess_blames he
  · exact .pure

theorem construction_blames : Blames tokens (construction expression) := by
  have hclass : Blames tokens (constructedClass expression) := by
    refine .peek fun _ _ => ?_
    split
    · exact .complain
    · exact advance_blames.bind fun _ => .pure
    · exact advance_blames.bind fun _ => enclosed_blames he
    · exact name_blames
  exact expect_blames.bind fun _ => hclass.bind fun _ => isAt_blames.bind fun _ =>
    .ite ((arguments_blames he).bind fun _ => spanned_blames)
      (Blames.pure.bind fun _ => spanned_blames)

theorem arrayLiteral_blames {opening close : Symbol} :
    Blames tokens (arrayLiteral expression opening close start) := by
  have hitem : Blames tokens (arrayItem expression) :=
    .peek fun _ _ => isAt_blames.bind fun _ => .guard <| isAt_blames.bind fun _ => .guard <|
      he.bind fun _ => accept_blames.bind fun _ =>
        .ite (he.bind fun _ => spanned_blames) spanned_blames
  have hslot : Blames tokens (arraySlot expression close) :=
    accept_blames.bind fun _ => .ite .pure <| accept_blames.bind fun _ => .ite .pure <|
      hitem.bind fun _ => accept_blames.bind fun _ => .ite .pure <|
        expect_blames.bind fun _ => .pure
  exact expect_blames.bind fun _ => (gather_blames hslot).bind fun _ => spanned_blames

theorem arrowFunction_blames : Blames tokens (arrowFunction expression start) :=
  expect_blames.bind fun _ => refuseByRefReturn_blames.bind fun _ =>
    parameterList_blames.bind fun _ => skipReturnType_blames.bind fun _ =>
      expect_blames.bind fun _ => he.bind fun _ => spanned_blames

omit he in
theorem nameOrConstant_blames : Blames tokens (nameOrConstant start) :=
  name_blames.bind fun _ => isAt_blames.bind fun _ => isAt_blames.bind fun _ => .ite .pure .pure

include hb

omit he in
theorem closure_blames : Blames tokens (closure block start) :=
  expect_blames.bind fun _ => refuseByRefReturn_blames.bind fun _ =>
    parameterList_blames.bind fun _ => closureBindings_blames.bind fun _ =>
      skipReturnType_blames.bind fun _ => hb.bind fun _ => spanned_blames

/-- A number without a value is the token at the cursor. -/
theorem primary_blames : Blames tokens (primary expression block) := by
  refine .peek fun token htoken => ?_
  dsimp only
  split
  · exact advance_blames.bind fun _ => .pure
  · next hkind =>
    refine advance_blames.bind fun _ => ?_
    split
    · exact .pure
    · next hnone => exact .throw ⟨token, htoken, rfl, .inl ⟨hkind, hnone⟩⟩
  · next hkind =>
    refine advance_blames.bind fun _ => ?_
    split
    · exact .pure
    · next hnone => exact .throw ⟨token, htoken, rfl, .inr ⟨hkind, hnone⟩⟩
  · exact advance_blames.bind fun _ => .pure
  · refine advance_blames.bind fun _ => ?_
    split
    · exact .pure
    · exact other_blames
  · exact arrayLiteral_blames he
  · exact following_blames.bind fun _ =>
      .ite (advance_blames.bind fun _ => arrayLiteral_blames he) .complain
  · exact advance_blames.bind fun _ => enclosed_blames he
  · exact construction_blames he
  · exact arrowFunction_blames he
  · exact closure_blames hb
  · refine following_blames.bind fun _ => ?_
    split
    · exact advance_blames.bind fun _ => arrowFunction_blames he
    · exact advance_blames.bind fun _ => closure_blames hb
    · exact nameOrConstant_blames
  · exact nameOrConstant_blames
  · exact nameOrConstant_blames
  · exact .complain

end

/-! ## Statements -/

section

variable {expression statement : Parser Node} {start : Span}

theorem modifiers_blames : Blames tokens modifiers := by
  have hstep : Blames tokens modifier := by
    refine .peek fun _ _ => ?_
    split
    · exact advance_blames.bind fun _ => .pure
    · exact .pure
  exact (gather_blames hstep).bind fun _ => .pure

theorem skipUntil_blames {mark : Symbol} : Blames tokens (skipUntil mark) :=
  (gather_blames <| isAt_blames.bind fun _ => isAt_blames.bind fun _ =>
    .ite .pure <| advance_blames.bind fun _ => .pure).bind fun _ => .pure

section

variable (hs : Blames tokens statement)

include hs

theorem statementsUntil_blames {close : Symbol} :
    Blames tokens (statementsUntil close statement) := by
  have hstep : Blames tokens (statementUntil close statement) :=
    isAt_blames.bind fun _ => .ite .pure <| isAt_blames.bind fun _ => .guard <|
      accept_blames.bind fun _ => .ite .pure <| hs.bind fun _ => .pure
  exact (gather_blames hstep).bind fun _ => expect_blames.bind fun _ => .pure

theorem block_blames : Blames tokens (block statement) :=
  expect_blames.bind fun _ => statementsUntil_blames hs

theorem method_blames {flags : Modifiers} : Blames tokens (method statement flags start) :=
  refuseByRefReturn_blames.bind fun _ => identifier_blames.bind fun _ =>
    parameterList_blames.bind fun _ => skipReturnType_blames.bind fun _ =>
      accept_blames.bind fun _ => .ite (Blames.pure.bind fun _ => spanned_blames)
        ((block_blames hs).map.bind fun _ => spanned_blames)

theorem functionDeclaration_blames : Blames tokens (functionDeclaration statement) :=
  expect_blames.bind fun _ => identifier_blames.bind fun _ => parameterList_blames.bind fun _ =>
    skipReturnType_blames.bind fun _ => (block_blames hs).bind fun _ => other_blames

end

variable (he : Blames tokens expression)

include he

theorem property_blames {flags : Modifiers} : Blames tokens (property expression flags start) := by
  have hitem : Blames tokens (propertyItem expression) :=
    expect_blames.bind fun _ => accept_blames.bind fun _ =>
      .ite (he.map.bind fun _ => spanned_blames) (Blames.pure.bind fun _ => spanned_blames)
  exact skipType_blames.bind fun _ => (commaSeparated_blames hitem).bind fun _ =>
    terminator_blames.bind fun _ => spanned_blames

theorem condition_blames : Blames tokens (condition expression) :=
  expect_blames.bind fun _ => enclosed_blames he

theorem returnStatement_blames : Blames tokens (returnStatement expression start) := by
  have hend : ∀ value, Blames tokens do
      terminator
      return Node.returns value (← spanFrom start) :=
    fun _ => terminator_blames.bind fun _ => spanned_blames
  exact advance_blames.bind fun _ => isAt_blames.bind fun _ => isAt_blames.bind fun _ =>
    .ite (Blames.pure.bind hend) (he.map.bind hend)

theorem expressionStatement_blames : Blames tokens (expressionStatement expression start) :=
  he.bind fun _ => terminator_blames.bind fun _ => spanned_blames

variable (hs : Blames tokens statement)

include hs

theorem classDeclaration_blames : Blames tokens (classDeclaration expression statement start) := by
  have htraits : ∀ start, Blames tokens (traitUse start) := fun _ =>
    (commaSeparated_blames name_blames).bind fun _ => terminator_blames.bind fun _ => other_blames
  have hmember : Blames tokens (classMember expression statement) :=
    .peek fun _ _ => accept_blames.bind fun _ => .ite (htraits _) <|
      isAt_blames.bind fun _ => .guard <| modifiers_blames.bind fun _ =>
        accept_blames.bind fun _ => .ite (method_blames hs) <|
          .ite (.peek fun _ _ => .guard .complain) (property_blames he)
  have hstep : Blames tokens (classMemberUntil expression statement) :=
    accept_blames.bind fun _ => .ite .pure <| isAt_blames.bind fun _ => .guard <|
      hmember.bind fun _ => .pure
  exact expect_blames.bind fun _ => identifier_blames.bind fun _ => .peek fun _ _ => .guard <|
    expect_blames.bind fun _ => (gather_blames hstep).bind fun _ => spanned_blames

theorem modifiedClass_blames : Blames tokens (modifiedClass expression statement start) := by
  have hstep : Blames tokens classModifier := by
    refine .peek fun _ _ => ?_
    split
    all_goals first | exact .pure | exact advance_blames.bind fun _ => .pure
  exact (gather_blames hstep).bind fun _ => classDeclaration_blames he hs

theorem conditional_blames : Blames tokens (conditional expression statement) := by
  have hstep : Blames tokens (branch expression statement) :=
    .peek fun _ _ => accept_blames.bind fun _ => .ite
      ((condition_blames he).bind fun _ => hs.bind fun _ => other_blames.bind fun _ => .pure)
      (accept_blames.bind fun _ => .ite (hs.bind fun _ => other_blames.bind fun _ => .pure) .pure)
  exact expect_blames.bind fun _ => (condition_blames he).bind fun _ => hs.bind fun _ =>
    (gather_blames hstep).bind fun _ => other_blames

theorem statementBody_blames : Blames tokens (statementBody expression statement) := by
  refine .peek fun _ _ => ?_
  dsimp only
  split
  · exact advance_blames.bind fun _ => other_blames
  · exact advance_blames.bind fun _ => other_blames
  · exact (block_blames hs).bind fun _ => other_blames
  · exact returnStatement_blames he
  · exact advance_blames.bind fun _ => (commaSeparated_blames he).bind fun _ =>
      terminator_blames.bind fun _ => other_blames
  · exact conditional_blames he hs
  · exact advance_blames.bind fun _ => skipUntil_blames.bind fun _ =>
      terminator_blames.bind fun _ => other_blames
  · exact advance_blames.bind fun _ => expect_blames.bind fun _ => skipUntil_blames.bind fun _ =>
      expect_blames.bind fun _ => terminator_blames.bind fun _ => other_blames
  · exact following_blames.bind fun _ =>
      .ite (functionDeclaration_blames hs) (expressionStatement_blames he)
  · exact classDeclaration_blames he hs
  iterate 3 exact modifiedClass_blames he hs
  · exact .complain
  · exact .complain
  · exact expressionStatement_blames he

end

/-! ## Levels -/

/-- The parsers of a grammar fail only with errors about tokens of the row. -/
structure Grammar.IsBlaming (tokens : List Token) (g : Grammar) : Prop where
  expression : Blames tokens g.expression
  statement : Blames tokens g.statement
  operand : Blames tokens g.operand
  operators : ∀ least start left, Blames tokens (g.operators least start left)
  links : ∀ start base, Blames tokens (g.links start base)

namespace Grammar

theorem operatorFrom?_blames {least : Nat} : Blames tokens (operatorFrom? least) := by
  refine .peek fun _ _ => ?_
  dsimp only
  split
  · exact .pure
  · exact .pure

theorem assignment?_blames {kind : TokenKind} {node : Node → Node → Span → Parser Node}
    (h : assignment? kind = some node) (target value : Node) (start : Span) :
    Blames tokens (node target value start) := by
  unfold assignment? at h
  split at h
  all_goals cases h
  all_goals exact spanned_blames

theorem closed_isBlaming : IsBlaming tokens closed where
  expression := .tooDeep
  statement := .tooDeep
  operand := .tooDeep
  operators _ _ _ := operatorFrom?_blames.bind fun operator => by
    split
    · exact .tooDeep
    · exact .pure
  links _ _ := .peek fun _ _ => .ite .tooDeep .pure

section

variable {g : Grammar} (hg : g.IsBlaming tokens)

include hg

theorem unary_blames : Blames tokens g.unary := by
  have hpostfix : Blames tokens g.postfixExpression :=
    .chain <| .peek fun _ _ => (primary_blames hg.expression (block_blames hg.statement)).bind
      fun _ => hg.links _ _
  refine .peek fun _ _ => ?_
  split
  · exact advance_blames.bind fun _ => hg.operand.bind fun _ => other_blames
  · exact hpostfix

theorem binary_blames (least : Nat) : Blames tokens (g.binary least) :=
  .chain <| .peek fun _ _ => (unary_blames hg).bind fun _ => hg.operators _ _ _

theorem assignment_blames : Blames tokens g.assignment := by
  refine .peek fun _ _ => (binary_blames hg 0).bind fun _ => .peek fun _ _ => ?_
  split
  · next node hnode =>
    exact .guard <| advance_blames.bind fun _ => hg.expression.bind fun _ =>
      assignment?_blames hnode _ _ _
  · exact .pure

theorem deeper_isBlaming : g.deeper.IsBlaming tokens where
  expression := (assignment_blames hg).within
  statement := (statementBody_blames hg.expression hg.statement).within
  operand := (unary_blames hg).within
  operators _ _ _ := operatorFrom?_blames.bind fun operator => by
    split
    · exact link_blames.bind fun _ => advance_blames.bind fun _ => (binary_blames hg _).bind
        fun _ => (Blames.ite spanned_blames other_blames).bind fun _ => hg.operators _ _ _
    · exact .pure
  links _ _ := .peek fun _ _ => .ite
    (link_blames.bind fun _ => (postfixLink_blames hg.expression).bind fun _ => hg.links _ _) .pure

end

theorem ofLevels_isBlaming (levels : Nat) : (ofLevels levels).IsBlaming tokens := by
  induction levels with
  | zero => exact closed_isBlaming
  | succ levels ih => exact deeper_isBlaming ih

end Grammar

theorem statement_blames : Blames tokens statement where
  ok hc h := (Grammar.ofLevels_isBlaming _).statement.ok hc h
  error hc h := (Grammar.ofLevels_isBlaming _).statement.error hc h

/-! ## Programs -/

theorem namespaceBlock_blames : Blames tokens namespaceBlock := by
  have hstep : Blames tokens statementInNamespace :=
    isAt_blames.bind fun _ => isAt_blames.bind fun _ => .ite .pure <|
      accept_blames.bind fun _ => .ite .pure <| statement_blames.bind fun _ => .pure
  have hbody : ∀ label, Blames tokens (namespaceBody label) := fun _ =>
    accept_blames.bind fun _ => .ite (statementsUntil_blames statement_blames) <|
      .guard <| terminator_blames.bind fun _ => (gather_blames hstep).bind fun _ => .pure
  have hrest : ∀ start label, Blames tokens do
      let body ← namespaceBody label
      return Node.namespaceBlock label body (← spanFrom start) :=
    fun _ label => (hbody label).bind fun _ => spanned_blames
  exact expect_blames.bind fun _ => isAt_blames.bind fun _ =>
    .ite (Blames.pure.bind (hrest _)) (name_blames.map.bind (hrest _))

theorem program_blames : Blames tokens program := by
  have hstep : Blames tokens topLevel :=
    isAt_blames.bind fun _ => .ite .pure <| accept_blames.bind fun _ => .ite .pure <|
      isAt_blames.bind fun _ => .ite (namespaceBlock_blames.bind fun _ => .pure) <|
        statement_blames.bind fun _ => .pure
  exact (gather_blames hstep).bind fun _ => .pure

/-- A source text is refused by the scanner, or for one of its tokens. -/
theorem source_error_cases {text : String} {e : ParseError}
    (hsize : text.utf8ByteSize ≤ Span.limit) (h : source text = .error e) :
    (∃ error, e = .scan error ∧ Token.scan text = .error error) ∨
      ∃ tokens, Token.scan text = .ok tokens ∧ e.IsAbout tokens := by
  unfold source Parse.start at h
  cases hscan : Token.scan text with
  | error error =>
    rw [hscan] at h
    cases h
    exact .inl ⟨error, rfl, rfl⟩
  | ok tokens =>
    have hc := Cursor.isOn_of_scan hsize hscan
    simp only [hscan, bind, Except.bind, resume] at h
    split at h
    · cases h
    · next herror =>
      cases h
      exact .inr ⟨tokens, rfl, program_blames.error hc herror⟩

end Parse

end PhpScript
