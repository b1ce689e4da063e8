import PhpScript.Proofs.Parse.RoundTrip

/-!
# The depth after parsing

A cursor can be read on after a program, also after one that failed. What a
reading may leave behind is its depth: levels that have been entered and not left
are missing to the next one.

`Balances p` says that the parser `p` leaves the depth as it was, and that only a
refused level may count on. A chain brings the depth back whatever happens in it,
so nothing has to be said about what is read in chains.

* `resume_depth`: a reading leaves the depth as it was, unless it fails as a level
  is refused; and then it may be one higher. `resumed_depth` says what follows for
  any number of readings.
* `refusedLevel_counts_on`: there is a reading that leaves it one higher, and then
  one more that is refused only for that.
-/

namespace PhpScript.Parse

/-! ## Balance -/

/-- The parser leaves the depth as it was, or fails as a level is refused and leaves
    it one higher. -/
structure Balances (p : Parser α) : Prop where
  ok : ∀ {c after : Cursor} {a : α}, p c = .ok a after → after.depth = c.depth
  error : ∀ {c after : Cursor} {e : ParseError}, p c = .error e after →
    after.depth = c.depth ∨ (∃ span, e = .tooDeep span) ∧ after.depth = c.depth + 1

section

variable {p q : Parser α} {f : α → Parser β}

namespace Balances

/-- A parser that never fails and does not touch the depth. -/
theorem of_ok (h : ∀ c, ∃ a after, p c = .ok a after ∧ after.depth = c.depth) : Balances p where
  ok {c after a} hp := by
    obtain ⟨b, after', hb, hdepth⟩ := h c
    cases hb.symm.trans hp
    exact hdepth
  error {c after e} hp := by
    obtain ⟨b, after', hb, hdepth⟩ := h c
    cases hb.symm.trans hp

theorem pure {a : α} : Balances (Pure.pure a) := of_ok fun c => ⟨a, c, rfl, rfl⟩

theorem bind (hp : Balances p) (hf : ∀ a, Balances (f a)) : Balances (p >>= f) where
  ok {c after b} h := by
    simp only [Bind.bind, EStateM.bind] at h
    split at h
    · next a between hpa => rw [(hf a).ok h, hp.ok hpa]
    · cases h
  error {c after e} h := by
    simp only [Bind.bind, EStateM.bind] at h
    split at h
    · next a between hpa =>
      rw [← hp.ok hpa]
      exact (hf a).error h
    · next hpe =>
      cases h
      exact hp.error hpe

theorem map {g : α → β} (hp : Balances p) : Balances (g <$> p) := by
  rw [map_eq_pure_bind]
  exact hp.bind fun _ => pure

theorem ite {b : Prop} [Decidable b] (hp : Balances p) (hq : Balances q) :
    Balances (if b then p else q) := by
  split
  · exact hp
  · exact hq

theorem complain {complaint : Complaint} : Balances (Parse.complain complaint : Parser α) where
  ok h := by cases h
  error h := by
    cases h
    exact .inl rfl

/-- A refused level counts as entered. -/
theorem tooDeep : Balances (Parse.tooDeep : Parser α) where
  ok h := by cases h
  error h := by
    cases h
    exact .inr ⟨⟨_, rfl⟩, rfl⟩

theorem guard {b : Prop} [Decidable b] {complaint : Complaint} {k : Unit → Parser α}
    (hk : Balances (k ())) : Balances (if b then Parse.complain complaint >>= k else k ()) :=
  .ite (complain.bind fun _ => hk) hk

theorem within (hp : Balances p) : Balances (Parse.within p) where
  ok {c after a} h := by
    simp only [Parse.within] at h
    split at h
    · next hpa =>
      cases h
      simp [hp.ok hpa]
    · cases h
  error {c after e} h := by
    simp only [Parse.within] at h
    split at h
    · cases h
    · next hpe =>
      cases h
      rcases hp.error hpe with hdepth | ⟨hdeep, hdepth⟩
      · exact .inl (by simp [hdepth])
      · exact .inr ⟨hdeep, by simp [hdepth]⟩

/-- A chain leaves the depth as it was, whatever is read in it. -/
theorem chain (p : Parser α) : Balances (Parse.chain p) where
  ok {c after a} h := by
    simp only [Parse.chain] at h
    split at h
    · cases h
      rfl
    · cases h
  error {c after e} h := by
    simp only [Parse.chain] at h
    split at h
    · cases h
    · cases h
      exact .inl rfl

end Balances

/-! ## Tokens -/

theorem current_balances : Balances current := .of_ok fun _ => ⟨_, _, rfl, rfl⟩

theorem following_balances : Balances following := .of_ok fun _ => ⟨_, _, rfl, rfl⟩

theorem isAt_balances {kind : TokenKind} : Balances (isAt kind) := .of_ok fun _ => ⟨_, _, rfl, rfl⟩

theorem advance_balances : Balances advance := .of_ok fun _ => ⟨_, _, rfl, rfl⟩

theorem spanFrom_balances {start : Span} : Balances (spanFrom start) :=
  .of_ok fun _ => ⟨_, _, rfl, rfl⟩

theorem accept_balances {kind : TokenKind} : Balances (accept kind) :=
  isAt_balances.bind fun _ => .ite (advance_balances.bind fun _ => .pure) .pure

theorem expect_balances {kind : TokenKind} : Balances (expect kind) :=
  isAt_balances.bind fun _ => .ite advance_balances .complain

theorem terminator_balances : Balances terminator :=
  accept_balances.bind fun _ => .ite .pure <| accept_balances.bind fun _ => .ite .pure .complain

theorem other_balances {kind : String} {children : List Node} {start : Span} :
    Balances (other kind children start) :=
  spanFrom_balances.bind fun _ => .pure

/-! ## Repetition -/

theorem gatherFor_balances {step : Parser (Round α)} (h : Balances step) (bound : List Token) :
    Balances (gatherFor step bound) := by
  induction bound with
  | nil =>
    refine h.bind fun r => ?_
    cases r with
    | stop => exact .pure
    | last a => exact .pure
    | more a => exact .pure
  | cons t bound ih =>
    refine h.bind fun r => ?_
    cases r with
    | stop => exact .pure
    | last a => exact .pure
    | more a => exact ih.bind fun _ => .pure

theorem gather_balances {step : Parser (Round α)} (h : Balances step) : Balances (gather step) where
  ok {c _ _} hg := (gatherFor_balances h c.rest).ok hg
  error {c _ _} hg := (gatherFor_balances h c.rest).error hg

theorem commaItem_balances (h : Balances p) : Balances (commaItem p) :=
  h.bind fun _ => accept_balances.bind fun _ => .ite .pure .pure

theorem commaSeparated_balances (h : Balances p) : Balances (commaSeparated p) :=
  gather_balances (commaItem_balances h)

theorem commaListUntil_balances {close : Symbol} (h : Balances p) :
    Balances (commaListUntil close p) :=
  gather_balances <| isAt_balances.bind fun _ => .ite .pure (commaItem_balances h)

end

/-! ## Names, types and parameters -/

theorem identifier_balances : Balances identifier :=
  current_balances.bind fun _ => .guard <| advance_balances.bind fun _ => .pure

theorem namePart_balances : Balances namePart :=
  current_balances.bind fun _ => .guard <| advance_balances.bind fun _ =>
    isAt_balances.bind fun _ => following_balances.bind fun _ =>
      .ite (advance_balances.bind fun _ => .pure) .pure

theorem name_balances : Balances name :=
  current_balances.bind fun _ => accept_balances.bind fun _ =>
    (gather_balances namePart_balances).bind fun _ => spanFrom_balances.bind fun _ => .pure

theorem typePart_balances : Balances typePart := by
  refine current_balances.bind fun t => ?_
  split
  · exact advance_balances.bind fun _ => .pure
  all_goals try exact .pure
  all_goals
    refine advance_balances.bind fun _ => current_balances.bind fun t => ?_
    split
    · exact .pure
    · exact advance_balances.bind fun _ => .pure
    · exact following_balances.bind fun _ => .ite .pure (advance_balances.bind fun _ => .pure)
    · exact .pure

theorem skipType_balances : Balances skipType :=
  accept_balances.bind fun _ => (gather_balances typePart_balances).bind fun _ => .guard .pure

theorem skipReturnType_balances : Balances skipReturnType :=
  accept_balances.bind fun _ =>
    .ite (skipType_balances.bind fun _ => .ite .complain .pure) .pure

theorem parameter_balances : Balances parameter :=
  current_balances.bind fun _ => current_balances.bind fun _ => .guard <|
    skipType_balances.bind fun _ => isAt_balances.bind fun _ => .guard <|
      isAt_balances.bind fun _ => .guard <| expect_balances.bind fun _ =>
        isAt_balances.bind fun _ => .guard <| spanFrom_balances.bind fun _ => .pure

theorem parameterList_balances : Balances parameterList :=
  expect_balances.bind fun _ => (commaListUntil_balances parameter_balances).bind fun _ =>
    expect_balances.bind fun _ => .pure

theorem refuseByRefReturn_balances : Balances refuseByRefReturn :=
  isAt_balances.bind fun _ => .ite .complain .pure

/-! ## Statements -/

section

variable {expression statement : Parser Node} {start : Span}

theorem statementsUntil_balances (hs : Balances statement) {close : Symbol} :
    Balances (statementsUntil close statement) := by
  have hstep : Balances (statementUntil close statement) :=
    isAt_balances.bind fun _ => .ite .pure <| isAt_balances.bind fun _ => .guard <|
      accept_balances.bind fun _ => .ite .pure <| hs.bind fun _ => .pure
  exact (gather_balances hstep).bind fun _ => expect_balances.bind fun _ => .pure

theorem block_balances (hs : Balances statement) : Balances (block statement) :=
  expect_balances.bind fun _ => statementsUntil_balances hs

theorem modifiers_balances : Balances modifiers := by
  have hstep : Balances modifier := by
    refine current_balances.bind fun t => ?_
    split
    · exact advance_balances.bind fun _ => .pure
    · exact .pure
  exact (gather_balances hstep).bind fun _ => .pure

theorem skipUntil_balances {mark : Symbol} : Balances (skipUntil mark) :=
  (gather_balances <| isAt_balances.bind fun _ => isAt_balances.bind fun _ =>
    .ite .pure <| advance_balances.bind fun _ => .pure).bind fun _ => .pure

theorem propertyItem_balances (he : Balances expression) : Balances (propertyItem expression) :=
  expect_balances.bind fun _ => accept_balances.bind fun _ =>
    .ite (he.map.bind fun _ => spanFrom_balances.bind fun _ => .pure)
      (Balances.pure.bind fun _ => spanFrom_balances.bind fun _ => .pure)

theorem traitUse_balances : Balances (traitUse start) :=
  (commaSeparated_balances name_balances).bind fun _ => terminator_balances.bind fun _ =>
    other_balances

theorem method_balances (hs : Balances statement) {flags : Modifiers} :
    Balances (method statement flags start) :=
  refuseByRefReturn_balances.bind fun _ => identifier_balances.bind fun _ =>
    parameterList_balances.bind fun _ => skipReturnType_balances.bind fun _ =>
      accept_balances.bind fun _ =>
        .ite (Balances.pure.bind fun _ => spanFrom_balances.bind fun _ => .pure)
          ((block_balances hs).map.bind fun _ => spanFrom_balances.bind fun _ => .pure)

theorem property_balances (he : Balances expression) {flags : Modifiers} :
    Balances (property expression flags start) :=
  skipType_balances.bind fun _ => (commaSeparated_balances (propertyItem_balances he)).bind fun _ =>
    terminator_balances.bind fun _ => spanFrom_balances.bind fun _ => .pure

theorem classMember_balances (he : Balances expression) (hs : Balances statement) :
    Balances (classMember expression statement) :=
  current_balances.bind fun _ => accept_balances.bind fun _ => .ite traitUse_balances <|
    isAt_balances.bind fun _ => .guard <| modifiers_balances.bind fun _ =>
      accept_balances.bind fun _ => .ite (method_balances hs) <|
        .ite (current_balances.bind fun _ => .guard .complain) (property_balances he)

theorem classDeclaration_balances (he : Balances expression) (hs : Balances statement) :
    Balances (classDeclaration expression statement start) := by
  have hstep : Balances (classMemberUntil expression statement) :=
    accept_balances.bind fun _ => .ite .pure <| isAt_balances.bind fun _ => .guard <|
      (classMember_balances he hs).bind fun _ => .pure
  exact expect_balances.bind fun _ => identifier_balances.bind fun _ =>
    current_balances.bind fun _ => .guard <| expect_balances.bind fun _ =>
      (gather_balances hstep).bind fun _ => spanFrom_balances.bind fun _ => .pure

theorem modifiedClass_balances (he : Balances expression) (hs : Balances statement) :
    Balances (modifiedClass expression statement start) := by
  have hstep : Balances classModifier := by
    refine current_balances.bind fun t => ?_
    split
    all_goals first | exact .pure | exact advance_balances.bind fun _ => .pure
  exact (gather_balances hstep).bind fun _ => classDeclaration_balances he hs

theorem condition_balances (he : Balances expression) : Balances (condition expression) :=
  expect_balances.bind fun _ => he.bind fun _ => expect_balances.bind fun _ => .pure

theorem conditional_balances (he : Balances expression) (hs : Balances statement) :
    Balances (conditional expression statement) := by
  have hstep : Balances (branch expression statement) :=
    current_balances.bind fun _ => accept_balances.bind fun _ => .ite
      ((condition_balances he).bind fun _ => hs.bind fun _ => other_balances.bind fun _ => .pure)
      (accept_balances.bind fun _ =>
        .ite (hs.bind fun _ => other_balances.bind fun _ => .pure) .pure)
  exact expect_balances.bind fun _ => (condition_balances he).bind fun _ => hs.bind fun _ =>
    (gather_balances hstep).bind fun _ => other_balances

theorem functionDeclaration_balances (hs : Balances statement) :
    Balances (functionDeclaration statement) :=
  expect_balances.bind fun _ => identifier_balances.bind fun _ =>
    parameterList_balances.bind fun _ => skipReturnType_balances.bind fun _ =>
      (block_balances hs).bind fun _ => other_balances

theorem returnStatement_balances (he : Balances expression) :
    Balances (returnStatement expression start) :=
  have hend : ∀ value, Balances do
      terminator
      return Node.returns value (← spanFrom start) :=
    fun _ => terminator_balances.bind fun _ => spanFrom_balances.bind fun _ => .pure
  advance_balances.bind fun _ => isAt_balances.bind fun _ => isAt_balances.bind fun _ =>
    .ite (Balances.pure.bind hend) (he.map.bind hend)

theorem expressionStatement_balances (he : Balances expression) :
    Balances (expressionStatement expression start) :=
  he.bind fun _ => terminator_balances.bind fun _ => spanFrom_balances.bind fun _ => .pure

theorem statementBody_balances (he : Balances expression) (hs : Balances statement) :
    Balances (statementBody expression statement) := by
  refine current_balances.bind fun token => ?_
  dsimp only
  split
  · exact advance_balances.bind fun _ => other_balances
  · exact advance_balances.bind fun _ => other_balances
  · exact (block_balances hs).bind fun _ => other_balances
  · exact returnStatement_balances he
  · exact advance_balances.bind fun _ => (commaSeparated_balances he).bind fun _ =>
      terminator_balances.bind fun _ => other_balances
  · exact conditional_balances he hs
  · exact advance_balances.bind fun _ => skipUntil_balances.bind fun _ =>
      terminator_balances.bind fun _ => other_balances
  · exact advance_balances.bind fun _ => expect_balances.bind fun _ =>
      skipUntil_balances.bind fun _ => expect_balances.bind fun _ =>
        terminator_balances.bind fun _ => other_balances
  · exact following_balances.bind fun _ =>
      .ite (functionDeclaration_balances hs) (expressionStatement_balances he)
  · exact classDeclaration_balances he hs
  · exact modifiedClass_balances he hs
  · exact modifiedClass_balances he hs
  · exact modifiedClass_balances he hs
  · exact .complain
  · exact .complain
  · exact expressionStatement_balances he

end

/-! ## Levels -/

namespace Grammar

variable {g : Grammar}

/-- The parsers of a grammar that are used outside of chains. -/
structure IsBalanced (g : Grammar) : Prop where
  expression : Balances g.expression
  statement : Balances g.statement

theorem assignment?_balances {k : TokenKind} {node : Node → Node → Span → Parser Node}
    (h : assignment? k = some node) (target value : Node) (start : Span) :
    Balances (node target value start) := by
  unfold assignment? at h
  split at h
  all_goals cases h
  all_goals exact spanFrom_balances.bind fun _ => .pure

/-- The operands of an assignment's target are read in a chain, but its value is
    not. -/
theorem assignment_balances (hg : g.IsBalanced) : Balances g.assignment := by
  refine current_balances.bind fun first => (Balances.chain _).bind fun target =>
    current_balances.bind fun token => ?_
  split
  · next node hnode =>
    exact .guard <| advance_balances.bind fun _ => hg.expression.bind fun value =>
      assignment?_balances hnode target value first.span
  · exact .pure

theorem ofLevels_isBalanced (levels : Nat) : (ofLevels levels).IsBalanced := by
  induction levels with
  | zero => exact ⟨.tooDeep, .tooDeep⟩
  | succ levels ih =>
    exact ⟨(assignment_balances ih).within,
      (statementBody_balances ih.expression ih.statement).within⟩

end Grammar

theorem statement_balances : Balances statement where
  ok h := (Grammar.ofLevels_isBalanced _).statement.ok h
  error h := (Grammar.ofLevels_isBalanced _).statement.error h

/-! ## Programs -/

theorem namespaceBody_balances (label : Option Node) : Balances (namespaceBody label) := by
  have hstep : Balances statementInNamespace :=
    isAt_balances.bind fun _ => isAt_balances.bind fun _ => .ite .pure <|
      accept_balances.bind fun _ => .ite .pure <| statement_balances.bind fun _ => .pure
  exact accept_balances.bind fun _ => .ite (statementsUntil_balances statement_balances) <|
    .guard <| terminator_balances.bind fun _ => (gather_balances hstep).bind fun _ => .pure

theorem namespaceBlock_balances : Balances namespaceBlock :=
  have hrest : ∀ start label, Balances do
      let body ← namespaceBody label
      return Node.namespaceBlock label body (← spanFrom start) :=
    fun _ label => (namespaceBody_balances label).bind fun _ =>
      spanFrom_balances.bind fun _ => .pure
  expect_balances.bind fun token => isAt_balances.bind fun _ =>
    .ite (Balances.pure.bind (hrest token.span)) (name_balances.map.bind (hrest token.span))

theorem program_balances : Balances program := by
  have hstep : Balances topLevel :=
    isAt_balances.bind fun _ => .ite .pure <| accept_balances.bind fun _ => .ite .pure <|
      isAt_balances.bind fun _ => .ite (namespaceBlock_balances.bind fun _ => .pure) <|
        statement_balances.bind fun _ => .pure
  exact (gather_balances hstep).bind fun _ => .pure

/-! ## Reading on -/

/-- One reading leaves the depth as it was, or one higher if it fails as a level is
    refused. -/
theorem resume_depth (c : Cursor) :
    (resume c).2.depth = c.depth ∨
      (∃ span, (resume c).1 = .error (.tooDeep span)) ∧ (resume c).2.depth = c.depth + 1 := by
  unfold resume
  cases h : program c with
  | ok nodes after => exact .inl (program_balances.ok h)
  | error e after =>
    rcases program_balances.error h with hdepth | ⟨⟨span, rfl⟩, hdepth⟩
    · exact .inl hdepth
    · exact .inr ⟨⟨span, rfl⟩, hdepth⟩

/-- The cursor after a number of readings. -/
def resumed : (times : Nat) → Cursor → Cursor
  | 0, c => c
  | n + 1, c => resumed n (resume c).2

/-- Whether a reading failed as a level was refused. -/
def isRefused : Except ParseError (List Node) → Bool
  | .error (.tooDeep _) => true
  | _ => false

theorem resumed_depth_le (times : Nat) (c : Cursor) :
    (resumed times c).depth ≤ c.depth + (resumeTimes times c).countP isRefused := by
  induction times generalizing c with
  | zero => exact Nat.le_refl _
  | succ n ih =>
    have hstep : resumeTimes (n + 1) c = (resume c).1 :: resumeTimes n (resume c).2 := rfl
    have hrest := ih (resume c).2
    rw [hstep, resumed, List.countP_cons]
    rcases resume_depth c with hdepth | ⟨⟨span, hrefused⟩, hdepth⟩
    · omega
    · rw [hrefused]
      simp only [isRefused, if_true]
      omega

/-- Over any number of readings of a source text, the next one leaves the depth as
    it was, or one higher if it fails as a level is refused. So there are at most
    as many levels missing as readings failed for that; and after readings that
    did not, the next one has them all. -/
theorem resumed_depth {text : String} {c₀ : Cursor} (h : start text = .ok c₀) (times : Nat) :
    let c := resumed times c₀
    ((resume c).2.depth = c.depth ∨
      (∃ span, (resume c).1 = .error (.tooDeep span)) ∧ (resume c).2.depth = c.depth + 1) ∧
    c.depth ≤ (resumeTimes times c₀).countP isRefused ∧
    ((∀ r ∈ resumeTimes times c₀, ∀ span, r ≠ .error (.tooDeep span)) →
      resume c = resume { c with depth := 0 }) := by
  intro c
  have hstart : c₀.depth = 0 := by
    unfold start at h
    split at h
    · cases h
      rfl
    · cases h
  have hle : c.depth ≤ (resumeTimes times c₀).countP isRefused := by
    simpa [hstart] using resumed_depth_le times c₀
  refine ⟨resume_depth c, hle, fun hnone => ?_⟩
  have hcount : (resumeTimes times c₀).countP isRefused = 0 := by
    rw [List.countP_eq_zero]
    intro r hr hrefused
    unfold isRefused at hrefused
    split at hrefused
    · next span => exact hnone _ hr span rfl
    · cases hrefused
  have hdepth : c.depth = 0 := Nat.le_zero.1 (hcount ▸ hle)
  rw [← hdepth]

/-- Whether the readings are one that misses a semicolon and then one of a variable. -/
def isSemicolonMissed : List (Except ParseError (List Node)) → Bool
  | [.error (.unexpected ..), .ok [.expression (.var "b" _) _]] => true
  | _ => false

/-- After a reading that misses a semicolon, the next one has all levels. -/
theorem semicolonMissed_resumed_depth :
    ∃ c₀, start "<?php $a $b;" = .ok c₀ ∧ isSemicolonMissed (resumeTimes 2 c₀) ∧
      resume (resumed 1 c₀) = resume { resumed 1 c₀ with depth := 0 } := by
  have hcheck : (start "<?php $a $b;").toOption.any fun c =>
      isSemicolonMissed (resumeTimes 2 c) := by
    decide +kernel
  cases hstart : start "<?php $a $b;" with
  | error e =>
    rw [hstart] at hcheck
    cases hcheck
  | ok c₀ =>
    have hmissed : isSemicolonMissed (resumeTimes 2 c₀) := by rwa [hstart] at hcheck
    refine ⟨c₀, rfl, hmissed, (resumed_depth hstart 1).2.2 fun r hr span => ?_⟩
    have hfirst : resumeTimes 2 c₀ = r :: resumeTimes 1 (resume c₀).2 := by
      rw [List.mem_singleton.1 hr]
      rfl
    rw [hfirst] at hmissed
    rintro rfl
    cases hmissed

/-! ## A level that counts on -/

open Written Piece Grammar

theorem bind_eq_error {p : Parser α} {f : α → Parser β} {c after : Cursor} {e : ParseError}
    (h : p c = .error e after) : (p >>= f) c = .error e after := by
  simp only [Bind.bind, EStateM.bind, h]

theorem gather_eq_error {step : Parser (Round α)} {c after : Cursor} {e : ParseError}
    (h : step c = .error e after) : gather step c = .error e after := by
  unfold gather
  cases c.rest with
  | nil => exact bind_eq_error h
  | cons t bound => exact bind_eq_error h

/-- A block fails with its first statement. -/
theorem block_eq_error {statement : Parser Node} {t : Token} {rest : List Token}
    {lastStop depth : Nat} {after : Cursor} {e : ParseError} (ht : t.kind = .symbol .openBrace)
    (hclose : kindAt rest ≠ .symbol .closeBrace) (heof : kindAt rest ≠ .endOfFile)
    (htag : kindAt rest ≠ .symbol .closeTag)
    (h : statement ⟨rest, t.span.stop, depth⟩ = .error e after) :
    block statement ⟨t :: rest, lastStop, depth⟩ = .error e after := by
  let inner : Cursor := ⟨rest, t.span.stop, depth⟩
  have hstep : statementUntil .closeBrace statement inner = .error e after := by
    rw [statementUntil, isAt_bind_eq (c := inner) hclose, if_neg Bool.false_ne_true,
      isAt_bind_eq (c := inner) heof, if_neg Bool.false_ne_true]
    refine (accept_bind_eq (c := inner) htag _).trans ?_
    rw [if_neg Bool.false_ne_true]
    exact bind_eq_error h
  have hexpect : expect (.symbol .openBrace) ⟨t :: rest, lastStop, depth⟩ =
      .ok t ⟨rest, t.span.stop, depth⟩ := by
    simp [expect, Bind.bind, EStateM.bind, isAt, advance, Cursor.current, ht]
  simp only [block, Bind.bind, EStateM.bind, hexpect]
  exact bind_eq_error (gather_eq_error hstep)

/-- Opened blocks take up the levels, and the statement in the last of them is
    refused. -/
theorem statement_openBlocks {opened rest : List Token}
    (hopened : ∀ t ∈ opened, t.kind = .symbol .openBrace) (hrest : beginsTerm (kindAt rest))
    (lastStop depth : Nat) :
    ∃ span stop, (ofLevels opened.length).statement ⟨opened ++ rest, lastStop, depth⟩ =
      .error (.tooDeep span) ⟨rest, stop, depth + 1⟩ := by
  induction opened generalizing lastStop depth with
  | nil => exact ⟨_, lastStop, rfl⟩
  | cons t opened ih =>
    rw [List.forall_mem_cons] at hopened
    obtain ⟨span, stop, hinner⟩ := ih hopened.2 t.span.stop (depth + 1)
    -- What stands in a block is a block or the statement after them all.
    have hkind : ∀ kind, beginsTerm kind = false → kind ≠ .symbol .openBrace →
        kindAt (opened ++ rest) ≠ kind := by
      intro kind hkind hbrace
      cases opened with
      | nil => exact ne_of_beginsTerm hrest hkind
      | cons u us => exact fun h => hbrace (h.symm.trans (hopened.2 u List.mem_cons_self))
    have hbody : statementBody (ofLevels opened.length).expression
        (ofLevels opened.length).statement ⟨t :: (opened ++ rest), lastStop, depth + 1⟩ =
          .error (.tooDeep span) ⟨rest, stop, depth + 2⟩ := by
      have hcurrent : Cursor.current ⟨t :: (opened ++ rest), lastStop, depth + 1⟩ = t := rfl
      simp only [statementBody, Bind.bind, EStateM.bind, current, hcurrent, hopened.1]
      exact bind_eq_error (block_eq_error hopened.1 (hkind _ rfl (by simp)) (hkind _ rfl (by simp))
        (hkind _ rfl (by simp)) hinner)
    refine ⟨span, stop, ?_⟩
    change within (statementBody _ _) ⟨t :: (opened ++ rest), lastStop, depth⟩ = _
    simp only [within, hbody]
    rfl

theorem isPlain_openBrace : Symbol.openBrace.isPlain := rfl

/-- Blocks that are opened and not closed, then a variable in parentheses. -/
def unclosedPieces (blocks groups : Nat) : List Piece :=
  List.replicate blocks (mark .openBrace isPlain_openBrace) ++ grouped groups
where
  /-- A variable in parentheses. -/
  grouped : Nat → List Piece
    | 0 => [.sign (.var ⟨"a", isWord_a⟩)]
    | n + 1 => paren (grouped n)

/-- The text of the program. -/
def unclosedText (blocks groups : Nat) : String := programText (unclosedPieces blocks groups)

theorem isChain_unclosedPieces (blocks groups : Nat) :
    (unclosedPieces blocks groups).IsChain Fits := by
  induction blocks with
  | zero =>
    induction groups with
    | zero => exact List.isChain_singleton _
    | succ n ih => exact isChain_paren.2 ih
  | succ n ih =>
    rw [unclosedPieces, List.replicate_succ, List.cons_append, isChain_mark rfl]
    exact ih

open unclosedPieces (grouped)

theorem grouped_reads (n L : Nat) :
    Reads (ofLevels L).expression (words (grouped n)) (isClosing ·) (n + 1 ≤ L)
      fun e => e.bare = .var "a" .unknown := by
  induction n generalizing L with
  | zero => exact (Term.place (.var ⟨"a", rfl⟩)).isRead L
  | succ n ih => exact group_expression ih

theorem grouped_beginsAsTerm (n : Nat) : BeginsAsTerm (words (grouped n)) := by
  cases n with
  | zero => exact ⟨fun _ => rfl, fun _ _ h => by cases h⟩
  | succ n =>
    rw [grouped, words_paren]
    exact ⟨fun _ => rfl, fun _ _ h => by cases h⟩

/-- A program is refused with its first statement. -/
theorem program_openBlocks {opened rest : List Token} (hlength : opened.length = maxDepth)
    (hopened : ∀ t ∈ opened, t.kind = .symbol .openBrace) (hrest : beginsTerm (kindAt rest)) :
    ∃ span stop, resume { rest := opened ++ rest } = (.error (.tooDeep span), ⟨rest, stop, 1⟩) := by
  let c : Cursor := { rest := opened ++ rest }
  have hkind : c.current.kind = .symbol .openBrace := by
    cases opened with
    | nil => cases hlength
    | cons t ts => exact hopened t List.mem_cons_self
  obtain ⟨span, stop, hrefused⟩ := statement_openBlocks hopened hrest 0 0
  have hstatement : Parse.statement c = .error (.tooDeep span) ⟨rest, stop, 1⟩ := by
    rw [hlength] at hrefused
    exact hrefused
  have htop : topLevel c = .error (.tooDeep span) ⟨rest, stop, 1⟩ := by
    rw [topLevel_eq (by simp [hkind]) (by simp [hkind]) (by simp [hkind])]
    exact bind_eq_error hstatement
  have hprogram : program c = .error (.tooDeep span) ⟨rest, stop, 1⟩ :=
    bind_eq_error (gather_eq_error htop)
  exact ⟨span, stop, by rw [resume, hprogram]⟩

/-- The program is refused for its blocks, which leaves the depth one higher. What
    is read after that is the variable, if its parentheses fit in the levels. -/
theorem unclosedText_resume (groups : Nat)
    (hsize : (unclosedText maxDepth groups).utf8ByteSize ≤ Span.limit) :
    ∃ c₀ c₁, start (unclosedText maxDepth groups) = .ok c₀ ∧
      (∃ span, resume c₀ = (.error (.tooDeep span), c₁)) ∧ c₀.depth = 0 ∧ c₁.depth = 1 ∧
      ∀ depth,
        (groups + 2 ≤ maxDepth - depth ∧ ∃ e span,
          (resume { c₁ with depth }).1 = .ok [.expression e span] ∧ e.bare = .var "a" .unknown) ∨
        (maxDepth - depth < groups + 2 ∧
          ∃ span, (resume { c₁ with depth }).1 = .error (.tooDeep span)) := by
  obtain ⟨ts, eof, hscan, hts⟩ := scan_pieces (isChain_unclosedPieces maxDepth groups) hsize
  rw [unclosedPieces, words_append, List.append_assoc, List.map_eq_append_iff] at hts
  obtain ⟨opened, rest, rfl, hopened, hrest⟩ := hts
  obtain ⟨hlength, hkinds⟩ :
      opened.length = maxDepth ∧ ∀ t ∈ opened, t.kind = .symbol .openBrace := by
    have hsigs : opened.map Token.sig = List.replicate maxDepth (.symbol .openBrace, "\x7b") := by
      have hsign : Piece.sign? (mark .openBrace) = some (.symbol .openBrace rfl) := rfl
      rw [hopened, words, List.filterMap_replicate_of_some hsign, List.map_replicate]
      rfl
    obtain ⟨hlength, hsig⟩ := List.eq_replicate_iff.1 hsigs
    refine ⟨by simpa using hlength, fun t ht => ?_⟩
    exact congrArg Prod.fst (hsig _ (List.mem_map_of_mem ht))
  have hbegins : beginsTerm (kindAt (rest ++ [⟨.endOfFile, eof, ""⟩])) := by
    rw [kindAt_append hrest, firstKind_append]
    exact (grouped_beginsAsTerm groups).begins _
  obtain ⟨span, stop, hresume⟩ := program_openBlocks hlength hkinds hbegins
  refine ⟨_, _, ?_, ⟨span, hresume⟩, rfl, rfl, fun depth => ?_⟩
  · rw [unclosedText, start, hscan, List.append_assoc]
  · let c : Cursor := ⟨rest ++ [⟨.endOfFile, eof, ""⟩], stop, depth⟩
    exact resume_reads (c := c) rfl hrest (grouped_beginsAsTerm groups) (grouped_reads groups)

/-- A reading that is refused for its blocks, and one after it that is refused only
    because the level counts on. -/
theorem refusedLevel_counts_on :
    ∃ c₀ c₁, start (unclosedText 256 254) = .ok c₀ ∧ c₁ = (resume c₀).2 ∧
      c₀.depth = 0 ∧ c₁.depth = 1 ∧
      (∃ span, (resume c₁).1 = .error (.tooDeep span)) ∧
      ∃ e span, (resume { c₁ with depth := 0 }).1 = .ok [.expression e span] := by
  have hsize : (unclosedText maxDepth 254).utf8ByteSize ≤ Span.limit := by
    rw [unclosedText, size_programText]
    decide +kernel
  obtain ⟨c₀, c₁, hstart, ⟨span, hresume⟩, hdepth₀, hdepth₁, hnext⟩ :=
    unclosedText_resume 254 hsize
  refine ⟨c₀, c₁, hstart, by rw [hresume], hdepth₀, hdepth₁, ?_, ?_⟩
  · rcases hnext 1 with ⟨hfits, -⟩ | ⟨-, hrefused⟩
    · exact absurd hfits (by decide)
    · rwa [← hdepth₁] at hrefused
  · rcases hnext 0 with ⟨-, e, span, hread, -⟩ | ⟨hfits, -⟩
    · exact ⟨e, span, hread⟩
    · exact absurd hfits (by decide)

end PhpScript.Parse
