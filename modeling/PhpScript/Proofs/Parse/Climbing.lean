import PhpScript.Proofs.Parse.Reading

/-!
# Reading through the levels

An expression is read from the inside to the outside: an expression without
operators, its accesses and calls, the operators before and between operands, an
assignment. Each of these layers reads what the one below it reads, if the next
token does not go on with it; where it does go on, what fits is counted in
levels: `n ≤ L` for what goes `n` levels deeper, with `L` of them left.
-/

namespace PhpScript.Parse

/-! ## The end of an expression -/

/-- Whether a token after an expression ends it. -/
def isClosing : TokenKind → Bool
  | .symbol .closeParen | .symbol .closeBracket | .symbol .comma | .symbol .semicolon
  | .symbol .doubleArrow => true
  | _ => false

/-- Whether a token after an operand ends it. -/
def isEnding : TokenKind → Bool
  | .symbol .dot | .symbol .equals | .symbol .plusEquals => true
  | k => isClosing k

variable {k : TokenKind}

theorem isEnding_of_isClosing (h : isClosing k) : isEnding k := by
  unfold isEnding
  split
  · rfl
  · rfl
  · rfl
  · exact h

theorem isPostfix_of_isEnding (h : isEnding k) : isPostfix k = false := by
  unfold isPostfix
  split <;> first | rfl | cases h

theorem isPostfix_of_isClosing (h : isClosing k) : isPostfix k = false :=
  isPostfix_of_isEnding (isEnding_of_isClosing h)

theorem binaryOperator?_of_isClosing (h : isClosing k) : binaryOperator? k = none := by
  unfold binaryOperator?
  split <;> first | rfl | cases h

theorem assignment?_of_isClosing (h : isClosing k) : assignment? k = none := by
  unfold assignment?
  split <;> first | rfl | cases h

namespace Grammar

variable {ws ws₁ ws₂ : List Sig} {follow follow₁ : TokenKind → Prop} {fits : Prop}
  {n n₁ n₂ L : Nat} {P Q : Node → Prop} {start : Span}

/-! ## Accesses and calls -/

theorem links_done (hfollow : ∀ k, follow k → isPostfix k = false) (base : Node) :
    Reads ((ofLevels L).links start base) [] follow True (· = base) := by
  -- With no level left the next token is looked at all the same.
  cases L with
  | zero =>
    refine Reads.peek fun t ⟨k, hk, ht⟩ _ => ?_
    rw [ht, firstKind_nil, hfollow k hk]
    exact .pure rfl
  | succ L =>
    refine Reads.peek fun t ⟨k, hk, ht⟩ _ => ?_
    rw [ht, firstKind_nil, hfollow k hk]
    exact .pure rfl

/-- An access or a call, and what comes after it. -/
theorem links_next {base : Node} (hws : ∀ k, isPostfix (firstKind ws₁ k))
    (h : ∀ L, Reads (postfixLink (ofLevels L).expression base start) ws₁ follow₁ (n₁ ≤ L) P)
    (hfollow : ∀ k, follow k → follow₁ (firstKind ws₂ k))
    (hrest : ∀ n, P n → ∀ L, Reads ((ofLevels L).links start n) ws₂ follow (n₂ ≤ L) Q) :
    Reads ((ofLevels L).links start base) (ws₁ ++ ws₂) follow (max n₁ n₂ + 1 ≤ L) Q := by
  cases L with
  | zero =>
    refine Reads.peek fun t ⟨k, _, ht⟩ _ => ?_
    rw [ht, firstKind_append, if_pos (hws _)]
    exact .nothing (by omega)
  | succ L =>
    refine Reads.peek fun t ⟨k, _, ht⟩ _ => ?_
    rw [ht, firstKind_append, if_pos (hws _)]
    refine .link (((h L).bind (fun n hn => hrest n hn L) hfollow).congr ?_)
    rw [Nat.add_le_add_iff_right, Nat.max_le]

/-- One access or call. -/
theorem links_one {base : Node} (hws : ∀ k, isPostfix (firstKind ws k))
    (hfollow : ∀ k, follow k → isPostfix k = false)
    (h : ∀ L, Reads (postfixLink (ofLevels L).expression base start) ws follow (n ≤ L) Q) :
    Reads ((ofLevels L).links start base) ws follow (n + 1 ≤ L) Q := by
  have hdone (m : Node) (hm : Q m) (L : Nat) :
      Reads ((ofLevels L).links start m) [] follow (0 ≤ L) Q :=
    ((links_done hfollow m).mono fun _ hm' => hm' ▸ hm).zero_le
  simpa using links_next hws h (fun _ hk => hk) hdone

theorem operand_of_primary (hfollow : ∀ k, follow k → isPostfix k = false)
    (h : Reads (primary (ofLevels L).expression (block (ofLevels L).statement)) ws follow fits Q) :
    Reads (ofLevels L).postfixExpression ws follow fits Q :=
  .chain <| .peek fun _ _ _ => h.bind_last fun n hn =>
    (links_done hfollow n).mono fun _ hm => hm ▸ hn

theorem operand_of_link (hws : ∀ k, isPostfix (firstKind ws₂ k))
    (hfollow : ∀ k, follow k → isPostfix k = false)
    (hbase : Reads (primary (ofLevels L).expression (block (ofLevels L).statement)) ws₁ follow₁
      (n₁ ≤ L) P)
    (hfollow₁ : ∀ k, follow₁ (firstKind ws₂ k))
    (hlink : ∀ base start, P base → ∀ L,
      Reads (postfixLink (ofLevels L).expression base start) ws₂ follow (n₂ ≤ L) Q) :
    Reads (ofLevels L).postfixExpression (ws₁ ++ ws₂) follow (max n₁ (n₂ + 1) ≤ L) Q := by
  refine .chain <| .peek fun _ _ _ => (hbase.bind (fun base hb => ?_) ?_).congr Nat.max_le.symm
  · exact links_one hws hfollow (hlink base _ hb)
  · exact fun k _ => hfollow₁ k

/-! ## Operators -/

theorem unary_of_operand {g : Grammar} (hws : ∀ k, unaryOperator? (firstKind ws k) = none)
    (h : Reads g.postfixExpression ws follow fits Q) : Reads g.unary ws follow fits Q := by
  refine Reads.peek fun t ⟨k, _, ht⟩ _ => ?_
  rw [ht, hws k]
  exact h

theorem operators_done {least : Nat}
    (hfollow : ∀ k, follow k → ∀ o ∈ binaryOperator? k, o.1 < least) (left : Node) :
    Reads ((ofLevels L).operators least start left) [] follow True (· = left) := by
  have hnone : Reads (operatorFrom? least) [] follow True (· = none) := by
    refine Reads.peek fun t ⟨k, hk, ht⟩ _ => ?_
    rw [ht, firstKind_nil]
    dsimp only
    split
    · next precedence label ho =>
      rw [if_neg (Nat.not_le_of_lt (hfollow k hk _ ho))]
      exact .pure rfl
    · exact .pure rfl
  cases L with
  | zero => exact hnone.bind_last fun _ ho => ho ▸ .pure rfl
  | succ L => exact hnone.bind_last fun _ ho => ho ▸ .pure rfl

theorem binary_of_unary {least : Nat} (hfollow : ∀ k, follow k → binaryOperator? k = none)
    (h : Reads (ofLevels L).unary ws follow fits Q) :
    Reads ((ofLevels L).binary least) ws follow fits Q :=
  .chain <| .peek fun _ _ _ => h.bind_last fun n hn =>
    (operators_done (fun k hk => by simp [hfollow k hk]) n).mono fun _ hm => hm ▸ hn

/-- The node of an operator with its two operands. -/
def operatorNode (operator : TokenKind) (label : String) (left right : Node) (span : Span) : Node :=
  if operator = .symbol .dot then .concat left right span else .other label [left, right] span

theorem binaryNode_eq (operator : TokenKind) (label : String) (left right : Node) (start : Span) :
    binaryNode operator label left right start =
      spanFrom start >>= fun span => pure (operatorNode operator label left right span) := by
  unfold binaryNode operatorNode
  split
  · rfl
  · rfl

/-- One operator after its left operand, with its right operand, and what comes
    after it. The right operand is read from the next precedence on, so a second
    operator of this one does not belong to it. -/
theorem operators_next {least precedence : Nat} {op : Sig} {label : String} {left : Node}
    (hop : binaryOperator? op.1 = some (precedence, label)) (hleast : least ≤ precedence)
    (hright : ∀ L, Reads ((ofLevels L).binary (precedence + 1)) ws₁ follow₁ (n ≤ L) P)
    (hfollow : ∀ k, follow k → follow₁ (firstKind ws₂ k))
    (hrest : ∀ right span, P right →
      Reads ((ofLevels (L - 1)).operators least start (operatorNode op.1 label left right span)) ws₂
        follow fits Q) :
    Reads ((ofLevels L).operators least start left) (op :: (ws₁ ++ ws₂)) follow (n + 1 ≤ L ∧ fits)
      Q := by
  have hsome {g : Option (TokenKind × Nat × String) → Parser Node} {fits : Prop}
      (hg : Reads (g (some (op.1, precedence, label))) (op :: (ws₁ ++ ws₂)) follow fits Q) :
      Reads (operatorFrom? least >>= g) (op :: (ws₁ ++ ws₂)) follow fits Q := by
    rw [operatorFrom?, bind_assoc]
    refine Reads.peek_cons op.1 rfl fun t hk _ => ?_
    simpa only [hk, hop, if_pos hleast, pure_bind] using hg
  have hend : op.1 ≠ .endOfFile := by
    intro h
    rw [h] at hop
    cases hop
  cases L with
  | zero => exact hsome (.nothing (by omega))
  | succ L =>
    refine hsome (.link (.advance hend fun _ _ => ?_))
    refine ((hright L).bind (fun right hP => ?_) hfollow).congr
      (and_congr_left' Nat.succ_le_succ_iff.symm)
    rw [binaryNode_eq, bind_assoc]
    exact .spanFrom fun span => hrest right span hP

/-- A concatenation after its left operand. -/
theorem operators_dot (hfollow : ∀ k, follow k → binaryOperator? k = none)
    (h : ∀ L, Reads ((ofLevels L).binary 6) ws follow (n ≤ L) P) (text : String) (left : Node) :
    Reads ((ofLevels L).operators 0 start left) ((.symbol .dot, text) :: ws) follow (n + 1 ≤ L)
      fun r => ∃ right span, P right ∧ r = .concat left right span := by
  have hop : binaryOperator? (.symbol .dot) = some (5, "Expr_BinaryOp_Concat") := rfl
  have hdone (right : Node) (span : Span) (hright : P right) :
      Reads ((ofLevels (L - 1)).operators 0 start (.concat left right span)) [] follow True
        fun r => ∃ right span, P right ∧ r = .concat left right span :=
    (operators_done (fun k hk => by simp [hfollow k hk]) _).mono
      fun r hr => ⟨right, span, hright, hr⟩
  rw [← List.append_nil ws]
  exact (operators_next hop (Nat.zero_le _) h (fun _ hk => hk) hdone).congr (and_iff_left trivial)

/-! ## Assignments -/

theorem assignment_of_binary (hfollow : ∀ k, follow k → assignment? k = none)
    (h : Reads ((ofLevels L).binary 0) ws follow fits Q) :
    Reads (ofLevels L).assignment ws follow fits Q := by
  refine .peek fun _ _ _ => h.bind_last fun target htarget => .peek fun t ⟨k, hk, ht⟩ _ => ?_
  rw [ht, firstKind_nil, hfollow k hk]
  exact .pure htarget

/-- An assignment to what can be assigned to. -/
theorem assignment_of_target {op : Sig} {node : Node → Node → Span → Parser Node}
    {R : Node → Prop} (hop : assignment? op.1 = some node) (hend : op.1 ≠ .endOfFile)
    (htarget : Reads ((ofLevels L).binary 0) ws₁ follow₁ (n₁ ≤ L) fun n => n.isAssignable ∧ P n)
    (hfollow₁ : follow₁ op.1) (hvalue : Reads (ofLevels L).expression ws₂ follow (n₂ ≤ L) Q)
    (hnode : ∀ target value start, P target → Q value →
      Reads (node target value start) [] follow True R) :
    Reads (ofLevels L).assignment (ws₁ ++ op :: ws₂) follow (max n₁ n₂ ≤ L) R := by
  refine .peek fun _ _ _ => (htarget.bind (fun target ht => ?_) ?_).congr Nat.max_le.symm
  · refine Reads.peek_cons op.1 rfl fun t hk _ => ?_
    rw [hk, hop]
    refine .guard (by simp [ht.1]) (.advance hend fun _ _ => ?_)
    exact hvalue.bind_last fun value hv => hnode target value _ ht.2 hv
  · exact fun _ _ => hfollow₁

/-! ## One level deeper -/

theorem expression_of_assignment (h : ∀ L, Reads (ofLevels L).assignment ws follow (n ≤ L) Q) :
    Reads (ofLevels L).expression ws follow (n + 1 ≤ L) Q := by
  cases L with
  | zero => exact .nothing (by omega)
  | succ L => exact ((h L).within).congr Nat.succ_le_succ_iff.symm

theorem statement_of_body
    (h : ∀ L, Reads (statementBody (ofLevels L).expression (ofLevels L).statement) ws follow (n ≤ L)
      Q) : Reads (ofLevels L).statement ws follow (n + 1 ≤ L) Q := by
  cases L with
  | zero => exact .nothing (by omega)
  | succ L => exact ((h L).within).congr Nat.succ_le_succ_iff.symm

/-- What stands without operators is an expression. -/
theorem expression_of_operand (hws : ∀ k, unaryOperator? (firstKind ws k) = none)
    (h : ∀ L, Reads (ofLevels L).postfixExpression ws (isClosing ·) (n ≤ L) Q) :
    Reads (ofLevels L).expression ws (isClosing ·) (n + 1 ≤ L) Q :=
  expression_of_assignment fun L =>
    assignment_of_binary (fun _ => assignment?_of_isClosing) <|
      binary_of_unary (fun _ => binaryOperator?_of_isClosing) (unary_of_operand hws (h L))

end Grammar

end PhpScript.Parse
