import Mathlib.Data.List.Nodup
import PhpScript.Proofs.Node.Bare
import PhpScript.Proofs.Parse.Climbing

/-!
# Precedence

Variables with binary operators between them can be grouped in many ways. In a
tree that is grouped by precedence no operator has one that binds looser below
it, and operators of one precedence group to the left.

* `exists_binaryOperator?_iff`, `eq_of_binaryOperator?_label`: which marks are binary
  operators, and how tight each binds; and the kind of a node tells its operator.
* `OperatorTree.eq_of_inOrder_eq`: there is no second such tree over the same
  tokens. Putting operands to the right end of a tree one by one
  (`OperatorTree.push`) makes it.
* `OperatorTree.IsGrouped.expression_reads`: it is the tree that the parser of expressions
  reads, with a level for each operator on the way down.

The parser reads the left edge of a tree in a loop and goes deeper for the right
operands only. So what is proved by induction on a tree is that the loop, begun
before the tree, comes to where the tree is its left operand.
-/

namespace PhpScript.Parse

/-! ## Operators -/

/-- The marks of the binary operators by their precedence. No operator has the precedence
    zero. -/
def operatorMarks : List (List Symbol) :=
  [[], [.barBar], [.ampersandAmpersand],
   [.equalsEquals, .equalsEqualsEquals, .exclamationEquals, .exclamationEqualsEquals],
   [.lessThan, .lessThanEquals, .greaterThan, .greaterThanEquals],
   [.dot], [.plus, .minus], [.asterisk, .slash, .percent]]

/-- The binary operators are these marks, with these precedences. -/
theorem exists_binaryOperator?_iff {kind : TokenKind} {precedence : Nat} :
    (∃ label, binaryOperator? kind = some (precedence, label)) ↔
      ∃ marks, operatorMarks[precedence]? = some marks ∧ ∃ s ∈ marks, kind = .symbol s := by
  constructor
  · rintro ⟨label, h⟩
    unfold binaryOperator? at h
    split at h <;> cases h <;> exact ⟨_, rfl, _, by decide, rfl⟩
  · rintro ⟨marks, hmarks, s, hs, rfl⟩
    have hall : ∀ p < operatorMarks.length, ∀ s ∈ operatorMarks[p]?.getD [],
        (binaryOperator? (.symbol s)).map Prod.fst = some p := by decide +kernel
    obtain ⟨hp, -⟩ := List.getElem?_eq_some_iff.1 hmarks
    obtain ⟨⟨p, label⟩, hsome, heq⟩ := Option.map_eq_some_iff.1
      (hall precedence hp s (by rwa [hmarks]))
    exact ⟨label, heq ▸ hsome⟩

/-- No two operators have one kind of node. -/
theorem eq_of_binaryOperator?_label {k k' : TokenKind} {p p' : Nat} {label : String}
    (h : binaryOperator? k = some (p, label)) (h' : binaryOperator? k' = some (p', label)) :
    k = k' := by
  have hlabels : (operatorMarks.flatten.map fun s =>
      (binaryOperator? (.symbol s)).map Prod.snd).Nodup := by decide +kernel
  have hmem {k : TokenKind} {p : Nat} (h : binaryOperator? k = some (p, label)) :
      ∃ s ∈ operatorMarks.flatten, k = .symbol s := by
    obtain ⟨marks, hmarks, s, hs, hk⟩ := exists_binaryOperator?_iff.1 ⟨label, h⟩
    exact ⟨s, List.mem_flatten.2 ⟨marks, List.mem_of_getElem? hmarks, hs⟩, hk⟩
  obtain ⟨s, hs, rfl⟩ := hmem h
  obtain ⟨s', hs', rfl⟩ := hmem h'
  exact congrArg _ (List.inj_on_of_nodup_map hlabels hs hs' (by rw [h, h']; rfl))

/-! ## Trees of operators -/

/-- The token of a variable. -/
structure VarToken where
  token : Token
  isVar : token.kind = .varName

/-- The token of a binary operator. -/
structure OperatorToken where
  token : Token
  isBinary : (binaryOperator? token.kind).isSome

namespace OperatorToken

variable (op : OperatorToken)

/-- How tight the operator binds. -/
def precedence : Nat := ((binaryOperator? op.token.kind).get op.isBinary).1

/-- The kind of the node of the operator. -/
def label : String := ((binaryOperator? op.token.kind).get op.isBinary).2

theorem binaryOperator?_kind :
    binaryOperator? op.token.kind = some (op.precedence, op.label) :=
  (Option.some_get op.isBinary).symm

theorem isPostfix_kind : isPostfix op.token.kind = false := by
  have hop := op.isBinary
  unfold binaryOperator? at hop
  split at hop <;> simp_all [isPostfix]

end OperatorToken

/-- A variable, and further ones with an operator before each of them. -/
abbrev Operands := VarToken × List (OperatorToken × VarToken)

/-- The tokens as they are written. -/
def Operands.tokens (s : Operands) : List Token :=
  s.1.token :: s.2.flatMap fun (op, x) => [op.token, x.token]

/-- Variables grouped by binary operators. -/
inductive OperatorTree
  | operand (x : VarToken)
  | node (op : OperatorToken) (left right : OperatorTree)

namespace OperatorTree

variable {t u left right : OperatorTree} {op root : OperatorToken} {x : VarToken} {least : Nat}

/-- The operands and operators of a tree from left to right. -/
def inOrder : OperatorTree → Operands
  | operand x => (x, [])
  | node op left right =>
    (left.inOrder.1, left.inOrder.2 ++ (op, right.inOrder.1) :: right.inOrder.2)

/-- If the root is an operator, it has a precedence of at least `least`. -/
def BindsFrom (least : Nat) : OperatorTree → Prop
  | operand _ => True
  | node op _ _ => least ≤ op.precedence

/-- At each operator the left operand binds as tight or tighter, and the right
    operand tighter. -/
def IsGrouped : OperatorTree → Prop
  | operand _ => True
  | node op left right =>
    left.BindsFrom op.precedence ∧ right.BindsFrom (op.precedence + 1) ∧
      left.IsGrouped ∧ right.IsGrouped

/-- The syntax tree, without places. Concatenations have nodes of their own. -/
def toNode : OperatorTree → Node
  | operand x => .var (varNameOf x.token) .unknown
  | node op left right =>
    if op.token.kind = .symbol .dot then .concat left.toNode right.toNode .unknown
    else .other op.label [left.toNode, right.toNode] .unknown

theorem BindsFrom.mono {bound : Nat} (h : t.BindsFrom bound) (hle : least ≤ bound) :
    t.BindsFrom least := by
  cases t with
  | operand x => trivial
  | node op left right => exact Nat.le_trans hle h

/-- The root of a grouped tree is one of the operators that bind loosest in it. -/
theorem IsGrouped.le_precedence (ht : t.IsGrouped) (hroot : t.BindsFrom least) :
    ∀ o ∈ t.inOrder.2, least ≤ o.1.precedence := by
  induction t generalizing least with
  | operand x => exact fun _ ho => absurd ho List.not_mem_nil
  | node op left right ihl ihr =>
    obtain ⟨hl, hr, hleft, hright⟩ := ht
    intro o ho
    rcases List.mem_append.1 ho with ho | ho
    · exact ihl hleft (hl.mono hroot) o ho
    · rcases List.mem_cons.1 ho with rfl | ho
      · exact hroot
      · exact ihr hright (hr.mono (Nat.le_succ_of_le hroot)) o ho

/-! ## The only grouped tree -/

/-- Puts an operator and an operand to the right end of a tree. The operator takes
    as its left operand what binds at least as tight. -/
def push (op : OperatorToken) (x : VarToken) : OperatorTree → OperatorTree
  | operand y => node op (operand y) (operand x)
  | node root left right =>
    if root.precedence < op.precedence then node root left (push op x right)
    else node op (node root left right) (operand x)

/-- Puts operators and operands to the right end of a tree one by one. -/
def pushAll : OperatorTree → List (OperatorToken × VarToken) → OperatorTree
  | t, [] => t
  | t, (op, x) :: items => pushAll (t.push op x) items

/-- The tree of operands that is grouped by precedence. -/
def ofOperands (s : Operands) : OperatorTree := pushAll (operand s.1) s.2

theorem pushAll_append (t : OperatorTree) (items more : List (OperatorToken × VarToken)) :
    t.pushAll (items ++ more) = (t.pushAll items).pushAll more := by
  induction items generalizing t with
  | nil => rfl
  | cons item items ih => exact ih _

theorem inOrder_push (op : OperatorToken) (x : VarToken) (t : OperatorTree) :
    (t.push op x).inOrder = (t.inOrder.1, t.inOrder.2 ++ [(op, x)]) := by
  induction t with
  | operand y => rfl
  | node root left right _ ihr =>
    rw [push]
    split
    · simp [inOrder, ihr]
    · simp [inOrder]

theorem BindsFrom.push (h : t.BindsFrom least) (hop : least ≤ op.precedence) :
    (t.push op x).BindsFrom least := by
  cases t with
  | operand y => exact hop
  | node root left right =>
    rw [OperatorTree.push]
    split
    · exact h
    · exact hop

theorem IsGrouped.push (ht : t.IsGrouped) : (t.push op x).IsGrouped := by
  induction t with
  | operand y => exact ⟨trivial, trivial, trivial, trivial⟩
  | node root left right _ ihr =>
    obtain ⟨hl, hr, hleft, hright⟩ := ht
    rw [OperatorTree.push]
    split
    · next hlt => exact ⟨hl, hr.push hlt, hleft, ihr hright⟩
    · next hle => exact ⟨Nat.le_of_not_lt hle, trivial, ⟨hl, hr, hleft, hright⟩, trivial⟩

theorem inOrder_pushAll (t : OperatorTree) (items : List (OperatorToken × VarToken)) :
    (t.pushAll items).inOrder = (t.inOrder.1, t.inOrder.2 ++ items) := by
  induction items generalizing t with
  | nil => simp [pushAll]
  | cons item items ih => rw [pushAll, ih, inOrder_push, List.append_assoc, List.singleton_append]

theorem IsGrouped.pushAll (ht : t.IsGrouped) (items : List (OperatorToken × VarToken)) :
    (t.pushAll items).IsGrouped := by
  induction items generalizing t with
  | nil => exact ht
  | cons item items ih => exact ih ht.push

theorem inOrder_ofOperands (s : Operands) : (ofOperands s).inOrder = s :=
  inOrder_pushAll (operand s.1) s.2

theorem isGrouped_ofOperands (s : Operands) : (ofOperands s).IsGrouped :=
  IsGrouped.pushAll (t := operand s.1) trivial s.2

/-- Operators that bind tighter than the root go to its right operand. -/
theorem pushAll_node {items : List (OperatorToken × VarToken)}
    (h : ∀ o ∈ items, root.precedence < o.1.precedence) :
    (node root left right).pushAll items = node root left (right.pushAll items) := by
  induction items generalizing right with
  | nil => rfl
  | cons item items ih =>
    rw [List.forall_mem_cons] at h
    rw [OperatorTree.pushAll, OperatorTree.push, if_pos h.1, ih h.2, OperatorTree.pushAll]

theorem push_of_bindsFrom (h : t.BindsFrom op.precedence) :
    t.push op x = node op t (operand x) := by
  cases t with
  | operand y => rfl
  | node root left right => exact if_neg (Nat.not_lt_of_le h)

theorem ofOperands_inOrder (ht : t.IsGrouped) : ofOperands t.inOrder = t := by
  induction t with
  | operand x => rfl
  | node op left right ihl ihr =>
    obtain ⟨hl, hr, hleft, hright⟩ := ht
    calc ofOperands (node op left right).inOrder
        = ((ofOperands left.inOrder).push op right.inOrder.1).pushAll right.inOrder.2 :=
          pushAll_append ..
      _ = (node op left (operand right.inOrder.1)).pushAll right.inOrder.2 := by
          rw [ihl hleft, push_of_bindsFrom hl]
      _ = node op left (ofOperands right.inOrder) := pushAll_node (hright.le_precedence hr)
      _ = node op left right := by rw [ihr hright]

/-- A grouped tree is told by what it holds from left to right. -/
theorem eq_of_inOrder_eq (ht : t.IsGrouped) (hu : u.IsGrouped) (h : t.inOrder = u.inOrder) :
    t = u := by
  rw [← ofOperands_inOrder ht, ← ofOperands_inOrder hu, h]

/-! ## Reading -/

/-- The number of operators on the left edge, which one loop reads. -/
def spine : OperatorTree → Nat
  | operand _ => 0
  | node _ left _ => left.spine + 1

/-- The levels that reading the tree takes: a right operand has the levels that
    the operators up to its own have left. -/
def levels : OperatorTree → Nat
  | operand _ => 0
  | node _ left right => max left.levels (left.spine + 1 + right.levels)

/-- The tokens of a tree without their places. -/
def sigs (t : OperatorTree) : List Sig := t.inOrder.tokens.map Token.sig

theorem sigs_node (op : OperatorToken) (left right : OperatorTree) :
    (node op left right).sigs = left.sigs ++ op.token.sig :: right.sigs := by
  simp [sigs, inOrder, Operands.tokens]

/-- The token ends an operand of operators with a precedence of at least `least`. -/
def EndsOperand (least : Nat) (k : TokenKind) : Prop :=
  isPostfix k = false ∧ ∀ o ∈ binaryOperator? k, o.1 < least

theorem EndsOperand.mono {bound : Nat} {k : TokenKind} (h : EndsOperand least k)
    (hle : least ≤ bound) : EndsOperand bound k :=
  ⟨h.1, fun o ho => Nat.lt_of_lt_of_le (h.2 o ho) hle⟩

theorem endsOperand_kind (op : OperatorToken) :
    EndsOperand (op.precedence + 1) op.token.kind := by
  refine ⟨op.isPostfix_kind, fun o ho => ?_⟩
  rw [op.binaryOperator?_kind, Option.mem_some_iff] at ho
  rw [← ho]
  exact Nat.lt_succ_self _

theorem endsOperand_of_isClosing {k : TokenKind} (h : isClosing k) : EndsOperand least k :=
  ⟨isPostfix_of_isClosing h, by simp [binaryOperator?_of_isClosing h]⟩

section

open Grammar

variable {L bound : Nat} {ws : List Sig} {follow : TokenKind → Prop} {fits : Prop} {Q : Node → Prop}
  {start : Span}

theorem operand_reads (x : VarToken) :
    Reads (ofLevels L).unary [x.token.sig] (isPostfix · = false) True
      fun n => n.bare = (operand x).toNode := by
  have hsig : x.token.sig.1 = .varName := x.isVar
  refine unary_of_operand (fun k => by rw [firstKind_cons, hsig]; rfl) ?_
  refine operand_of_primary (fun _ h => h) (.peek_cons .varName hsig fun t hk _ => ?_)
  simp only [hk]
  refine .advance (by simp [hsig]) fun t ht => .pure ?_
  have htext : t.text = x.token.text := congrArg Prod.snd ht
  rw [varOf, Node.bare, toNode, varNameOf, varNameOf, htext]

theorem bare_operatorNode {l r : Node} {span : Span} (hl : l.bare = left.toNode)
    (hr : r.bare = right.toNode) :
    (operatorNode op.token.kind op.label l r span).bare = (node op left right).toNode := by
  rw [operatorNode, toNode]
  split
  · rw [Node.bare, hl, hr]
  · rw [Node.bare, Node.bareList_eq_map, List.map_cons, List.map_singleton, hl, hr]

/-- The loop over operators reads a tree if it reads on after it, with the tree
    as its left operand and a level less for each operator on its left edge. -/
structure IsReadAsLeft (t : OperatorTree) : Prop where
  reads : ∀ {least bound L : Nat} {ws : List Sig} {follow : TokenKind → Prop} {fits : Prop}
    {Q : Node → Prop} {start : Span}, t.BindsFrom least → t.BindsFrom bound →
    (∀ k, follow k → EndsOperand (bound + 1) (firstKind ws k)) →
    (∀ n, n.bare = t.toNode →
      Reads ((ofLevels (L - t.spine)).operators least start n) ws follow fits Q) →
    Reads ((ofLevels L).unary >>= (ofLevels L).operators least start) (t.sigs ++ ws) follow
      (t.levels ≤ L ∧ fits) Q

/-- A tree that the loop reads is an operand of operators that bind looser. -/
theorem IsReadAsLeft.binary_reads (h : t.IsReadAsLeft) (hroot : t.BindsFrom least) :
    Reads ((ofLevels L).binary least) t.sigs (EndsOperand least) (t.levels ≤ L)
      fun n => n.bare = t.toNode := by
  refine .chain <| .peek fun first _ _ => ?_
  -- The loop stops after the tree, as the next token ends an operand.
  have hstop (n : Node) (hn : n.bare = t.toNode) :
      Reads ((ofLevels (L - t.spine)).operators least first.span n) [] (EndsOperand least) True
        fun n => n.bare = t.toNode :=
    (operators_done (fun k hk => hk.2) n).mono fun m hm => hm ▸ hn
  have hread := h.reads hroot hroot (fun k hk => hk.mono (Nat.le_succ least)) hstop
  rw [List.append_nil] at hread
  exact hread.congr (and_iff_left trivial)

theorem IsGrouped.isReadAsLeft (ht : t.IsGrouped) : t.IsReadAsLeft := by
  induction t with
  | operand x =>
    refine ⟨fun {least bound L ws follow fits Q start} _ _ hnext hrest => ?_⟩
    refine ((operand_reads x).bind hrest fun k hk => (hnext k hk).1).congr ?_
    exact and_congr_left' (iff_of_true trivial (Nat.zero_le L))
  | node op left right ihl ihr =>
    obtain ⟨hl, hr, hleft, hright⟩ := ht
    refine ⟨fun {least bound L ws follow fits Q start} hleast hbound hnext hrest => ?_⟩
    -- The loop comes to the operator with the left operand read, and goes deeper for
    -- the right one, which the next token ends.
    have hloop : ∀ n, n.bare = left.toNode →
        Reads ((ofLevels (L - left.spine)).operators least start n)
          (op.token.sig :: (right.sigs ++ ws)) follow
          (right.levels + 1 ≤ L - left.spine ∧ fits) Q := by
      intro n hn
      refine operators_next op.binaryOperator?_kind hleast
        (fun L => (ihr hright).binary_reads hr)
        (fun k hk => (hnext k hk).mono (Nat.succ_le_succ hbound)) fun r span hr => ?_
      rw [Nat.sub_sub]
      exact hrest _ (bare_operatorNode hn hr)
    have hop : ∀ k, follow k →
        EndsOperand (op.precedence + 1) (firstKind (op.token.sig :: (right.sigs ++ ws)) k) :=
      fun _ _ => endsOperand_kind op
    have hall := (ihl hleft).reads (hl.mono hleast) hl hop hloop
    rw [sigs_node, List.append_assoc, List.cons_append]
    refine hall.congr ?_
    rw [levels, ← and_assoc]
    exact and_congr_left' (by omega)

/-- A grouped tree is what the parser of expressions reads, if it has a level for
    the expression and as many as the tree takes. -/
theorem IsGrouped.expression_reads (ht : t.IsGrouped) :
    Reads (ofLevels L).expression t.sigs (isClosing ·) (t.levels + 1 ≤ L)
      fun n => n.bare = t.toNode := by
  refine expression_of_assignment fun L =>
    assignment_of_binary (fun _ => assignment?_of_isClosing) ?_
  refine (ht.isReadAsLeft.binary_reads ?_).before fun _ => endsOperand_of_isClosing
  cases t with
  | operand x => trivial
  | node op left right => exact Nat.zero_le _

end

end OperatorTree

/-- Variables with binary operators between them, up to a semicolon, are read as
    the one tree over them that is grouped by precedence, unless its levels are more
    than there are left. -/
theorem expression_operators (s : Operands) (stop : Span) (more : List Token)
    (lastStop depth : Nat) :
    ∃ t : OperatorTree, t.inOrder = s ∧ t.IsGrouped ∧
      (∀ u : OperatorTree, u.inOrder = s → u.IsGrouped → u = t) ∧
      let c : Cursor := ⟨s.tokens ++ ⟨.symbol .semicolon, stop, ";"⟩ :: more, lastStop, depth⟩
      (t.levels < maxDepth - depth ∧ ∃ n after, expression c = .ok n after ∧
        after.rest = ⟨.symbol .semicolon, stop, ";"⟩ :: more ∧ n.bare = t.toNode) ∨
      (maxDepth - depth ≤ t.levels ∧
        ∃ span after, expression c = .error (.tooDeep span) after) := by
  have hgrouped := OperatorTree.isGrouped_ofOperands s
  have horder := OperatorTree.inOrder_ofOperands s
  refine ⟨.ofOperands s, horder, hgrouped, fun u hu hgroup => ?_, ?_⟩
  · exact OperatorTree.eq_of_inOrder_eq hgroup hgrouped (hu.trans horder.symm)
  · intro c
    have hreads := hgrouped.expression_reads (L := maxDepth - depth)
    have hsigs : s.tokens.map Token.sig = (OperatorTree.ofOperands s).sigs := by
      rw [OperatorTree.sigs, horder]
    by_cases hfits : (OperatorTree.ofOperands s).levels + 1 ≤ maxDepth - depth
    · exact .inl ⟨hfits, hreads.ok (c := c) rfl hsigs rfl hfits⟩
    · exact .inr ⟨by omega, hreads.tooDeep (c := c) rfl hsigs rfl hfits⟩

end PhpScript.Parse
