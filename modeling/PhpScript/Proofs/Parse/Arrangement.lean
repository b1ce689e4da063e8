import PhpScript.Proofs.Parse.Nesting
import PhpScript.Proofs.Parse.Order

/-!
# Programs in the order of the source

In a program, the nodes below a node stand in the order of the source (`source_inOrder`). The
parsers are taken in the layers they are built in: the forms of an expression and of a
statement, given parsers for what is in them; the parsers with a number of levels left
(`Grammar.IsOrdering`); a program. What is read over brings no nodes, and where it leads is
known from `Finds`.
-/

namespace PhpScript.Parse

variable {tokens : List Token} {c : Cursor} {began : Bool} {start : Span}

/-! ## Expressions -/

section

variable {expression : Parser Node} {block : Parser (List Node)}
  (he : Orders tokens expression one) (hb : Orders tokens block id)

include he

theorem arguments_orders : Orders tokens (arguments expression) id :=
  parenthesized_orders fun _ hc => .peek <| .peekFollowing fun _ => .guard fun _ => .peekAt <|
    .guard fun _ => .peek <| he.bind fun _ _ =>
      .close (isStart_current hc) fun _ => ⟨rfl, by simp [Node.children]⟩

theorem enclosed_orders {close : Symbol} : Orders tokens (enclosed expression close) one :=
  fun _ _ => he.bind fun _ _ => .expect (by simp) fun _ => .pure (by simp)

theorem memberName_orders : Orders tokens (memberName expression) one := by
  refine fun c _ => .peek ?_
  split
  · next hk => exact .advanceLeaf varOf varOf_isLeafOf (by simp [hk]) fun _ => .pure (by simp)
  · exact .skip advance_finds fun _ _ => (enclosed_orders he).arranges
  · exact identifier_orders.arranges

theorem construction_orders : Orders tokens (construction expression) one := by
  have hclass : Orders tokens (constructedClass expression) one := by
    refine fun c _ => .peek ?_
    split
    · exact .complain
    · next hk => exact .advanceLeaf varOf varOf_isLeafOf (by simp [hk]) fun _ => .pure (by simp)
    · exact .skip advance_finds fun _ _ => (enclosed_orders he).arranges
    · exact name_orders.arranges
  exact fun _ hc => .expect (by simp) fun _ => hclass.bind fun _ _ => .peekAt <| .ite
    (fun _ => (arguments_orders he).bindAll fun _ _ =>
      .close (isStart_current hc) fun _ => ⟨rfl, by simp [Node.children]⟩)
    fun _ => .close (isStart_current hc) fun _ => ⟨rfl, by simp [Node.children]⟩

theorem arrayLiteral_arranges {opening close : Symbol} (hstart : IsStart tokens start) :
    Arranges tokens c start.start began [] (arrayLiteral expression opening close start) one := by
  have hitem : Orders tokens (arrayItem expression) one :=
    fun _ hc => .peek <| .peekAt <| .guard fun _ => .peekAt <| .guard fun _ => he.bind fun _ _ =>
      .skip accept_finds fun _ _ => .ite
        (fun _ => he.bind fun _ _ =>
          .close (isStart_current hc) fun _ => ⟨rfl, by simp [Node.children]⟩)
        fun _ => .close (isStart_current hc) fun _ => ⟨rfl, by simp [Node.children]⟩
  have hslot : Orders tokens (arraySlot expression close) (Round.brought Option.toList) :=
    fun _ _ => .skip accept_finds fun _ _ => .ite (fun _ => .pure (by simp)) fun _ =>
      .skip accept_finds fun _ _ => .ite (fun _ => .pure (by simp)) fun _ =>
        hitem.bind fun _ _ => .skip accept_finds fun _ _ => .ite (fun _ => .pure (by simp)) fun _ =>
          .expect (by simp) fun _ => .pure (by simp)
  exact .expect (by simp) fun _ => (gather_orders_slots hslot).bindAll fun _ _ =>
    .close hstart fun _ => ⟨rfl, by simp [Node.children]⟩

theorem arrowFunction_arranges (hstart : IsStart tokens start) :
    Arranges tokens c start.start began [] (arrowFunction expression start) one :=
  .expect (by simp) fun _ => .skip refuseByRefReturn_finds fun _ _ =>
    parameterList_orders.bindAll fun _ _ => .skip skipReturnType_finds fun _ _ =>
      .expect (by simp) fun _ => he.bind fun _ _ =>
        .close hstart fun _ => ⟨rfl, by simp [Node.children]⟩

theorem staticAccess_arranges {cls : Node} (hstart : IsStart tokens start) :
    Arranges tokens c start.start true [cls] (staticAccess expression cls start) one := by
  refine .peekAt <| .ite (fun hk => ?_) fun _ => ?_
  · exact .advanceLeaf varOf varOf_isLeafOf (by simp_all) fun _ => .other hstart (by simp)
  · refine identifier_orders.bind fun _ _ => .peekAt <| .ite (fun _ => ?_) fun _ => ?_
    · exact (arguments_orders he).bindAll fun _ _ => .other hstart (by simp)
    · exact .other hstart (by simp)

/-- A link on an expression takes the expression in. -/
theorem postfixLink_arranges {base : Node} (hstart : IsStart tokens start) :
    Arranges tokens c start.start true [base] (postfixLink expression base start) one := by
  have hargs := arguments_orders he
  refine .peek ?_
  split
  · refine .skip advance_finds fun _ _ => (memberName_orders he).bind fun _ _ => .peekAt <|
      .ite (fun _ => hargs.bindAll fun _ _ => ?_) fun _ => ?_
    · exact .close hstart fun _ => ⟨rfl, by simp [Node.children]⟩
    · exact .close hstart fun _ => ⟨rfl, by simp [Node.children]⟩
  · refine .skip advance_finds fun _ _ => (memberName_orders he).bind fun _ _ => .peekAt <|
      .ite (fun _ => hargs.bindAll fun _ _ => ?_) fun _ => ?_
    · exact .other hstart (by simp)
    · exact .other hstart (by simp)
  · refine .skip advance_finds fun _ _ => .peekAt <| .ite (fun _ => ?_) fun _ => ?_
    · exact .expect (by simp) fun _ => .close hstart fun _ => ⟨rfl, by simp [Node.children]⟩
    · exact he.optional.bindAll fun _ _ => .expect (by simp) fun _ =>
        .close hstart fun _ => ⟨rfl, by simp [Node.children]⟩
  · exact hargs.bindAll fun _ _ => .close hstart fun _ => ⟨rfl, by simp [Node.children]⟩
  · exact .skip advance_finds fun _ _ => staticAccess_arranges he hstart
  · exact .pure (by simp)

omit he in
/-- The name of a constant begins where the constant does, and may end after it. -/
theorem nameOrConstant_arranges (hc : c.IsOn tokens) :
    Arranges tokens c c.here began [] (nameOrConstant c.current.span) one := by
  intro _ hlo _ hknown n after h
  obtain ⟨label, d, hname, h⟩ := exists_of_bind_eq_ok h
  obtain ⟨hk, hleads, parts, fullyQualified, rfl, hstop, -⟩ := name_eq_ok hc hname
  obtain ⟨-, hlabel⟩ := name_orders c hc hc hlo (by simp) .nil hname
  obtain ⟨b, d', hopen, h⟩ := exists_of_bind_eq_ok h
  cases hopen
  obtain ⟨b, d', hcolon, h⟩ := exists_of_bind_eq_ok h
  cases hcolon
  split at h
  · cases h
    exact ⟨hleads, hlabel⟩
  · cases h
    have hlt := hc.here_lt_stop hk
    refine ⟨hleads, .singleton (.ofChildren (Nat.le_refl _) hlt hstop hlabel.ordered
      hlabel.between ?_)⟩
    -- There is nothing in a name.
    refine List.forall_mem_singleton.2 (Node.forall_occurs hlt ?_)
    simp [Node.children]

include hb

omit he in
theorem closure_arranges (hstart : IsStart tokens start) :
    Arranges tokens c start.start began [] (closure block start) one :=
  .expect (by simp) fun _ => .skip refuseByRefReturn_finds fun _ _ =>
    parameterList_orders.bindAll fun _ _ => closureBindings_orders.bindAll fun _ _ =>
      .skip skipReturnType_finds fun _ _ => hb.bindAll fun _ _ =>
        .close hstart fun _ => ⟨rfl, by simp [Node.children]⟩

theorem primary_orders : Orders tokens (primary expression block) one := by
  intro c hc
  have hstart := isStart_current hc
  refine .peek ?_
  split
  · next hk => exact .advanceLeaf varOf varOf_isLeafOf (by simp [hk]) fun _ => .pure (by simp)
  · next hk =>
    cases Literal.integer? c.current.text with
    | none => exact .skip advance_finds fun _ _ => .throw
    | some numeral =>
      refine .advanceLeaf (fun t => numeralNode t.span numeral) (fun t => ?_) (by simp [hk])
        fun _ => .pure (by simp)
      cases numeral <;> exact ⟨rfl, rfl, rfl⟩
  · next hk =>
    cases Literal.float? c.current.text with
    | none => exact .skip advance_finds fun _ _ => .throw
    | some value =>
      exact .advanceLeaf (fun t => .float value t.span) (fun _ => ⟨rfl, rfl, rfl⟩) (by simp [hk])
        fun _ => .pure (by simp)
  · next hk =>
    exact .advanceLeaf (fun t => .string (Literal.singleQuoted t.text) t.span)
      (fun _ => ⟨rfl, rfl, rfl⟩) (by simp [hk]) fun _ => .pure (by simp)
  · next hk =>
    cases Literal.doubleQuoted? c.current.text with
    | none => exact .advance (by simp [hk]) fun _ => .other hstart (by simp)
    | some value =>
      exact .advanceLeaf (fun t => .string value t.span) (fun _ => ⟨rfl, rfl, rfl⟩) (by simp [hk])
        fun _ => .pure (by simp)
  · exact arrayLiteral_arranges he hstart
  · exact .peekFollowing fun _ => .ite
      (fun _ => .skip advance_finds fun _ _ => arrayLiteral_arranges he hstart) fun _ => .complain
  · exact .skip advance_finds fun _ _ => (enclosed_orders he).arranges
  · exact (construction_orders he).arranges
  · exact arrowFunction_arranges he hstart
  · exact closure_arranges hb hstart
  · refine .peekFollowing fun kind => ?_
    split
    · exact .skip advance_finds fun _ _ => arrowFunction_arranges he hstart
    · exact .skip advance_finds fun _ _ => closure_arranges hb hstart
    · exact nameOrConstant_arranges hc
  · exact nameOrConstant_arranges hc
  · exact nameOrConstant_arranges hc
  · exact .complain

end

/-! ## Statements -/

section

variable {expression statement : Parser Node}

section

variable (hs : Orders tokens statement one)

include hs

theorem statementsUntil_orders {close : Symbol} :
    Orders tokens (statementsUntil close statement) id := by
  have hstep : Orders tokens (statementUntil close statement) (Round.brought Option.toList) :=
    fun _ _ => .peekAt <| .ite (fun _ => .pure (by simp)) fun _ => .peekAt <| .guard fun _ =>
      .skip accept_finds fun _ _ => .ite (fun _ => .pure (by simp)) fun _ =>
        hs.bind fun _ _ => .pure (by simp)
  exact fun _ _ => (gather_orders_slots hstep).bindAll fun _ _ => .expect (by simp) fun _ =>
    .pure (by simp)

theorem block_orders : Orders tokens (block statement) id :=
  fun _ _ => .expect (by simp) fun _ => (statementsUntil_orders hs).arranges

theorem method_arranges {flags : Modifiers} (hstart : IsStart tokens start) :
    Arranges tokens c start.start began [] (method statement flags start) one := by
  have hbody : Orders tokens (some <$> block statement) fun body => body.toList.flatten :=
    (block_orders hs).map fun body => by simp
  refine .skip refuseByRefReturn_finds fun _ _ => identifier_orders.bind fun _ _ =>
    parameterList_orders.bindAll fun _ _ => .skip skipReturnType_finds fun _ _ =>
      .skip accept_finds fun _ _ => .ite (fun _ => ?_) fun _ => hbody.bindAll fun _ _ => ?_
  · exact .close hstart fun _ => ⟨rfl, by simp [Node.children]⟩
  · exact .close hstart fun _ => ⟨rfl, by simp [Node.children]⟩

theorem functionDeclaration_orders : Orders tokens (functionDeclaration statement) one :=
  fun _ hc => .expect (by simp) fun _ => identifier_orders.bind fun _ _ =>
    parameterList_orders.bindAll fun _ _ => .skip skipReturnType_finds fun _ _ =>
      (block_orders hs).bindAll fun _ _ => .other (isStart_current hc) (by simp)

end

theorem traitUse_arranges (hstart : IsStart tokens start) :
    Arranges tokens c start.start began [] (traitUse start) one :=
  (commaSeparated_orders name_orders).bindAll fun _ _ => .terminator fun _ =>
    .other hstart (by simp)

theorem useStatement_arranges (hstart : IsStart tokens start) :
    Arranges tokens c start.start began [] (useStatement start) one :=
  .skip advance_finds fun _ _ => .skip skipUntil_finds fun _ _ => .terminator fun _ =>
    .other hstart (by simp)

theorem declareStatement_arranges (hstart : IsStart tokens start) :
    Arranges tokens c start.start began [] (declareStatement start) one :=
  .skip advance_finds fun _ _ => .expect (by simp) fun _ => .skip skipUntil_finds fun _ _ =>
    .expect (by simp) fun _ => .terminator fun _ => .other hstart (by simp)

variable (he : Orders tokens expression one)

include he

theorem property_arranges {flags : Modifiers} (hstart : IsStart tokens start) :
    Arranges tokens c start.start began [] (property expression flags start) one := by
  have hitem : Orders tokens (propertyItem expression) one := by
    refine fun _ hc => .expectLeaf (fun t => .identifier (varNameOf t) t.span)
      (fun _ => ⟨rfl, rfl, rfl⟩) (by simp) fun _ => .skip accept_finds fun _ _ =>
        .ite (fun _ => he.optional.bindAll fun _ _ => ?_) fun _ => ?_
    · exact .close (isStart_current hc) fun _ => ⟨rfl, by simp [Node.children]⟩
    · exact .close (isStart_current hc) fun _ => ⟨rfl, by simp [Node.children]⟩
  exact .skip skipType_finds fun _ _ => (commaSeparated_orders hitem).bindAll fun _ _ =>
    .terminator fun _ => .close hstart fun _ => ⟨rfl, by simp [Node.children]⟩

theorem condition_orders : Orders tokens (condition expression) one :=
  fun _ _ => .expect (by simp) fun _ => (enclosed_orders he).arranges

theorem returnStatement_arranges (hstart : IsStart tokens start) :
    Arranges tokens c start.start began [] (returnStatement expression start) one := by
  refine .skip advance_finds fun _ _ => .peekAt <| .peekAt <|
    .ite (fun _ => .terminator fun _ => ?_) fun _ => he.optional.bindAll fun _ _ =>
      .terminator fun _ => ?_
  · exact .close hstart fun _ => ⟨rfl, by simp [Node.children]⟩
  · exact .close hstart fun _ => ⟨rfl, by simp [Node.children]⟩

theorem echoStatement_arranges (hstart : IsStart tokens start) :
    Arranges tokens c start.start began [] (echoStatement expression start) one :=
  .skip advance_finds fun _ _ => (commaSeparated_orders he).bindAll fun _ _ => .terminator fun _ =>
    .other hstart (by simp)

theorem expressionStatement_arranges (hstart : IsStart tokens start) :
    Arranges tokens c start.start began [] (expressionStatement expression start) one :=
  he.bind fun _ _ => .terminator fun _ => .close hstart fun _ => ⟨rfl, by simp [Node.children]⟩

variable (hs : Orders tokens statement one)

include hs

theorem classDeclaration_arranges (hstart : IsStart tokens start) :
    Arranges tokens c start.start began [] (classDeclaration expression statement start) one := by
  have hmember : Orders tokens (classMember expression statement) one := by
    intro c hc
    have hstart := isStart_current hc
    refine .peek <| .skip accept_finds fun _ _ => .ite (fun _ => traitUse_arranges hstart) fun _ =>
      .peekAt <| .guard fun _ => .skip modifiers_finds fun _ _ => .skip accept_finds fun _ _ =>
        .ite (fun _ => method_arranges hs hstart) fun _ => .ite (fun _ => ?_) fun _ => ?_
    · exact .peek <| .guard fun _ => .complain
    · exact property_arranges he hstart
  have hstep : Orders tokens (classMemberUntil expression statement) (Round.brought one) :=
    fun _ _ => .skip accept_finds fun _ _ => .ite (fun _ => .pure (by simp)) fun _ =>
      .peekAt <| .guard fun _ => hmember.bind fun _ _ => .pure (by simp)
  exact .expect (by simp) fun _ => identifier_orders.bind fun _ _ => .peek <| .guard fun _ =>
    .expect (by simp) fun _ => (gather_orders_nodes hstep).bindAll fun _ _ =>
      .close hstart fun _ => ⟨rfl, by simp [Node.children]⟩

theorem modifiedClass_arranges (hstart : IsStart tokens start) :
    Arranges tokens c start.start began [] (modifiedClass expression statement start) one := by
  have hstep : Finds tokens classModifier nothing := by
    refine fun _ _ => .peek ?_
    split
    all_goals first
      | exact advance_finds.bind fun _ _ => .pure (by simp)
      | exact .pure (by simp)
  exact .skip (gather_finds_nothing hstep) fun _ _ => classDeclaration_arranges he hs hstart

theorem conditional_orders : Orders tokens (conditional expression statement) one := by
  have hstep : Orders tokens (branch expression statement) (Round.brought one) := by
    intro c hc
    have hstart := isStart_current hc
    refine .peek <| .skip accept_finds fun _ _ => .ite (fun _ => ?_) fun _ =>
      .skip accept_finds fun _ _ => .ite (fun _ => ?_) fun _ => .pure (by simp)
    · exact (condition_orders he).bind fun _ _ => hs.bind fun _ _ =>
        (Arranges.other hstart (by simp)).andThen fun _ _ => .pure (by simp)
    · exact hs.bind fun _ _ =>
        (Arranges.other hstart (by simp)).andThen fun _ _ => .pure (by simp)
  exact fun _ hc => .expect (by simp) fun _ => (condition_orders he).bind fun _ _ =>
    hs.bind fun _ _ => (gather_orders_nodes hstep).bindAll fun _ _ =>
      .other (isStart_current hc) (by simp)

theorem statementBody_orders : Orders tokens (statementBody expression statement) one := by
  intro c hc
  have hstart := isStart_current hc
  refine .peek ?_
  split
  · next hk => exact .advance (by simp [hk]) fun _ => .other hstart (by simp)
  · next hk => exact .advance (by simp [hk]) fun _ => .other hstart (by simp)
  · rw [block, bind_assoc]
    exact .expect (by simp) fun _ => (statementsUntil_orders hs).bindAll fun _ _ =>
      .other hstart (by simp)
  · exact returnStatement_arranges he hstart
  · exact echoStatement_arranges he hstart
  · exact (conditional_orders he hs).arranges
  · exact useStatement_arranges hstart
  · exact declareStatement_arranges hstart
  · exact .peekFollowing fun _ => .ite (fun _ => (functionDeclaration_orders hs).arranges) fun _ =>
      expressionStatement_arranges he hstart
  · exact classDeclaration_arranges he hs hstart
  iterate 3 exact modifiedClass_arranges he hs hstart
  · exact .complain
  · exact .complain
  · exact expressionStatement_arranges he hstart

end

/-! ## Levels -/

/-- The parsers of a grammar find nodes in order. -/
structure Grammar.IsOrdering (tokens : List Token) (g : Grammar) : Prop where
  expression : Orders tokens g.expression one
  statement : Orders tokens g.statement one
  operand : Orders tokens g.operand one
  operators : ∀ {c least start left}, IsStart tokens start →
    Arranges tokens c start.start true [left] (g.operators least start left) one
  links : ∀ {c start base}, IsStart tokens start →
    Arranges tokens c start.start true [base] (g.links start base) one

namespace Grammar

theorem closed_isOrdering : IsOrdering tokens closed where
  expression _ _ := .tooDeep
  statement _ _ := .tooDeep
  operand _ _ := .tooDeep
  operators _ := .skip operatorFrom?_finds fun operator _ => by
    split
    · exact .tooDeep
    · exact .pure (by simp)
  links _ := .peek <| .ite (fun _ => .tooDeep) fun _ => .pure (by simp)

theorem assignment?_arranges {kind : TokenKind} {node : Node → Node → Span → Parser Node}
    (h : assignment? kind = some node) {target value : Node} (hstart : IsStart tokens start) :
    Arranges tokens c start.start true [target, value] (node target value start) one := by
  unfold assignment? at h
  split at h
  all_goals cases h
  all_goals exact .close hstart fun _ => ⟨rfl, by simp [Node.children]⟩

theorem binaryNode_arranges {operator : TokenKind} {kind : String} {left right : Node}
    (hstart : IsStart tokens start) :
    Arranges tokens c start.start true [left, right] (binaryNode operator kind left right start)
      one :=
  .ite (fun _ => .close hstart fun _ => ⟨rfl, by simp [Node.children]⟩)
    fun _ => .other hstart (by simp)

section

variable {g : Grammar} (hg : g.IsOrdering tokens)

include hg

theorem unary_orders : Orders tokens g.unary one := by
  have hpostfix : Orders tokens g.postfixExpression one :=
    .chain fun _ hc => .peek <| (primary_orders hg.expression (block_orders hg.statement)).bind
      fun _ _ => hg.links (isStart_current hc)
  refine fun _ hc => .peek ?_
  split
  · exact .skip advance_finds fun _ _ => hg.operand.bind fun _ _ =>
      .other (isStart_current hc) (by simp)
  · exact hpostfix.arranges

theorem binary_orders {least : Nat} : Orders tokens (g.binary least) one :=
  .chain fun _ hc => .peek <| (unary_orders hg).bind fun _ _ => hg.operators (isStart_current hc)

theorem assignment_orders : Orders tokens g.assignment one := by
  intro c hc
  have hstart := isStart_current hc
  refine .peek <| (binary_orders hg).bind fun target d => .peek ?_
  split
  · next node hnode =>
    exact .guard fun _ => .skip advance_finds fun _ _ => hg.expression.bind fun value _ =>
      assignment?_arranges hnode hstart
  · exact .pure (by simp)

theorem deeper_isOrdering : g.deeper.IsOrdering tokens where
  expression := (assignment_orders hg).within
  statement := (statementBody_orders hg.expression hg.statement).within
  operand := (unary_orders hg).within
  operators hstart := .skip operatorFrom?_finds fun operator _ => by
    split
    · exact .skip link_finds fun _ _ => .skip advance_finds fun _ _ => (binary_orders hg).bind
        fun _ _ => (binaryNode_arranges hstart).andThen fun _ _ => hg.operators hstart
    · exact .pure (by simp)
  links hstart := .peek <| .ite
    (fun _ => .skip link_finds fun _ _ =>
      (postfixLink_arranges hg.expression hstart).andThen fun _ _ => hg.links hstart)
    fun _ => .pure (by simp)

end

theorem ofLevels_isOrdering (levels : Nat) : (ofLevels levels).IsOrdering tokens := by
  induction levels with
  | zero => exact closed_isOrdering
  | succ levels ih => exact deeper_isOrdering ih

end Grammar

/-! ## Programs -/

theorem statement_orders : Orders tokens statement one :=
  fun c hc => (Grammar.ofLevels_isOrdering (maxDepth - c.depth)).statement c hc

theorem namespaceBlock_orders : Orders tokens namespaceBlock one := by
  have hstep : Orders tokens statementInNamespace (Round.brought Option.toList) :=
    fun _ _ => .peekAt <| .peekAt <| .ite (fun _ => .pure (by simp)) fun _ =>
      .skip accept_finds fun _ _ => .ite (fun _ => .pure (by simp)) fun _ =>
        statement_orders.bind fun _ _ => .pure (by simp)
  have hbody : ∀ label, Orders tokens (namespaceBody label) id := fun _ _ _ =>
    .skip accept_finds fun _ _ => .ite
      (fun _ => (statementsUntil_orders statement_orders).arranges)
      fun _ => .guard fun _ => .terminator fun _ => (gather_orders_slots hstep).bindAll fun _ _ =>
        .pure (by simp)
  refine fun _ hc => .expect (by simp) fun _ => .peekAt <|
    .ite (fun _ => (hbody _).bindAll fun _ _ => ?_) fun _ => name_orders.optional.bindAll fun _ _ =>
      (hbody _).bindAll fun _ _ => ?_
  · exact .close (isStart_current hc) fun _ => ⟨rfl, by simp [Node.children]⟩
  · exact .close (isStart_current hc) fun _ => ⟨rfl, by simp [Node.children]⟩

theorem program_orders : Orders tokens program id := by
  have hstep : Orders tokens topLevel (Round.brought Option.toList) :=
    fun _ _ => .peekAt <| .ite (fun _ => .pure (by simp)) fun _ =>
      .skip accept_finds fun _ _ => .ite (fun _ => .pure (by simp)) fun _ =>
        .peekAt <| .ite (fun _ => namespaceBlock_orders.bind fun _ _ => .pure (by simp)) fun _ =>
          statement_orders.bind fun _ _ => .pure (by simp)
  exact fun _ _ => (gather_orders_slots hstep).bindAll fun _ _ => .pure (by simp)

/-- The statements of a source text stand one after the other, and so do the nodes below each
    node. -/
theorem source_inOrder {text : String} {nodes : List Node}
    (hsize : text.utf8ByteSize ≤ Span.limit) (h : source text = .ok nodes) :
    nodes.Pairwise Node.Precedes ∧ ∀ root ∈ nodes, ∀ n : Node, n.Occurs root → n.IsInOrder := by
  unfold source Parse.start at h
  cases hscan : Token.scan text with
  | error e => rw [hscan] at h; cases h
  | ok tokens =>
    have hc := Cursor.isOn_of_scan hsize hscan
    simp only [hscan, bind, Except.bind, resume] at h
    split at h
    · next hprogram =>
      cases h
      obtain ⟨-, hrow⟩ := program_orders _ hc hc (Nat.le_refl _) (by simp) .nil hprogram
      exact ⟨hrow.ordered, fun root hroot => (hrow.between root hroot).inOrder⟩
    · cases h

end PhpScript.Parse
