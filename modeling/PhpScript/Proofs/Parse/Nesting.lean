import PhpScript.Parse.Program
import PhpScript.Proofs.Parse.Extent

/-!
# Spans nest like the tree

Every node of a program goes from the start of a token to the end of one, and the
nodes right below it lie inside its span, but for one kind of node: a constant has
the span of the first token of its name alone, so a name of several parts and one
with a backslash before it reach out of the constant (`source_nested`).

The parsers are taken in the layers they are built in: the forms of an expression
and of a statement, given parsers for what is in them; the parsers with a number
of levels left (`Grammar.IsPlacing`); a program.
-/

namespace PhpScript.Parse

variable {tokens : List Token} {c : Cursor} {lo : Nat} {known : List Node} {start : Span}

/-! ## Expressions -/

theorem binaryNode_places {operator : TokenKind} {kind : String} {left right : Node}
    (hstart : IsStart tokens start) (hleft : left ∈ known) (hright : right ∈ known) :
    Places tokens c start.start known (binaryNode operator kind left right start) one := by
  have hne : known ≠ [] := List.ne_nil_of_mem hleft
  have hboth : [left, right] ⊆ known := by simp [hleft, hright]
  exact .ite (fun _ => .close hstart hne (fun _ => ⟨rfl, rfl⟩) fun _ => hboth)
    fun _ => .other hstart hne hboth

section

variable {expression : Parser Node} (he : Finds tokens expression one)

include he

theorem argument_finds : Finds tokens (argument expression) one :=
  fun _ hc => .peek <| .peekFollowing fun _ => .guard fun _ => .peekAt <| .guard fun _ => .peek <|
    he.bind fun _ _ =>
      .close (isStart_current hc) (by simp) (fun _ => ⟨rfl, rfl⟩) (by simp [Node.children])

theorem arguments_finds : Finds tokens (arguments expression) id :=
  fun _ _ => (expect_finds (by simp)).bind fun _ _ =>
    (commaListUntil_finds (argument_finds he)).bind fun _ _ =>
      (expect_finds (by simp)).bind fun _ _ => .pure (by simp)

theorem enclosed_finds {close : Symbol} : Finds tokens (enclosed expression close) one :=
  fun _ _ => he.bind fun _ _ => (expect_finds (by simp)).bind fun _ _ => .pure (by simp)

theorem memberName_finds : Finds tokens (memberName expression) one := by
  refine fun c _ => .peek ?_
  split
  · next hk => exact .advance (by simp [hk]) fun _ => .leaf ⟨rfl, rfl, rfl⟩ List.mem_cons_self
  · exact advance_finds.bind fun _ _ => (enclosed_finds he).places
  · exact identifier_finds.places

theorem constructedClass_finds : Finds tokens (constructedClass expression) one := by
  refine fun c _ => .peek ?_
  split
  · exact .complain
  · next hk => exact .advance (by simp [hk]) fun _ => .leaf ⟨rfl, rfl, rfl⟩ List.mem_cons_self
  · exact advance_finds.bind fun _ _ => (enclosed_finds he).places
  · exact name_finds.places

theorem construction_finds : Finds tokens (construction expression) one :=
  fun _ _ => .expectStart (by simp) fun t _ ht => (constructedClass_finds he).bind fun _ _ =>
    .peekAt <| .ite
      (fun _ => (arguments_finds he).bind fun _ _ =>
        .close ⟨t, ht, rfl⟩ (by simp) (fun _ => ⟨rfl, rfl⟩) (by simp [Node.children]))
      fun _ => .close ⟨t, ht, rfl⟩ (by simp) (fun _ => ⟨rfl, rfl⟩) (by simp [Node.children])

theorem arrayItem_finds : Finds tokens (arrayItem expression) one :=
  fun _ hc => .peek <| .peekAt <| .guard fun _ => .peekAt <| .guard fun _ => he.bind fun _ _ =>
    accept_finds.bind fun _ _ => .ite
      (fun _ => he.bind fun _ _ =>
        .close (isStart_current hc) (by simp) (fun _ => ⟨rfl, rfl⟩) (by simp [Node.children]))
      fun _ => .close (isStart_current hc) (by simp) (fun _ => ⟨rfl, rfl⟩) (by simp [Node.children])

theorem arraySlot_finds {close : Symbol} :
    Finds tokens (arraySlot expression close) (Round.brought Option.toList) :=
  fun _ _ => accept_finds.bind fun _ _ => .ite (fun _ => .pure (by simp)) fun _ =>
    accept_finds.bind fun _ _ => .ite (fun _ => .pure (by simp)) fun _ =>
      (arrayItem_finds he).bind fun _ _ => accept_finds.bind fun _ _ =>
        .ite (fun _ => .pure (by simp)) fun _ =>
          (expect_finds (by simp)).bind fun _ _ => .pure (by simp)

theorem arrayLiteral_places {opening close : Symbol} (hstart : IsStart tokens start) :
    Places tokens c start.start known (arrayLiteral expression opening close start) one :=
  (expect_finds (by simp)).bind fun _ _ => (gather_finds_slots (arraySlot_finds he)).bind fun _ _ =>
    .close hstart (by simp) (fun _ => ⟨rfl, rfl⟩) (by simp [Node.children])

theorem arrowFunction_places (hstart : IsStart tokens start) :
    Places tokens c start.start known (arrowFunction expression start) one :=
  (expect_finds (by simp)).bind fun _ _ => refuseByRefReturn_finds.bind fun _ _ =>
    parameterList_finds.bind fun _ _ => skipReturnType_finds.bind fun _ _ =>
      (expect_finds (by simp)).bind fun _ _ => he.bind fun _ _ =>
        .close hstart (by simp) (fun _ => ⟨rfl, rfl⟩)
          (by simp +contextual [Node.children, List.subset_def, or_imp])

theorem staticAccess_places {cls : Node} (hstart : IsStart tokens start) (hcls : cls ∈ known) :
    Places tokens c start.start known (staticAccess expression cls start) one := by
  refine .peekAt <| .ite (fun hk => ?_) fun _ => ?_
  · exact .advance (by simp_all) fun _ =>
      .also (n := varOf c.current) ⟨rfl, rfl, rfl⟩ List.mem_cons_self <|
        .other hstart (by simp) (by simp [hcls])
  · refine identifier_finds.bind fun _ _ => .peekAt <| .ite (fun _ => ?_) fun _ => ?_
    · exact (arguments_finds he).bind fun _ _ => .other hstart (by simp) (by simp [hcls])
    · exact .other hstart (by simp) (by simp [hcls])

/-- A link on an expression takes the expression in. -/
theorem postfixLink_places {base : Node} (hstart : IsStart tokens start) (hbase : base ∈ known) :
    Places tokens c start.start known (postfixLink expression base start) one := by
  refine .peek ?_
  split
  · refine advance_finds.bind fun _ _ => (memberName_finds he).bind fun _ _ => .peekAt <|
      .ite (fun _ => ?_) fun _ => ?_
    · exact (arguments_finds he).bind fun _ _ =>
        .close hstart (by simp) (fun _ => ⟨rfl, rfl⟩) (by simp [Node.children, hbase])
    · exact .close hstart (by simp) (fun _ => ⟨rfl, rfl⟩) (by simp [Node.children, hbase])
  · refine advance_finds.bind fun _ _ => (memberName_finds he).bind fun _ _ => .peekAt <|
      .ite (fun _ => ?_) fun _ => ?_
    · exact (arguments_finds he).bind fun _ _ => .other hstart (by simp) (by simp [hbase])
    · exact .other hstart (by simp) (by simp [hbase])
  · refine advance_finds.bind fun _ _ => .peekAt <| .ite (fun _ => ?_) fun _ => ?_
    · exact (expect_finds (by simp)).bind fun _ _ =>
        .close hstart (by simp) (fun _ => ⟨rfl, rfl⟩) (by simp [Node.children, hbase])
    · exact he.optional.bind fun _ _ => (expect_finds (by simp)).bind fun _ _ =>
        .close hstart (by simp) (fun _ => ⟨rfl, rfl⟩) (by simp [Node.children, hbase])
  · exact (arguments_finds he).bind fun _ _ =>
      .close hstart (by simp [List.ne_nil_of_mem hbase]) (fun _ => ⟨rfl, rfl⟩)
        (by simp [Node.children, hbase])
  · exact advance_finds.bind fun _ _ => staticAccess_places he hstart (by simp [hbase])
  · exact .pure (by simpa using hbase)

end

/-- The span of a constant is that of its first token, so its name reaches out of it
    unless it is just this token. -/
theorem nameOrConstant_places (hc : c.IsOn tokens) :
    Places tokens c c.here [] (nameOrConstant c.current.span) one := by
  intro _ hlo hknown n after h
  obtain ⟨label, d, hname, h⟩ := exists_of_bind_eq_ok h
  obtain ⟨hk, hleads, parts, fullyQualified, rfl, hstop, hiff⟩ := name_eq_ok hc hname
  have hlabel := (name_finds c hc hc hlo hknown hname).2
  obtain ⟨b, d', hopen, h⟩ := exists_of_bind_eq_ok h
  cases hopen
  obtain ⟨b, d', hcolon, h⟩ := exists_of_bind_eq_ok h
  cases hcolon
  split at h
  · cases h
    exact ⟨hleads, hlabel⟩
  · cases h
    have hnested : (∀ child ∈ (Node.constant (.name parts fullyQualified ⟨c.here, after.lastStop⟩)
        c.current.span).children, child.span.IsIn c.current.span) ↔
          (fullyQualified || parts.length != 1) = false := by
      rw [← hiff]
      exact List.forall_mem_singleton.trans (and_iff_right (Nat.le_refl _))
    refine ⟨hleads, List.forall_mem_singleton.2 ⟨?_, Nat.le_refl _, hstop⟩⟩
    exact Node.forall_occurs ⟨⟨_, hc.current_mem, rfl⟩, ⟨_, hc.current_mem, rfl⟩,
      hc.here_lt_stop hk, hnested⟩ fun child hchild => (hlabel child hchild).placed

section

variable {expression : Parser Node} {block : Parser (List Node)}
  (he : Finds tokens expression one) (hb : Finds tokens block id)

include hb in
theorem closure_places (hstart : IsStart tokens start) :
    Places tokens c start.start known (closure block start) one :=
  (expect_finds (by simp)).bind fun _ _ => refuseByRefReturn_finds.bind fun _ _ =>
    parameterList_finds.bind fun _ _ => closureBindings_finds.bind fun _ _ =>
      skipReturnType_finds.bind fun _ _ => hb.bind fun _ _ =>
        .close hstart (by simp) (fun _ => ⟨rfl, rfl⟩)
          (by simp +contextual [Node.children, List.subset_def, or_imp])

include he hb in
theorem primary_finds : Finds tokens (primary expression block) one := by
  intro c hc
  have hstart := isStart_current hc
  refine .peek ?_
  split
  · next hk => exact .advance (by simp [hk]) fun _ => .leaf ⟨rfl, rfl, rfl⟩ List.mem_cons_self
  · next hk =>
    refine .advance (by simp [hk]) fun _ => ?_
    split
    · next numeral _ =>
      cases numeral with
      | integer value => exact .leaf ⟨rfl, rfl, rfl⟩ List.mem_cons_self
      | float value => exact .leaf ⟨rfl, rfl, rfl⟩ List.mem_cons_self
    · exact .throw
  · next hk =>
    refine .advance (by simp [hk]) fun _ => ?_
    split
    · exact .leaf ⟨rfl, rfl, rfl⟩ List.mem_cons_self
    · exact .throw
  · next hk => exact .advance (by simp [hk]) fun _ => .leaf ⟨rfl, rfl, rfl⟩ List.mem_cons_self
  · next hk =>
    refine .advance (by simp [hk]) fun _ => ?_
    split
    · exact .leaf ⟨rfl, rfl, rfl⟩ List.mem_cons_self
    · exact .other hstart (by simp) (by simp)
  · exact arrayLiteral_places he hstart
  · exact .peekFollowing fun _ => .ite
      (fun _ => advance_finds.bind fun _ _ => arrayLiteral_places he hstart) fun _ => .complain
  · exact advance_finds.bind fun _ _ => (enclosed_finds he).places
  · exact (construction_finds he).places
  · exact arrowFunction_places he hstart
  · exact closure_places hb hstart
  · refine .peekFollowing fun kind => ?_
    split
    · exact advance_finds.bind fun _ _ => arrowFunction_places he hstart
    · exact advance_finds.bind fun _ _ => closure_places hb hstart
    · exact nameOrConstant_places hc
  · exact nameOrConstant_places hc
  · exact nameOrConstant_places hc
  · exact .complain

end

/-! ## Statements -/

section

variable {expression statement : Parser Node}

theorem statementsUntil_finds {close : Symbol} (hs : Finds tokens statement one) :
    Finds tokens (statementsUntil close statement) id := by
  have hstep : Finds tokens (statementUntil close statement) (Round.brought Option.toList) :=
    fun _ _ => .peekAt <| .ite (fun _ => .pure (by simp)) fun _ => .peekAt <| .guard fun _ =>
      accept_finds.bind fun _ _ => .ite (fun _ => .pure (by simp)) fun _ =>
        hs.bind fun _ _ => .pure (by simp)
  exact fun _ _ => (gather_finds_slots hstep).bind fun _ _ => (expect_finds (by simp)).bind
    fun _ _ => .pure (by simp)

theorem block_finds (hs : Finds tokens statement one) : Finds tokens (block statement) id :=
  fun _ _ => (expect_finds (by simp)).bind fun _ _ => (statementsUntil_finds hs).places

theorem modifiers_finds : Finds tokens modifiers nothing := by
  have hstep : Finds tokens modifier nothing := by
    refine fun _ _ => .peek ?_
    split
    · exact advance_finds.bind fun _ _ => .pure (by simp)
    · exact .pure (by simp)
  exact fun _ _ => (gather_finds_nothing hstep).bind fun _ _ => .pure (by simp)

theorem skipUntil_finds {mark : Symbol} : Finds tokens (skipUntil mark) nothing := by
  refine fun _ _ => (gather_finds_nothing fun _ _ => ?_).bind fun _ _ => .pure (by simp)
  exact .peekAt <| .peekAt <| .ite (fun _ => .pure (by simp)) fun _ =>
    advance_finds.bind fun _ _ => .pure (by simp)

theorem traitUse_places (hstart : IsStart tokens start) :
    Places tokens c start.start known (traitUse start) one :=
  (commaSeparated_finds name_finds).bind fun _ _ => .terminator fun _ =>
    .other hstart (by simp) (by simp +contextual [List.subset_def])

theorem method_places {flags : Modifiers} (hs : Finds tokens statement one)
    (hstart : IsStart tokens start) :
    Places tokens c start.start known (method statement flags start) one := by
  have hbody : Finds tokens (some <$> block statement) fun body => body.toList.flatten :=
    (block_finds hs).map fun body => by simp
  refine refuseByRefReturn_finds.bind fun _ _ => identifier_finds.bind fun _ _ =>
    parameterList_finds.bind fun _ _ => skipReturnType_finds.bind fun _ _ =>
      accept_finds.bind fun _ _ => .ite (fun _ => ?_) fun _ => ?_
  · exact .close hstart (by simp) (fun _ => ⟨rfl, rfl⟩)
      (by simp +contextual [Node.children, List.subset_def, or_imp])
  · exact hbody.bind fun _ _ => .close hstart (by simp) (fun _ => ⟨rfl, rfl⟩)
      (by simp +contextual [Node.children, List.subset_def, or_imp])

section

variable (he : Finds tokens expression one)

include he

theorem propertyItem_finds : Finds tokens (propertyItem expression) one := by
  refine fun _ _ => .expectStart (by simp) fun t _ ht =>
    .also (n := .identifier (varNameOf t) t.span) ⟨rfl, rfl, rfl⟩ List.mem_cons_self <|
      accept_finds.bind fun _ _ => .ite (fun _ => ?_) fun _ => ?_
  · exact he.optional.bind fun _ _ => .close ⟨t, ht, rfl⟩ (by simp) (fun _ => ⟨rfl, rfl⟩)
      (by simp [Node.children])
  · exact .close ⟨t, ht, rfl⟩ (by simp) (fun _ => ⟨rfl, rfl⟩) (by simp [Node.children])

theorem property_places {flags : Modifiers} (hstart : IsStart tokens start) :
    Places tokens c start.start known (property expression flags start) one :=
  skipType_finds.bind fun _ _ => (commaSeparated_finds (propertyItem_finds he)).bind fun _ _ =>
    .terminator fun _ => .close hstart (by simp) (fun _ => ⟨rfl, rfl⟩)
      (by simp +contextual [Node.children, List.subset_def])

theorem condition_finds : Finds tokens (condition expression) one :=
  fun _ _ => (expect_finds (by simp)).bind fun _ _ => (enclosed_finds he).places

theorem returnStatement_places (hstart : IsStart tokens start) :
    Places tokens c start.start known (returnStatement expression start) one := by
  refine advance_finds.bind fun _ _ => .peekAt <| .peekAt <| .ite (fun _ => ?_) fun _ => ?_
  · exact .terminator fun _ => .close hstart (by simp) (fun _ => ⟨rfl, rfl⟩)
      (by simp [Node.children])
  · exact he.optional.bind fun _ _ => .terminator fun _ => .close hstart (by simp)
      (fun _ => ⟨rfl, rfl⟩) (by simp +contextual [Node.children, List.subset_def])

theorem echoStatement_places (hstart : IsStart tokens start) :
    Places tokens c start.start known (echoStatement expression start) one :=
  advance_finds.bind fun _ _ => (commaSeparated_finds he).bind fun _ _ => .terminator fun _ =>
    .other hstart (by simp) (by simp +contextual [List.subset_def])

theorem expressionStatement_places (hstart : IsStart tokens start) :
    Places tokens c start.start known (expressionStatement expression start) one :=
  he.bind fun _ _ => .terminator fun _ => .close hstart (by simp) (fun _ => ⟨rfl, rfl⟩)
    (by simp [Node.children])

end

theorem useStatement_places (hstart : IsStart tokens start) :
    Places tokens c start.start known (useStatement start) one :=
  advance_finds.bind fun _ _ => skipUntil_finds.bind fun _ _ => .terminator fun _ =>
    .other hstart (by simp) (by simp)

theorem declareStatement_places (hstart : IsStart tokens start) :
    Places tokens c start.start known (declareStatement start) one :=
  advance_finds.bind fun _ _ => (expect_finds (by simp)).bind fun _ _ =>
    skipUntil_finds.bind fun _ _ => (expect_finds (by simp)).bind fun _ _ => .terminator fun _ =>
      .other hstart (by simp) (by simp)

theorem functionDeclaration_finds (hs : Finds tokens statement one) :
    Finds tokens (functionDeclaration statement) one :=
  fun _ _ => .expectStart (by simp) fun t _ ht => identifier_finds.bind fun _ _ =>
    parameterList_finds.bind fun _ _ => skipReturnType_finds.bind fun _ _ =>
      (block_finds hs).bind fun _ _ => .other ⟨t, ht, rfl⟩ (by simp)
        (by simp +contextual [List.subset_def, or_imp])

section

variable (he : Finds tokens expression one) (hs : Finds tokens statement one)

include he hs

theorem classMember_finds : Finds tokens (classMember expression statement) one := by
  intro c hc
  have hstart := isStart_current hc
  refine .peek <| accept_finds.bind fun _ _ => .ite (fun _ => traitUse_places hstart) fun _ =>
    .peekAt <| .guard fun _ => modifiers_finds.bind fun _ _ => accept_finds.bind fun _ _ =>
      .ite (fun _ => method_places hs hstart) fun _ => .ite (fun _ => ?_) fun _ => ?_
  · exact .peek <| .guard fun _ => .complain
  · exact property_places he hstart

theorem classDeclaration_places (hstart : IsStart tokens start) :
    Places tokens c start.start known (classDeclaration expression statement start) one := by
  have hstep : Finds tokens (classMemberUntil expression statement) (Round.brought one) :=
    fun _ _ => accept_finds.bind fun _ _ => .ite (fun _ => .pure (by simp)) fun _ =>
      .peekAt <| .guard fun _ => (classMember_finds he hs).bind fun _ _ => .pure (by simp)
  exact (expect_finds (by simp)).bind fun _ _ => identifier_finds.bind fun _ _ => .peek <|
    .guard fun _ => (expect_finds (by simp)).bind fun _ _ =>
      (gather_finds_nodes hstep).bind fun _ _ =>
        .close hstart (by simp) (fun _ => ⟨rfl, rfl⟩) (by simp [Node.children])

theorem modifiedClass_places (hstart : IsStart tokens start) :
    Places tokens c start.start known (modifiedClass expression statement start) one := by
  have hstep : Finds tokens classModifier nothing := by
    refine fun _ _ => .peek ?_
    split
    all_goals first
      | exact advance_finds.bind fun _ _ => .pure (by simp)
      | exact .pure (by simp)
  exact (gather_finds_nothing hstep).bind fun _ _ => classDeclaration_places he hs hstart

theorem conditional_finds : Finds tokens (conditional expression statement) one := by
  have hstep : Finds tokens (branch expression statement) (Round.brought one) := by
    intro c hc
    have hstart := isStart_current hc
    refine .peek <| accept_finds.bind fun _ _ => .ite (fun _ => ?_) fun _ =>
      accept_finds.bind fun _ _ => .ite (fun _ => ?_) fun _ => .pure (by simp)
    · exact (condition_finds he).bind fun _ _ => hs.bind fun _ _ =>
        (Places.other hstart (by simp) (by simp)).bind fun _ _ => .pure (by simp)
    · exact hs.bind fun _ _ =>
        (Places.other hstart (by simp) (by simp)).bind fun _ _ => .pure (by simp)
  exact fun _ _ => .expectStart (by simp) fun t _ ht => (condition_finds he).bind fun _ _ =>
    hs.bind fun _ _ => (gather_finds_nodes hstep).bind fun _ _ =>
      .other ⟨t, ht, rfl⟩ (by simp) (by simp)

theorem statementBody_finds : Finds tokens (statementBody expression statement) one := by
  intro c hc
  have hstart := isStart_current hc
  refine .peek ?_
  split
  · next hk => exact .advance (by simp [hk]) fun _ => .other hstart (by simp) (by simp)
  · next hk => exact .advance (by simp [hk]) fun _ => .other hstart (by simp) (by simp)
  · rw [block, bind_assoc]
    exact (expect_finds (by simp)).bind fun _ _ => (statementsUntil_finds hs).bind fun _ _ =>
      .other hstart (by simp) (by simp)
  · exact returnStatement_places he hstart
  · exact echoStatement_places he hstart
  · exact (conditional_finds he hs).places
  · exact useStatement_places hstart
  · exact declareStatement_places hstart
  · exact .peekFollowing fun _ => .ite (fun _ => (functionDeclaration_finds hs).places) fun _ =>
      expressionStatement_places he hstart
  · exact classDeclaration_places he hs hstart
  iterate 3 exact modifiedClass_places he hs hstart
  · exact .complain
  · exact .complain
  · exact expressionStatement_places he hstart

end

end

/-! ## Levels -/

/-- The parsers of a grammar place what they find. -/
structure Grammar.IsPlacing (tokens : List Token) (g : Grammar) : Prop where
  expression : Finds tokens g.expression one
  statement : Finds tokens g.statement one
  operand : Finds tokens g.operand one
  operators : ∀ {c least start left known}, IsStart tokens start → left ∈ known →
    Places tokens c start.start known (g.operators least start left) one
  links : ∀ {c start base known}, IsStart tokens start → base ∈ known →
    Places tokens c start.start known (g.links start base) one

namespace Grammar

theorem operatorFrom?_finds {least : Nat} : Finds tokens (operatorFrom? least) nothing := by
  refine fun _ _ => .peek ?_
  dsimp only
  split
  · exact .pure (by simp)
  · exact .pure (by simp)

theorem closed_isPlacing : IsPlacing tokens closed where
  expression _ _ := .tooDeep
  statement _ _ := .tooDeep
  operand _ _ := .tooDeep
  operators _ hleft := operatorFrom?_finds.bind fun operator _ => by
    split
    · exact .tooDeep
    · exact .pure (by simpa using hleft)
  links _ hbase := .peek <| .ite (fun _ => .tooDeep) fun _ => .pure (by simpa using hbase)

/-- The node of an assignment. -/
theorem assignment?_places {kind : TokenKind} {node : Node → Node → Span → Parser Node}
    (h : assignment? kind = some node) {target value : Node} (hstart : IsStart tokens start)
    (htarget : target ∈ known) (hvalue : value ∈ known) :
    Places tokens c start.start known (node target value start) one := by
  have hne : known ≠ [] := List.ne_nil_of_mem htarget
  have hboth : [target, value] ⊆ known := by simp [htarget, hvalue]
  unfold assignment? at h
  split at h
  all_goals cases h
  · exact .close hstart hne (fun _ => ⟨rfl, rfl⟩) fun _ => hboth
  · exact .close hstart hne (fun _ => ⟨rfl, rfl⟩) fun _ => hboth
  all_goals exact .other hstart hne hboth

section

variable {g : Grammar} (hg : g.IsPlacing tokens)

include hg

theorem postfixExpression_finds : Finds tokens g.postfixExpression one :=
  .chain fun _ hc => .peek <| (primary_finds hg.expression (block_finds hg.statement)).bind
    fun _ _ => hg.links (isStart_current hc) (by simp)

theorem unary_finds : Finds tokens g.unary one := by
  refine fun _ hc => .peek ?_
  split
  · exact advance_finds.bind fun _ _ => hg.operand.bind fun _ _ =>
      .other (isStart_current hc) (by simp) (by simp)
  · exact (postfixExpression_finds hg).places

theorem binary_finds {least : Nat} : Finds tokens (g.binary least) one :=
  .chain fun _ hc => .peek <| (unary_finds hg).bind fun _ _ =>
    hg.operators (isStart_current hc) (by simp)

theorem assignment_finds : Finds tokens g.assignment one := by
  intro c hc
  have hstart := isStart_current hc
  refine .peek <| (binary_finds hg).bind fun target d => .peek ?_
  split
  · next node hnode =>
    exact .guard fun _ => advance_finds.bind fun _ _ => hg.expression.bind fun value _ =>
      assignment?_places hnode hstart (by simp) (by simp)
  · exact .pure (by simp)

theorem deeper_isPlacing : g.deeper.IsPlacing tokens where
  expression := (assignment_finds hg).within
  statement := (statementBody_finds hg.expression hg.statement).within
  operand := (unary_finds hg).within
  operators hstart hleft := operatorFrom?_finds.bind fun operator _ => by
    split
    · exact link_finds.bind fun _ _ => advance_finds.bind fun _ _ => (binary_finds hg).bind
        fun _ _ => (binaryNode_places hstart (by simp [hleft]) (by simp)).bind fun _ _ =>
          hg.operators hstart (by simp)
    · exact .pure (by simpa using hleft)
  links hstart hbase := .peek <| .ite
    (fun _ => link_finds.bind fun _ _ =>
      (postfixLink_places hg.expression hstart (by simpa using hbase)).bind fun _ _ =>
        hg.links hstart (by simp))
    fun _ => .pure (by simpa using hbase)

end

theorem ofLevels_isPlacing (levels : Nat) : (ofLevels levels).IsPlacing tokens := by
  induction levels with
  | zero => exact closed_isPlacing
  | succ levels ih => exact deeper_isPlacing ih

end Grammar

/-! ## Programs -/

theorem statement_finds : Finds tokens statement one :=
  fun c hc => (Grammar.ofLevels_isPlacing (maxDepth - c.depth)).statement c hc

theorem namespaceBody_finds {label : Option Node} : Finds tokens (namespaceBody label) id := by
  have hstep : Finds tokens statementInNamespace (Round.brought Option.toList) :=
    fun _ _ => .peekAt <| .peekAt <| .ite (fun _ => .pure (by simp)) fun _ =>
      accept_finds.bind fun _ _ => .ite (fun _ => .pure (by simp)) fun _ =>
        statement_finds.bind fun _ _ => .pure (by simp)
  exact fun _ _ => accept_finds.bind fun _ _ => .ite
    (fun _ => (statementsUntil_finds statement_finds).places)
    fun _ => .guard fun _ => .terminator fun _ => (gather_finds_slots hstep).bind fun _ _ =>
      .pure (by simp)

theorem namespaceBlock_finds : Finds tokens namespaceBlock one := by
  refine fun _ _ => .expectStart (by simp) fun t _ ht => .peekAt <| .ite (fun _ => ?_) fun _ => ?_
  · exact namespaceBody_finds.bind fun _ _ => .close ⟨t, ht, rfl⟩ (by simp) (fun _ => ⟨rfl, rfl⟩)
      (by simp [Node.children])
  · exact name_finds.optional.bind fun _ _ => namespaceBody_finds.bind fun _ _ =>
      .close ⟨t, ht, rfl⟩ (by simp) (fun _ => ⟨rfl, rfl⟩)
        (by simp +contextual [Node.children, List.subset_def, or_imp])

theorem program_finds : Finds tokens program id := by
  have hstep : Finds tokens topLevel (Round.brought Option.toList) :=
    fun _ _ => .peekAt <| .ite (fun _ => .pure (by simp)) fun _ =>
      accept_finds.bind fun _ _ => .ite (fun _ => .pure (by simp)) fun _ =>
        .peekAt <| .ite (fun _ => namespaceBlock_finds.bind fun _ _ => .pure (by simp)) fun _ =>
          statement_finds.bind fun _ _ => .pure (by simp)
  exact fun _ _ => (gather_finds_slots hstep).bind fun _ _ => .pure (by simp)

/-- Every node of a program is placed among the tokens of its text: the nodes below it
    lie inside its span exactly if it is no constant with a qualified name. -/
theorem source_nested {text : String} {nodes : List Node}
    (hsize : text.utf8ByteSize < Span.limit) (h : source text = .ok nodes) :
    ∃ tokens, Token.scan text = .ok tokens ∧
      ∀ root ∈ nodes, ∀ n : Node, n.Occurs root → n.IsPlaced tokens := by
  unfold source Parse.start at h
  cases hscan : Token.scan text with
  | error e => rw [hscan] at h; cases h
  | ok tokens =>
    have hc := Cursor.isOn_of_scan (Nat.le_of_lt hsize) hscan
    simp only [hscan, bind, Except.bind, resume] at h
    split at h
    · next hprogram =>
      cases h
      have hfound := (program_finds _ hc hc (Nat.le_refl _) (by simp) hprogram).2
      exact ⟨tokens, rfl, fun root hroot => (hfound root hroot).placed⟩
    · cases h

/-- A statement that is a constant with the name `A\B`, and the spans of the three. -/
def isQualifiedStatement : List Node → Bool
  | [.expression (.constant (.name ["A", "B"] false ⟨6, 9⟩) ⟨6, 7⟩) ⟨6, 10⟩] => true
  | _ => false

/-- The statement `A\B;`, whose constant ends before its name does. -/
theorem qualifiedConstant_parsed :
    source "<?php A\\B;" =
      .ok [.expression (.constant (.name ["A", "B"] false ⟨6, 9⟩) ⟨6, 7⟩) ⟨6, 10⟩] := by
  have hcheck : (source "<?php A\\B;").toOption.any isQualifiedStatement := by decide +kernel
  obtain ⟨nodes, hsource, hshape⟩ := exists_of_any hcheck
  unfold isQualifiedStatement at hshape
  split at hshape
  · exact hsource
  · cases hshape

theorem qualifiedConstant_nested :
    "<?php A\\B;".utf8ByteSize < Span.limit ∧
    ∃ tokens, Token.scan "<?php A\\B;" = .ok tokens ∧ ∃ root,
      source "<?php A\\B;" = .ok [root] ∧ ∃ n, Node.Occurs n root ∧ n.IsPlaced tokens ∧
        n.isQualifiedConstant ∧ ¬∀ child ∈ n.children, child.span.IsIn n.span := by
  have hsize : "<?php A\\B;".utf8ByteSize < Span.limit := by decide +kernel
  obtain ⟨tokens, hscan, hplaced⟩ := source_nested hsize qualifiedConstant_parsed
  have hn := hplaced _ (List.mem_singleton_self _) _ (.of_mem (List.mem_singleton_self _))
  refine ⟨hsize, tokens, hscan, _, qualifiedConstant_parsed, _,
    .of_mem (List.mem_singleton_self _), hn, rfl, fun h => ?_⟩
  cases hn.nested.1 h

/-- Some nodes do reach out of the node above them. -/
theorem not_always_nested :
    ¬∀ (text : String) (nodes : List Node), text.utf8ByteSize < Span.limit →
      source text = .ok nodes → ∀ root ∈ nodes, ∀ n : Node, n.Occurs root →
        ∀ child ∈ n.children, child.span.IsIn n.span := by
  intro h
  have hinside := h _ _ (by decide +kernel) qualifiedConstant_parsed _ (List.mem_singleton_self _) _
    (.of_mem (List.mem_singleton_self _)) _ (List.mem_singleton_self _)
  exact absurd hinside.2 (by decide)

end PhpScript.Parse
