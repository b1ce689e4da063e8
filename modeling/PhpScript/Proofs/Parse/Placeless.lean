import PhpScript.Proofs.Parse.Agreement

/-!
# Programs at other places

The parsers for expressions, statements and programs agree with themselves over
the same tokens at other places. They are taken in three layers, as for their
soundness:

* the forms of an expression and of a statement, given parsers for the
  expressions and statements in them that agree;
* `Grammar.Agrees`, which says it of the parsers with some number of levels
  left, and is kept by `Grammar.deeper`;
* a program (`program_agrees`), and the source texts with the tokens of two
  cursors (`source_agrees`).
-/

namespace PhpScript.Parse

open Node.Alike

variable {P : Placing}

/-- Lists of trees that are alike one by one. -/
abbrev ListAlike (P : Placing) : List Node → List Node → Prop := List.Forall₂ (Node.Alike P)

/-! ## Expressions -/

section

variable {expression : Parser Node} (he : Agrees P (Node.Alike P) expression expression)

include he

theorem argument_agrees : Agrees P (Node.Alike P) (argument expression) (argument expression) :=
  current_agrees.bind fun _ _ (.mk _) => following_agrees.andThen fun _ => .guard <|
    isAt_agrees.andThen fun _ => .guard <| current_agrees.bind fun _ _ (.mk hs) =>
      he.bind fun _ _ hv => (spanFrom_agrees hs).bind fun _ _ hs =>
        .pure (.intro (by simp [hv.bare_eq]) hs (.cons hv .nil))

theorem arguments_agrees : Agrees P (ListAlike P) (arguments expression) (arguments expression) :=
  expect_agrees.bind fun _ _ _ => (commaListUntil_agrees (argument_agrees he)).bind
    fun _ _ hargs => expect_agrees.bind fun _ _ _ => .pure hargs

theorem enclosed_agrees {close : Symbol} :
    Agrees P (Node.Alike P) (enclosed expression close) (enclosed expression close) :=
  he.bind fun _ _ hv => expect_agrees.bind fun _ _ _ => .pure hv

theorem memberName_agrees :
    Agrees P (Node.Alike P) (memberName expression) (memberName expression) := by
  refine current_agrees.bind fun _ _ (.mk _) => ?_
  dsimp only
  split
  · exact advance_agrees.bind fun _ _ (.mk hs) => .pure (.var hs)
  · exact advance_agrees.bind fun _ _ _ => enclosed_agrees he
  · exact identifier_agrees

theorem constructedClass_agrees :
    Agrees P (Node.Alike P) (constructedClass expression) (constructedClass expression) := by
  refine current_agrees.bind fun _ _ (.mk _) => ?_
  dsimp only
  split
  · exact .complain
  · exact advance_agrees.bind fun _ _ (.mk hs) => .pure (.var hs)
  · exact advance_agrees.bind fun _ _ _ => enclosed_agrees he
  · exact name_agrees

theorem construction_agrees :
    Agrees P (Node.Alike P) (construction expression) (construction expression) := by
  refine expect_agrees.bind fun _ _ (.mk hs) => (constructedClass_agrees he).bind fun _ _ hcls =>
    isAt_agrees.andThen fun _ => .ite ?_ ?_
  · exact (arguments_agrees he).bind fun _ _ hargs => (spanFrom_agrees hs).bind fun _ _ hs =>
      .pure (.intro (by simp [hcls.bare_eq, map_bare_eq hargs]) hs (.cons hcls hargs))
  · exact (spanFrom_agrees hs).bind fun _ _ hs =>
      .pure (.intro (by simp [hcls.bare_eq]) hs (.cons hcls .nil))

theorem arrayItem_agrees :
    Agrees P (Node.Alike P) (arrayItem expression) (arrayItem expression) := by
  refine current_agrees.bind fun _ _ (.mk hs) => isAt_agrees.andThen fun _ => .guard <|
    isAt_agrees.andThen fun _ => .guard <| he.bind fun _ _ hfirst =>
      accept_agrees.andThen fun _ => .ite ?_ ?_
  · exact he.bind fun _ _ hv => (spanFrom_agrees hs).bind fun _ _ hs =>
      .pure (.intro (by simp [hfirst.bare_eq, hv.bare_eq]) hs (.cons hfirst (.cons hv .nil)))
  · exact (spanFrom_agrees hs).bind fun _ _ hs =>
      .pure (.intro (by simp [hfirst.bare_eq]) hs (.cons hfirst .nil))

theorem arraySlot_agrees {close : Symbol} :
    Agrees P (Round.Rel (Option.Rel (Node.Alike P))) (arraySlot expression close)
      (arraySlot expression close) :=
  accept_agrees.andThen fun _ => .ite (.pure .stop) <|
    accept_agrees.andThen fun _ => .ite (.pure (.more .none)) <|
      (arrayItem_agrees he).bind fun _ _ hi => accept_agrees.andThen fun _ =>
        .ite (.pure (.more (.some hi))) <| expect_agrees.bind fun _ _ _ =>
          .pure (.last (.some hi))

theorem arrayLiteral_agrees {opening close : Symbol} {s s' : Span} (hs : P.Rel s s') :
    Agrees P (Node.Alike P) (arrayLiteral expression opening close s)
      (arrayLiteral expression opening close s') :=
  expect_agrees.bind fun _ _ _ => (gather_agrees (arraySlot_agrees he)).bind fun _ _ hslots =>
    (spanFrom_agrees hs).bind fun _ _ hs =>
      .pure (.intro (by simp [slots_map_bare_eq hslots]) hs (filterMap_id hslots))

theorem arrowFunction_agrees {s s' : Span} (hs : P.Rel s s') :
    Agrees P (Node.Alike P) (arrowFunction expression s) (arrowFunction expression s') :=
  expect_agrees.bind fun _ _ _ => refuseByRefReturn_agrees.andThen fun _ =>
    parameterList_agrees.bind fun _ _ hps => skipReturnType_agrees.andThen fun _ =>
      expect_agrees.bind fun _ _ _ => he.bind fun _ _ hbody => (spanFrom_agrees hs).bind
        fun _ _ hs => .pure (.intro (by simp [map_bare_eq hps, hbody.bare_eq]) hs
          (List.rel_append hps (.cons hbody .nil)))

theorem staticAccess_agrees {cls cls' : Node} {s s' : Span} (hcls : cls.Alike P cls')
    (hs : P.Rel s s') :
    Agrees P (Node.Alike P) (staticAccess expression cls s) (staticAccess expression cls' s') := by
  refine isAt_agrees.andThen fun _ => .ite ?_ ?_
  · exact advance_agrees.bind fun _ _ (.mk ht) =>
      other_agrees (.cons hcls (.cons (.var ht) .nil)) hs
  · refine identifier_agrees.bind fun _ _ hl => isAt_agrees.andThen fun _ => .ite ?_ ?_
    · exact (arguments_agrees he).bind fun _ _ hargs =>
        other_agrees (.cons hcls (.cons hl hargs)) hs
    · exact other_agrees (.cons hcls (.cons hl .nil)) hs

theorem postfixLink_agrees {base base' : Node} {s s' : Span} (hbase : base.Alike P base')
    (hs : P.Rel s s') :
    Agrees P (Node.Alike P) (postfixLink expression base s) (postfixLink expression base' s') := by
  refine current_agrees.bind fun _ _ (.mk _) => ?_
  dsimp only
  split
  · refine advance_agrees.bind fun _ _ _ => (memberName_agrees he).bind fun _ _ hl =>
      isAt_agrees.andThen fun _ => .ite ?_ ?_
    · exact (arguments_agrees he).bind fun _ _ hargs => (spanFrom_agrees hs).bind fun _ _ hs =>
        .pure (.intro (by simp [hbase.bare_eq, hl.bare_eq, map_bare_eq hargs]) hs
          (.cons hbase (.cons hl hargs)))
    · exact (spanFrom_agrees hs).bind fun _ _ hs =>
        .pure (.intro (by simp [hbase.bare_eq, hl.bare_eq]) hs (.cons hbase (.cons hl .nil)))
  · refine advance_agrees.bind fun _ _ _ => (memberName_agrees he).bind fun _ _ hl =>
      isAt_agrees.andThen fun _ => .ite ?_ ?_
    · exact (arguments_agrees he).bind fun _ _ hargs =>
        other_agrees (.cons hbase (.cons hl hargs)) hs
    · exact other_agrees (.cons hbase (.cons hl .nil)) hs
  · refine advance_agrees.bind fun _ _ _ => isAt_agrees.andThen fun _ => .ite ?_ ?_
    · exact expect_agrees.bind fun _ _ _ => (spanFrom_agrees hs).bind fun _ _ hs =>
        .pure (.intro (by simp [hbase.bare_eq]) hs (.cons hbase .nil))
    · exact he.optional.bind fun _ _ hkey => expect_agrees.bind fun _ _ _ =>
        (spanFrom_agrees hs).bind fun _ _ hs =>
          .pure (.intro (by simp [hbase.bare_eq, option_map_bare_eq hkey]) hs
            (.cons hbase (toList hkey)))
  · exact (arguments_agrees he).bind fun _ _ hargs => (spanFrom_agrees hs).bind fun _ _ hs =>
      .pure (.intro (by simp [hbase.bare_eq, map_bare_eq hargs]) hs (.cons hbase hargs))
  · exact advance_agrees.bind fun _ _ _ => staticAccess_agrees he hbase hs
  · exact .pure hbase

end

theorem nameOrConstant_agrees {s s' : Span} (hs : P.Rel s s') :
    Agrees P (Node.Alike P) (nameOrConstant s) (nameOrConstant s') :=
  name_agrees.bind fun _ _ hl => isAt_agrees.andThen fun _ => isAt_agrees.andThen fun _ =>
    .ite (.pure hl) (.pure (.intro (by simp [hl.bare_eq]) hs (.cons hl .nil)))

section

variable {expression : Parser Node} {block : Parser (List Node)}
  (he : Agrees P (Node.Alike P) expression expression) (hb : Agrees P (ListAlike P) block block)

include hb in
theorem closure_agrees {s s' : Span} (hs : P.Rel s s') :
    Agrees P (Node.Alike P) (closure block s) (closure block s') :=
  expect_agrees.bind fun _ _ _ => refuseByRefReturn_agrees.andThen fun _ =>
    parameterList_agrees.bind fun _ _ hps => closureBindings_agrees.bind fun _ _ hus =>
      skipReturnType_agrees.andThen fun _ => hb.bind fun _ _ hbody => (spanFrom_agrees hs).bind
        fun _ _ hs => .pure (.intro (by simp [map_bare_eq hps, map_bare_eq hus, map_bare_eq hbody])
          hs (List.rel_append (List.rel_append hps hus) hbody))

include he hb in
theorem primary_agrees :
    Agrees P (Node.Alike P) (primary expression block) (primary expression block) := by
  refine current_agrees.bind fun _ _ (.mk hs) => ?_
  dsimp only
  split
  · exact advance_agrees.bind fun _ _ (.mk hs) => .pure (.var hs)
  · refine advance_agrees.bind fun _ _ _ => ?_
    split
    · next numeral _ =>
      cases numeral with
      | integer value => exact .pure (.intro (by simp [numeralNode]) hs .nil)
      | float value => exact .pure (.intro (by simp [numeralNode]) hs .nil)
    · exact .invalidNumber hs
  · refine advance_agrees.bind fun _ _ _ => ?_
    split
    · exact .pure (.intro (by simp) hs .nil)
    · exact .invalidNumber hs
  · exact advance_agrees.bind fun _ _ _ => .pure (.intro (by simp) hs .nil)
  · refine advance_agrees.bind fun _ _ _ => ?_
    split
    · exact .pure (.intro (by simp) hs .nil)
    · exact other_agrees .nil hs
  · exact arrayLiteral_agrees he hs
  · exact following_agrees.andThen fun _ =>
      .ite (advance_agrees.bind fun _ _ _ => arrayLiteral_agrees he hs) .complain
  · exact advance_agrees.bind fun _ _ _ => enclosed_agrees he
  · exact construction_agrees he
  · exact arrowFunction_agrees he hs
  · exact closure_agrees hb hs
  · refine following_agrees.andThen fun _ => ?_
    split
    · exact advance_agrees.bind fun _ _ _ => arrowFunction_agrees he hs
    · exact advance_agrees.bind fun _ _ _ => closure_agrees hb hs
    · exact nameOrConstant_agrees hs
  · exact nameOrConstant_agrees hs
  · exact nameOrConstant_agrees hs
  · exact .complain

end

/-! ## Statements -/

section

variable {expression statement : Parser Node}

theorem statementsUntil_agrees {close : Symbol}
    (hs : Agrees P (Node.Alike P) statement statement) :
    Agrees P (ListAlike P) (statementsUntil close statement) (statementsUntil close statement) := by
  have hstep : Agrees P (Round.Rel (Option.Rel (Node.Alike P))) (statementUntil close statement)
      (statementUntil close statement) :=
    isAt_agrees.andThen fun _ => .ite (.pure .stop) <| isAt_agrees.andThen fun _ => .guard <|
      accept_agrees.andThen fun _ => .ite (.pure (.more .none)) <|
        hs.bind fun _ _ hn => .pure (.more (.some hn))
  exact (gather_agrees hstep).bind fun _ _ hslots => expect_agrees.bind fun _ _ _ =>
    .pure (filterMap_id hslots)

theorem block_agrees (hs : Agrees P (Node.Alike P) statement statement) :
    Agrees P (ListAlike P) (block statement) (block statement) :=
  expect_agrees.bind fun _ _ _ => statementsUntil_agrees hs

theorem modifiers_agrees : Agrees P Eq modifiers modifiers := by
  refine (gather_agrees_eq ?_).andThen fun _ => .pure rfl
  refine current_agrees.bind fun _ _ (.mk _) => ?_
  dsimp only
  split
  · exact advance_agrees.bind fun _ _ _ => .pure (.more rfl)
  · exact .pure .stop

theorem skipUntil_agrees {mark : Symbol} : Agrees P Eq (skipUntil mark) (skipUntil mark) := by
  refine (gather_agrees_eq ?_).andThen fun _ => .pure rfl
  exact isAt_agrees.andThen fun _ => isAt_agrees.andThen fun _ => .ite (.pure .stop) <|
    advance_agrees.bind fun _ _ _ => .pure (.more rfl)

theorem traitUse_agrees {s s' : Span} (hs : P.Rel s s') :
    Agrees P (Node.Alike P) (traitUse s) (traitUse s') :=
  (commaSeparated_agrees name_agrees).bind fun _ _ htraits => terminator_agrees.andThen fun _ =>
    other_agrees htraits hs

theorem method_agrees {flags : Modifiers} {s s' : Span}
    (hst : Agrees P (Node.Alike P) statement statement) (hs : P.Rel s s') :
    Agrees P (Node.Alike P) (method statement flags s) (method statement flags s') := by
  refine refuseByRefReturn_agrees.andThen fun _ => identifier_agrees.bind fun _ _ hl =>
    parameterList_agrees.bind fun _ _ hps => skipReturnType_agrees.andThen fun _ => ?_
  have hmethod {body body' : Option (List Node)} (hbody : Option.Rel (ListAlike P) body body') :
      Agrees P (Node.Alike P) (do return .method flags _ _ body (← spanFrom s))
        (do return .method flags _ _ body' (← spanFrom s')) :=
    (spanFrom_agrees hs).bind fun _ _ hs =>
      .pure (.intro (by simp [hl.bare_eq, map_bare_eq hps, bareBody_eq hbody]) hs
        (.cons hl (List.rel_append hps (body_toList hbody))))
  exact accept_agrees.andThen fun _ => .ite (hmethod .none)
    ((block_agrees hst).optional.bind fun _ _ hbody => hmethod hbody)

section

variable (he : Agrees P (Node.Alike P) expression expression)

include he

theorem propertyItem_agrees :
    Agrees P (Node.Alike P) (propertyItem expression) (propertyItem expression) := by
  refine expect_agrees.bind fun _ _ (.mk hs) => accept_agrees.andThen fun _ => .ite ?_ ?_
  · exact he.optional.bind fun _ _ hv => (spanFrom_agrees hs).bind fun _ _ hs' =>
      .pure (.intro (by simp [option_map_bare_eq hv, varNameOf]) hs'
        (.cons (.identifier hs) (toList hv)))
  · exact (spanFrom_agrees hs).bind fun _ _ hs' =>
      .pure (.intro (by simp [varNameOf]) hs' (.cons (.identifier hs) .nil))

theorem property_agrees {flags : Modifiers} {s s' : Span} (hs : P.Rel s s') :
    Agrees P (Node.Alike P) (property expression flags s) (property expression flags s') :=
  skipType_agrees.andThen fun _ => (commaSeparated_agrees (propertyItem_agrees he)).bind
    fun _ _ hitems => terminator_agrees.andThen fun _ => (spanFrom_agrees hs).bind fun _ _ hs =>
      .pure (.intro (by simp [map_bare_eq hitems]) hs hitems)

theorem condition_agrees :
    Agrees P (Node.Alike P) (condition expression) (condition expression) :=
  expect_agrees.bind fun _ _ _ => enclosed_agrees he

theorem returnStatement_agrees {s s' : Span} (hs : P.Rel s s') :
    Agrees P (Node.Alike P) (returnStatement expression s) (returnStatement expression s') := by
  refine advance_agrees.bind fun _ _ _ => isAt_agrees.andThen fun _ =>
    isAt_agrees.andThen fun _ => .ite ?_ ?_
  · exact terminator_agrees.andThen fun _ => (spanFrom_agrees hs).bind fun _ _ hs =>
      .pure (.intro (by simp) hs .nil)
  · exact he.optional.bind fun _ _ hv => terminator_agrees.andThen fun _ =>
      (spanFrom_agrees hs).bind fun _ _ hs =>
        .pure (.intro (by simp [option_map_bare_eq hv]) hs (toList hv))

theorem echoStatement_agrees {s s' : Span} (hs : P.Rel s s') :
    Agrees P (Node.Alike P) (echoStatement expression s) (echoStatement expression s') :=
  advance_agrees.bind fun _ _ _ => (commaSeparated_agrees he).bind fun _ _ hvalues =>
    terminator_agrees.andThen fun _ => other_agrees hvalues hs

theorem expressionStatement_agrees {s s' : Span} (hs : P.Rel s s') :
    Agrees P (Node.Alike P) (expressionStatement expression s)
      (expressionStatement expression s') :=
  he.bind fun _ _ hv => terminator_agrees.andThen fun _ => (spanFrom_agrees hs).bind fun _ _ hs =>
    .pure (.intro (by simp [hv.bare_eq]) hs (.cons hv .nil))

end

theorem useStatement_agrees {s s' : Span} (hs : P.Rel s s') :
    Agrees P (Node.Alike P) (useStatement s) (useStatement s') :=
  advance_agrees.bind fun _ _ _ => skipUntil_agrees.andThen fun _ =>
    terminator_agrees.andThen fun _ => other_agrees .nil hs

theorem declareStatement_agrees {s s' : Span} (hs : P.Rel s s') :
    Agrees P (Node.Alike P) (declareStatement s) (declareStatement s') :=
  advance_agrees.bind fun _ _ _ => expect_agrees.bind fun _ _ _ =>
    skipUntil_agrees.andThen fun _ => expect_agrees.bind fun _ _ _ =>
      terminator_agrees.andThen fun _ => other_agrees .nil hs

theorem functionDeclaration_agrees (hst : Agrees P (Node.Alike P) statement statement) :
    Agrees P (Node.Alike P) (functionDeclaration statement) (functionDeclaration statement) :=
  expect_agrees.bind fun _ _ (.mk hs) => identifier_agrees.bind fun _ _ hl =>
    parameterList_agrees.bind fun _ _ hps => skipReturnType_agrees.andThen fun _ =>
      (block_agrees hst).bind fun _ _ hbody =>
        other_agrees (.cons hl (List.rel_append hps hbody)) hs

variable (he : Agrees P (Node.Alike P) expression expression)
  (hst : Agrees P (Node.Alike P) statement statement)

include he hst

theorem classMember_agrees :
    Agrees P (Node.Alike P) (classMember expression statement)
      (classMember expression statement) := by
  refine current_agrees.bind fun _ _ (.mk hs) => accept_agrees.andThen fun _ =>
    .ite (traitUse_agrees hs) <| isAt_agrees.andThen fun _ => .guard <|
      modifiers_agrees.andThen fun _ => accept_agrees.andThen fun _ =>
        .ite (method_agrees hst hs) <| .ite ?_ (property_agrees he hs)
  exact current_agrees.bind fun _ _ (.mk _) => .guard .complain

theorem classDeclaration_agrees {s s' : Span} (hs : P.Rel s s') :
    Agrees P (Node.Alike P) (classDeclaration expression statement s)
      (classDeclaration expression statement s') := by
  have hstep : Agrees P (Round.Rel (Node.Alike P)) (classMemberUntil expression statement)
      (classMemberUntil expression statement) :=
    accept_agrees.andThen fun _ => .ite (.pure .stop) <| isAt_agrees.andThen fun _ => .guard <|
      (classMember_agrees he hst).bind fun _ _ hm => .pure (.more hm)
  exact expect_agrees.bind fun _ _ _ => identifier_agrees.bind fun _ _ hl =>
    current_agrees.bind fun _ _ (.mk _) => .guard <| expect_agrees.bind fun _ _ _ =>
      (gather_agrees hstep).bind fun _ _ hmembers => (spanFrom_agrees hs).bind fun _ _ hs =>
        .pure (.intro (by simp [hl.bare_eq, map_bare_eq hmembers]) hs (.cons hl hmembers))

theorem modifiedClass_agrees {s s' : Span} (hs : P.Rel s s') :
    Agrees P (Node.Alike P) (modifiedClass expression statement s)
      (modifiedClass expression statement s') := by
  refine (gather_agrees_eq ?_).andThen fun _ => classDeclaration_agrees he hst hs
  refine current_agrees.bind fun _ _ (.mk _) => ?_
  dsimp only
  split
  all_goals first
    | exact advance_agrees.bind fun _ _ _ => .pure (.more rfl)
    | exact .pure .stop

theorem conditional_agrees :
    Agrees P (Node.Alike P) (conditional expression statement)
      (conditional expression statement) := by
  have hbranch : Agrees P (Round.Rel (Node.Alike P)) (branch expression statement)
      (branch expression statement) := by
    refine current_agrees.bind fun _ _ (.mk hs) => accept_agrees.andThen fun _ => .ite ?_ <|
      accept_agrees.andThen fun _ => .ite ?_ (.pure .stop)
    · exact (condition_agrees he).bind fun _ _ ht => hst.bind fun _ _ hb =>
        (other_agrees (.cons ht (.cons hb .nil)) hs).bind fun _ _ ho => .pure (.more ho)
    · exact hst.bind fun _ _ hb =>
        (other_agrees (.cons hb .nil) hs).bind fun _ _ ho => .pure (.last ho)
  exact expect_agrees.bind fun _ _ (.mk hs) => (condition_agrees he).bind fun _ _ ht =>
    hst.bind fun _ _ hb => (gather_agrees hbranch).bind fun _ _ hbranches =>
      other_agrees (.cons ht (.cons hb hbranches)) hs

theorem statementBody_agrees :
    Agrees P (Node.Alike P) (statementBody expression statement)
      (statementBody expression statement) := by
  refine current_agrees.bind fun _ _ (.mk hs) => ?_
  dsimp only
  split
  · exact advance_agrees.bind fun _ _ _ => other_agrees .nil hs
  · exact advance_agrees.bind fun _ _ _ => other_agrees .nil hs
  · exact (block_agrees hst).bind fun _ _ hbody => other_agrees hbody hs
  · exact returnStatement_agrees he hs
  · exact echoStatement_agrees he hs
  · exact conditional_agrees he hst
  · exact useStatement_agrees hs
  · exact declareStatement_agrees hs
  · exact following_agrees.andThen fun _ =>
      .ite (functionDeclaration_agrees hst) (expressionStatement_agrees he hs)
  · exact classDeclaration_agrees he hst hs
  · exact modifiedClass_agrees he hst hs
  · exact modifiedClass_agrees he hst hs
  · exact modifiedClass_agrees he hst hs
  · exact .complain
  · exact .complain
  · exact expressionStatement_agrees he hs

end

/-! ## Levels of nesting -/

/-- The parsers of a grammar agree with themselves. -/
structure Grammar.Agrees (P : Placing) (g : Grammar) : Prop where
  expression : Parse.Agrees P (Node.Alike P) g.expression g.expression
  statement : Parse.Agrees P (Node.Alike P) g.statement g.statement
  operand : Parse.Agrees P (Node.Alike P) g.operand g.operand
  operators : ∀ {least s s' left left'}, P.Rel s s' → Node.Alike P left left' →
    Parse.Agrees P (Node.Alike P) (g.operators least s left) (g.operators least s' left')
  links : ∀ {s s' base base'}, P.Rel s s' → Node.Alike P base base' →
    Parse.Agrees P (Node.Alike P) (g.links s base) (g.links s' base')

namespace Grammar

theorem operatorFrom?_agrees {least : Nat} :
    Parse.Agrees P Eq (operatorFrom? least) (operatorFrom? least) := by
  refine current_agrees.bind fun _ _ (.mk _) => ?_
  dsimp only
  split
  · exact .pure rfl
  · exact .pure rfl

/-- The node of an assignment. -/
theorem assignment?_agrees {kind : TokenKind} {node : Node → Node → Span → Parser Node}
    (h : assignment? kind = some node) {target target' value value' : Node} {s s' : Span}
    (ht : target.Alike P target') (hv : value.Alike P value') (hs : P.Rel s s') :
    Parse.Agrees P (Node.Alike P) (node target value s) (node target' value' s') := by
  unfold assignment? at h
  split at h
  all_goals cases h
  · exact (spanFrom_agrees hs).bind fun _ _ hs =>
      .pure (.intro (by simp [ht.bare_eq, hv.bare_eq]) hs (.cons ht (.cons hv .nil)))
  · exact (spanFrom_agrees hs).bind fun _ _ hs =>
      .pure (.intro (by simp [ht.bare_eq, hv.bare_eq]) hs (.cons ht (.cons hv .nil)))
  all_goals exact other_agrees (.cons ht (.cons hv .nil)) hs

theorem binaryNode_agrees {operator : TokenKind} {kind : String} {left left' right right' : Node}
    {s s' : Span} (hl : left.Alike P left') (hr : right.Alike P right') (hs : P.Rel s s') :
    Parse.Agrees P (Node.Alike P) (binaryNode operator kind left right s)
      (binaryNode operator kind left' right' s') := by
  refine .ite ?_ (other_agrees (.cons hl (.cons hr .nil)) hs)
  exact (spanFrom_agrees hs).bind fun _ _ hs =>
    .pure (.intro (by simp [hl.bare_eq, hr.bare_eq]) hs (.cons hl (.cons hr .nil)))

theorem closed_agrees : closed.Agrees P where
  expression := .tooDeep
  statement := .tooDeep
  operand := .tooDeep
  operators _ hleft := operatorFrom?_agrees.andThen fun o => by
    cases o with
    | none => exact .pure hleft
    | some o => exact .tooDeep
  links _ hbase := current_agrees.bind fun _ _ (.mk _) => .ite .tooDeep (.pure hbase)

section

variable {g : Grammar} (hg : g.Agrees P)

include hg

theorem postfixExpression_agrees :
    Parse.Agrees P (Node.Alike P) g.postfixExpression g.postfixExpression :=
  .chain <| current_agrees.bind fun _ _ (.mk hs) =>
    (primary_agrees hg.expression (block_agrees hg.statement)).bind fun _ _ hbase =>
      hg.links hs hbase

theorem unary_agrees : Parse.Agrees P (Node.Alike P) g.unary g.unary := by
  refine current_agrees.bind fun _ _ (.mk hs) => ?_
  dsimp only
  split
  · exact advance_agrees.bind fun _ _ _ => hg.operand.bind fun _ _ hn =>
      other_agrees (.cons hn .nil) hs
  · exact postfixExpression_agrees hg

theorem binary_agrees {least : Nat} :
    Parse.Agrees P (Node.Alike P) (g.binary least) (g.binary least) :=
  .chain <| current_agrees.bind fun _ _ (.mk hs) => (unary_agrees hg).bind fun _ _ hleft =>
    hg.operators hs hleft

theorem assignment_agrees : Parse.Agrees P (Node.Alike P) g.assignment g.assignment := by
  refine current_agrees.bind fun _ _ (.mk hs) => (binary_agrees hg).bind fun target target' ht =>
    current_agrees.bind fun _ _ (.mk _) => ?_
  dsimp only
  split
  · next node hnode =>
    -- Whether a tree can be assigned to does not depend on its place.
    have hassignable : target.isAssignable = target'.isAssignable := by
      rw [← Node.isAssignable_bare, ht.bare_eq, Node.isAssignable_bare]
    rw [hassignable]
    exact .guard <| advance_agrees.bind fun _ _ _ => hg.expression.bind fun _ _ hv =>
      assignment?_agrees hnode ht hv hs
  · exact .pure ht

/-- One level more agrees when the levels before it do. -/
theorem deeper_agrees : g.deeper.Agrees P where
  expression := .within (assignment_agrees hg)
  statement := .within (statementBody_agrees hg.expression hg.statement)
  operand := .within (unary_agrees hg)
  operators hs hleft := operatorFrom?_agrees.andThen fun o => by
    cases o with
    | none => exact .pure hleft
    | some o =>
      exact link_agrees.andThen fun _ => advance_agrees.bind fun _ _ _ =>
        (binary_agrees hg).bind fun _ _ hr => (binaryNode_agrees hleft hr hs).bind
          fun _ _ hn => hg.operators hs hn
  links hs hbase := current_agrees.bind fun _ _ (.mk _) => .ite
    (link_agrees.andThen fun _ => (postfixLink_agrees hg.expression hbase hs).bind
      fun _ _ hn => hg.links hs hn)
    (.pure hbase)

end

theorem ofLevels_agrees (levels : Nat) : (ofLevels levels).Agrees P := by
  induction levels with
  | zero => exact closed_agrees
  | succ levels ih => exact deeper_agrees ih

end Grammar

/-! ## Programs -/

theorem statement_agrees : Agrees P (Node.Alike P) statement statement := by
  intro c d hc
  unfold statement
  rw [← hc.depth]
  exact (Grammar.ofLevels_agrees _).statement hc

theorem namespaceBody_agrees {label label' : Option Node}
    (h : Option.Rel (Node.Alike P) label label') :
    Agrees P (ListAlike P) (namespaceBody label) (namespaceBody label') := by
  have hstep : Agrees P (Round.Rel (Option.Rel (Node.Alike P))) statementInNamespace
      statementInNamespace :=
    isAt_agrees.andThen fun _ => isAt_agrees.andThen fun _ => .ite (.pure .stop) <|
      accept_agrees.andThen fun _ => .ite (.pure (.more .none)) <|
        statement_agrees.bind fun _ _ hn => .pure (.more (.some hn))
  have hnone : label.isNone = label'.isNone := by
    cases h with
    | none => rfl
    | some => rfl
  unfold namespaceBody
  rw [hnone]
  exact accept_agrees.andThen fun _ => .ite (statementsUntil_agrees statement_agrees) <|
    .guard <| terminator_agrees.andThen fun _ => (gather_agrees hstep).bind fun _ _ hslots =>
      .pure (filterMap_id hslots)

theorem namespaceBlock_agrees : Agrees P (Node.Alike P) namespaceBlock namespaceBlock := by
  have hbody {s s' : Span} {label label' : Option Node} (hs : P.Rel s s')
      (h : Option.Rel (Node.Alike P) label label') :
      Agrees P (Node.Alike P)
        (do return .namespaceBlock label (← namespaceBody label) (← spanFrom s))
        (do return .namespaceBlock label' (← namespaceBody label') (← spanFrom s')) :=
    (namespaceBody_agrees h).bind fun _ _ hbody => (spanFrom_agrees hs).bind fun _ _ hs =>
      .pure (.intro (by simp [option_map_bare_eq h, map_bare_eq hbody]) hs
        (List.rel_append (toList h) hbody))
  exact expect_agrees.bind fun _ _ (.mk hs) => isAt_agrees.andThen fun _ => .ite
    (hbody hs .none) (name_agrees.optional.bind fun _ _ hl => hbody hs hl)

/-- A program over the same tokens at other places is the same, up to places. -/
theorem program_agrees : Agrees P (ListAlike P) program program := by
  have hstep : Agrees P (Round.Rel (Option.Rel (Node.Alike P))) topLevel topLevel :=
    isAt_agrees.andThen fun _ => .ite (.pure .stop) <| accept_agrees.andThen fun _ =>
      .ite (.pure (.more .none)) <| isAt_agrees.andThen fun _ => .ite
        (namespaceBlock_agrees.bind fun _ _ hn => .pure (.more (.some hn)))
        (statement_agrees.bind fun _ _ hn => .pure (.more (.some hn)))
  exact (gather_agrees hstep).bind fun _ _ hslots => .pure (filterMap_id hslots)

/-- Texts with like tokens are like programs, or no programs by errors at related
    places. -/
theorem source_agrees {text text' : String} {tokens tokens' : List Token}
    (h : Token.scan text = .ok tokens) (h' : Token.scan text' = .ok tokens')
    (hlike : List.Forall₂ (Token.Alike P) tokens tokens') :
    (∃ nodes nodes', source text = .ok nodes ∧ source text' = .ok nodes' ∧
      ListAlike P nodes nodes') ∨
    ∃ e e', source text = .error e ∧ source text' = .error e' ∧ P.Rel e.span e'.span := by
  have hends : ∃ t ∈ tokens, t.kind = .endOfFile := by
    obtain ⟨before, -, heq⟩ := Token.exists_of_bind_eq_ok h
    cases heq
    exact ⟨_, List.mem_append_right _ (List.mem_singleton_self _), rfl⟩
  -- Nothing has been read yet, so no span is extended.
  have hc : Cursor.Alike P { rest := tokens } { rest := tokens' } :=
    ⟨hlike, fun _ _ hs => by simpa using hs, rfl, hends⟩
  have hprogram := program_agrees hc
  simp only [source, start, h, h', bind, Except.bind, resume]
  generalize program { rest := tokens } = x, program { rest := tokens' } = y at hprogram
  cases hprogram with
  | ok hnodes => exact .inl ⟨_, _, rfl, rfl, hnodes⟩
  | error he => exact .inr ⟨_, _, rfl, rfl, he⟩

end PhpScript.Parse
