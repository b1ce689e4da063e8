import PhpScript.Proofs.Parse.Ending

/-!
# Runs in lockstep

The parsers of expressions and statements do the same before an ending, whether
it is a semicolon or a closing tag. They are taken in three layers:

* the forms of an expression, given parsers for what is in them;
* the forms of a statement, as parts of other statements. Of an import it is said
  what is read over (`skipUntil_eq`), since a closing tag does not stop it;
* `Grammar.Echoes`, which says it of the parsers with some number of levels left.
-/

namespace PhpScript.Parse

variable {e : Ending}

/-! ## Expressions -/

theorem nameOrConstant_enters {start : Span} : Enters e (nameOrConstant start) :=
  name_enters.bind fun _ => .peekAt rfl fun _ => .peekAt rfl fun _ => .ite .pure .pure

section

variable {expression : Parser Node} {start : Span} (he : Enters e expression)

include he

theorem argument_enters : Enters e (argument expression) :=
  .peek fun _ => .peekFollowing rfl fun _ => .guard <| .peekAt fun _ => .guard <| .peek fun _ =>
    he.bind fun _ => spanned_echoes

theorem arguments_enters : Enters e (arguments expression) :=
  expect_enters.bind fun _ => (commaListUntil_echoes (argument_enters he)).bind fun _ =>
    expect_enters.echoes.bind fun _ => .pure

theorem enclosed_enters {close : Symbol} : Enters e (enclosed expression close) :=
  he.bind fun _ => expect_enters.echoes.bind fun _ => .pure

theorem memberName_enters : Enters e (memberName expression) := by
  refine .peek fun t => ?_
  split
  · exact advance_enters.bind fun _ => .pure
  · exact advance_enters.bind fun _ => (enclosed_enters he).echoes
  · exact identifier_enters

theorem staticAccess_enters {cls : Node} : Enters e (staticAccess expression cls start) :=
  .peekAt fun _ => .ite (advance_enters.bind fun _ => other_echoes) <|
    identifier_enters.bind fun _ => .peekAt rfl fun _ =>
      .ite ((arguments_enters he).echoes.bind fun _ => other_echoes) other_echoes

theorem postfixLink_echoes {base : Node} : Echoes e (postfixLink expression base start) := by
  refine .peek rfl fun t => ?_
  split
  · exact advance_enters.echoes.bind fun _ => (memberName_enters he).echoes.bind fun _ =>
      .peekAt rfl fun _ => .ite
        ((arguments_enters he).echoes.bind fun _ => spanned_echoes)
        spanned_echoes
  · exact advance_enters.echoes.bind fun _ => (memberName_enters he).echoes.bind fun _ =>
      .peekAt rfl fun _ => .ite ((arguments_enters he).echoes.bind fun _ => other_echoes)
        other_echoes
  · exact advance_enters.echoes.bind fun _ => .peekAt rfl fun _ => .ite
      (Echoes.pure.bind fun _ => expect_enters.echoes.bind fun _ => spanned_echoes)
      (he.map.echoes.bind fun _ => expect_enters.echoes.bind fun _ =>
        spanned_echoes)
  · exact (arguments_enters he).echoes.bind fun _ => spanned_echoes
  · exact advance_enters.echoes.bind fun _ => (staticAccess_enters he).echoes
  · exact .pure

theorem constructedClass_enters : Enters e (constructedClass expression) := by
  refine .peek fun t => ?_
  split
  · exact .complain
  · exact advance_enters.bind fun _ => .pure
  · exact advance_enters.bind fun _ => (enclosed_enters he).echoes
  · exact name_enters

theorem construction_enters : Enters e (construction expression) :=
  expect_enters.bind fun _ => (constructedClass_enters he).echoes.bind fun _ =>
    .peekAt rfl fun _ => .ite ((arguments_enters he).echoes.bind fun _ => spanned_echoes)
    (Echoes.pure.bind fun _ => spanned_echoes)

theorem arrayItem_enters : Enters e (arrayItem expression) :=
  .peek fun _ => .peekAt fun _ => .guard <| .peekAt fun _ => .guard <| he.bind fun _ =>
    .accept rfl fun _ => .ite (he.echoes.bind fun _ => spanned_echoes)
      spanned_echoes

theorem arraySlot_echoes {close : Symbol} (hclose : endsStatement (.symbol close) = false) :
    Echoes e (arraySlot expression close) :=
  .accept hclose fun _ => .ite .pure <| .accept rfl fun _ => .ite .pure <|
    (arrayItem_enters he).echoes.bind fun _ => .accept rfl fun _ => .ite .pure <|
      expect_enters.echoes.bind fun _ => .pure

theorem arrayLiteral_enters {opening close : Symbol}
    (hclose : endsStatement (.symbol close) = false) :
    Enters e (arrayLiteral expression opening close start) :=
  expect_enters.bind fun _ => (gather_echoes (arraySlot_echoes he hclose)).bind fun _ =>
    spanned_echoes

theorem arrowFunction_enters : Enters e (arrowFunction expression start) :=
  expect_enters.bind fun _ => refuseByRefReturn_echoes.bind fun _ =>
    parameterList_enters.echoes.bind fun _ => skipReturnType_echoes.bind fun _ =>
      expect_enters.echoes.bind fun _ => he.echoes.bind fun _ => spanned_echoes

end

section

variable {expression : Parser Node} {block : Parser (List Node)} {start : Span}
  (he : Enters e expression) (hb : Enters e block)

include hb in
theorem closure_enters : Enters e (closure block start) :=
  expect_enters.bind fun _ => refuseByRefReturn_echoes.bind fun _ =>
    parameterList_enters.echoes.bind fun _ => closureBindings_echoes.bind fun _ =>
      skipReturnType_echoes.bind fun _ => hb.echoes.bind fun _ => spanned_echoes

include he hb

theorem primary_enters : Enters e (primary expression block) := by
  refine .peek fun t => ?_
  dsimp only
  split
  · exact advance_enters.bind fun _ => .pure
  · refine advance_enters.bind fun _ => ?_
    split
    · exact .pure
    · exact Enters.throw.echoes
  · refine advance_enters.bind fun _ => ?_
    split
    · exact .pure
    · exact Enters.throw.echoes
  · exact advance_enters.bind fun _ => .pure
  · refine advance_enters.bind fun _ => ?_
    split
    · exact .pure
    · exact other_echoes
  · exact arrayLiteral_enters he rfl
  · exact .peekFollowing rfl fun _ => .ite
      (advance_enters.bind fun _ => (arrayLiteral_enters he rfl).echoes)
      .complain
  · exact advance_enters.bind fun _ => (enclosed_enters he).echoes
  · exact construction_enters he
  · exact arrowFunction_enters he
  · exact closure_enters hb
  · refine .peekFollowing rfl fun kind => ?_
    split
    · exact advance_enters.bind fun _ => (arrowFunction_enters he).echoes
    · exact advance_enters.bind fun _ => (closure_enters hb).echoes
    · exact nameOrConstant_enters
  · exact nameOrConstant_enters
  · exact nameOrConstant_enters
  · exact .complain

end

/-! ## Statements -/

section

variable {statement : Parser Node} (hs : Enters e statement)

include hs

theorem statementUntil_echoes {close : Symbol} (hclose : endsStatement (.symbol close) = false) :
    Echoes e (statementUntil close statement) := by
  have hround : Echoes e do
      if ← Parse.accept (.symbol .closeTag) then return Round.more none
      return .more (some (← statement)) :=
    .acceptTag .pure (hs.bind fun _ => .pure)
  exact .peekAt hclose fun _ => .ite .pure <| .peekAt rfl fun _ => .guard hround

theorem block_enters : Enters e (block statement) :=
  expect_enters.bind fun _ => (gather_echoes (statementUntil_echoes hs rfl)).bind
    fun _ => expect_enters.echoes.bind fun _ => .pure

theorem functionDeclaration_enters : Enters e (functionDeclaration statement) :=
  expect_enters.bind fun _ => identifier_enters.echoes.bind fun _ =>
    parameterList_enters.echoes.bind fun _ => skipReturnType_echoes.bind fun _ =>
      (block_enters hs).echoes.bind fun _ => other_echoes

theorem method_enters {flags : Modifiers} {start : Span} :
    Enters e (method statement flags start) :=
  refuseByRefReturn_echoes.andThen fun _ => identifier_enters.bind fun _ =>
    parameterList_enters.echoes.bind fun _ => skipReturnType_echoes.bind fun _ =>
      accept_semicolon_echoes.bind fun _ => .ite
        (Echoes.pure.bind fun _ => spanned_echoes)
        ((block_enters hs).map.echoes.bind fun _ => spanned_echoes)

end

theorem traitUse_enters {start : Span} : Enters e (traitUse start) :=
  (commaSeparated_enters name_enters).bind fun _ => terminator_enters.echoes.bind fun _ =>
    other_echoes

theorem modifiers_echoes : Echoes e modifiers := by
  have hstep : Echoes e modifier := by
    refine .peek rfl fun t => ?_
    split
    · exact advance_enters.echoes.bind fun _ => .pure
    · exact .pure
  exact (gather_echoes hstep).bind fun _ => .pure

theorem classModifiers_echoes : Echoes e (gather classModifier) := by
  refine gather_echoes (.peek rfl fun t => ?_)
  split
  all_goals first | exact .pure | exact advance_enters.echoes.bind fun _ => .pure

section

variable {expression statement : Parser Node} {start : Span} (he : Enters e expression)
  (hs : Enters e statement)

include he

theorem condition_enters : Enters e (condition expression) :=
  expect_enters.bind fun _ => (enclosed_enters he).echoes

theorem propertyItem_enters : Enters e (propertyItem expression) :=
  expect_enters.bind fun _ => .accept rfl fun _ => .ite
    (he.map.echoes.bind fun _ => spanned_echoes)
    (Echoes.pure.bind fun _ => spanned_echoes)

theorem property_enters {flags : Modifiers} : Enters e (property expression flags start) :=
  skipType_echoes.andThen fun _ => (commaSeparated_enters (propertyItem_enters he)).bind fun _ =>
    terminator_enters.echoes.bind fun _ => spanned_echoes

include hs

theorem classMember_enters : Enters e (classMember expression statement) :=
  .peek fun _ => .accept fun _ => .ite traitUse_enters <| .peekAt fun _ => .guard <|
    modifiers_echoes.andThen fun _ => .accept fun _ => .ite (method_enters hs) <|
      .ite (.peek fun _ => .guard .complain) (property_enters he)

theorem classDeclaration_enters : Enters e (classDeclaration expression statement start) := by
  have hstep : Echoes e (classMemberUntil expression statement) :=
    .accept rfl fun _ => .ite .pure <| .peekAt rfl fun _ => .guard <|
      (classMember_enters he hs).echoes.bind fun _ => .pure
  exact expect_enters.bind fun _ => identifier_enters.echoes.bind fun _ => .peek rfl fun _ =>
    .guard <| expect_enters.echoes.bind fun _ => (gather_echoes hstep).bind fun _ =>
      spanned_echoes

end

/-! ## Skipped tokens -/

/-- Whether a token is read over on the way to a mark. -/
def isSkipped (mark : Symbol) (t : Token) : Bool :=
  !(t.kind == .symbol mark || t.kind == .endOfFile)

/-- One round of reading over tokens. -/
def skipRound (mark : Symbol) : Parser (Round Unit) := do
  if (← isAt (.symbol mark)) || (← isAt .endOfFile) then return .stop
  let _ ← advance
  return .more ()

theorem skipRound_of_isSkipped {mark : Symbol} {t : Token} (ht : isSkipped mark t)
    (rest : List Token) (lastStop depth : Nat) :
    skipRound mark ⟨t :: rest, lastStop, depth⟩ = .ok (.more ()) ⟨rest, t.span.stop, depth⟩ := by
  simp only [isSkipped, Bool.not_eq_true', Bool.or_eq_false_iff, beq_eq_false_iff_ne] at ht
  obtain ⟨hmark, hend⟩ := ht
  simp [skipRound, isAt, advance, Cursor.current, Bind.bind, EStateM.bind, Pure.pure, EStateM.pure,
    hmark, hend]

theorem skipRound_of_not_isSkipped {mark : Symbol} {c : Cursor}
    (hc : isSkipped mark c.current = false) : skipRound mark c = .ok .stop c := by
  rw [isSkipped, Bool.not_eq_false'] at hc
  simp [skipRound, isAt, Bind.bind, EStateM.bind, Pure.pure, EStateM.pure, hc]

/-- The end of the last token of a list, or where the one before the list ends. -/
def lastStopOf (lastStop : Nat) (ts : List Token) : Nat :=
  ts.foldl (fun _ t => t.span.stop) lastStop

theorem gatherFor_skipRound (mark : Symbol) {rest bound : List Token}
    (hbound : rest.length ≤ bound.length) (lastStop depth : Nat) :
    ∃ us, gatherFor (skipRound mark) bound ⟨rest, lastStop, depth⟩ =
      .ok us ⟨rest.dropWhile (isSkipped mark),
        lastStopOf lastStop (rest.takeWhile (isSkipped mark)), depth⟩ := by
  induction rest generalizing bound lastStop with
  | nil =>
    have hround : skipRound mark ⟨[], lastStop, depth⟩ = .ok .stop ⟨[], lastStop, depth⟩ :=
      skipRound_of_not_isSkipped (by simp [isSkipped, Cursor.current])
    cases bound <;> exact ⟨[], by rw [gatherFor, bind_of_ok hround]; rfl⟩
  | cons t rest ih =>
    cases bound with
    | nil => cases hbound
    | cons u bound =>
      cases ht : isSkipped mark t with
      | false =>
        have hround := skipRound_of_not_isSkipped (c := ⟨t :: rest, lastStop, depth⟩) ht
        refine ⟨[], ?_⟩
        rw [gatherFor, bind_of_ok hround, List.dropWhile_cons, List.takeWhile_cons, ht]
        rfl
      | true =>
        obtain ⟨us, hus⟩ := ih (Nat.le_of_succ_le_succ hbound) t.span.stop
        refine ⟨() :: us, ?_⟩
        rw [gatherFor, bind_of_ok (skipRound_of_isSkipped ht rest lastStop depth),
          List.dropWhile_cons, List.takeWhile_cons, ht]
        dsimp only
        rw [bind_of_ok hus]
        rfl

/-- Reading over tokens stops at the first one that is the mark or the end of the file. -/
theorem skipUntil_eq (mark : Symbol) (rest : List Token) (lastStop depth : Nat) :
    skipUntil mark ⟨rest, lastStop, depth⟩ = .ok () ⟨rest.dropWhile (isSkipped mark),
      lastStopOf lastStop (rest.takeWhile (isSkipped mark)), depth⟩ := by
  obtain ⟨us, hus⟩ := gatherFor_skipRound mark (Nat.le_refl rest.length) lastStop depth
  exact bind_of_ok hus

theorem skipUntil_advances {mark : Symbol} : Advances (skipUntil mark) := by
  intro c after u h
  cases (skipUntil_eq mark c.rest c.lastStop c.depth).symm.trans h
  exact List.dropWhile_suffix _

/-- On the way to a semicolon a closing tag is read over. So the runs stop at the same place
    before the ending, or the one stops at the semicolon and the other behind the tag. -/
theorem skipUntil_semicolon (e : Ending) (ts : List Token) (lastStop depth : Nat) :
    (∃ u us lastStop', skipUntil .semicolon (e.withSemicolon ts lastStop depth) =
        .ok () (e.withSemicolon (u :: us) lastStop' depth) ∧
      skipUntil .semicolon (e.withTag ts lastStop depth) =
        .ok () (e.withTag (u :: us) lastStop' depth)) ∨
    ∃ lastStop' after, skipUntil .semicolon (e.withSemicolon ts lastStop depth) =
        .ok () (e.withSemicolon [] lastStop' depth) ∧
      skipUntil .semicolon (e.withTag ts lastStop depth) = .ok () after ∧
      after.rest <:+ e.rest ∧ after.depth = depth := by
  simp only [Ending.withSemicolon, Ending.withTag, skipUntil_eq]
  have hcut := congrArg List.length
    (List.takeWhile_append_dropWhile (p := isSkipped .semicolon) (l := ts))
  rw [List.length_append] at hcut
  cases hts : ts.dropWhile (isSkipped .semicolon) with
  | cons u us =>
    rw [hts, List.length_cons] at hcut
    have htake (ys : List Token) : (ts ++ ys).takeWhile (isSkipped .semicolon) =
        ts.takeWhile (isSkipped .semicolon) := by
      rw [List.takeWhile_append, if_neg (by omega)]
    have hdrop (ys : List Token) : (ts ++ ys).dropWhile (isSkipped .semicolon) = u :: us ++ ys := by
      rw [List.dropWhile_append, hts, List.isEmpty_cons, if_neg Bool.false_ne_true]
    exact .inl ⟨u, us, _, by rw [htake, hdrop], by rw [htake, hdrop]⟩
  | nil =>
    have hdrop (ys : List Token) : (ts ++ ys).dropWhile (isSkipped .semicolon) =
        ys.dropWhile (isSkipped .semicolon) := by
      rw [List.dropWhile_append, hts, List.isEmpty_nil, if_pos rfl]
    have hsemicolon : isSkipped .semicolon e.semicolon = false := rfl
    have htag : isSkipped .semicolon e.tag = true := rfl
    refine .inr ⟨_, _, by rw [hdrop, List.dropWhile_cons, hsemicolon]; rfl, rfl, ?_, rfl⟩
    rw [hdrop, List.dropWhile_cons, htag]
    exact List.dropWhile_suffix _

/-- Reading over tokens up to another mark. -/
theorem skipUntil_echoes {mark : Symbol} (hmark : endsStatement (.symbol mark) = false) :
    Echoes e (skipUntil mark) := by
  have hround : Echoes e (skipRound mark) :=
    .peekAt hmark fun _ => .peekAt rfl fun _ => .ite .pure <|
      advance_enters.echoes.bind fun _ => .pure
  exact (gather_echoes hround).bind fun _ => .pure

/-- Reading over tokens up to a semicolon, and reading on there. -/
theorem Echoes.skipUse {g : Unit → Parser α} (hg : ∀ u, Enters e (g u)) :
    Echoes e (skipUntil .semicolon >>= g) := by
  have hadvances : Advances (skipUntil .semicolon >>= g) :=
    skipUntil_advances.bind fun u => (hg u).advances
  have hecho (ts : List Token) : Echo e (skipUntil .semicolon >>= g) ts := by
    intro lastStop depth a after h
    rcases skipUntil_semicolon e ts lastStop depth with ⟨u, us, l, hleft, hright⟩ | ⟨l, d, hleft, -⟩
    · rw [bind_of_ok hleft] at h
      rw [bind_of_ok hright]
      exact (hg ()).before u us h
    · rw [bind_of_ok hleft] at h
      exact .inl ((hg ()).passes (t := e.semicolon) rfl rfl h)
  exact ⟨⟨hadvances, fun t ts => hecho (t :: ts)⟩, hecho []⟩

/-! ## Statements in statements -/

section

variable {expression statement : Parser Node} {start : Span}

theorem useStatement_enters : Enters e (useStatement start) :=
  advance_enters.bind fun _ => .skipUse fun _ => terminator_enters.bind fun _ => other_echoes

theorem declareStatement_enters : Enters e (declareStatement start) :=
  advance_enters.bind fun _ => expect_enters.echoes.bind fun _ =>
    (skipUntil_echoes rfl).bind fun _ => expect_enters.echoes.bind fun _ =>
      terminator_enters.echoes.bind fun _ => other_echoes

section

variable (he : Enters e expression)

include he

theorem returnStatement_enters : Enters e (returnStatement expression start) := by
  have hend (value : Option Node) : Echoes e do
      terminator
      return Node.returns value (← spanFrom start) :=
    terminator_enters.echoes.bind fun _ => spanned_echoes
  exact advance_enters.bind fun _ => .peekEnd (Echoes.pure.bind hend) (he.map.echoes.bind hend)

theorem echoStatement_enters : Enters e (echoStatement expression start) :=
  advance_enters.bind fun _ => (commaSeparated_enters he).echoes.bind fun _ =>
    terminator_enters.echoes.bind fun _ => other_echoes

theorem expressionStatement_enters : Enters e (expressionStatement expression start) :=
  he.bind fun _ => terminator_enters.echoes.bind fun _ => spanned_echoes

end

variable (he : Enters e expression) (hs : Enters e statement)

include he hs

theorem branch_echoes : Echoes e (branch expression statement) where
  toWatches := current_watches.bind fun _ => .accept rfl fun _ => .ite
    ((condition_enters he).echoes.bind fun _ => hs.echoes.bind fun _ =>
      other_echoes.bind fun _ => .pure)
    (.accept rfl fun _ => .ite (hs.echoes.bind fun _ => other_echoes.bind fun _ => .pure) .pure)
  here _ _ _ _ h := by
    cases h
    exact .inr ⟨[], _, _, rfl, rfl⟩

theorem conditional_enters : Enters e (conditional expression statement) :=
  expect_enters.bind fun _ => (condition_enters he).echoes.bind fun _ => hs.echoes.bind fun _ =>
    (gather_echoes (branch_echoes he hs)).bind fun _ => other_echoes

theorem statementBody_enters : Enters e (statementBody expression statement) := by
  refine .peek fun t => ?_
  dsimp only
  split
  · exact advance_enters.bind fun _ => other_echoes
  · exact advance_enters.bind fun _ => other_echoes
  · exact (block_enters hs).bind fun _ => other_echoes
  · exact returnStatement_enters he
  · exact echoStatement_enters he
  · exact conditional_enters he hs
  · exact useStatement_enters
  · exact declareStatement_enters
  · exact .peekFollowing rfl fun _ =>
      .ite (functionDeclaration_enters hs) (expressionStatement_enters he)
  · exact classDeclaration_enters he hs
  all_goals first
    | exact classModifiers_echoes.andThen fun _ => classDeclaration_enters he hs
    | exact .complain
    | exact expressionStatement_enters he

end

/-! ## Levels -/

namespace Grammar

/-- The parsers of a grammar do the same in both runs, as far as the ending is not read. -/
structure Echoes (e : Ending) (g : Grammar) : Prop where
  expression : Enters e g.expression
  statement : Enters e g.statement
  operand : Enters e g.operand
  operators : ∀ least start left, Parse.Echoes e (g.operators least start left)
  links : ∀ start base, Parse.Echoes e (g.links start base)

theorem operatorFrom?_echoes {least : Nat} : Parse.Echoes e (operatorFrom? least) := by
  refine .peek rfl fun t => ?_
  dsimp only
  split
  · exact .pure
  · exact .pure

theorem assignment?_echoes {kind : TokenKind} {node : Node → Node → Span → Parser Node}
    (h : assignment? kind = some node) (target value : Node) (start : Span) :
    Parse.Echoes e (node target value start) := by
  unfold assignment? at h
  split at h
  all_goals cases h
  all_goals exact spanned_echoes

theorem binaryNode_echoes {operator : TokenKind} {kind : String} {left right : Node}
    {start : Span} :
    Parse.Echoes e (binaryNode operator kind left right start) :=
  .ite spanned_echoes other_echoes

section

variable {g : Grammar} (hg : g.Echoes e)

include hg

theorem postfixExpression_enters : Enters e g.postfixExpression :=
  .chain <| .peek fun _ =>
    (primary_enters hg.expression (block_enters hg.statement)).bind fun _ => hg.links _ _

theorem unary_enters : Enters e g.unary := by
  refine .peek fun t => ?_
  split
  · exact advance_enters.bind fun _ => hg.operand.echoes.bind fun _ => other_echoes
  · exact postfixExpression_enters hg

theorem binary_enters {least : Nat} : Enters e (g.binary least) :=
  .chain <| .peek fun _ => (unary_enters hg).bind fun _ => hg.operators _ _ _

theorem assignment_enters : Enters e g.assignment := by
  refine .peek fun first => (binary_enters hg).bind fun target => .peek rfl fun t => ?_
  dsimp only
  split
  · next node hnode =>
    exact .guard <| advance_enters.echoes.bind fun _ => hg.expression.echoes.bind fun value =>
      assignment?_echoes hnode target value first.span
  · exact .pure

theorem deeper_echoes : g.deeper.Echoes e where
  expression := .within (assignment_enters hg)
  statement := .within (statementBody_enters hg.expression hg.statement)
  operand := .within (unary_enters hg)
  operators least start left := operatorFrom?_echoes.bind fun o => by
    cases o with
    | none => exact .pure
    | some o =>
      exact link_echoes.bind fun _ => advance_enters.echoes.bind fun _ =>
        (binary_enters hg).echoes.bind fun _ => binaryNode_echoes.bind fun _ => hg.operators _ _ _
  links start base := .peek rfl fun _ => .ite
    (link_echoes.bind fun _ => (postfixLink_echoes hg.expression).bind fun _ => hg.links _ _) .pure

end

theorem ofLevels_echoes (e : Ending) (levels : Nat) : (ofLevels levels).Echoes e := by
  induction levels with
  | zero =>
    exact {
      expression := .tooDeep
      statement := .tooDeep
      operand := .tooDeep
      operators := fun _ _ _ => operatorFrom?_echoes.bind fun o => by
        cases o with
        | none => exact .pure
        | some o => exact Enters.tooDeep.echoes
      links := fun _ _ => .peek rfl fun _ => .ite Enters.tooDeep.echoes .pure }
  | succ levels ih => exact deeper_echoes ih

end Grammar

end PhpScript.Parse
