import PhpScript.Parse.Program
import PhpScript.Proofs.Parse.Progress

/-!
# Parsing comes to an end

The parsers of statements, of levels and of programs go forward too (`Moves`), so on tokens
that end with the end of the file everything comes to an end (`parsing_ends`):

* A loop is one of the steps of `Grammar.HasLoop`, repeated. Each takes a token before it asks
  for another round, so it ends by itself: `Loops` is a loop with no bound on its rounds, and
  `gather` gives what such a loop gives.
* The recursion goes through the levels of a grammar, and each takes a token. A grammar with
  more levels than there are tokens refuses none (`Grammar.ofLevels_goesForward`): it is the
  tokens that bound the recursion, and not the number of levels.
-/

namespace PhpScript.Parse

/-! ## Statements -/

section

variable {room room' : Nat} {expression statement : Parser Node} {start : Span}

theorem modifier_moves : Moves room Round.GoesOn modifier := by
  refine .peek fun c => ?_
  split
  · next hflag =>
    have hne : c.current.kind ≠ .endOfFile := fun h => by simp [h, modifier?] at hflag
    exact (MovesFrom.advanceOver hne).next fun _ => .pure
  · exact Moves.stop c

theorem modifiers_moves : Moves room never modifiers :=
  (gather_moves modifier_moves).bind fun _ => .pure

theorem classModifier_moves : Moves room Round.GoesOn classModifier := by
  refine .peek fun c => ?_
  split
  iterate 3
    next hkind => exact (MovesFrom.advanceOver (by simp [hkind])).next fun _ => .pure
  exact Moves.stop c

theorem skipRound_moves {mark : Symbol} : Moves room Round.GoesOn (skipRound mark) := fun c =>
  .isAt <| .isAt <| .ite (fun _ => Moves.stop c) fun h =>
    (MovesFrom.advanceOver (by simp_all)).next fun _ => .pure

theorem skipUntil_moves {mark : Symbol} : Moves room never (skipUntil mark) :=
  (gather_moves skipRound_moves).bind fun _ => .pure

theorem traitUse_moves : Moves room always (traitUse start) :=
  (commaSeparated_moves name_moves).next fun _ => terminator_moves.bind fun _ => other_moves

section

variable (hs : Moves room always statement)

include hs

theorem statementUntil_moves {close : Symbol} :
    Moves room Round.GoesOn (statementUntil close statement) :=
  isAt_moves.bind fun _ => .ite .stop <| isAt_moves.bind fun _ => .guard <|
    Moves.accept (by simp) .pure <| hs.next fun _ => .pure

theorem statementsUntil_moves {close : Symbol} :
    Moves room always (statementsUntil close statement) :=
  (gather_moves (statementUntil_moves hs)).bind fun _ => .expect (by simp) fun _ => .pure

theorem block_moves : Moves (room + 1) always (block statement) :=
  .expect (by simp) fun _ => (statementsUntil_moves hs).any le_rfl

theorem method_moves {flags : Modifiers} :
    Moves (room + 1) always (method statement flags start) :=
  refuseByRefReturn_moves.bind fun _ => identifier_moves.next fun _ =>
    parameterList_moves.bind fun _ => skipReturnType_moves.bind fun _ =>
      .accept (by simp) (Moves.pure.bind fun _ => spanned_moves)
        (((block_moves hs).map.withRoom (by omega)).bind fun _ => spanned_moves)

theorem functionDeclaration_moves : Moves (room + 1) always (functionDeclaration statement) :=
  .expect (by simp) fun _ => identifier_moves.bind fun _ => parameterList_moves.bind fun _ =>
    skipReturnType_moves.bind fun _ => ((block_moves hs).withRoom (by omega)).bind fun _ =>
      other_moves

end

variable (he : Moves room always expression)

include he

theorem propertyItem_moves : Moves room always (propertyItem expression) :=
  .expect (by simp) fun _ => .accept (by simp)
    ((he.map.withRoom (by omega)).bind fun _ => spanned_moves)
    (Moves.pure.bind fun _ => spanned_moves)

theorem property_moves {flags : Modifiers} : Moves room always (property expression flags start) :=
  skipType_moves.bind fun _ => (commaSeparated_moves (propertyItem_moves he)).next fun _ =>
    terminator_moves.bind fun _ => spanned_moves

theorem condition_moves : Moves room always (condition expression) :=
  .expect (by simp) fun _ => (enclosed_moves he).any (Nat.sub_le _ _)

theorem returnStatement_moves (c : Cursor) :
    MovesFrom c room (fun _ => c.current.kind ≠ .endOfFile) (returnStatement expression start) := by
  have hend : ∀ value, Moves room never do
      terminator
      return Node.returns value (← spanFrom start) :=
    fun _ => terminator_moves.bind fun _ => spanned_moves
  exact MovesFrom.advance.keep fun _ => isAt_moves.bind fun _ => isAt_moves.bind fun _ =>
    .ite (Moves.pure.bind hend) (he.map.bind hend)

theorem echoStatement_moves (c : Cursor) :
    MovesFrom c room (fun _ => c.current.kind ≠ .endOfFile) (echoStatement expression start) :=
  MovesFrom.advance.keep fun _ => (commaSeparated_moves he).bind fun _ =>
    terminator_moves.bind fun _ => other_moves

omit he in
theorem useStatement_moves (c : Cursor) :
    MovesFrom c room (fun _ => c.current.kind ≠ .endOfFile) (useStatement start) :=
  MovesFrom.advance.keep fun _ => skipUntil_moves.bind fun _ => terminator_moves.bind fun _ =>
    other_moves

omit he in
theorem declareStatement_moves (c : Cursor) :
    MovesFrom c room (fun _ => c.current.kind ≠ .endOfFile) (declareStatement start) :=
  MovesFrom.advance.keep fun _ => .expect (by simp) fun _ => skipUntil_moves.bind fun _ =>
    .expect (by simp) fun _ => terminator_moves.bind fun _ => other_moves

theorem expressionStatement_moves : Moves room always (expressionStatement expression start) :=
  he.next fun _ => terminator_moves.bind fun _ => spanned_moves

variable (hs : Moves room' always statement) (hroom : room ≤ room' + 1)

include hs hroom

theorem classMember_moves : Moves room always (classMember expression statement) :=
  .peek fun c => .accept (by simp) (traitUse_moves.any le_rfl) <| .isAt <| .guard fun _ =>
    (modifiers_moves c).bind fun _ => .accept (by simp) ((method_moves hs).any (by omega)) <|
      .ite (.peek fun _ => .guard fun _ => .complain) (property_moves he)

theorem classMemberUntil_moves : Moves room Round.GoesOn (classMemberUntil expression statement) :=
  .accept (by simp) .pure <| isAt_moves.bind fun _ => .guard <|
    (classMember_moves he hs hroom).next fun _ => .pure

theorem classDeclaration_moves : Moves room always (classDeclaration expression statement start) :=
  .expect (by simp) fun _ => identifier_moves.bind fun _ => .peek fun _ => .guard fun _ =>
    .expect (by simp) fun _ =>
      ((gather_moves (classMemberUntil_moves he hs hroom)).any (by omega)).bind fun _ =>
        spanned_moves

theorem modifiedClass_moves : Moves room always (modifiedClass expression statement start) :=
  (gather_moves classModifier_moves).bind fun _ => classDeclaration_moves he hs hroom

theorem branch_moves : Moves room Round.GoesOn (branch expression statement) :=
  .peek fun _ => .accept (by simp)
    (((condition_moves he).any (Nat.sub_le _ _)).bind fun _ =>
      (hs.any (by omega)).bind fun _ => other_moves.bind fun _ => .pure)
    (.accept (by simp) ((hs.any (by omega)).bind fun _ => other_moves.bind fun _ => .pure)
      (.pureOf id))

theorem conditional_moves : Moves room always (conditional expression statement) :=
  .expect (by simp) fun _ => ((condition_moves he).any (Nat.sub_le _ _)).bind fun _ =>
    (hs.any (by omega)).bind fun _ =>
      ((gather_moves (branch_moves he hs hroom)).any (Nat.sub_le _ _)).bind fun _ => other_moves

theorem statementBody_moves : Moves room always (statementBody expression statement) := by
  refine .peek fun c => ?_
  dsimp only
  split
  · next hkind => exact (MovesFrom.advanceOver (by simp [hkind])).next fun _ => other_moves
  · next hkind => exact (MovesFrom.advanceOver (by simp [hkind])).next fun _ => other_moves
  · exact ((block_moves hs).withRoom hroom c).next fun _ => other_moves
  · next hkind => exact (returnStatement_moves he c).mono le_rfl fun _ _ => by simp [hkind]
  · next hkind => exact (echoStatement_moves he c).mono le_rfl fun _ _ => by simp [hkind]
  · exact conditional_moves he hs hroom c
  · next hkind => exact (useStatement_moves c).mono le_rfl fun _ _ => by simp [hkind]
  · next hkind => exact (declareStatement_moves c).mono le_rfl fun _ _ => by simp [hkind]
  · exact .following fun _ => .ite
      (fun _ => (functionDeclaration_moves hs).withRoom hroom c)
      fun _ => expressionStatement_moves he c
  · exact classDeclaration_moves he hs hroom c
  iterate 3 exact modifiedClass_moves he hs hroom c
  · exact .complain
  · exact .complain
  · exact expressionStatement_moves he c

end

/-! ## Levels -/

/-- The parsers of a grammar go forward, and with a number of levels that are left there are
    as many tokens left where one is refused. A statement may be an expression. -/
structure Grammar.GoesForward (levels : Nat) (g : Grammar) : Prop where
  expression : Moves levels always g.expression
  statement : Moves (levels - 1) always g.statement
  operand : Moves levels always g.operand
  operators : ∀ least start left, Moves levels never (g.operators least start left)
  links : ∀ start base, Moves levels never (g.links start base)

namespace Grammar

theorem assignment?_moves {room : Nat} {kind : TokenKind} {node : Node → Node → Span → Parser Node}
    (h : assignment? kind = some node) (target value : Node) (start : Span) :
    Moves room never (node target value start) := by
  unfold assignment? at h
  split at h
  all_goals cases h
  all_goals exact spanned_moves

theorem closed_goesForward : GoesForward 0 closed where
  expression _ := .tooDeep
  statement _ := .tooDeep
  operand _ := .tooDeep
  operators _ _ _ _ := .operatorFrom? (fun _ _ => .tooDeep) .pure
  links _ _ := .peek fun _ => .ite (fun _ => .tooDeep) fun _ => .pure

section

variable {levels : Nat} {g : Grammar} (hg : g.GoesForward levels)

include hg

theorem postfixExpression_moves : Moves (levels + 1) always g.postfixExpression := by
  have hblock : Moves levels always (block g.statement) :=
    (block_moves hg.statement).withRoom (by omega)
  exact .chain <| .peek fun c => (primary_moves hg.expression hblock c).next fun _ => hg.links _ _

theorem unary_moves : Moves (levels + 1) always g.unary := by
  refine .peek fun c => ?_
  split
  · next hkind =>
    have hne : c.current.kind ≠ .endOfFile := fun h => by simp [h, unaryOperator?] at hkind
    exact (MovesFrom.advanceOver hne).next fun _ =>
      (hg.operand.any le_rfl).bind fun _ => other_moves
  · exact postfixExpression_moves hg c

theorem binary_moves (least : Nat) : Moves (levels + 1) always (g.binary least) :=
  .chain <| .peek fun c => (unary_moves hg c).next fun _ => hg.operators _ _ _

theorem assignment_moves : Moves (levels + 1) always g.assignment := by
  refine .peek fun c => (binary_moves hg 0 c).next fun _ => .peek fun c => ?_
  split
  · next node hnode =>
    exact .guard fun _ => (advance_moves c).bind fun _ => hg.expression.bind fun _ =>
      assignment?_moves hnode _ _ _
  · exact .pure

theorem deeper_goesForward : g.deeper.GoesForward (levels + 1) where
  expression := (assignment_moves hg).within
  statement := (statementBody_moves hg.expression hg.statement (by omega)).within
  operand := (unary_moves hg).within
  operators least start left c := by
    have hnode {operator kind left right} :
        Moves levels never (binaryNode operator kind left right start) :=
      .ite spanned_moves other_moves
    refine .operatorFrom? (fun operator hne => .link <| .next (.advanceOver hne) fun _ => ?_) .pure
    exact ((binary_moves hg _).any (Nat.le_succ _)).bind fun _ => hnode.bind fun _ =>
      hg.operators _ _ _
  links start base c := by
    refine .peek <| .ite (fun hpostfix => .link ?_) fun _ => .pure
    have hlink : MovesFrom { c with depth := c.depth + 1 } (levels + 1)
        (fun _ => isPostfix c.current.kind) (postfixLink g.expression base start) :=
      postfixLink_moves hg.expression _
    exact (hlink.mono le_rfl fun _ _ => hpostfix).next fun _ => hg.links _ _

end

theorem ofLevels_goesForward (levels : Nat) : (ofLevels levels).GoesForward levels := by
  induction levels with
  | zero => exact closed_goesForward
  | succ levels ih => exact deeper_goesForward ih

end Grammar

theorem statement_moves (c : Cursor) : MovesFrom c (maxDepth - c.depth - 1) always statement :=
  ((Grammar.ofLevels_goesForward _).statement c).of_run rfl rfl

theorem expression_moves (c : Cursor) : MovesFrom c (maxDepth - c.depth) always expression :=
  ((Grammar.ofLevels_goesForward _).expression c).of_run rfl rfl

/-! ## Programs -/

theorem statement_reads : Moves 0 always statement :=
  fun c => (statement_moves c).mono (Nat.zero_le _) fun _ => id

theorem statementInNamespace_moves : Moves 0 Round.GoesOn statementInNamespace :=
  isAt_moves.bind fun _ => isAt_moves.bind fun _ => .ite .stop <|
    .accept (by simp) .pure <| statement_reads.next fun _ => .pure

theorem namespaceBody_moves {label : Option Node} : Moves 0 never (namespaceBody label) :=
  .accept (by simp) ((statementsUntil_moves statement_reads).any le_rfl) <| .guard <|
    terminator_moves.bind fun _ => (gather_moves statementInNamespace_moves).bind fun _ => .pure

theorem namespaceBlock_moves : Moves 0 always namespaceBlock := by
  have hrest : ∀ start label, Moves 0 never do
      let body ← namespaceBody label
      return Node.namespaceBlock label body (← spanFrom start) :=
    fun _ _ => namespaceBody_moves.bind fun _ => spanned_moves
  exact .expect (by simp) fun _ => isAt_moves.bind fun _ =>
    .ite (Moves.pure.bind (hrest _)) (name_moves.map.bind (hrest _))

theorem topLevel_moves : Moves 0 Round.GoesOn topLevel :=
  isAt_moves.bind fun _ => .ite .stop <| .accept (by simp) .pure <| isAt_moves.bind fun _ =>
    .ite (namespaceBlock_moves.next fun _ => .pure) (statement_reads.next fun _ => .pure)

theorem program_moves : Moves 0 never program :=
  (gather_moves topLevel_moves).bind fun _ => .pure

/-! ## Loops -/

/-- What comes of a step that is repeated for as long as it says so, with no bound on the
    rounds. -/
inductive Loops (step : Parser (Round α)) :
    Cursor → EStateM.Result ParseError Cursor (List α) → Prop
  | fail {c d e} : step c = .error e d → Loops step c (.error e d)
  | stop {c d} : step c = .ok .stop d → Loops step c (.ok [] d)
  | last {c d a} : step c = .ok (.last a) d → Loops step c (.ok [a] d)
  | more {c d e a as} : step c = .ok (.more a) d → Loops step d (.ok as e) →
    Loops step c (.ok (a :: as) e)
  | failLater {c d e a error} : step c = .ok (.more a) d → Loops step d (.error error e) →
    Loops step c (.error error e)

theorem Loops.of_round {c : Cursor} {step : Parser (Round α)} {goOn : α → Parser (List α)}
    (h : ∀ a d, step c = .ok (.more a) d → Loops step c (goOn a d)) :
    Loops step c ((step >>= Round.followedBy goOn) c) := by
  cases hstep : step c with
  | error e d =>
    simp only [Bind.bind, EStateM.bind, hstep]
    exact .fail hstep
  | ok r d =>
    rw [bind_of_ok hstep]
    cases r with
    | stop => exact .stop hstep
    | last a => exact .last hstep
    | more a => exact h a d hstep

/-- The tokens left are rounds enough: each round that wants another one takes a token. -/
theorem gather_loops {room : Nat} {step : Parser (Round α)} (h : Moves room Round.GoesOn step)
    (c : Cursor) : Loops step c (gather step c) := by
  have hshorter {c d : Cursor} {a : α} (hstep : step c = .ok (.more a) d) :
      d.rest.length < c.rest.length := by
    obtain ⟨ts, hts, hne⟩ := (h c).ok hstep
    have hpos := List.length_pos_iff.2 (hne trivial)
    rw [hts.length_eq]
    omega
  suffices hfor : ∀ (bound : List Token) (c : Cursor), c.rest.length ≤ bound.length →
      Loops step c (gatherFor step bound c) from hfor c.rest c le_rfl
  intro bound
  induction bound with
  | nil =>
    intro c hle
    rw [gatherFor_nil]
    exact .of_round fun a d hstep =>
      absurd (Nat.lt_of_lt_of_le (hshorter hstep) hle) (Nat.not_lt_zero _)
  | cons t bound ih =>
    intro c hle
    rw [gatherFor_cons]
    refine .of_round fun a d hstep => ?_
    have hrest := ih d (Nat.le_of_lt_succ (Nat.lt_of_lt_of_le (hshorter hstep) hle))
    simp only [Bind.bind, EStateM.bind]
    cases hloop : gatherFor step bound d with
    | ok as e => exact .more hstep (hloop ▸ hrest)
    | error e after => exact .failLater hstep (hloop ▸ hrest)

/-- The loop over a program is stopped by nothing but the end of the file. -/
theorem topLevel_eq_ok {c d : Cursor} {r : Round (Option Node)} (h : topLevel c = .ok r d) :
    r = .stop ∧ d.current.kind = .endOfFile ∨ ∃ item, r = .more item := by
  obtain ⟨_, _, hat, h⟩ := exists_of_bind_eq_ok h
  cases hat
  split at h
  · next hend =>
    cases h
    exact .inl ⟨rfl, eq_of_beq hend⟩
  · obtain ⟨_, _, -, h⟩ := exists_of_bind_eq_ok h
    split at h
    · cases h
      exact .inr ⟨_, rfl⟩
    · obtain ⟨_, _, -, h⟩ := exists_of_bind_eq_ok h
      split at h
      all_goals
        obtain ⟨_, _, -, h⟩ := exists_of_bind_eq_ok h
        cases h
        exact .inr ⟨_, rfl⟩

/-- What is left of the tokens when the loop over a program ends well is the end of the file. -/
theorem Loops.atEnd {c d : Cursor} {items : List (Option Node)}
    (h : Loops topLevel c (.ok items d)) : d.current.kind = .endOfFile := by
  generalize hresult : EStateM.Result.ok items d = result at h
  induction h generalizing items with
  | fail | failLater => cases hresult
  | stop hstep =>
    cases hresult
    obtain ⟨-, hend⟩ | ⟨item, hitem⟩ := topLevel_eq_ok hstep
    · exact hend
    · cases hitem
  | last hstep =>
    obtain ⟨hr, -⟩ | ⟨item, hitem⟩ := topLevel_eq_ok hstep
    · cases hr
    · cases hitem
  | more _ _ ih =>
    cases hresult
    exact ih rfl

namespace Grammar

variable {levels : Nat}

/-- The steps that are repeated, in a grammar and in a program. -/
inductive HasLoop (g : Grammar) : {α : Type} → Parser (Round α) → Prop
  | namePart : HasLoop g namePart
  | typePart : HasLoop g typePart
  | parameters (close) : HasLoop g (listRound close parameter)
  | closureBindings (close) : HasLoop g (listRound close closureBinding)
  | arguments (close) : HasLoop g (listRound close (argument g.expression))
  | traits : HasLoop g (commaItem name)
  | propertyItems : HasLoop g (commaItem (propertyItem g.expression))
  | values : HasLoop g (commaItem g.expression)
  | arraySlot (close) : HasLoop g (arraySlot g.expression close)
  | statementUntil (close) : HasLoop g (statementUntil close g.statement)
  | modifier : HasLoop g modifier
  | classMemberUntil : HasLoop g (classMemberUntil g.expression g.statement)
  | classModifier : HasLoop g classModifier
  | branch : HasLoop g (branch g.expression g.statement)
  | skipRound (mark) : HasLoop g (skipRound mark)
  | namespaceStatement (close) : HasLoop g (Parse.statementUntil close Parse.statement)
  | statementInNamespace : HasLoop g statementInNamespace
  | topLevel : HasLoop g topLevel

/-- Each step takes a token when it is to be repeated. -/
theorem HasLoop.moves {α : Type} {step : Parser (Round α)} (h : (ofLevels levels).HasLoop step) :
    Moves 0 Round.GoesOn step := by
  have hg := ofLevels_goesForward levels
  have he := hg.expression.withRoom (Nat.zero_le _)
  have hs := hg.statement.withRoom (Nat.zero_le _)
  cases h with
  | namePart => exact fun c => (namePart_moves c).mono le_rfl fun _ _ => trivial
  | typePart => exact typePart_moves
  | parameters close => exact listRound_moves parameter_moves
  | closureBindings close => exact listRound_moves closureBinding_moves
  | arguments close => exact listRound_moves (argument_moves he)
  | traits => exact commaItem_moves name_moves
  | propertyItems => exact commaItem_moves (propertyItem_moves he)
  | values => exact commaItem_moves he
  | arraySlot close => exact arraySlot_moves he
  | statementUntil close => exact statementUntil_moves hs
  | modifier => exact modifier_moves
  | classMemberUntil => exact classMemberUntil_moves he hs (Nat.zero_le _)
  | classModifier => exact classModifier_moves
  | branch => exact branch_moves he hs (Nat.zero_le _)
  | skipRound mark => exact skipRound_moves
  | namespaceStatement close => exact statementUntil_moves statement_reads
  | statementInNamespace => exact statementInNamespace_moves
  | topLevel => exact topLevel_moves

/-- The parsers of things that cannot be empty. -/
def takers (g : Grammar) : List (Parser Node) :=
  [g.statement, g.expression, classMember g.expression g.statement, parameter,
   arrayItem g.expression, name, Parse.statement, Parse.expression]

theorem takers_moves : ∀ p ∈ (ofLevels levels).takers, Moves 0 always p := by
  have hg := ofLevels_goesForward levels
  have he := hg.expression.withRoom (Nat.zero_le _)
  have hs := hg.statement.withRoom (Nat.zero_le _)
  have hexpression : Moves 0 always Parse.expression :=
    fun c => (expression_moves c).mono (Nat.zero_le _) fun _ => id
  simp only [takers, List.forall_mem_cons]
  exact ⟨hs, he, classMember_moves he hs (Nat.zero_le _), parameter_moves, arrayItem_moves he,
    name_moves, statement_reads, hexpression, List.forall_mem_nil _⟩

/-- The parsers that those of programs are built from. -/
inductive Has (g : Grammar) : {α : Type} → Parser α → Prop
  -- tokens
  | current : Has g current
  | following : Has g following
  | isAt (kind) : Has g (isAt kind)
  | advance : Has g advance
  | accept (kind) : Has g (accept kind)
  | complain {α} (complaint) : Has g (complain complaint : Parser α)
  | expect (kind) : Has g (expect kind)
  | terminator : Has g terminator
  | spanFrom (start) : Has g (spanFrom start)
  | other (kind children start) : Has g (other kind children start)
  | tooDeep {α} : Has g (tooDeep : Parser α)
  | link : Has g link
  -- nesting and repetition
  | within {α} {p : Parser α} : Has g p → Has g (within p)
  | chain {α} {p : Parser α} : Has g p → Has g (chain p)
  | step {α} {step : Parser (Round α)} : g.HasLoop step → Has g step
  | gather {α} {step : Parser (Round α)} : Has g step → Has g (gather step)
  -- names, types and parameters
  | name : Has g name
  | identifier : Has g identifier
  | skipType : Has g skipType
  | skipReturnType : Has g skipReturnType
  | parameter : Has g parameter
  | parameterList : Has g parameterList
  | refuseByRefReturn : Has g refuseByRefReturn
  | closureBinding : Has g closureBinding
  | closureBindings : Has g closureBindings
  -- expressions
  | argument : Has g (argument g.expression)
  | arguments : Has g (arguments g.expression)
  | enclosed (close) : Has g (enclosed g.expression close)
  | memberName : Has g (memberName g.expression)
  | staticAccess (cls start) : Has g (staticAccess g.expression cls start)
  | postfixLink (base start) : Has g (postfixLink g.expression base start)
  | constructedClass : Has g (constructedClass g.expression)
  | construction : Has g (construction g.expression)
  | arrayItem : Has g (arrayItem g.expression)
  | arrayLiteral (opening close start) : Has g (arrayLiteral g.expression opening close start)
  | arrowFunction (start) : Has g (arrowFunction g.expression start)
  | closure (start) : Has g (closure (block g.statement) start)
  | nameOrConstant (start) : Has g (nameOrConstant start)
  | primary : Has g (primary g.expression (block g.statement))
  -- statements
  | statementsUntil (close) : Has g (statementsUntil close g.statement)
  | block : Has g (block g.statement)
  | modifiers : Has g modifiers
  | propertyItem : Has g (propertyItem g.expression)
  | traitUse (start) : Has g (traitUse start)
  | method (flags start) : Has g (method g.statement flags start)
  | property (flags start) : Has g (property g.expression flags start)
  | classMember : Has g (classMember g.expression g.statement)
  | classDeclaration (start) : Has g (classDeclaration g.expression g.statement start)
  | condition : Has g (condition g.expression)
  | conditional : Has g (conditional g.expression g.statement)
  | functionDeclaration : Has g (functionDeclaration g.statement)
  | skipUntil (mark) : Has g (skipUntil mark)
  | returnStatement (start) : Has g (returnStatement g.expression start)
  | echoStatement (start) : Has g (echoStatement g.expression start)
  | useStatement (start) : Has g (useStatement start)
  | declareStatement (start) : Has g (declareStatement start)
  | expressionStatement (start) : Has g (expressionStatement g.expression start)
  | modifiedClass (start) : Has g (modifiedClass g.expression g.statement start)
  | statementBody : Has g (statementBody g.expression g.statement)
  -- levels
  | operatorFrom? (least) : Has g (operatorFrom? least)
  | postfixExpression : Has g g.postfixExpression
  | unary : Has g g.unary
  | binary (least) : Has g (g.binary least)
  | assignment : Has g g.assignment
  | operand : Has g g.operand
  | operators (least start left) : Has g (g.operators least start left)
  | links (start base) : Has g (g.links start base)
  | taker {p} : p ∈ g.takers → Has g p
  -- programs
  | namespaceBody (label) : Has g (namespaceBody label)
  | namespaceBlock : Has g namespaceBlock
  | program : Has g program

/-- No parser goes back, and none reads the end of the file. -/
theorem Has.moves {α : Type} {p : Parser α} (h : (ofLevels levels).Has p) : Moves 0 never p := by
  have hg := ofLevels_goesForward levels
  have he := hg.expression.withRoom (Nat.zero_le _)
  have hs := hg.statement.withRoom (Nat.zero_le _)
  have hb := (block_moves hs).withRoom (Nat.zero_le _)
  have hzero {α : Type} {room : Nat} {reads : α → Prop} {p : Parser α}
      (hp : Moves room reads p) : Moves 0 never p := hp.any (Nat.zero_le _)
  have htoken {α : Type} {p : Parser α} (hp : Moves 0 always p) : Moves 0 never p := hzero hp
  have hfrom {α : Type} {reads : Cursor → α → Prop} {p : Parser α}
      (hp : ∀ c, MovesFrom c 0 (reads c) p) : Moves 0 never p :=
    fun c => (hp c).mono le_rfl fun _ => False.elim
  induction h with
  | current => exact current_moves
  | following => exact following_moves
  | isAt kind => exact isAt_moves
  | advance => exact advance_moves
  | accept kind => exact accept_moves
  | complain complaint => exact .complain
  | expect kind => exact isAt_moves.bind fun _ => .ite advance_moves .complain
  | terminator => exact htoken terminator_moves
  | spanFrom start => exact spanFrom_moves
  | other kind children start => exact other_moves
  | tooDeep => exact fun _ => .tooDeep
  | link => exact link_moves
  | within _ ih => exact ih.within
  | chain _ ih => exact ih.chain
  | step h => exact hzero h.moves
  | gather _ ih => exact gather_moves ih
  | name => exact htoken name_moves
  | identifier => exact htoken identifier_moves
  | skipType => exact skipType_moves
  | skipReturnType => exact skipReturnType_moves
  | parameter => exact htoken parameter_moves
  | parameterList => exact htoken parameterList_moves
  | refuseByRefReturn => exact refuseByRefReturn_moves
  | closureBinding => exact htoken closureBinding_moves
  | closureBindings => exact closureBindings_moves
  | argument => exact hzero (argument_moves he)
  | arguments => exact hzero (arguments_moves he)
  | enclosed close => exact hzero (enclosed_moves he)
  | memberName => exact hzero (memberName_moves he)
  | staticAccess cls start => exact hzero (staticAccess_moves he)
  | postfixLink base start =>
    exact hfrom fun c => (postfixLink_moves he c).mono (Nat.zero_le _) fun _ => id
  | constructedClass => exact hzero (constructedClass_moves he)
  | construction => exact hzero (construction_moves he)
  | arrayItem => exact hzero (arrayItem_moves he)
  | arrayLiteral opening close start => exact hzero (arrayLiteral_moves he)
  | arrowFunction start => exact hzero (arrowFunction_moves he)
  | closure start => exact hzero (closure_moves hb)
  | nameOrConstant start => exact htoken nameOrConstant_moves
  | primary => exact hzero (primary_moves he hb)
  | statementsUntil close => exact hzero (statementsUntil_moves hs)
  | block => exact hzero hb
  | modifiers => exact modifiers_moves
  | propertyItem => exact hzero (propertyItem_moves he)
  | traitUse start => exact htoken traitUse_moves
  | method flags start => exact hzero (method_moves hs)
  | property flags start => exact hzero (property_moves he)
  | classMember => exact hzero (classMember_moves he hs (Nat.zero_le _))
  | classDeclaration start => exact hzero (classDeclaration_moves he hs (Nat.zero_le _))
  | condition => exact hzero (condition_moves he)
  | conditional => exact hzero (conditional_moves he hs (Nat.zero_le _))
  | functionDeclaration => exact hzero (functionDeclaration_moves hs)
  | skipUntil mark => exact skipUntil_moves
  | returnStatement start => exact hfrom (returnStatement_moves he)
  | echoStatement start => exact hfrom (echoStatement_moves he)
  | useStatement start => exact hfrom useStatement_moves
  | declareStatement start => exact hfrom declareStatement_moves
  | expressionStatement start => exact hzero (expressionStatement_moves he)
  | modifiedClass start => exact hzero (modifiedClass_moves he hs (Nat.zero_le _))
  | statementBody => exact hzero (statementBody_moves he hs (Nat.zero_le _))
  | operatorFrom? least => exact operatorFrom?_moves
  | postfixExpression => exact hzero (postfixExpression_moves hg)
  | unary => exact hzero (unary_moves hg)
  | binary least => exact hzero (binary_moves hg least)
  | assignment => exact hzero (assignment_moves hg)
  | operand => exact hzero hg.operand
  | operators least start left => exact hzero (hg.operators least start left)
  | links start base => exact hzero (hg.links start base)
  | taker hmem => exact hzero (takers_moves _ hmem)
  | namespaceBody label => exact namespaceBody_moves
  | namespaceBlock => exact hzero namespaceBlock_moves
  | program => exact program_moves

end Grammar

/-! ## The end -/

/-- The cursor that a parser leaves behind, whether it ends well or fails. -/
def cursorAfter (p : Parser α) (c : Cursor) : Cursor :=
  match p c with
  | .ok _ d => d
  | .error _ d => d

theorem MovesFrom.exists_passes {c : Cursor} {room : Nat} {reads : α → Prop} {p : Parser α}
    (h : MovesFrom c room reads p) : ∃ ts, c.Passes ts (cursorAfter p c) := by
  unfold cursorAfter
  cases hp : p c with
  | ok a d =>
    obtain ⟨ts, hts, -⟩ := h.ok hp
    exact ⟨ts, hts⟩
  | error e d => exact (h.error hp).1

/-- A program that is read is read to the end of the file. -/
theorem program_atEnd {c d : Cursor} {nodes : List Node} (h : program c = .ok nodes d) :
    d.current.kind = .endOfFile := by
  obtain ⟨items, between, hloop, hpure⟩ := exists_of_bind_eq_ok h
  cases hpure
  have hloops := gather_loops topLevel_moves c
  rw [hloop] at hloops
  exact hloops.atEnd

/-- Parsing comes to an end on all tokens that end with the end of the file, wherever the cursor
    stands. What cannot be empty takes a token; no parser goes back or past the end; no loop
    needs a bound on its rounds, and no recursion one on its levels, as there are no more of
    them than tokens; and a program that is read has passed over each token once. -/
theorem parsing_ends (levels : Nat) {c : Cursor} (hc : c.IsClosed) :
    (∀ p ∈ (Grammar.ofLevels levels).takers, ∀ n d, p c = .ok n d →
      d.IsClosed ∧ ∃ t ts, c.Passes (t :: ts) d) ∧
    (∀ (α : Type) (p : Parser α), (Grammar.ofLevels levels).Has p →
      (cursorAfter p c).IsClosed ∧ ∃ ts, c.Passes ts (cursorAfter p c)) ∧
    (∀ (α : Type) (step : Parser (Round α)), (Grammar.ofLevels levels).HasLoop step →
      Loops step c (gather step c)) ∧
    (c.rest.length < levels →
      ∀ s d, (Grammar.ofLevels levels).expression c ≠ .error (.tooDeep s) d) ∧
    (c.rest.length + 1 < levels →
      ∀ s d, (Grammar.ofLevels levels).statement c ≠ .error (.tooDeep s) d) ∧
    ∀ nodes d, program c = .ok nodes d → d.IsClosed ∧ d.current.kind = .endOfFile ∧
      c.Passes (c.rest.takeWhile (·.kind != .endOfFile)) d := by
  have hg := Grammar.ofLevels_goesForward levels
  refine ⟨fun p hp n d hrun => ?_, fun α p hp => ?_, fun α step hstep => gather_loops hstep.moves c,
    fun hlt s d hrun => ?_, fun hlt s d hrun => ?_, fun nodes d hrun => ?_⟩
  · obtain ⟨ts, hts, hne⟩ := (Grammar.takers_moves p hp c).ok hrun
    obtain ⟨t, ts, rfl⟩ := List.exists_cons_of_ne_nil (hne trivial)
    exact ⟨hc.of_passes hts, t, ts, hts⟩
  · obtain ⟨ts, hts⟩ := (hp.moves c).exists_passes
    exact ⟨hc.of_passes hts, ts, hts⟩
  · have hle := ((hg.expression c).error hrun).2 s rfl
    omega
  · have hle := ((hg.statement c).error hrun).2 s rfl
    omega
  · obtain ⟨ts, hts, -⟩ := (program_moves c).ok hrun
    have hend := program_atEnd hrun
    exact ⟨hc.of_passes hts, hend, hts.eq_takeWhile hend ▸ hts⟩

/-- The tokens of a variable as a statement. -/
def variableTokens : List Token :=
  [⟨.varName, ⟨6, 8⟩, "$a"⟩, ⟨.symbol .semicolon, ⟨8, 9⟩, ";"⟩, ⟨.endOfFile, ⟨9, 9⟩, ""⟩]

/-- Both tokens are passed over, and the cursor is left before the end of the file. With five
    levels no expression here could be refused one. -/
theorem parsing_ends_variable :
    Cursor.IsClosed { rest := variableTokens } ∧
    (∃ nodes d, program { rest := variableTokens } = .ok nodes d ∧
      d.current.kind = .endOfFile ∧
      Cursor.Passes { rest := variableTokens } (variableTokens.take 2) d) ∧
    ∀ s d, (Grammar.ofLevels 5).statement { rest := variableTokens } ≠ .error (.tooDeep s) d := by
  have hclosed : Cursor.IsClosed { rest := variableTokens } :=
    ⟨variableTokens.take 2, ⟨.endOfFile, ⟨9, 9⟩, ""⟩, rfl, rfl⟩
  obtain ⟨-, -, -, -, hstatement, hprogram⟩ := parsing_ends 5 hclosed
  refine ⟨hclosed, ?_, hstatement (by decide)⟩
  cases hrun : program { rest := variableTokens } with
  | ok nodes d =>
    obtain ⟨-, hend, hpasses⟩ := hprogram nodes d hrun
    exact ⟨nodes, d, rfl, hend, hpasses⟩
  | error e d =>
    have hok : (resume { rest := variableTokens }).1.toOption.isSome := by decide +kernel
    simp [resume, hrun, Except.toOption] at hok

end PhpScript.Parse
