import PhpScript.Proofs.Parse.Yield

/-!
# Parsed trees are derived

Every tree that parsing builds has a derivation, with the levels that were left
where it was read. The parsers are taken in three layers:

* the forms of an expression and of a statement, given parsers for the
  expressions and statements in them;
* `Grammar.IsSound`, which says of the parsers with some number of levels left
  what they yield, and is kept by `Grammar.deeper`;
* a program (`source_derives`).
-/

namespace PhpScript.Parse

variable {W : List Char → Prop}

/-- Children of any form are parts. -/
theorem parts_of {form : Form} {nodes : List Node} (h : ∀ n ∈ nodes, Derives W form n) :
    ∀ n ∈ nodes, Derives W .part n :=
  fun n hn => .part (h n hn)

/-- A mark that takes up the name before it: a call or a static access. -/
def IsCallMark (kind : TokenKind) : Prop :=
  kind = .symbol .openParen ∨ kind = .symbol .doubleColon

/-- What stands before the links of an expression, with the cursor after it: a
    name only where the first link takes it up. -/
def PrimaryOrName (W : List Char → Prop) (levels : Nat) (n : Node) (after : Cursor) : Prop :=
  Derives W (.primary levels) n ∨ Derives W .name n ∧ IsCallMark after.current.kind

/-! ## Expressions -/

section

variable {expression : Parser Node} {levels : Nat}
  (he : Yields W expression (Derives W (.expression levels)))

include he

theorem argument_yields : Yields W (argument expression) (Derives W (.argument levels)) :=
  current_yields.bind fun _ _ => following_yields.bind fun _ _ => .guard fun _ =>
    isAt_yields.bind fun _ _ => .guard fun _ => current_yields.bind fun _ _ =>
      he.bind fun _ hv => spanFrom_yields.bind fun _ _ => .pure (.argument hv)

theorem arguments_yields :
    Yields W (arguments expression) fun args => ∀ a ∈ args, Derives W (.argument levels) a :=
  expect_yields.bind fun _ _ => (commaListUntil_yields (argument_yields he)).bind fun _ hargs =>
    expect_yields.bind fun _ _ => .pure hargs

theorem enclosed_yields {close : Symbol} :
    Yields W (enclosed expression close) (Derives W (.expression levels)) :=
  he.bind fun _ hv => expect_yields.bind fun _ _ => .pure hv

theorem memberName_yields : Yields W (memberName expression) (Derives W (.memberName levels)) := by
  refine .peek fun c hc => ?_
  split
  · next hk => exact .advance_var hc hk fun _ ht => .pure (.memberByVariable ht)
  · exact advance_yields.bind (fun _ _ => (enclosed_yields he).mono fun _ => .memberByExpression) hc
  · exact (identifier_yields.mono fun _ => .memberByLabel) hc

theorem constructedClass_yields :
    Yields W (constructedClass expression) (Derives W (.constructed levels)) := by
  refine .peek fun c hc => ?_
  split
  · exact Yields.complain hc
  · next hk => exact .advance_var hc hk fun _ ht => .pure (.constructedByVariable ht)
  · exact advance_yields.bind
      (fun _ _ => (enclosed_yields he).mono fun _ => .constructedByExpression) hc
  · exact (name_yields.mono fun _ => .constructedByName) hc

theorem construction_yields : Yields W (construction expression) (Derives W (.primary levels)) :=
  expect_yields.bind fun _ _ => (constructedClass_yields he).bind fun _ hcls =>
    isAt_yields.bind fun _ _ => .ite
      (fun _ => (arguments_yields he).bind fun _ hargs => spanFrom_yields.bind fun _ _ =>
        .pure (.construct hcls hargs))
      fun _ => spanFrom_yields.bind fun _ _ => .pure (.construct hcls (by simp))

theorem arrayItem_yields : Yields W (arrayItem expression) (Derives W (.item levels)) :=
  current_yields.bind fun _ _ => isAt_yields.bind fun _ _ => .guard fun _ =>
    isAt_yields.bind fun _ _ => .guard fun _ => he.bind fun _ hfirst =>
      accept_yields.bind fun _ _ => .ite
        (fun _ => he.bind fun _ hv => spanFrom_yields.bind fun _ _ =>
          .pure (.item (by simpa using hfirst) hv))
        fun _ => spanFrom_yields.bind fun _ _ => .pure (.item (by simp) hfirst)

theorem arraySlot_yields {close : Symbol} :
    Yields W (arraySlot expression close)
      (Round.Brings fun slot => ∀ i ∈ slot, Derives W (.item levels) i) :=
  accept_yields.bind fun _ _ => .ite (fun _ => .pure trivial) fun _ =>
    accept_yields.bind fun _ _ => .ite (fun _ => .pure (by simp [Round.Brings])) fun _ =>
      (arrayItem_yields he).bind fun _ hi => accept_yields.bind fun _ _ =>
        have hslot : ∀ i ∈ some _, Derives W (.item levels) i := by simpa using hi
        .ite (fun _ => .pure hslot) fun _ => expect_yields.bind fun _ _ => .pure hslot

theorem arrayLiteral_yields {opening close : Symbol} {start : Span} :
    Yields W (arrayLiteral expression opening close start) (Derives W (.primary levels)) :=
  expect_yields.bind fun _ _ => (gather_yields (arraySlot_yields he)).bind fun _ hslots =>
    spanFrom_yields.bind fun _ _ => .pure (.array hslots)

theorem arrowFunction_yields {start : Span} :
    Yields W (arrowFunction expression start) (Derives W (.primary levels)) :=
  expect_yields.bind fun _ _ => refuseByRefReturn_yields.bind fun _ _ =>
    parameterList_yields.bind fun _ hps => skipReturnType_yields.bind fun _ _ =>
      expect_yields.bind fun _ _ => he.bind fun _ hbody => spanFrom_yields.bind fun _ _ =>
        .pure (.arrowFunction hps hbody)

/-- What follows `::` makes a construct without a rule. -/
theorem staticAccess_yields {form : Form} {cls : Node} {start : Span} (hform : form.AdmitsOther)
    (hcls : Derives W .part cls) :
    Yields W (staticAccess expression cls start) (Derives W form) := by
  refine .peekAt fun c hc => ?_
  split
  · next hk =>
    exact .advance_var hc (eq_of_beq hk) fun _ ht => other_yields fun _ =>
      .other hform (List.forall_mem_cons.2 ⟨hcls, List.forall_mem_singleton.2 (.part ht)⟩)
  · refine identifier_yields.bind (fun _ hl => isAt_yields.bind fun _ _ => .ite (fun _ => ?_)
      fun _ => ?_) hc
    · exact (arguments_yields he).bind fun _ hargs => other_yields fun _ => .other hform <|
        List.forall_mem_cons.2 ⟨hcls, List.forall_mem_cons.2 ⟨.part hl, parts_of hargs⟩⟩
    · exact other_yields fun _ => .other hform <|
        List.forall_mem_cons.2 ⟨hcls, List.forall_mem_singleton.2 (.part hl)⟩

/-- A link on an expression, which takes one of the levels that are left. -/
theorem postfixLink_yieldsOn {c : Cursor} {top : Nat} {base : Node} {start : Span}
    (hc : c.IsSpelled W) (hk : isPostfix c.current.kind)
    (hbase : Derives W (.access top (levels + 1)) base) :
    YieldsOn W c (postfixLink expression base start)
      fun n _ => Derives W (.access top levels) n := by
  have hform : (Form.access top levels).AdmitsOther := Nat.le_of_succ_le hbase.isOrdered
  refine .peek ?_
  split
  · refine advance_yields.bind (fun _ _ => (memberName_yields he).bind fun _ hl =>
      isAt_yields.bind fun _ _ => .ite (fun _ => ?_) fun _ => ?_) hc
    · exact (arguments_yields he).bind fun _ hargs => spanFrom_yields.bind fun _ _ =>
        .pure (.methodCall hbase hl hargs)
    · exact spanFrom_yields.bind fun _ _ => .pure (.member hbase hl)
  · refine advance_yields.bind (fun _ _ => (memberName_yields he).bind fun _ hl =>
      isAt_yields.bind fun _ _ => .ite (fun _ => ?_) fun _ => ?_) hc
    · exact (arguments_yields he).bind fun _ hargs => other_yields fun _ => .other hform <|
        List.forall_mem_cons.2 ⟨.part hbase, List.forall_mem_cons.2 ⟨.part hl, parts_of hargs⟩⟩
    · exact other_yields fun _ => .other hform <|
        List.forall_mem_cons.2 ⟨.part hbase, List.forall_mem_singleton.2 (.part hl)⟩
  · refine advance_yields.bind (fun _ _ => isAt_yields.bind fun _ _ => .ite (fun _ => ?_)
      fun _ => ?_) hc
    · exact expect_yields.bind fun _ _ => spanFrom_yields.bind fun _ _ =>
        .pure (.index hbase (by simp))
    · exact he.optional.bind fun _ hkey => expect_yields.bind fun _ _ =>
          spanFrom_yields.bind fun _ _ => .pure (.index hbase hkey)
  · exact (arguments_yields he).bind (fun _ hargs => spanFrom_yields.bind fun _ _ =>
      .pure (.call hbase hargs)) hc
  · exact advance_yields.bind (fun _ _ => staticAccess_yields he hform (.part hbase)) hc
  · simp_all [isPostfix]

/-- A name is followed by a call or a static access, and makes the first link. -/
theorem postfixLink_yieldsOn_name {c : Cursor} {base : Node} {start : Span} (hc : c.IsSpelled W)
    (hk : IsCallMark c.current.kind) (hbase : Derives W .name base) :
    YieldsOn W c (postfixLink expression base start) fun n _ =>
      Derives W (.access (levels + 1) levels) n := by
  have hform : (Form.access (levels + 1) levels).AdmitsOther := Nat.le_succ _
  refine .peek ?_
  rcases hk with hk | hk <;> rw [hk]
  · exact (arguments_yields he).bind (fun _ hargs => spanFrom_yields.bind fun _ _ =>
      .pure (.callByName hbase hargs)) hc
  · exact advance_yields.bind (fun _ _ => staticAccess_yields he hform (.part hbase)) hc

end

/-- A name that begins an expression stays a name only before a call or a static
    access. -/
theorem nameOrConstant_yieldsOn {c : Cursor} {start : Span} {levels : Nat} (hc : c.IsSpelled W) :
    YieldsOn W c (nameOrConstant start) (PrimaryOrName W levels) := by
  intro n after h
  simp only [nameOrConstant, Bind.bind, EStateM.bind, isAt] at h
  split at h
  · next label between hn =>
    obtain ⟨hb, hl⟩ := name_yields hc hn
    split at h
    · next hk =>
      cases h
      exact ⟨hb, .inr ⟨hl, by simpa [IsCallMark] using hk⟩⟩
    · cases h
      exact ⟨hb, .inl (.constant hl)⟩
  · cases h

section

variable {expression : Parser Node} {block : Parser (List Node)} {levels : Nat}
  (he : Yields W expression (Derives W (.expression levels)))
  (hb : Yields W block fun body => ∀ n ∈ body, Derives W (.statement levels) n)

include hb in
theorem closure_yields {start : Span} :
    Yields W (closure block start) (Derives W (.primary levels)) :=
  expect_yields.bind fun _ _ => refuseByRefReturn_yields.bind fun _ _ =>
    parameterList_yields.bind fun _ hps => closureBindings_yields.bind fun _ hus =>
      skipReturnType_yields.bind fun _ _ => hb.bind fun _ hbody =>
        spanFrom_yields.bind fun _ _ => .pure (.closure hps hus hbody)

include he hb in
theorem primary_yieldsOn {c : Cursor} (hc : c.IsSpelled W) :
    YieldsOn W c (primary expression block) (PrimaryOrName W levels) := by
  have ofYields : ∀ {p : Parser Node}, Yields W p (Derives W (.primary levels)) →
      YieldsOn W c p (PrimaryOrName W levels) :=
    fun hp _ _ h => (hp hc h).imp_right .inl
  refine .peek ?_
  split
  · next hk =>
    exact fun _ _ h =>
      (YieldsOn.advance_var hc hk (fun _ ht => .pure (.ofVariable ht)) h).imp_right .inl
  · refine ofYields (advance_yields.bind fun _ _ => ?_)
    split
    · next numeral _ =>
      cases numeral with
      | integer value => exact .pure .integer
      | float value => exact .pure .float
    · exact .throw
  · refine ofYields (advance_yields.bind fun _ _ => ?_)
    split
    · exact .pure .float
    · exact .throw
  · exact ofYields (advance_yields.bind fun _ _ => .pure .string)
  · refine ofYields (advance_yields.bind fun _ _ => ?_)
    split
    · exact .pure .string
    · exact other_yields fun _ => .other trivial (by simp)
  · exact ofYields (arrayLiteral_yields he)
  · exact ofYields <| following_yields.bind fun _ _ => .ite
      (fun _ => advance_yields.bind fun _ _ => arrayLiteral_yields he) fun _ => .complain
  · exact ofYields <| advance_yields.bind fun _ _ => (enclosed_yields he).mono fun _ => .group
  · exact ofYields (construction_yields he)
  · exact ofYields (arrowFunction_yields he)
  · exact ofYields (closure_yields hb)
  · refine .peekFollowing fun kind => ?_
    split
    · exact ofYields (advance_yields.bind fun _ _ => arrowFunction_yields he)
    · exact ofYields (advance_yields.bind fun _ _ => closure_yields hb)
    · exact nameOrConstant_yieldsOn hc
  · exact nameOrConstant_yieldsOn hc
  · exact nameOrConstant_yieldsOn hc
  · exact ofYields .complain

end

/-! ## Statements -/

section

variable {expression statement : Parser Node} {levels : Nat}

/-- The slots that hold something, for steps that may bring nothing. -/
theorem filterMap_forall {Q : Node → Prop} {slots : List (Option Node)}
    (h : ∀ slot ∈ slots, ∀ n ∈ slot, Q n) : ∀ n ∈ slots.filterMap id, Q n := by
  simpa using fun n hn => h (some n) hn n rfl

theorem statementsUntil_yields {close : Symbol} {Q : Node → Prop} (hs : Yields W statement Q) :
    Yields W (statementsUntil close statement) fun body => ∀ n ∈ body, Q n := by
  have hstep : Yields W (statementUntil close statement)
      (Round.Brings fun slot => ∀ n ∈ slot, Q n) :=
    isAt_yields.bind fun _ _ => .ite (fun _ => .pure trivial) fun _ =>
      isAt_yields.bind fun _ _ => .guard fun _ => accept_yields.bind fun _ _ => .ite
        (fun _ => .pure (by simp [Round.Brings]))
        fun _ => hs.bind fun _ hn => .pure (by simpa [Round.Brings] using hn)
  exact (gather_yields hstep).bind fun slots hslots => expect_yields.bind fun _ _ =>
    .pure (filterMap_forall hslots)

theorem block_yields {Q : Node → Prop} (hs : Yields W statement Q) :
    Yields W (block statement) fun body => ∀ n ∈ body, Q n :=
  expect_yields.bind fun _ _ => statementsUntil_yields hs

theorem modifiers_yields : Yields W modifiers Anything := by
  have hstep : Yields W modifier (Round.Brings Anything) := by
    refine current_yields.bind fun _ _ => ?_
    split
    · exact advance_yields.bind fun _ _ => .pure trivial
    · exact .pure trivial
  exact (gather_yields hstep).bind fun _ _ => .pure trivial

theorem skipUntil_yields {mark : Symbol} : Yields W (skipUntil mark) Anything := by
  refine (gather_yields (P := Anything) ?_).bind fun _ _ => .pure trivial
  exact isAt_yields.bind fun _ _ => isAt_yields.bind fun _ _ => .ite (fun _ => .pure trivial)
    fun _ => advance_yields.bind fun _ _ => .pure trivial

theorem traitUse_yields {start : Span} :
    Yields W (traitUse start) (Derives W (.classMember levels)) :=
  (commaSeparated_yields name_yields).bind fun _ htraits => terminator_yields.bind fun _ _ =>
    other_yields fun _ => .other trivial (parts_of htraits.2)

theorem method_yields {flags : Modifiers} {start : Span}
    (hs : Yields W statement (Derives W (.statement levels))) :
    Yields W (method statement flags start) (Derives W (.classMember levels)) :=
  refuseByRefReturn_yields.bind fun _ _ => identifier_yields.bind fun _ hl =>
    parameterList_yields.bind fun _ hps => skipReturnType_yields.bind fun _ _ =>
      accept_yields.bind fun _ _ => .ite
        (fun _ => spanFrom_yields.bind fun _ _ => .pure (.method hl hps (by simp)))
        fun _ => (block_yields hs).optional.bind fun _ hbody => spanFrom_yields.bind fun _ _ =>
          .pure (.method hl hps hbody)

section

variable (he : Yields W expression (Derives W (.expression levels)))

include he

theorem propertyItem_yields :
    Yields W (propertyItem expression) (Derives W (.propertyItem levels)) :=
  expect_yields.bind fun t ht => accept_yields.bind fun _ _ => by
    -- A property is read as a variable and kept as a name.
    have hl : ∀ s, Derives W .label (.identifier (varNameOf t) s) := by
      intro s
      cases varOf_derives ht.1 ht.2 with
      | var hw => exact .label hw
    exact .ite
      (fun _ => he.optional.bind fun _ hv => spanFrom_yields.bind fun _ _ =>
        .pure (.propertyItem (hl _) hv))
      fun _ => spanFrom_yields.bind fun _ _ => .pure (.propertyItem (hl _) (by simp))

theorem property_yields {flags : Modifiers} {start : Span} (hflags : flags.isEmpty = false) :
    Yields W (property expression flags start) (Derives W (.classMember levels)) :=
  skipType_yields.bind fun _ _ => (commaSeparated_yields (propertyItem_yields he)).bind
    fun _ hitems => terminator_yields.bind fun _ _ => spanFrom_yields.bind fun _ _ =>
      .pure (.property hflags hitems.1 hitems.2)

theorem condition_yields : Yields W (condition expression) (Derives W (.expression levels)) :=
  expect_yields.bind fun _ _ => enclosed_yields he

theorem returnStatement_yields {start : Span} :
    Yields W (returnStatement expression start) (Derives W (.statement (levels + 1))) :=
  advance_yields.bind fun _ _ => isAt_yields.bind fun _ _ => isAt_yields.bind fun _ _ => .ite
    (fun _ => terminator_yields.bind fun _ _ => spanFrom_yields.bind fun _ _ =>
      .pure (.returns (by simp)))
    fun _ => he.optional.bind fun _ hv => terminator_yields.bind fun _ _ =>
      spanFrom_yields.bind fun _ _ => .pure (.returns hv)

theorem echoStatement_yields {start : Span} :
    Yields W (echoStatement expression start) (Derives W (.statement (levels + 1))) :=
  advance_yields.bind fun _ _ => (commaSeparated_yields he).bind fun _ hvalues =>
    terminator_yields.bind fun _ _ => other_yields fun _ =>
      .other (Nat.succ_pos _) (parts_of hvalues.2)

theorem expressionStatement_yields {start : Span} :
    Yields W (expressionStatement expression start) (Derives W (.statement (levels + 1))) :=
  he.bind fun _ hexpr => terminator_yields.bind fun _ _ => spanFrom_yields.bind fun _ _ =>
    .pure (.expressionStatement hexpr)

end

theorem useStatement_yields {start : Span} :
    Yields W (useStatement start) (Derives W (.statement (levels + 1))) :=
  advance_yields.bind fun _ _ => skipUntil_yields.bind fun _ _ => terminator_yields.bind fun _ _ =>
    other_yields fun _ => .other (Nat.succ_pos _) (by simp)

theorem declareStatement_yields {start : Span} :
    Yields W (declareStatement start) (Derives W (.statement (levels + 1))) :=
  advance_yields.bind fun _ _ => expect_yields.bind fun _ _ => skipUntil_yields.bind fun _ _ =>
    expect_yields.bind fun _ _ => terminator_yields.bind fun _ _ =>
      other_yields fun _ => .other (Nat.succ_pos _) (by simp)

theorem functionDeclaration_yields (hs : Yields W statement (Derives W (.statement levels))) :
    Yields W (functionDeclaration statement) (Derives W (.statement (levels + 1))) :=
  expect_yields.bind fun _ _ => identifier_yields.bind fun _ hl =>
    parameterList_yields.bind fun _ hps => skipReturnType_yields.bind fun _ _ =>
      (block_yields hs).bind fun _ hbody => other_yields fun _ => .other (Nat.succ_pos _) <|
        List.forall_mem_cons.2 ⟨.part hl, List.forall_mem_append.2 ⟨parts_of hps, parts_of hbody⟩⟩

variable (he : Yields W expression (Derives W (.expression levels)))
  (hs : Yields W statement (Derives W (.statement levels)))

include he hs

theorem classMember_yields :
    Yields W (classMember expression statement) (Derives W (.classMember levels)) :=
  current_yields.bind fun _ _ => accept_yields.bind fun _ _ => .ite (fun _ => traitUse_yields)
    fun _ => isAt_yields.bind fun _ _ => .guard fun _ => modifiers_yields.bind fun _ _ =>
      accept_yields.bind fun _ _ => .ite (fun _ => method_yields hs) fun _ => .ite
        (fun _ => current_yields.bind fun _ _ => .guard fun _ => .complain)
        fun hflags => property_yields he (by simpa using hflags)

theorem classDeclaration_yields {start : Span} :
    Yields W (classDeclaration expression statement start)
      (Derives W (.statement (levels + 1))) := by
  have hstep : Yields W (classMemberUntil expression statement)
      (Round.Brings (Derives W (.classMember levels))) :=
    accept_yields.bind fun _ _ => .ite (fun _ => .pure trivial) fun _ =>
      isAt_yields.bind fun _ _ => .guard fun _ => (classMember_yields he hs).bind
        fun _ hm => .pure hm
  exact expect_yields.bind fun _ _ => identifier_yields.bind fun _ hl =>
    current_yields.bind fun _ _ => .guard fun _ => expect_yields.bind fun _ _ =>
      (gather_yields hstep).bind fun _ hmembers => spanFrom_yields.bind fun _ _ =>
        .pure (.classDecl hl hmembers)

theorem modifiedClass_yields {start : Span} :
    Yields W (modifiedClass expression statement start) (Derives W (.statement (levels + 1))) := by
  refine (gather_yields (P := Anything) ?_).bind fun _ _ => classDeclaration_yields he hs
  refine current_yields.bind fun _ _ => ?_
  split
  all_goals first
    | exact advance_yields.bind fun _ _ => .pure trivial
    | exact .pure trivial

theorem conditional_yields :
    Yields W (conditional expression statement) (Derives W (.statement (levels + 1))) := by
  have hform : (Form.statement (levels + 1)).AdmitsOther := Nat.succ_pos _
  have hbranch : Yields W (branch expression statement) (Round.Brings (Derives W .part)) := by
    refine current_yields.bind fun _ _ => accept_yields.bind fun _ _ => .ite (fun _ => ?_)
      fun _ => accept_yields.bind fun _ _ => .ite (fun _ => ?_) fun _ => .pure trivial
    · exact (condition_yields he).bind fun _ ht => hs.bind fun _ hb =>
        (other_yields (R := Derives W (.statement (levels + 1))) fun _ => .other hform <|
          List.forall_mem_cons.2 ⟨.part ht, List.forall_mem_singleton.2 (.part hb)⟩).bind
            fun _ ho => .pure (.part ho)
    · exact hs.bind fun _ hb =>
        (other_yields (R := Derives W (.statement (levels + 1))) fun _ => .other hform <|
          List.forall_mem_singleton.2 (.part hb)).bind fun _ ho => .pure (.part ho)
  exact expect_yields.bind fun _ _ => (condition_yields he).bind fun _ ht => hs.bind fun _ hb =>
    (gather_yields hbranch).bind fun _ hbranches => other_yields fun _ => .other hform <|
      List.forall_mem_cons.2 ⟨.part ht, List.forall_mem_cons.2 ⟨.part hb, hbranches⟩⟩

theorem statementBody_yields :
    Yields W (statementBody expression statement) (Derives W (.statement (levels + 1))) := by
  have hform : (Form.statement (levels + 1)).AdmitsOther := Nat.succ_pos _
  refine current_yields.bind fun _ _ => ?_
  split
  · exact advance_yields.bind fun _ _ => other_yields fun _ => .other hform (by simp)
  · exact advance_yields.bind fun _ _ => other_yields fun _ => .other hform (by simp)
  · exact (block_yields hs).bind fun _ hbody => other_yields fun _ => .other hform (parts_of hbody)
  · exact returnStatement_yields he
  · exact echoStatement_yields he
  · exact conditional_yields he hs
  · exact useStatement_yields
  · exact declareStatement_yields
  · exact following_yields.bind fun _ _ => .ite (fun _ => functionDeclaration_yields hs)
      fun _ => expressionStatement_yields he
  · exact classDeclaration_yields he hs
  · exact modifiedClass_yields he hs
  · exact modifiedClass_yields he hs
  · exact modifiedClass_yields he hs
  · exact .complain
  · exact .complain
  · exact expressionStatement_yields he

end

/-! ## Levels of nesting -/

/-- What the parsers with a number of levels left yield. -/
structure Grammar.IsSound (W : List Char → Prop) (levels : Nat) (g : Grammar) : Prop where
  expression : Yields W g.expression (Derives W (.expression levels))
  statement : Yields W g.statement (Derives W (.statement levels))
  operand : Yields W g.operand (Derives W .part)
  operators : ∀ {top least start left}, Derives W (.operation top levels) left →
    Yields W (g.operators least start left) fun n => ∃ rest, Derives W (.operation top rest) n
  links : ∀ {top start base}, Derives W (.access top levels) base →
    Yields W (g.links start base) fun n => ∃ rest, Derives W (.access top rest) n
  linksOfName : ∀ {c start base}, c.IsSpelled W → IsCallMark c.current.kind → Derives W .name base →
    YieldsOn W c (g.links start base) fun n _ => ∃ rest, Derives W (.access levels rest) n

namespace Grammar

theorem operatorFrom?_yields {least : Nat} : Yields W (operatorFrom? least) Anything := by
  refine current_yields.bind fun _ _ => ?_
  dsimp only
  split
  · exact .pure trivial
  · exact .pure trivial

theorem isPostfix_of_isCallMark {kind : TokenKind} (h : IsCallMark kind) : isPostfix kind := by
  rcases h with rfl | rfl <;> rfl

/-- The node of an assignment. -/
theorem assignment?_yields {kind : TokenKind} {node : Node → Node → Span → Parser Node}
    (h : assignment? kind = some node) {levels left : Nat} {target value : Node} {start : Span}
    (ht : Derives W (.operation levels left) target) (ha : target.isAssignable)
    (hv : Derives W (.expression levels) value) :
    Yields W (node target value start) (Derives W (.expression (levels + 1))) := by
  have hparts : ∀ n ∈ [target, value], Derives W .part n :=
    List.forall_mem_cons.2 ⟨.part ht, List.forall_mem_singleton.2 (.part hv)⟩
  unfold assignment? at h
  split at h
  all_goals cases h
  · exact spanFrom_yields.bind fun _ _ => .pure (.assign ht ha hv)
  · exact spanFrom_yields.bind fun _ _ => .pure (.addAssign ht ha hv)
  all_goals exact other_yields fun _ => .other (Nat.succ_pos _) hparts

/-- The node of an operator after which one level less is left. -/
theorem binaryNode_yields {top levels rest : Nat} {operator : TokenKind} {kind : String}
    {left right : Node} {start : Span} (hl : Derives W (.operation top (levels + 1)) left)
    (hr : Derives W (.operation levels rest) right) :
    Yields W (binaryNode operator kind left right start) (Derives W (.operation top levels)) :=
  .ite (fun _ => spanFrom_yields.bind fun _ _ => .pure (.concat hl hr)) fun _ =>
    other_yields fun _ => .other (Nat.le_of_succ_le hl.isOrdered)
      (List.forall_mem_cons.2 ⟨.part hl, List.forall_mem_singleton.2 (.part hr)⟩)

/-- With no level left only what needs none is read. -/
theorem closed_isSound : closed.IsSound W 0 where
  expression := .tooDeep
  statement := .tooDeep
  operand := .tooDeep
  operators hleft := operatorFrom?_yields.bind fun o _ => by
    cases o with
    | none => exact .pure ⟨_, hleft⟩
    | some o => exact .tooDeep
  links hbase := current_yields.bind fun _ _ => .ite (fun _ => .tooDeep) fun _ => .pure ⟨_, hbase⟩
  linksOfName hc hk _ := .peek <| by
    rw [isPostfix_of_isCallMark hk]
    exact Yields.tooDeep hc

section

variable {g : Grammar} {levels : Nat} (hg : g.IsSound W levels)

include hg

theorem postfixExpression_yields :
    Yields W g.postfixExpression fun n => ∃ left, Derives W (.access levels left) n := by
  refine Yields.chain (current_yields.bind fun t _ => ?_)
  intro c hc n after h
  simp only [Bind.bind, EStateM.bind] at h
  split at h
  · next base between hp =>
    -- A name that is no constant is left for its first link.
    obtain ⟨hb, hbase | ⟨hname, hk⟩⟩ :=
      primary_yieldsOn hg.expression (block_yields hg.statement) hc hp
    · exact hg.links (.ofPrimary hbase) hb h
    · exact hg.linksOfName hb hk hname h
  · cases h

theorem unary_yields : Yields W g.unary (Derives W (.operation levels levels)) := by
  refine current_yields.bind fun t _ => ?_
  split
  · exact advance_yields.bind fun _ _ => hg.operand.bind fun _ hn => other_yields fun _ =>
      .other (Nat.le_refl _) (List.forall_mem_singleton.2 hn)
  · exact (postfixExpression_yields hg).mono fun _ ⟨_, hn⟩ => .ofAccess hn

theorem binary_yields {least : Nat} :
    Yields W (g.binary least) fun n => ∃ left, Derives W (.operation levels left) n :=
  .chain <| current_yields.bind fun _ _ => (unary_yields hg).bind fun _ hn => hg.operators hn

theorem assignment_yields : Yields W g.assignment (Derives W (.expression (levels + 1))) := by
  refine current_yields.bind fun _ _ => (binary_yields hg).bind fun target ⟨_, ht⟩ =>
    current_yields.bind fun _ _ => ?_
  split
  · next node hnode =>
    exact .guard fun ha => advance_yields.bind fun _ _ => hg.expression.bind fun _ hv =>
      assignment?_yields hnode ht (by simpa using ha) hv
  · exact .pure (.ofOperation ht)

/-- The links after a first one, which is counted before it is read. -/
theorem links_yieldsOn {c : Cursor} {top : Nat} {start : Span} {first : Parser Node}
    (h : YieldsOn W { c with depth := c.depth + 1 } first
      fun n _ => Derives W (.access top levels) n) :
    YieldsOn W c (link >>= fun _ => first >>= g.links start) fun n _ =>
      ∃ rest, Derives W (.access top rest) n := by
  intro n after hn
  simp only [Bind.bind, EStateM.bind, link] at hn
  split at hn
  · next linked between hl =>
    obtain ⟨hb, hlinked⟩ := h hl
    exact hg.links hlinked hb hn
  · cases hn

/-- One level more is sound when the levels before it are. -/
theorem deeper_isSound : g.deeper.IsSound W (levels + 1) where
  expression := .within (assignment_yields hg)
  statement := .within (statementBody_yields hg.expression hg.statement)
  operand := .within ((unary_yields hg).mono fun _ => .part)
  operators hleft := operatorFrom?_yields.bind fun o _ => by
    cases o with
    | none => exact .pure ⟨_, hleft⟩
    | some o =>
      exact link_yields.bind fun _ _ => advance_yields.bind fun _ _ =>
        (binary_yields hg).bind fun _ ⟨_, hr⟩ => (binaryNode_yields hleft hr).bind
          fun _ hn => hg.operators hn
  links {top start base} hbase := .peek fun c hc => by
    split
    · next hk =>
      exact links_yieldsOn hg (postfixLink_yieldsOn hg.expression hc hk hbase)
    · exact Yields.pure ⟨_, hbase⟩ hc
  linksOfName {c start base} hc hk hbase := .peek <| by
    rw [isPostfix_of_isCallMark hk, if_pos rfl]
    exact links_yieldsOn hg (postfixLink_yieldsOn_name hg.expression hc hk hbase)

end

theorem ofLevels_isSound (levels : Nat) : (ofLevels levels).IsSound W levels := by
  induction levels with
  | zero => exact closed_isSound
  | succ levels ih => exact deeper_isSound ih

end Grammar

/-! ## Programs -/

/-- A statement of a program; the cursor may stand deeper than at its start. -/
theorem statement_yields : Yields W statement (Derives W .programStatement) :=
  fun c hc _ _ h =>
    ((Grammar.ofLevels_isSound (maxDepth - c.depth)).statement hc h).imp_right
      (.programStatement (Nat.sub_le _ _))

theorem namespaceBody_yields {label : Option Node} :
    Yields W (namespaceBody label) fun body => ∀ n ∈ body, Derives W .programStatement n := by
  have hstep : Yields W statementInNamespace
      (Round.Brings fun slot => ∀ n ∈ slot, Derives W .programStatement n) :=
    isAt_yields.bind fun _ _ => isAt_yields.bind fun _ _ => .ite (fun _ => .pure trivial)
      fun _ => accept_yields.bind fun _ _ => .ite (fun _ => .pure (by simp [Round.Brings]))
        fun _ => statement_yields.bind fun _ hn => .pure (by simpa [Round.Brings] using hn)
  exact accept_yields.bind fun _ _ => .ite (fun _ => statementsUntil_yields statement_yields)
    fun _ => .guard fun _ => terminator_yields.bind fun _ _ =>
      (gather_yields hstep).bind fun _ hslots => .pure (filterMap_forall hslots)

theorem namespaceBlock_yields : Yields W namespaceBlock (Derives W .topLevel) :=
  expect_yields.bind fun _ _ => isAt_yields.bind fun _ _ => .ite
    (fun _ => namespaceBody_yields.bind fun _ hbody => spanFrom_yields.bind fun _ _ =>
      .pure (.namespaceBlock (by simp) hbody))
    fun _ => name_yields.optional.bind fun _ hlabel => namespaceBody_yields.bind fun _ hbody =>
      spanFrom_yields.bind fun _ _ => .pure (.namespaceBlock hlabel hbody)

theorem program_yields : Yields W program fun nodes => ∀ n ∈ nodes, Derives W .topLevel n := by
  have hstep : Yields W topLevel (Round.Brings fun slot => ∀ n ∈ slot, Derives W .topLevel n) :=
    isAt_yields.bind fun _ _ => .ite (fun _ => .pure trivial) fun _ =>
      accept_yields.bind fun _ _ => .ite (fun _ => .pure (by simp [Round.Brings])) fun _ =>
        isAt_yields.bind fun _ _ => .ite
          (fun _ => namespaceBlock_yields.bind fun _ hn => .pure (by simpa [Round.Brings] using hn))
          fun _ => statement_yields.bind fun _ hn =>
            .pure (by simpa [Round.Brings] using .topStatement hn)
  exact (gather_yields hstep).bind fun _ hslots => .pure (filterMap_forall hslots)

/-- Every statement and namespace of a source text is derived, over the names that its
    tokens are spelled with. -/
theorem source_derives_of_scan {text : String} {tokens : List Token} {nodes : List Node}
    (hscan : Token.scan text = .ok tokens) (htokens : ∀ t ∈ tokens, t.IsSpelled W)
    (h : source text = .ok nodes) : ∀ n ∈ nodes, Derives W .topLevel n := by
  unfold source start at h
  have hc : Cursor.IsSpelled W { rest := tokens } := htokens
  simp only [hscan, bind, Except.bind, resume] at h
  split at h
  · next hp =>
    cases h
    exact (program_yields hc hp).2
  · cases h

theorem exists_scan_of_source {text : String} {nodes : List Node} (h : source text = .ok nodes) :
    ∃ tokens, Token.scan text = .ok tokens := by
  unfold source start at h
  cases hscan : Token.scan text with
  | error e => rw [hscan] at h; cases h
  | ok tokens => exact ⟨tokens, rfl⟩

/-- What a source text is read as is derived, whatever names its tokens show. -/
theorem source_derives_any {text : String} {nodes : List Node} (h : source text = .ok nodes) :
    ∀ n ∈ nodes, Derives (fun _ => True) .topLevel n := by
  obtain ⟨tokens, hscan⟩ := exists_scan_of_source h
  exact source_derives_of_scan hscan
    (fun t _ => t.isSpelled_of_forall fun _ => trivial) h

/-- What a source text is read as is derived over words, when its offsets fit into spans. -/
theorem source_derives {text : String} {nodes : List Node}
    (hsize : text.utf8ByteSize ≤ Span.limit) (h : source text = .ok nodes) :
    ∀ n ∈ nodes, Derives (isWord ·) .topLevel n := by
  obtain ⟨tokens, hscan⟩ := exists_scan_of_source h
  exact source_derives_of_scan hscan (Token.scan_isSpelled hsize hscan) h

end PhpScript.Parse
