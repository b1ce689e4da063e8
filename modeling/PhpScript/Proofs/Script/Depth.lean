import Mathlib.Tactic.Ring
import PhpScript.Proofs.Parse.RoundTrip
import PhpScript.Proofs.Parse.Soundness
import PhpScript.Proofs.Script.Bare
import PhpScript.Proofs.Script.Outcome

/-!
# How deep parsed programs go

Parsing goes at most `Parse.maxDepth` levels deep and emitting at most
`Emit.maxDepth`, but they do not count the same levels. A level of parsing can
hold a whole chain of accesses and then a chain of operators, each link of which
is a level of the tree, and its first part has all levels of the chain for
itself. So the levels of a parsed tree are bounded by the square of those of
parsing (`Derives.levels_le`), and emitting can fail on one of them
(`emission_tooDeep_iff`).
-/

namespace PhpScript

open Parse

/-! ## The levels of a form -/

namespace Survey

theorem levels_andThen_lt {s t : Survey} {m : Nat} (hs : s.levels < m) (ht : t.levels < m) :
    (s.andThen t).levels < m := by
  unfold andThen
  split
  · exact Nat.max_lt.2 ⟨hs, ht⟩
  · exact hs

end Survey

namespace Node

theorem levels_surveyMember_le (n : Node) : n.surveyMember.levels ≤ 1 := by
  unfold surveyMember
  split
  · exact Nat.le_refl _
  · exact Nat.zero_le _

theorem levels_surveyName (parts : List String) (fullyQualified : Bool) :
    (surveyName parts fullyQualified).levels = 0 := by
  unfold surveyName
  split <;> rfl

theorem levels_surveyList_lt {nodes : List Node} {m : Nat} (hm : 0 < m)
    (h : ∀ n ∈ nodes, n.survey.levels < m) : (surveyList nodes).levels < m := by
  induction nodes with
  | nil => exact hm
  | cons n nodes ih =>
    rw [List.forall_mem_cons] at h
    rw [surveyList]
    exact Survey.levels_andThen_lt h.1 (ih h.2)

theorem levels_surveySlots_lt {slots : List (Option Node)} {m : Nat} (hm : 0 < m)
    (h : ∀ slot ∈ slots, ∀ n ∈ slot, n.survey.levels < m) : (surveySlots slots).levels < m := by
  induction slots with
  | nil => exact hm
  | cons slot slots ih =>
    rw [List.forall_mem_cons] at h
    cases slot with
    | none => exact ih h.2
    | some n => exact Survey.levels_andThen_lt (h.1 n rfl) (ih h.2)

end Node

namespace Parse

/-- The levels of a tree for each number of levels that are left for an expression. -/
def reach (levels : Nat) : Nat := (levels + 1) ^ 2

theorem reach_succ (levels : Nat) : reach (levels + 1) = reach levels + 2 * levels + 3 := by
  unfold reach
  ring

theorem reach_mono {m n : Nat} (h : m ≤ n) : reach m ≤ reach n :=
  Nat.pow_le_pow_left (Nat.succ_le_succ h) 2

theorem reach_pos (levels : Nat) : 0 < reach levels := Nat.pow_pos levels.succ_pos

/-- How many levels a tree of a form has at most. The parts of a construct
    without a rule are not visited. -/
@[simp] def Form.height : Form → Nat
  | topLevel => maxDepth ^ 2 + 4
  | programStatement => maxDepth ^ 2 + 3
  | statement 0 => 0
  | statement (levels + 1) => reach levels + 3
  | classMember levels => reach levels + 2
  | propertyItem levels | argument levels | item levels => reach levels + 1
  | expression levels | memberName levels | constructed levels => reach levels
  | operation levels left => reach levels + 2 + levels + (levels - left)
  | access levels left => reach levels + 2 + (levels - left)
  | primary levels => reach levels + 2
  | parameter => 2
  | var | label | name => 1
  | part => 0

theorem Form.height_statement_le (levels : Nat) : (statement levels).height ≤ reach levels + 1 := by
  cases levels with
  | zero => exact Nat.zero_le _
  | succ levels =>
    have := reach_succ levels
    simp only [Form.height]
    omega

theorem Form.height_pos {form : Form} (h : form.AdmitsOther) : 0 < form.height := by
  cases form with
  | statement levels =>
    cases levels with
    | zero => exact absurd h (Nat.lt_irrefl 0)
    | succ levels => exact Nat.succ_pos _
  | expression levels => exact reach_pos levels
  | operation levels left | access levels left =>
    simp only [Form.height]
    omega
  | classMember levels | primary levels => exact Nat.succ_pos _
  | _ => exact h.elim

/-- Each link of a chain is a level more, and what is in the link has the levels
    that are left for it. -/
theorem Form.levels_link_lt {levels left : Nat} {base inside : Survey} (h : left + 1 ≤ levels)
    (hbase : base.levels ≤ (access levels (left + 1)).height)
    (hinside : inside.levels < reach left + 2) :
    (base.andThen inside).levels < (access levels left).height := by
  have := reach_mono (Nat.le_of_succ_le h)
  simp only [Form.height] at hbase ⊢
  exact Survey.levels_andThen_lt (by omega) (by omega)

/-- A level that is entered allows for the two chains that it may hold. -/
theorem Form.levels_operation_lt {levels left : Nat} {n : Survey}
    (h : n.levels ≤ (operation levels left).height) :
    n.levels < (expression (levels + 1)).height := by
  have := reach_succ levels
  simp only [Form.height] at h ⊢
  omega

theorem Form.levels_assign_lt {levels left : Nat} {target value : Survey}
    (htarget : target.levels ≤ (operation levels left).height)
    (hvalue : value.levels ≤ (expression levels).height) :
    (target.andThen value).levels < (expression (levels + 1)).height := by
  refine Survey.levels_andThen_lt (levels_operation_lt htarget) (Nat.lt_of_le_of_lt hvalue ?_)
  have := reach_succ levels
  simp only [Form.height]
  omega

/-- The right operand has only the levels that the chain has left. -/
theorem Form.levels_concat_lt {levels left rest : Nat} {l r : Survey} (h : left + 1 ≤ levels)
    (hl : l.levels ≤ (operation levels (left + 1)).height)
    (hr : r.levels ≤ (operation left rest).height) :
    (l.andThen r).levels < (operation levels left).height := by
  have := reach_succ left
  have := reach_mono h
  simp only [Form.height] at hl hr ⊢
  exact Survey.levels_andThen_lt (by omega) (by omega)

/-- The arguments of a call. -/
theorem Form.levels_arguments_lt {levels : Nat} {args : List Node}
    (h : ∀ a ∈ args, a.survey.levels ≤ (argument levels).height) :
    (Node.surveyList args).levels < reach levels + 2 :=
  Node.levels_surveyList_lt (Nat.succ_pos _) fun a ha => Nat.lt_succ_of_le (h a ha)

/-- The parameters of a function. -/
theorem Form.levels_parameters_lt {levels : Nat} {params : List Node}
    (h : ∀ p ∈ params, p.survey.levels ≤ parameter.height) :
    (Node.surveyList params).levels < reach levels + 2 := by
  have := reach_pos levels
  refine Node.levels_surveyList_lt (Nat.succ_pos _) fun p hp => Nat.lt_of_le_of_lt (h p hp) ?_
  simp only [Form.height]
  omega

/-- The statements of a function. -/
theorem Form.levels_statements_lt {levels : Nat} {body : List Node}
    (h : ∀ n ∈ body, n.survey.levels ≤ (statement levels).height) :
    (Node.surveyList body).levels < reach levels + 2 :=
  Node.levels_surveyList_lt (Nat.succ_pos _) fun n hn =>
    Nat.lt_succ_of_le (Nat.le_trans (h n hn) (height_statement_le levels))

/-- A statement of a program has no more levels left than parsing has in all. -/
theorem Form.height_statement_le_program {levels : Nat} (h : levels ≤ maxDepth) :
    (statement levels).height ≤ programStatement.height := by
  cases levels with
  | zero => exact Nat.zero_le _
  | succ levels => exact Nat.add_le_add_right (reach_mono (Nat.le_of_succ_le_succ h)) 3

/-! ### Nodes with parts that can be absent -/

section

variable {levels : Nat} {name : Node} {s : Span}

theorem Form.levels_classDecl_le {members : List Node} (hname : name.survey.levels ≤ label.height)
    (h : ∀ m ∈ members, m.survey.levels ≤ (classMember levels).height) :
    (Node.classDecl (some name) none members s).survey.levels ≤
      (statement (levels + 1)).height := by
  have hmembers : (Node.surveyList members).levels < reach levels + 3 :=
    Node.levels_surveyList_lt (Nat.succ_pos _) fun m hm => Nat.lt_succ_of_le (h m hm)
  exact Survey.levels_andThen_lt (Nat.lt_of_le_of_lt hname (by simp [Form.height])) hmembers

theorem Form.levels_method_le {flags : Modifiers} {params : List Node} {body : Option (List Node)}
    (hname : name.survey.levels ≤ label.height)
    (hparams : ∀ p ∈ params, p.survey.levels ≤ parameter.height)
    (hbody : ∀ b ∈ body, ∀ n ∈ b, n.survey.levels ≤ (statement levels).height) :
    (Node.method flags name params body s).survey.levels ≤ (classMember levels).height := by
  have hname : name.survey.levels < reach levels + 2 :=
    Nat.lt_of_le_of_lt hname (by simp [Form.height])
  have hparams : (Node.surveyList params).levels < reach levels + 2 :=
    levels_parameters_lt hparams
  cases body with
  | none => exact Survey.levels_andThen_lt hname hparams
  | some body =>
    have hbody := levels_statements_lt (hbody body rfl)
    exact Survey.levels_andThen_lt hname (Survey.levels_andThen_lt hparams hbody)

theorem Form.levels_propertyItem_le {initial : Option Node}
    (hname : name.survey.levels ≤ label.height)
    (h : ∀ v ∈ initial, v.survey.levels ≤ (expression levels).height) :
    (Node.propertyItem name initial s).survey.levels ≤ (propertyItem levels).height := by
  have hpos := reach_pos levels
  have hname : name.survey.levels < reach levels + 1 :=
    Nat.lt_of_le_of_lt hname (by simp only [Form.height]; omega)
  cases initial with
  | none => exact hname
  | some v => exact Survey.levels_andThen_lt hname (Nat.lt_succ_of_le (h v rfl))

theorem Form.levels_index_le {left : Nat} {base : Node} {key : Option Node} (h : left + 1 ≤ levels)
    (hbase : base.survey.levels ≤ (access levels (left + 1)).height)
    (hkey : ∀ k ∈ key, k.survey.levels ≤ (expression left).height) :
    (Node.index base key s).survey.levels ≤ (access levels left).height := by
  cases key with
  | none =>
    have hpos : 1 ≤ (access levels left).height := by
      simp only [Form.height]
      omega
    exact hpos
  | some key =>
    have hkey : key.survey.levels < reach left + 2 :=
      Nat.lt_add_right 1 (Nat.lt_succ_of_le (hkey key rfl))
    exact levels_link_lt h hbase hkey

theorem Form.levels_arrayItem_le {key : Option Node} {value : Node}
    (hkey : ∀ k ∈ key, k.survey.levels ≤ (expression levels).height)
    (hvalue : value.survey.levels ≤ (expression levels).height) :
    (Node.arrayItem key value s).survey.levels ≤ (item levels).height := by
  cases key with
  | none => exact Nat.succ_le_succ hvalue
  | some key =>
    exact Survey.levels_andThen_lt (Nat.lt_succ_of_le hvalue) (Nat.lt_succ_of_le (hkey key rfl))

end

/-! ### Derived trees -/

/-- A derived tree has no more levels than its form allows. -/
theorem Derives.levels_le {W : List Char → Prop} {form : Form} {n : Node} (h : Derives W form n)
    (hform : form ≠ .part) : n.survey.levels ≤ form.height := by
  induction h with
  | part => exact absurd rfl hform
  | programStatement hlevels h ih =>
    exact Nat.le_trans (ih (by simp)) (Form.height_statement_le_program hlevels)
  | topStatement h ih => exact Nat.le_succ_of_le (ih (by simp))
  | namespaceBlock hlabel hbody ihl ih =>
    exact Node.levels_surveyList_lt (Nat.succ_pos _)
      fun n hn => Nat.lt_succ_of_le (ih n hn (by simp))
  | expressionStatement h ih =>
    exact Nat.le_trans (Nat.succ_le_succ (ih (by simp))) (by simp [Form.height])
  | @returns levels value s h ih =>
    cases value with
    | none => exact Nat.succ_le_succ (Nat.zero_le _)
    | some v => exact Nat.le_trans (Nat.succ_le_succ (ih v rfl (by simp))) (by simp [Form.height])
  | classDecl hname hmembers ihname ih =>
    exact Form.levels_classDecl_le (ihname (by simp)) fun m hm => ih m hm (by simp)
  | @property levels flags items s hflags hne hitems ih =>
    exact Node.levels_surveyList_lt (Nat.succ_pos _)
      fun n hn => Nat.lt_succ_of_le (ih n hn (by simp))
  | method hname hparams hbody ihname ihparams ihbody =>
    exact Form.levels_method_le (ihname (by simp)) (fun p hp => ihparams p hp (by simp))
      fun b hb n hn => ihbody b hb n hn (by simp)
  | propertyItem hname hinitial ihname ih =>
    exact Form.levels_propertyItem_le (ihname (by simp)) fun v hv => ih v hv (by simp)
  | ofOperation h ih => exact Nat.le_of_lt (Form.levels_operation_lt (ih (by simp)))
  | assign ht _ hv iht ihv | addAssign ht _ hv iht ihv =>
    exact Form.levels_assign_lt (iht (by simp)) (ihv (by simp))
  | @ofAccess levels left n h ih =>
    have ih := ih (by simp)
    simp only [Form.height] at ih ⊢
    omega
  | concat hl hr ihl ihr =>
    exact Form.levels_concat_lt hl.isOrdered (ihl (by simp)) (ihr (by simp))
  | ofPrimary h ih => exact Nat.le_trans (ih (by simp)) (by simp [Form.height])
  | @methodCall levels left base label args s hbase hl hargs ihb ihl iha =>
    have hl := label.levels_surveyMember_le
    have hargs := Form.levels_arguments_lt fun a ha => iha a ha (by simp)
    exact Form.levels_link_lt hbase.isOrdered (ihb (by simp))
      (Survey.levels_andThen_lt (by omega) hargs)
  | @member levels left base label s hbase hl ihb ihl =>
    have hl := label.levels_surveyMember_le
    exact Form.levels_link_lt hbase.isOrdered (ihb (by simp)) (by omega)
  | index hbase hkey ihb ihk =>
    exact Form.levels_index_le hbase.isOrdered (ihb (by simp)) fun k hk => ihk k hk (by simp)
  | @call levels left callee args s hbase hargs ihb iha =>
    exact Form.levels_link_lt hbase.isOrdered (ihb (by simp))
      (Form.levels_arguments_lt fun a ha => iha a ha (by simp))
  | @callByName left callee args s hname hargs ihn iha =>
    have hname : callee.survey.levels ≤ (Form.access (left + 1) (left + 1)).height :=
      Nat.le_trans (ihn (by simp)) (by simp [Form.height])
    exact Form.levels_link_lt (Nat.le_refl _) hname
      (Form.levels_arguments_lt fun a ha => iha a ha (by simp))
  | ofVariable h ih => exact Nat.le_trans (ih (by simp)) (by simp [Form.height])
  | integer | float | string => exact Nat.succ_le_succ (Nat.zero_le _)
  | constant h ih =>
    exact Nat.le_trans (Nat.succ_le_succ (ih (by simp))) (by simp [Form.height])
  | array hslots ih =>
    exact Node.levels_surveySlots_lt (Nat.succ_pos _) fun slot hslot i hi =>
      Nat.lt_succ_of_le (ih slot hslot i hi (by simp))
  | group h ih => exact Nat.le_trans (ih (by simp)) (by simp [Form.height])
  | construct hcls hargs ihc iha =>
    exact Survey.levels_andThen_lt (Nat.lt_of_le_of_lt (ihc (by simp)) (by simp [Form.height]))
      (Form.levels_arguments_lt fun a ha => iha a ha (by simp))
  | @arrowFunction levels params body s hps hbody ihps ihbody =>
    have hbody : body.survey.levels < reach levels + 2 :=
      Nat.lt_of_le_of_lt (ihbody (by simp)) (by simp [Form.height])
    exact Survey.levels_andThen_lt
      (Form.levels_parameters_lt fun p hp => ihps p hp (by simp)) hbody
  | @closure levels params uses body s hps hus hbody ihps ihus ihbody =>
    -- The variables that it binds are not visited.
    exact Survey.levels_andThen_lt
      (Form.levels_parameters_lt fun p hp => ihps p hp (by simp))
      (Form.levels_statements_lt fun n hn => ihbody n hn (by simp))
  | argument h ih => exact Nat.succ_le_succ (ih (by simp))
  | item hkey hvalue ihk ihv =>
    exact Form.levels_arrayItem_le (fun k hk => ihk k hk (by simp)) (ihv (by simp))
  | memberByLabel h ih | memberByVariable h ih | constructedByName h ih
  | constructedByVariable h ih => exact Nat.le_trans (ih (by simp)) (reach_pos _)
  | memberByExpression h ih | constructedByExpression h ih => exact ih (by simp)
  | parameter h ih => exact Nat.succ_le_succ (ih (by simp))
  | var | label => exact Nat.le_refl _
  | @name parts fullyQualified s =>
    exact Nat.succ_le_succ (Nat.le_of_eq (Node.levels_surveyName parts fullyQualified))
  | other hother => exact Form.height_pos hother

end Parse

/-- On a parsed program emitting fails for its depth exactly if the levels of the
    program are too many, and there can be as many as the square of those of
    parsing, up to a few. -/
theorem emission_tooDeep_iff {text : String} {nodes : List Node}
    (h : Parse.source text = .ok nodes) :
    ((∃ span, Script.ofNodes nodes = .error (.tooDeep span)) ↔
      Emit.maxDepth < (Node.surveyList nodes).levels) ∧
    (Node.surveyList nodes).levels ≤ Parse.maxDepth ^ 2 + 4 := by
  refine ⟨Script.ofNodes_tooDeep_iff, Nat.le_of_lt_succ ?_⟩
  exact Node.levels_surveyList_lt (Nat.succ_pos _) fun n hn =>
    Nat.lt_succ_of_le ((source_derives_any h n hn).levels_le (by simp))

/-! ## A program that is parsed and not emitted -/

open Written Piece Grammar

/-- Arrays in each other, and a function with a parameter in the innermost. -/
def nested : Nat → Term
  | 0 => .closure [⟨"x", rfl⟩] [] []
  | n + 1 => .array [.item (nested n)]

theorem levels_nested (n : Nat) : (nested n).levels = n := by
  induction n with
  | zero => rfl
  | succ n ih => simp [nested, slotLevels, ih]

/-- An array and its item are two levels of the tree, but one of parsing. -/
theorem survey_nested (n : Nat) : (nested n).node.survey = ⟨2 * n + 3, true⟩ := by
  induction n with
  | zero => rfl
  | succ n ih =>
    have hsurvey : (nested (n + 1)).node.survey =
        ((nested n).node.survey.deeper.andThen .done).deeper := by
      simp [nested, Node.survey, Node.surveySlots]
    rw [hsurvey, ih, Survey.andThen_done]
    exact Survey.ext (by simp; omega) rfl

theorem isPlain_dot : Symbol.dot.isPlain := rfl

/-- Arrays in each other, and a variable concatenated to them. -/
def deepPieces (n : Nat) : List Piece :=
  (nested (n + 1)).pieces ++ [blank, mark .dot isPlain_dot, blank, .sign (.var ⟨"a", isWord_a⟩)]

/-- The text of the program. -/
def deepText (n : Nat) : String := programText (deepPieces n)

theorem byteLength_nested (n : Nat) :
    Text.byteLength ((nested n).pieces.flatMap Piece.text) = 3 * n + 16 := by
  induction n with
  | zero => rfl
  | succ n ih =>
    have hpieces : (nested (n + 1)).pieces =
        mark .openBracket :: ((nested n).pieces ++ [mark .comma, mark .closeBracket]) := by
      simp [nested]
    have hmarks : Text.byteLength ([mark .comma, mark .closeBracket].flatMap Piece.text) = 2 := rfl
    have hopen : Text.byteLength (mark .openBracket).text = 1 := rfl
    rw [hpieces, List.flatMap_cons, List.flatMap_append, Text.byteLength_append,
      Text.byteLength_append, hmarks, hopen, ih]
    omega

/-- The operator is counted only after the arrays, so they have all levels left. -/
theorem deepPieces_reads (n L : Nat) :
    Reads (ofLevels L).expression (words (deepPieces n)) (isClosing ·) (n + 1 + 1 ≤ L)
      fun e => e.bare = .concat (nested (n + 1)).node (.var "a" .unknown) .unknown := by
  have hleft : ∀ L, Reads (ofLevels L).postfixExpression (nested (n + 1)).words (isEnding ·)
      (n + 1 ≤ L) fun e => e.bare = (nested (n + 1)).node := by
    intro L
    refine operand_of_primary (fun _ => isPostfix_of_isEnding) ?_
    refine ((array_reads fun _ _ x _ => x.isRead).before fun _ _ => trivial).congr ?_
    simp [slotLevels, levels_nested]
  have hright : ∀ L, Reads (ofLevels L).postfixExpression (words [.sign (.var ⟨"a", rfl⟩)])
      (isEnding ·) (0 ≤ L) fun e => e.bare = .var "a" .unknown :=
    fun L => Place.operand_reads (p := .var ⟨"a", rfl⟩) (by simp [Place.parts])
  rw [deepPieces, words_append]
  exact (concat_reads (fun _ => rfl) (fun _ => rfl) hleft hright).congr (by omega)

theorem deepText_parsed {n : Nat} (hn : n + 3 ≤ Parse.maxDepth)
    (hsize : (deepText n).utf8ByteSize ≤ Span.limit) :
    ∃ nodes, Parse.source (deepText n) = .ok nodes ∧
      (Node.surveyList nodes).levels = 2 * n + 7 := by
  have hchain : (deepPieces n).IsChain Fits := by
    rw [deepPieces, isChain_append_blank, isChain_sign_blank]
    exact ⟨(nested (n + 1)).isChain, List.isChain_singleton _⟩
  have hbegins : BeginsAsTerm (words (deepPieces n)) :=
    ⟨fun _ => rfl, fun _ _ h => by cases h⟩
  rcases source_reads hchain hbegins (deepPieces_reads n) hsize with
    ⟨-, e, span, hsource, he⟩ | ⟨hdeep, -⟩
  · refine ⟨_, hsource, ?_⟩
    -- The operator adds a level to those of the arrays, and the statement one more.
    have hsurvey : e.survey = ⟨2 * n + 6, true⟩ := by
      rw [← Node.survey_bare, he, Node.survey, survey_nested]
      rfl
    rw [Node.surveyList, Node.surveyList, Survey.andThen_done, Node.survey, hsurvey]
    rfl
  · omega

theorem size_deepText : (deepText 253).utf8ByteSize ≤ Span.limit := by
  rw [deepText, size_programText, deepPieces, List.flatMap_append, Text.byteLength_append,
    byteLength_nested]
  decide

theorem deepText_emission_tooDeep :
    ∃ nodes, Parse.source (deepText 253) = .ok nodes ∧
      ∃ span, Script.ofNodes nodes = .error (.tooDeep span) := by
  obtain ⟨nodes, hnodes, hlevels⟩ := deepText_parsed (n := 253) (by decide) size_deepText
  refine ⟨nodes, hnodes, (emission_tooDeep_iff hnodes).1.2 ?_⟩
  rw [hlevels]
  decide

/-- Not everything that is parsed goes to an end when it is emitted. -/
theorem not_never_emission_tooDeep :
    ¬∀ text nodes, Parse.source text = .ok nodes →
      ∀ span, Script.ofNodes nodes ≠ .error (.tooDeep span) := by
  intro h
  obtain ⟨nodes, hnodes, hlevels⟩ := deepText_parsed (n := 253) (by decide) size_deepText
  have hdeep : Emit.maxDepth < (Node.surveyList nodes).levels := by
    rw [hlevels]
    decide
  obtain ⟨span, hspan⟩ := Script.ofNodes_tooDeep_iff.2 hdeep
  exact h (deepText 253) nodes hnodes span hspan

end PhpScript
