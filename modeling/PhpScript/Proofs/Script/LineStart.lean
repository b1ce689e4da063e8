import PhpScript.Proofs.Parse.Occurrence
import PhpScript.Proofs.Script.Outcome

/-!
# How statements begin

Statements stand on lines of their own, without semicolons between them. A line
that begins with an opening parenthesis or bracket goes on with the expression
on the line before it, so it matters how the script of a statement begins. It
begins as its leftmost leaf does, which `Node.opens` finds.

* `Parse.Derives.begins`: the script of a derived statement or expression begins
  with such a mark exactly when its leftmost leaf is an object construction, an
  array or an arrow function;
* `runsTogether_iff`: which neighbours run together, in any list of statements of
  any source text that is converted.
-/

namespace PhpScript

/-! ## First characters -/

/-- Whether a line that begins with this character goes on with the line before. -/
def isOpening (c : Char) : Bool := c == '(' || c == '['

/-- Whether a text begins with an opening character. -/
def startsOpening (x : String) : Bool := x.toList.head?.any isOpening

/-- The text has a first character, which is an opening one or not. -/
def BeginsAs (x : String) (opening : Bool) : Prop :=
  ∃ c, x.toList.head? = some c ∧ isOpening c = opening

namespace BeginsAs

variable {x y : String} {opening : Bool}

theorem startsOpening_eq (h : BeginsAs x opening) : startsOpening x = opening := by
  obtain ⟨c, hc, ho⟩ := h
  simp [startsOpening, hc, ho]

theorem append (h : BeginsAs x opening) : BeginsAs (x ++ y) opening := by
  obtain ⟨c, hc, ho⟩ := h
  exact ⟨c, by simp [hc], ho⟩

theorem of_isWord (h : isWord x.toList) : BeginsAs x false := by
  cases hx : x.toList with
  | nil => simp [hx, isWord] at h
  | cons c cs =>
    simp only [hx, isWord, Bool.and_eq_true] at h
    refine ⟨c, by simp [hx], ?_⟩
    rw [isOpening, Bool.or_eq_false_iff, beq_eq_false_iff_ne, beq_eq_false_iff_ne]
    constructor <;> rintro rfl <;> cases h.1

theorem of_isDigit {cs : List Char} (hne : cs ≠ []) (h : ∀ c ∈ cs, c.isDigit) :
    BeginsAs (String.ofList cs) false := by
  cases cs with
  | nil => exact absurd rfl hne
  | cons c cs =>
    refine ⟨c, by simp, ?_⟩
    have hc := h c List.mem_cons_self
    rw [isOpening, Bool.or_eq_false_iff, beq_eq_false_iff_ne, beq_eq_false_iff_ne]
    constructor <;> rintro rfl <;> cases hc

end BeginsAs

theorem Emit.join_begins {separator x : String} {xs : List String} {opening : Bool}
    (h : BeginsAs x opening) : BeginsAs (Emit.join separator (x :: xs)) opening := by
  cases xs with
  | nil => simpa [Emit.join] using h
  | cons y ys =>
    rw [Emit.join, String.intercalate_cons_cons]
    exact h.append.append

/-! ## Literals -/

theorem isDigit_toDigits {n : Nat} : ∀ c ∈ Nat.toDigits 10 n, c.isDigit :=
  fun _ => Nat.isDigit_of_mem_toDigits (by decide) (by decide)

theorem Script.integer_begins (n : Int) : BeginsAs (Script.integer n) false := by
  unfold Script.integer
  split
  · exact BeginsAs.append ⟨'-', rfl, rfl⟩
  · rw [String.empty_append]
    exact .of_isDigit Nat.toDigits_ne_nil isDigit_toDigits

theorem NumberNotation.writePositional_begins (f : NumberNotation) {digits : List Char}
    {point : Int} (hne : digits ≠ []) (hd : ∀ c ∈ digits, c.isDigit) :
    BeginsAs (f.writePositional digits point) false := by
  unfold writePositional
  split
  · exact (BeginsAs.append ⟨'0', rfl, rfl⟩).append
  · next hpoint =>
    split
    · exact (BeginsAs.of_isDigit hne hd).append.append
    · refine (BeginsAs.of_isDigit ?_ fun c hc => hd c (List.mem_of_mem_take hc)).append.append
      rw [Ne, List.take_eq_nil_iff, not_or]
      exact ⟨by omega, hne⟩

theorem Script.float_begins (x : Double) : BeginsAs (Script.float x) false := by
  unfold Script.float
  split
  · exact ⟨'N', rfl, rfl⟩
  · split
    · split
      · exact ⟨'-', rfl, rfl⟩
      · exact ⟨'I', rfl, rfl⟩
    · have hsign (y : String) (hy : BeginsAs y false) :
          BeginsAs ((if x.isNegative then "-" else "") ++ y) false := by
        split
        · exact BeginsAs.append ⟨'-', rfl, rfl⟩
        · rwa [String.empty_append]
      unfold NumberNotation.write
      simp only [numberFormat, if_true]
      split
      · rw [String.append_assoc]
        exact hsign _ ⟨'0', rfl, rfl⟩
      · exact hsign _ (NumberNotation.writePositional_begins _ Nat.toDigits_ne_nil isDigit_toDigits)

theorem Script.quote_begins (value : String) : BeginsAs (Script.quote value) false :=
  ⟨'\'', by simp [Script.quote], rfl⟩

/-! ## Leftmost leaves -/

namespace Node

/-- Whether the leftmost leaf of a node is written with an opening character first. -/
def opens : Node → Bool
  | expression expr _ => opens expr
  | namespaceBlock _ (first :: _) _ => opens first
  | methodCall base _ _ _ | functionCall base _ _ | index base _ _ | member base _ _
  | assign base _ _ | addAssign base _ _ | concat base _ _ | constant base _ => opens base
  | arrowFunction .. | construct .. | array .. => true
  | _ => false

/-- Whether the script of a statement ends with an expression that a next line
    could go on with. -/
def endsExpression : Node → Bool
  | expression .. | returns (some _) _ => true
  | _ => false

end Node

namespace Parse

/-- The forms of statements and of what they can begin with. -/
def Form.Leads : Form → Prop
  | programStatement | statement _ | expression _ | operation _ _ | access _ _ | primary _ | name
  | var => True
  | _ => False

/-- A statement or expression that is emitted begins as its leftmost leaf says. -/
theorem Derives.begins {form : Form} {n : Node} (h : Derives (isWord ·) form n) (hform : form.Leads)
    (hc : n.survey.complete) : BeginsAs n.script n.opens := by
  induction h with
  | programStatement _ _ ih | ofOperation _ ih | ofAccess _ ih | ofPrimary _ ih | ofVariable _ ih
  | group _ ih => exact ih trivial hc
  -- A left part, with more after it.
  | expressionStatement _ ih | constant _ ih => exact ih trivial hc
  | assign _ _ _ ih | addAssign _ _ _ ih | concat _ _ ih | member _ _ ih =>
    simp only [Node.survey, Survey.complete_deeper, Survey.complete_andThen, Bool.and_eq_true] at hc
    simp only [Node.script, Node.opens]
    exact (ih trivial hc.1).append.append
  | call _ _ ih | callByName _ _ ih =>
    simp only [Node.survey, Survey.complete_deeper, Survey.complete_andThen, Bool.and_eq_true] at hc
    simp only [Node.script, Node.opens]
    exact (ih trivial hc.1).append
  | methodCall _ _ _ ih =>
    simp only [Node.survey, Survey.complete_deeper, Survey.complete_andThen, Bool.and_eq_true] at hc
    simp only [Node.script, Node.opens]
    exact (ih trivial hc.1).append.append.append
  | @index _ _ _ key _ _ _ ih =>
    cases key with
    | none => cases hc
    | some key =>
      simp only [Node.survey, Survey.complete_deeper, Survey.complete_andThen, Bool.and_eq_true]
        at hc
      simp only [Node.script, Node.opens]
      exact (ih trivial hc.1).append.append.append
  -- A leaf, or a word of the script.
  | @returns _ value _ _ _ =>
    cases value with
    | none =>
      simp only [Node.script, Node.opens]
      exact ⟨'r', rfl, rfl⟩
    | some value =>
      simp only [Node.script, Node.opens]
      exact BeginsAs.append ⟨'r', rfl, rfl⟩
  | classDecl =>
    simp only [Node.script, Node.opens]
    exact BeginsAs.append (BeginsAs.append ⟨'c', rfl, rfl⟩)
  | integer => exact Script.integer_begins _
  | float => exact Script.float_begins _
  | string => exact Script.quote_begins _
  | array =>
    simp only [Node.script, Node.opens]
    exact BeginsAs.append (BeginsAs.append ⟨'[', rfl, rfl⟩)
  | construct =>
    simp only [Node.script, Node.opens]
    exact BeginsAs.append (BeginsAs.append (BeginsAs.append ⟨'(', rfl, rfl⟩))
  | arrowFunction =>
    simp only [Node.script, Node.opens, Emit.parens]
    exact BeginsAs.append (BeginsAs.append (BeginsAs.append (BeginsAs.append ⟨'(', rfl, rfl⟩)))
  | closure =>
    simp only [Node.script, Node.opens]
    exact BeginsAs.append (BeginsAs.append ⟨'f', rfl, rfl⟩)
  | var hw => exact .of_isWord hw
  | @name parts fullyQualified _ _ hw =>
    rcases parts with _ | ⟨word, _ | ⟨_, _⟩⟩
    · cases hc
    · cases fullyQualified with
      | false => exact .of_isWord (hw word List.mem_cons_self)
      | true => cases hc
    · cases hc
  | other => cases hc
  | _ => exact hform.elim

end Parse

/-! ## Lists of statements -/

namespace Node

/-- The statements that a node owns. -/
def statements : Node → List Node
  | namespaceBlock _ body _ | closure _ _ body _ | method _ _ _ (some body) _ => body
  | _ => []

theorem mem_children_of_mem_statements {n b : Node} (h : b ∈ n.statements) : b ∈ n.children := by
  unfold statements at h
  split at h <;> simp_all [children]

/-- The nodes below a node that are not written: the name of a namespace, what a
    closure binds, and the name of a class that has a resolved one. -/
def unwritten : Node → List Node
  | namespaceBlock label _ _ | classDecl label (some _) _ _ => label.toList
  | closure _ uses _ _ => uses
  | _ => []

theorem children_of_surveyMember {label : Node} {room : Nat}
    (h : label.surveyMember.Succeeds room) : label.children = [] := by
  unfold surveyMember at h
  split at h
  · rfl
  · cases h.1

/-- What a written node has below it is written too, or a leaf, or left out. -/
theorem succeeds_child {n child : Node} {room : Nat} (hs : n.survey.Succeeds room)
    (hc : child ∈ n.children) :
    child.survey.Succeeds room ∨ child.children = [] ∨ child ∈ n.unwritten := by
  unfold survey at hs
  split at hs
  all_goals
    replace hs := Survey.succeeds_deeper hs
    simp only [children] at hc
    grind [Survey.succeeds_andThen, succeeds_surveyList, succeeds_surveySlots, unwritten,
      children_of_surveyMember, Survey.not_succeeds_refused]

/-- The statements that a written node owns are written. -/
theorem succeeds_statement {n b : Node} {room : Nat} (hs : n.survey.Succeeds room)
    (hb : b ∈ n.statements) : b.survey.Succeeds room := by
  unfold statements at hb
  split at hb
  · exact succeeds_surveyList.1 (Survey.succeeds_deeper hs) b hb
  · exact succeeds_surveyList.1 (Survey.succeeds_andThen.1 (Survey.succeeds_deeper hs)).2 b hb
  · have hs := (Survey.succeeds_andThen.1 (Survey.succeeds_deeper hs)).2
    exact succeeds_surveyList.1 (Survey.succeeds_andThen.1 hs).2 b hb
  · exact absurd hb List.not_mem_nil

end Node

/-- The list is that of a program, or the body of a namespace, of a closure or of
    a method in it. -/
inductive StatementList (program : List Node) : List Node → Prop
  | whole : StatementList program program
  | body {root n : Node} : root ∈ program → n.Occurs root → StatementList program n.statements

namespace Parse

namespace Derives

variable {W : List Char → Prop}

theorem children_of_var {n : Node} (h : Derives W .var n) : n.children = [] := by
  cases h with
  | var => rfl
  | other hform => exact hform.elim

theorem children_of_name {n : Node} (h : Derives W .name n) : n.children = [] := by
  cases h with
  | name => rfl
  | other hform => exact hform.elim

theorem children_of_unwritten {form : Form} {n child : Node} (h : Derives W form n)
    (hc : child ∈ n.unwritten) : child.children = [] := by
  induction h with
  | programStatement _ _ ih | topStatement _ ih | ofOperation _ ih | ofAccess _ ih | ofPrimary _ ih
  | ofVariable _ ih | group _ ih | memberByLabel _ ih | memberByVariable _ ih
  | memberByExpression _ ih | constructedByName _ ih | constructedByVariable _ ih
  | constructedByExpression _ ih | part _ ih => exact ih hc
  | namespaceBlock hlabel => exact (hlabel child (Option.mem_toList.1 hc)).children_of_name
  | closure _ huses => exact (huses child hc).children_of_var
  | _ => exact absurd hc List.not_mem_nil

/-- In a derived tree that is written, everything that has parts is written. -/
theorem succeeds_of_occurs {n root : Node} {room : Nat} (h : Derives W .part root)
    (hs : root.survey.Succeeds room) (ho : n.Occurs root) :
    n.survey.Succeeds room ∨ n.children = [] := by
  -- What is not visited has nothing below it.
  have hleaf {child : Node} (hc : child.children = []) (ho : n.Occurs child) : n.children = [] := by
    cases ho with
    | here => exact hc
    | inside hmem => simp [hc] at hmem
  induction ho with
  | here => exact .inl hs
  | inside hchild ho ih =>
    rcases Node.succeeds_child hs hchild with hs | hc | hc
    · exact ih (h.child hchild) hs
    · exact .inr (hleaf hc ho)
    · exact .inr (hleaf (h.children_of_unwritten hc) ho)

/-- The statements that a derived node owns begin as their leftmost leaves say. -/
theorem begins_of_mem_statements {form : Form} {n b : Node} (h : Derives (isWord ·) form n)
    (hb : b ∈ n.statements) (hc : b.survey.complete) : BeginsAs b.script b.opens := by
  induction h with
  | programStatement _ _ ih | topStatement _ ih | ofOperation _ ih | ofAccess _ ih | ofPrimary _ ih
  | ofVariable _ ih | group _ ih | memberByLabel _ ih | memberByVariable _ ih
  | memberByExpression _ ih | constructedByName _ ih | constructedByVariable _ ih
  | constructedByExpression _ ih | part _ ih => exact ih hb
  | namespaceBlock _ hbody => exact (hbody b hb).begins trivial hc
  | closure _ _ hbody => exact (hbody b hb).begins trivial hc
  | @method _ _ _ _ body _ _ _ hbody =>
    cases body with
    | none => exact absurd hb List.not_mem_nil
    | some body => exact (hbody body rfl b hb).begins trivial hc
  | _ => exact absurd hb List.not_mem_nil

/-- The script of a namespace begins as its first statement does. -/
theorem startsOpening_topLevel {n : Node} (h : Derives (isWord ·) .topLevel n)
    (hc : n.survey.complete) : startsOpening n.script = n.opens := by
  cases h with
  | topStatement h => exact (h.begins trivial hc).startsOpening_eq
  | @namespaceBlock _ body _ _ hbody =>
    cases body with
    | nil => rfl
    | cons first rest =>
      simp only [Node.survey, Node.surveyList, Survey.complete_deeper, Survey.complete_andThen,
        Bool.and_eq_true] at hc
      have hfirst := (hbody first List.mem_cons_self).begins trivial hc.1
      simp only [Node.script, Node.scriptList, Node.opens]
      exact (Emit.join_begins hfirst).startsOpening_eq
  | other hform => exact hform.elim

end Derives

end Parse

/-- Whether the second statement goes on with the expression that the first one
    ends with. -/
def runsTogether (a b : Node) : Bool := a.endsExpression && b.opens

/-- In a source text that is converted, each statement of each list has a script;
    and of two neighbours the first ends with an expression and the script of the
    second begins with an opening character exactly when `runsTogether` says so. -/
theorem runsTogether_iff {text file script : String} (hsize : text.utf8ByteSize ≤ Span.limit)
    (hconvert : Convert.source text file = .ok script) {nodes statements : List Node}
    (hparse : Parse.source text = .ok nodes) (hlist : StatementList nodes statements)
    {a b : Node} (hab : [a, b] <:+: statements) :
    (∃ x, Emit.node b {} = .ok x {}) ∧
      ∀ p q x, Emit.node b p = .ok x q →
        (a.endsExpression && startsOpening x) = runsTogether a b := by
  have hb : b ∈ statements := hab.subset (by simp)
  have hsurvey : ∀ n ∈ nodes, n.survey.Succeeds Emit.maxDepth := by
    obtain ⟨parsed, hp, hscript⟩ := Convert.source_eq_ok_iff.1 hconvert
    cases hparse.symm.trans hp
    exact Node.succeeds_surveyList.1 (Script.ofNodes_eq_ok_iff.1 hscript).1
  -- A statement of the program itself may be a namespace, which begins as its
  -- first statement does. The others are owned by a node that is written.
  have hstatement : b.survey.Succeeds Emit.maxDepth ∧ startsOpening b.script = b.opens := by
    cases hlist with
    | whole =>
      exact ⟨hsurvey b hb,
        (Parse.source_derives hsize hparse b hb).startsOpening_topLevel (hsurvey b hb).1⟩
    | @body root n hroot ho =>
      have hderives := Parse.Derives.part (Parse.source_derives hsize hparse root hroot)
      have hchild := Node.mem_children_of_mem_statements hb
      rcases hderives.succeeds_of_occurs (hsurvey root hroot) ho with hn | hn
      · have hs := Node.succeeds_statement hn hb
        exact ⟨hs, ((hderives.of_occurs ho).begins_of_mem_statements hb hs.1).startsOpening_eq⟩
      · simp [hn] at hchild
  obtain ⟨⟨hc, hl⟩, hstart⟩ := hstatement
  refine ⟨⟨b.script, (Emit.node_describes b).ok hl hc⟩, fun p q x hx => ?_⟩
  rw [(Emit.node_describes b).eq_of_ok hx, hstart, runsTogether]

/-- A variable, and an array of one variable after it. -/
def isArrayAfterVariable : List Node → Bool
  | [.expression (.var "a" _) _,
     .expression (.array [some (.arrayItem none (.var "b" _) _)] _) _] => true
  | _ => false

/-- An array after a variable. -/
theorem array_after_variable :
    ∃ a b, Parse.source "<?php $a; [$b];" = .ok [a, b] ∧ a.endsExpression ∧ b.opens ∧
      Emit.node b {} = .ok "[b]" {} ∧
      Convert.source "<?php $a; [$b];" "f" = .ok "a\n\n[b]" := by
  have hcheck : (Parse.source "<?php $a; [$b];").toOption.any isArrayAfterVariable := by
    decide +kernel
  obtain ⟨nodes, hsource, hshape⟩ := Parse.exists_of_any hcheck
  unfold isArrayAfterVariable at hshape
  split at hshape
  · exact ⟨_, _, hsource, rfl, rfl, rfl, Convert.source_eq_ok_iff.2 ⟨_, hsource, rfl⟩⟩
  · cases hshape

theorem runsTogether_array_after_variable :
    "<?php $a; [$b];".utf8ByteSize ≤ Span.limit ∧
    ∃ a b x, Parse.source "<?php $a; [$b];" = .ok [a, b] ∧ Emit.node b {} = .ok x {} ∧
      runsTogether a b ∧ (a.endsExpression && startsOpening x) = runsTogether a b := by
  obtain ⟨a, b, hparse, ha, hb, hx, hconvert⟩ := array_after_variable
  have hsize : "<?php $a; [$b];".utf8ByteSize ≤ Span.limit := by decide +kernel
  have h := runsTogether_iff hsize hconvert hparse .whole (List.infix_refl [a, b])
  exact ⟨hsize, a, b, _, hparse, hx, by simp [runsTogether, ha, hb], h.2 _ _ _ hx⟩

/-- Neighbours do run together in some scripts. -/
theorem not_never_runsTogether :
    ¬∀ (text file script : String) (nodes statements : List Node) (a b : Node) (x : String),
      Convert.source text file = .ok script → Parse.source text = .ok nodes →
        StatementList nodes statements → [a, b] <:+: statements → a.endsExpression →
          Emit.node b {} = .ok x {} → startsOpening x = false := by
  intro h
  obtain ⟨a, b, hparse, ha, hb, hx, hconvert⟩ := array_after_variable
  have hstart := h _ _ _ _ _ a b _ hconvert hparse .whole (List.infix_refl [a, b]) ha hx
  cases hstart

end PhpScript
