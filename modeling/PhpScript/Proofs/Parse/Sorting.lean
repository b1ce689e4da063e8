import Mathlib.Data.List.TakeWhile
import PhpScript.Proofs.Parse.Occurrence
import PhpScript.Proofs.Token.Wrapped

/-!
# Parsed trees are well sorted

The type of nodes lets any node stand anywhere. In a parsed tree every position
asks for nodes of some sorts, and holds one of them:

* `Node.sort` is the sort of a node, and `Role.sorts` the sorts that a position takes;
* `Node.positions` gives the nodes directly below a node with their roles, and
  `Node.Stands` those at any depth. The parts of a construct without a rule have no
  roles, so nothing is said about them;
* `Node.isRegular` is what a node has to be by itself, wherever it stands, and
  `Node.isNamed` what its names have to be.

`Parse.source_sorted` says that parsed programs are sorted in this way. What their
names are is certain only as long as the offsets of the text fit into spans.
-/

namespace PhpScript

/-! ## Sorts and roles -/

/-- The sorts of nodes. -/
inductive NodeSort
  | statement
  | namespaceBlock
  /-- A member of a class. -/
  | classMember
  | propertyItem
  | parameter
  | argument
  /-- An item of an array. -/
  | item
  /-- The name of a member or of a declaration. -/
  | label
  | name
  | var
  /-- An access by an index or to a member. -/
  | access
  /-- Any other expression. -/
  | expression
  /-- A construct without a rule. -/
  | other
deriving DecidableEq, Repr

/-- The sort of a node. -/
def Node.sort : Node → NodeSort
  | expression .. | returns .. | classDecl .. => .statement
  | namespaceBlock .. => .namespaceBlock
  | property .. | method .. => .classMember
  | propertyItem .. => .propertyItem
  | parameter .. => .parameter
  | argument .. => .argument
  | arrayItem .. => .item
  | identifier .. => .label
  | name .. => .name
  | var .. => .var
  | index .. | member .. => .access
  | methodCall .. | functionCall .. | construct .. | assign .. | addAssign .. | concat ..
  | arrowFunction .. | closure .. | array .. | constant .. | integer .. | float .. | string .. =>
    .expression
  | other .. => .other

/-- What a position of a tree asks for. -/
inductive Role
  /-- A statement of a program, or a namespace. -/
  | topLevel
  | statement
  | classMember
  | propertyItem
  | parameter
  | argument
  | item
  | label
  | name
  | var
  /-- What picks the member in an access. -/
  | memberName
  /-- What is called or constructed. -/
  | callee
  /-- What is assigned to. -/
  | target
  | expression
deriving DecidableEq, Repr

namespace Role

/-- The sorts that can stand in a position. -/
def sorts : Role → List NodeSort
  | topLevel => [.statement, .namespaceBlock, .other]
  | statement => [.statement, .other]
  | classMember => [.classMember, .other]
  | propertyItem => [.propertyItem]
  | parameter => [.parameter]
  | argument => [.argument]
  | item => [.item]
  | label => [.label]
  | name => [.name]
  | var => [.var]
  | memberName => [.label, .var, .access, .expression, .other]
  | callee => [.name, .var, .access, .expression, .other]
  | target => [.var, .access]
  | expression => [.var, .access, .expression, .other]

/-- The node can stand in the position. -/
def Admits (role : Role) (n : Node) : Prop := n.sort ∈ role.sorts

/-- A position that takes more sorts takes the same nodes. -/
theorem Admits.mono {role role' : Role} {n : Node} (h : role.Admits n)
    (hsorts : role.sorts ⊆ role'.sorts := by decide) : role'.Admits n :=
  hsorts h

end Role

/-- The rule for names takes the text as a whole. -/
def Rule.isName (text : String) : Bool := identifier.reach? text.toList == some text.toList.length

namespace Node

/-- Whether a node is as it has to be by itself: a class has a name and no resolved
    one, a property declaration has modifiers and declares something, a whole
    number has no sign, and a name has a part. -/
def isRegular : Node → Bool
  | classDecl label resolved _ _ => label.isSome && resolved.isNone
  | property flags items _ => !flags.isEmpty && !items.isEmpty
  | integer value _ => 0 ≤ value
  | name parts _ _ => !parts.isEmpty
  | _ => true

/-- Whether the names in the node itself are names. -/
def isNamed : Node → Bool
  | var label _ | identifier label _ => Rule.isName label
  | name parts _ _ => parts.all Rule.isName
  | _ => true

/-- The nodes directly below a node, each with what its position asks for. -/
def positions : Node → List (Role × Node)
  | expression expr _ => [(.expression, expr)]
  | returns value _ => value.toList.map (.expression, ·)
  | namespaceBlock label body _ => label.toList.map (.name, ·) ++ body.map (.statement, ·)
  | classDecl label resolved members _ =>
    label.toList.map (.label, ·) ++ resolved.toList.map (.name, ·) ++ members.map (.classMember, ·)
  | property _ items _ => items.map (.propertyItem, ·)
  | propertyItem label initial _ => (.label, label) :: initial.toList.map (.expression, ·)
  | method _ label params body _ =>
    (.label, label) :: params.map (.parameter, ·) ++ body.toList.flatten.map (.statement, ·)
  | methodCall target label args _ =>
    (.expression, target) :: (.memberName, label) :: args.map (.argument, ·)
  | functionCall callee args _ => (.callee, callee) :: args.map (.argument, ·)
  | construct cls args _ => (.callee, cls) :: args.map (.argument, ·)
  | index base key _ => (.expression, base) :: key.toList.map (.expression, ·)
  | member base label _ => [(.expression, base), (.memberName, label)]
  | assign target value _ | addAssign target value _ => [(.target, target), (.expression, value)]
  | concat left right _ => [(.expression, left), (.expression, right)]
  | arrowFunction params body _ => params.map (.parameter, ·) ++ [(.expression, body)]
  | closure params uses body _ =>
    params.map (.parameter, ·) ++ uses.map (.var, ·) ++ body.map (.statement, ·)
  | array slots _ => (slots.filterMap id).map (.item, ·)
  | arrayItem key value _ => key.toList.map (.expression, ·) ++ [(.expression, value)]
  | argument value _ => [(.expression, value)]
  | parameter bound _ => [(.var, bound)]
  | constant label _ => [(.name, label)]
  | var .. | integer .. | float .. | string .. | identifier .. | name .. | other .. => []

/-- Below a node with a rule no node is left out. -/
theorem map_snd_positions {n : Node} (h : n.sort ≠ .other) :
    n.positions.map Prod.snd = n.children := by
  cases n with
  | other kind children s => exact absurd rfl h
  | _ => simp [positions, children, Function.comp_def]

theorem mem_children_of_mem_positions {n child : Node} {role : Role}
    (h : (role, child) ∈ n.positions) : child ∈ n.children := by
  have hsort : n.sort ≠ .other := by
    intro hsort
    cases n with
    | other kind children s => cases h
    | _ => cases hsort
  rw [← map_snd_positions hsort]
  exact List.mem_map_of_mem h

theorem admits_of_isAssignable {n : Node} (h : n.isAssignable) : Role.target.Admits n := by
  cases n with
  | var | index | member => simp [Role.Admits, Role.sorts, sort]
  | _ => cases h

/-- The last node stands somewhere in the first one, each of them in a role. -/
inductive Stands : Role → Node → Role → Node → Prop
  | here {role n} : Stands role n role n
  | inside {role root role' child role'' n} : (role', child) ∈ root.positions →
      Stands role' child role'' n → Stands role root role'' n

end Node

/-! ## Derived trees -/

namespace Parse

variable {W : List Char → Prop}

theorem isName_of_isWord {text : String} (h : isWord text.toList) : Rule.isName text := by
  unfold Rule.isName
  cases htext : text.toList with
  | nil => simp [htext, isWord] at h
  | cons c cs =>
    rw [htext, isWord, Bool.and_eq_true] at h
    have hrun : cs.takeWhile isNamePart = cs :=
      List.takeWhile_eq_self_iff.2 (List.all_eq_true.1 h.2)
    simp [Rule.reach?, Rule.startThenRun?, Rule.run, h.1, hrun, Nat.add_comm]

theorem Derives.isRegular {form : Form} {n : Node} (h : Derives W form n) : n.isRegular := by
  induction h with
  | property hflags hitems => simp [Node.isRegular, hflags, hitems]
  | name hparts => simp [Node.isRegular, hparts]
  | integer => simp [Node.isRegular]
  | _ => first | assumption | rfl

theorem isNamed_of_isSpelled {n : Node} (h : n.IsSpelled) : n.isNamed := by
  cases n with
  | var | identifier => exact isName_of_isWord h
  | name => exact List.all_eq_true.2 fun part hpart => isName_of_isWord (h part hpart)
  | _ => rfl

/-- The role that trees of a form are for; a part of a construct without a rule has
    none. -/
def Form.role? : Form → Option Role
  | topLevel => some .topLevel
  | programStatement | statement _ => some .statement
  | classMember _ => some .classMember
  | propertyItem _ => some .propertyItem
  | expression _ | operation .. | access .. | primary _ => some .expression
  | argument _ => some .argument
  | item _ => some .item
  | memberName _ => some .memberName
  | constructed _ => some .callee
  | parameter => some .parameter
  | var => some .var
  | label => some .label
  | name => some .name
  | part => none

/-- A construct without a rule is admitted wherever a form has it. -/
theorem Form.AdmitsOther.admits {form : Form} (hform : form.AdmitsOther) {role : Role}
    (hrole : form.role? = some role) {kind : String} {children : List Node} {s : Span} :
    role.Admits (.other kind children s) := by
  cases form with
  | statement | expression | operation | access | classMember | primary =>
    cases hrole
    simp [Role.Admits, Role.sorts, Node.sort]
  | _ => exact hform.elim

/-- Derived trees can stand where their form says. -/
theorem Derives.admits {form : Form} {n : Node} (h : Derives W form n) {role : Role}
    (hrole : form.role? = some role) : role.Admits n := by
  induction h generalizing role with
  | part => cases hrole
  | other hform => exact hform.admits hrole
  | programStatement _ _ ih | topStatement _ ih | ofOperation _ ih | ofAccess _ ih | ofPrimary _ ih
  | ofVariable _ ih | group _ ih | memberByLabel _ ih | memberByVariable _ ih
  | memberByExpression _ ih | constructedByName _ ih | constructedByVariable _ ih
  | constructedByExpression _ ih =>
    cases hrole
    exact (ih rfl).mono
  | _ =>
    cases hrole
    simp [Role.Admits, Role.sorts, Node.sort]

theorem admits_list {form : Form} {role : Role} {nodes : List Node}
    (h : ∀ n ∈ nodes, Derives W form n) (hrole : form.role? = some role := by rfl) :
    ∀ x ∈ nodes.map (role, ·), x.1.Admits x.2 :=
  List.forall_mem_map.2 fun n hn => (h n hn).admits hrole

theorem admits_option {form : Form} {role : Role} {n? : Option Node}
    (h : ∀ n ∈ n?, Derives W form n) (hrole : form.role? = some role := by rfl) :
    ∀ x ∈ n?.toList.map (role, ·), x.1.Admits x.2 :=
  admits_list (fun n hn => h n (Option.mem_toList.1 hn)) hrole

/-- What stands directly below a derived node is what its position asks for. -/
theorem Derives.positions {form : Form} {n : Node} (h : Derives W form n) :
    ∀ x ∈ n.positions, x.1.Admits x.2 := by
  induction h with
  | programStatement _ _ ih | topStatement _ ih | ofOperation _ ih | ofAccess _ ih | ofPrimary _ ih
  | ofVariable _ ih | group _ ih | memberByLabel _ ih | memberByVariable _ ih
  | memberByExpression _ ih | constructedByName _ ih | constructedByVariable _ ih
  | constructedByExpression _ ih | part _ ih => exact ih
  | namespaceBlock hlabel hbody =>
    exact List.forall_mem_append.2 ⟨admits_option hlabel, admits_list hbody⟩
  | expressionStatement h => exact List.forall_mem_singleton.2 (h.admits rfl)
  | returns hvalue => exact admits_option hvalue
  | classDecl hlabel hmembers =>
    exact List.forall_mem_cons.2 ⟨hlabel.admits rfl, admits_list hmembers⟩
  | property _ _ hitems => exact admits_list hitems
  | @method levels flags label params body s hlabel hparams hbody =>
    have hstatements : ∀ n ∈ body.toList.flatten, Derives W (.statement levels) n := by
      simpa using fun n b hb hn => hbody b hb n hn
    exact List.forall_mem_cons.2 ⟨hlabel.admits rfl,
      List.forall_mem_append.2 ⟨admits_list hparams, admits_list hstatements⟩⟩
  | propertyItem hlabel hinitial =>
    exact List.forall_mem_cons.2 ⟨hlabel.admits rfl, admits_option hinitial⟩
  | assign _ hassignable hvalue | addAssign _ hassignable hvalue =>
    exact List.forall_mem_cons.2 ⟨Node.admits_of_isAssignable hassignable,
      List.forall_mem_singleton.2 (hvalue.admits rfl)⟩
  | concat hleft hright =>
    exact List.forall_mem_cons.2 ⟨hleft.admits rfl, List.forall_mem_singleton.2 (hright.admits rfl)⟩
  | methodCall hbase hlabel hargs =>
    exact List.forall_mem_cons.2 ⟨hbase.admits rfl,
      List.forall_mem_cons.2 ⟨hlabel.admits rfl, admits_list hargs⟩⟩
  | member hbase hlabel =>
    exact List.forall_mem_cons.2 ⟨hbase.admits rfl, List.forall_mem_singleton.2 (hlabel.admits rfl)⟩
  | index hbase hkey => exact List.forall_mem_cons.2 ⟨hbase.admits rfl, admits_option hkey⟩
  | call hcallee hargs =>
    have hcallee : Role.callee.Admits _ := (hcallee.admits rfl).mono
    exact List.forall_mem_cons.2 ⟨hcallee, admits_list hargs⟩
  | callByName hcallee hargs =>
    have hcallee : Role.callee.Admits _ := (hcallee.admits rfl).mono
    exact List.forall_mem_cons.2 ⟨hcallee, admits_list hargs⟩
  | constant hlabel => exact List.forall_mem_singleton.2 (hlabel.admits rfl)
  | @array levels slots s hslots =>
    have hitems : ∀ i ∈ slots.filterMap id, Derives W (.item levels) i := filterMap_forall hslots
    exact admits_list hitems
  | construct hcls hargs => exact List.forall_mem_cons.2 ⟨hcls.admits rfl, admits_list hargs⟩
  | arrowFunction hparams hbody =>
    exact List.forall_mem_append.2
      ⟨admits_list hparams, List.forall_mem_singleton.2 (hbody.admits rfl)⟩
  | closure hparams huses hbody =>
    exact List.forall_mem_append.2 ⟨List.forall_mem_append.2
      ⟨admits_list hparams, admits_list huses⟩, admits_list hbody⟩
  | argument hvalue => exact List.forall_mem_singleton.2 (hvalue.admits rfl)
  | item hkey hvalue =>
    exact List.forall_mem_append.2
      ⟨admits_option hkey, List.forall_mem_singleton.2 (hvalue.admits rfl)⟩
  | parameter hvar => exact List.forall_mem_singleton.2 (hvar.admits rfl)
  | integer | float | string | var | label | name | other => exact List.forall_mem_nil _

/-- What stands in a derived tree is derived, and what its position asks for. -/
theorem Derives.stands {root n : Node} {role role' : Role} (h : Derives W .part root)
    (hrole : role.Admits root) (hn : Node.Stands role root role' n) :
    role'.Admits n ∧ Derives W .part n := by
  induction hn with
  | here => exact ⟨hrole, h⟩
  | inside hmem _ ih =>
    exact ih (h.child (Node.mem_children_of_mem_positions hmem)) (h.positions _ hmem)

/-- Every position of a parsed program holds a node of a sort that it takes, and
    the node is as it has to be. Its names are names when the offsets of the text fit
    into spans. -/
theorem source_sorted {text : String} {nodes : List Node} (h : source text = .ok nodes) :
    ∀ root ∈ nodes, ∀ role n, Node.Stands .topLevel root role n →
      role.Admits n ∧ n.isRegular ∧ (text.utf8ByteSize ≤ Span.limit → n.isNamed) := by
  intro root hroot role n hn
  have hderives := source_derives_any h root hroot
  obtain ⟨hadmits, hpart⟩ := (Derives.part hderives).stands (hderives.admits rfl) hn
  refine ⟨hadmits, hpart.isRegular, fun hsize => ?_⟩
  have hwords := source_derives hsize h root hroot
  exact isNamed_of_isSpelled ((Derives.part hwords).stands (hwords.admits rfl) hn).2.isSpelled

/-- Whether a program is a namespace with a class and an access on a call by name. -/
def isCallAfterClass : List Node → Bool
  | [.namespaceBlock (some (.name ..)) [.classDecl .., .expression (.member (.functionCall
      (.name ..) _ _) _ _) _] _] => true
  | _ => false

theorem callAfterClass_sorted :
    ∃ nodes, source "<?php namespace A\\B; class C \x7b public $d = 1; \x7d f($e)->g;" = .ok nodes ∧
      isCallAfterClass nodes ∧ ∀ root ∈ nodes, ∀ role n,
        Node.Stands .topLevel root role n → role.Admits n ∧ n.isRegular ∧ n.isNamed := by
  have hcheck : Option.any isCallAfterClass
      (source "<?php namespace A\\B; class C \x7b public $d = 1; \x7d f($e)->g;").toOption := by
    decide +kernel
  obtain ⟨nodes, hsource, hshape⟩ := exists_of_any hcheck
  refine ⟨nodes, hsource, hshape, fun root hroot role n hn => ?_⟩
  obtain ⟨hadmits, hregular, hnamed⟩ := source_sorted hsource root hroot role n hn
  exact ⟨hadmits, hregular, hnamed (by decide +kernel)⟩

/-- A variable right beyond the largest offset shows the start of the text. -/
theorem scan_farVariable {n : Nat} (hn : openTag.length + n = Span.limit + 1) :
    Token.scan (Token.farText [] n "$abc;".toList) = .ok [⟨.varName, ⟨0, 4⟩, "<?ph"⟩,
      ⟨.symbol .semicolon, ⟨4, 5⟩, "p"⟩, ⟨.endOfFile, ⟨5, 5⟩, ""⟩] :=
  Token.scan_farStatement "$abc".toList "<?ph".toList ['p'] rfl rfl rfl rfl (by decide) hn

theorem source_farVariable {n : Nat} (hn : openTag.length + n = Span.limit + 1) :
    source (Token.farText [] n "$abc;".toList) = .ok [.expression (.var "?ph" ⟨0, 4⟩) ⟨0, 5⟩] := by
  rw [source, start, scan_farVariable hn]
  rfl

/-- In a text beyond the largest offset a variable can have a name that is none. -/
theorem not_always_sorted :
    ¬∀ (text : String) (nodes : List Node), source text = .ok nodes →
      ∀ root ∈ nodes, ∀ role n, Node.Stands .topLevel root role n →
        role.Admits n ∧ n.isRegular ∧ n.isNamed := by
  intro h
  obtain ⟨n, hn⟩ : ∃ n, openTag.length + n = Span.limit + 1 := ⟨Span.limit - 4, rfl⟩
  have hstands : Node.Stands .topLevel (.expression (.var "?ph" ⟨0, 4⟩) ⟨0, 5⟩) .expression
      (.var "?ph" ⟨0, 4⟩) := .inside List.mem_cons_self .here
  obtain ⟨-, -, hnamed⟩ := h _ _ (source_farVariable hn) _ List.mem_cons_self _ _ hstands
  exact absurd hnamed (by decide)

end Parse

end PhpScript
