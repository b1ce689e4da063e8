import PhpScript.Proofs.Json.Sameness
import PhpScript.Proofs.Node.Dialect

/-!
# Reading trees back

`Node.toJson` loses nothing of a tree, apart from numbers that are not finite: the tree can
be read back from its JSON form, and from every value that holds the same. So two trees with
the same JSON form are the same tree (`Node.same_toJsonList_iff`).

The reader is no part of the program. It knows each kind by its name and each part by its
own, so reading back is where a name that clashes with another would be noticed.
-/

namespace PhpScript

/-! ## Readers of values -/

namespace Json

/-- A whole number that is not negative. -/
def natural? : Json → Option Nat
  | integer (.ofNat n) => some n
  | _ => none

/-- A whole number. -/
def integer? : Json → Option Int
  | integer value => some value
  | _ => none

/-- A floating-point number. -/
def real? : Json → Option Double
  | real value => some value
  | _ => none

section

variable {α : Type} (read : Json → Option α)

/-- The member of an object with a name. -/
def member? (name : String) (json : Json) : Option α := do
  read (← find? name (← json.members?))

/-- All items of an array. -/
def list? (json : Json) : Option (List α) := do (← json.items?).mapM read

/-- A value that may be null instead. -/
def nullable? (json : Json) : Option (Option α) :=
  if json.isNull then some none else some <$> read json

/-- The reader gives the result for the value, and for any that holds the same. -/
def ReadsAs (json : Json) (result : α) : Prop :=
  ∀ ⦃other⦄, json.Same other → read other = some result

end

namespace ReadsAs

variable {α : Type} {read : Json → Option α}

theorem natural (n : Nat) : ReadsAs natural? (.integer n) n := by
  rintro _ ⟨⟩
  rfl

theorem integer (n : Int) : ReadsAs integer? (.integer n) n := by
  rintro _ ⟨⟩
  rfl

theorem real (x : Double) : ReadsAs real? (.real x) x := by
  rintro _ ⟨⟩
  rfl

theorem bool (b : Bool) : ReadsAs bool? (.bool b) b := by
  rintro _ ⟨⟩
  rfl

theorem string (text : String) : ReadsAs string? (.string text) text := by
  rintro _ ⟨⟩
  rfl

theorem map {β : Type} {json : Json} {a : α} (f : α → β) (h : ReadsAs read json a) :
    ReadsAs (fun json => f <$> read json) json (f a) := by
  intro other hsame
  simp only [h hsame, Option.map_eq_map, Option.map_some]

theorem member {name : String} {members : List (String × Json)} {json : Json} {a : α}
    (h : ReadsAs read json a) (hfind : find? name members = some json) :
    ReadsAs (member? read name) (.object members) a := by
  rintro _ (_ | _ | _ | _ | _ | _ | hmembers)
  next others =>
  have hrel := hmembers name
  rw [hfind] at hrel
  rw [member?, members?, Option.bind_eq_bind, Option.bind_some, Option.bind_eq_bind]
  generalize find? name others = found at hrel
  cases hrel with
  | some hsame => exact h hsame

theorem list {write : α → Json} {as : List α} (h : ∀ a ∈ as, ReadsAs read (write a) a) :
    ReadsAs (list? read) (.array (as.map write)) as := by
  rintro _ (_ | _ | _ | _ | _ | hitems)
  next items =>
  rw [list?, items?, Option.bind_eq_bind, Option.bind_some]
  induction as generalizing items with
  | nil =>
    cases hitems
    rfl
  | cons a as ih =>
    rw [List.forall_mem_cons] at h
    cases hitems with
    | cons hsame hitems =>
      rw [List.mapM_cons, h.1 hsame, ih h.2 hitems]
      rfl

theorem absent : ReadsAs (nullable? read) .null none := by
  rintro _ ⟨⟩
  rfl

theorem present {json : Json} {a : α} (h : ReadsAs read json a) (hjson : json.isNull = false) :
    ReadsAs (nullable? read) json (some a) := by
  intro other hsame
  have hother : other.isNull = false := by
    cases hsame with
    | null => exact hjson
    | _ => rfl
  rw [nullable?, hother, h hsame]
  rfl

end ReadsAs

end Json

/-! ## Spans and modifiers -/

/-- The span of an object. -/
def Span.ofJson? (json : Json) : Option Span := do
  let start ← json.member? Json.natural? "start"
  let stop ← json.member? Json.natural? "end"
  return ⟨start, stop⟩

theorem some_bind {α β : Type} {x : Option α} {f : α → Option β} {a : α} {b : β}
    (hx : x = some a) (hf : f a = some b) : x >>= f = some b := by
  rw [hx]
  exact hf

theorem Span.readsAs_toJson (s : Span) : Json.ReadsAs ofJson? s.toJson s := fun _ hsame =>
  some_bind ((Json.ReadsAs.natural s.start).member rfl hsame) <|
    some_bind ((Json.ReadsAs.natural s.stop).member rfl hsame) rfl

namespace Modifiers

/-- The modifiers that the words of a text name. -/
def ofText (text : String) : Modifiers :=
  let words := Text.splitParts ' ' text
  ⟨words.contains "PUBLIC", words.contains "PROTECTED", words.contains "PRIVATE",
   words.contains "STATIC", words.contains "ABSTRACT", words.contains "FINAL",
   words.contains "READONLY"⟩

/-- The modifiers of a string. -/
def ofJson? (json : Json) : Option Modifiers := ofText <$> json.string?

theorem mem_intersperse {α : Type} {a sep : α} (hne : a ≠ sep) :
    (as : List α) → (a ∈ as.intersperse sep ↔ a ∈ as)
  | [] | [_] => Iff.rfl
  | b :: c :: as => by
    rw [List.intersperse_cons_cons, List.mem_cons, List.mem_cons, mem_intersperse hne (c :: as),
      List.mem_cons (b := b)]
    simp [hne]

/-- Words with bars between them are cut at the blanks into the words and the bars. -/
theorem split_bars {words : List (List Char)} (hne : words ≠ []) (h : ∀ word ∈ words, ' ' ∉ word) :
    Text.split ' ' ([' ', '|', ' '].intercalate words) = words.intersperse ['|'] := by
  match words with
  | [] => exact absurd rfl hne
  | [word] => simpa using Dump.split_of_not_mem (h word List.mem_cons_self)
  | word :: next :: words =>
    rw [List.forall_mem_cons] at h
    have ih := split_bars (List.cons_ne_nil next words) h.2
    have hbar : ' ' ∉ ['|'] := by decide
    rw [List.intercalate_cons_cons, List.intersperse_cons_cons, ← ih, List.append_assoc]
    exact (Dump.split_append h.1 _).trans (congrArg _ (Dump.split_append hbar _))

/-- The word is among the names of the modifiers exactly if the modifier is set. -/
theorem mem_names (m : Modifiers) (word : String) :
    word ∈ m.names ↔
      m.isPublic ∧ word = "PUBLIC" ∨ m.isProtected ∧ word = "PROTECTED" ∨
      m.isPrivate ∧ word = "PRIVATE" ∨ m.isStatic ∧ word = "STATIC" ∨
      m.isAbstract ∧ word = "ABSTRACT" ∨ m.isFinal ∧ word = "FINAL" ∨
      m.isReadonly ∧ word = "READONLY" := by
  have hset (set : Bool) (name : String) :
      (if set then some name else none) = some word ↔ set ∧ word = name := by
    cases set <;> simp [eq_comm]
  simp only [names, List.mem_filterMap, List.mem_cons, List.not_mem_nil, or_false, exists_eq_or_imp,
    exists_eq_left, hset]

theorem blank_not_mem_names (m : Modifiers) : ∀ word ∈ m.names, ' ' ∉ word.toList := by
  intro word hword
  obtain ⟨-, rfl⟩ | ⟨-, rfl⟩ | ⟨-, rfl⟩ | ⟨-, rfl⟩ | ⟨-, rfl⟩ | ⟨-, rfl⟩ | ⟨-, rfl⟩ :=
    (mem_names m word).1 hword
  all_goals decide

/-- The words of the text of modifiers are their names. -/
theorem mem_words (m : Modifiers) {word : String} (hbar : word ≠ "|") (hempty : word ≠ "") :
    word ∈ Text.splitParts ' ' (String.intercalate " | " m.names) ↔ word ∈ m.names := by
  have hofList (cs : List Char) : String.ofList cs = word ↔ cs = word.toList := by
    rw [← String.toList_inj, String.toList_ofList]
  have htoList : word.toList ≠ ['|'] := fun h => hbar (String.toList_inj.1 h)
  rw [Text.splitParts, String.toList_intercalate]
  by_cases hnames : m.names = []
  · simp [hnames, Text.split, hempty]
  · rw [show " | ".toList = [' ', '|', ' '] from rfl,
      split_bars (by simpa using hnames) (by simpa using blank_not_mem_names m), List.mem_map]
    simp only [hofList, exists_eq_right, mem_intersperse htoList]
    simp [String.toList_inj]

/-- The text of modifiers tells which of them are set. -/
theorem ofText_names (m : Modifiers) : ofText (String.intercalate " | " m.names) = m := by
  have hwords (word : String) (hbar : word ≠ "|") (hempty : word ≠ "") :=
    (mem_words m hbar hempty).trans (mem_names m word)
  simp [ofText, hwords]

theorem readsAs_toJson (m : Modifiers) : Json.ReadsAs ofJson? m.toJson m := by
  have hread := (Json.ReadsAs.string (String.intercalate " | " m.names)).map ofText
  rwa [ofText_names] at hread

end Modifiers

/-! ## Trees -/

namespace Node

section

variable (read : Json → Option Node) (json : Json)

/-- A part that is always there. -/
def part? (name : String) : Option Node := json.member? read name

/-- A part that may be absent. -/
def optional? (name : String) : Option (Option Node) := json.member? (Json.nullable? read) name

/-- A list of parts. -/
def parts? (name : String) : Option (List Node) := json.member? (Json.list? read) name

/-- The node of an object of a kind, whose parts are read by `read`. -/
def ofObject? (kind : String) (s : Span) : Option Node :=
  match kind with
  | "Expression" => return expression (← part? read json "expr") s
  | "Return" => return returns (← optional? read json "expr") s
  | "Namespace" =>
    return namespaceBlock (← optional? read json "name") (← parts? read json "stmts") s
  | "Class" =>
    return classDecl (← optional? read json "name") (← optional? read json "namespaced_name")
      (← parts? read json "members") s
  | "Property" =>
    return property (← json.member? Modifiers.ofJson? "modifiers") (← parts? read json "props") s
  | "PropertyItem" =>
    return propertyItem (← part? read json "name") (← optional? read json "default") s
  | "ClassMethod" =>
    return method (← json.member? Modifiers.ofJson? "modifiers") (← part? read json "name")
      (← parts? read json "params") (← json.member? (Json.nullable? (Json.list? read)) "body") s
  | "MethodCall" =>
    return methodCall (← part? read json "target") (← part? read json "method")
      (← parts? read json "args") s
  | "FunctionCall" => return functionCall (← part? read json "name") (← parts? read json "args") s
  | "New" => return construct (← part? read json "class") (← parts? read json "args") s
  | "ArrayDimFetch" => return index (← part? read json "base") (← optional? read json "index") s
  | "PropertyFetch" => return member (← part? read json "base") (← part? read json "property") s
  | "Assign" => return assign (← part? read json "target") (← part? read json "value") s
  | "AssignAdd" => return addAssign (← part? read json "target") (← part? read json "value") s
  | "Concat" => return concat (← part? read json "left") (← part? read json "right") s
  | "ArrowFunction" =>
    return arrowFunction (← parts? read json "params") (← part? read json "body") s
  | "Closure" =>
    return closure (← parts? read json "params") (← parts? read json "uses")
      (← parts? read json "stmts") s
  | "Array" => return array (← json.member? (Json.list? (Json.nullable? read)) "items") s
  | "ArrayItem" => return arrayItem (← optional? read json "key") (← part? read json "value") s
  | "Argument" => return argument (← part? read json "value") s
  | "Parameter" => return parameter (← part? read json "var") s
  | "Variable" => return var (← json.member? Json.string? "name") s
  | "ConstFetch" => return constant (← part? read json "name") s
  | "Int" => return integer (← json.member? Json.integer? "value") s
  | "Float" => return float (← json.member? Json.real? "value") s
  | "String" => return string (← json.member? Json.string? "value") s
  | "Identifier" => return identifier (← json.member? Json.string? "name") s
  | "Name" =>
    return name (← json.member? (Json.list? Json.string?) "parts")
      (← json.member? Json.bool? "fully_qualified") s
  | "Other" => return other (← json.member? Json.string? "kind") (← parts? read json "children") s
  | _ => none

end

/-- The tree of a JSON value, as far as it is no deeper than the number of rounds. -/
def ofJson? : Nat → Json → Option Node
  | 0, _ => none
  | rounds + 1, json => do
    ofObject? (ofJson? rounds) json (← json.member? Json.string? "node")
      (← json.member? Span.ofJson? "span")

/-- The JSON form of the node itself keeps its number: it is finite, if it is a number. -/
def IsFinite : Node → Prop
  | float value _ => value.isFinite
  | _ => True

theorem isNull_toJson (n : Node) : n.toJson.isNull = false := by
  cases n <;> rfl

theorem toJsonList_eq_map (nodes : List Node) : toJsonList nodes = nodes.map toJson :=
  eq_map_of_cons (by rw [toJsonList]) (fun _ _ => by rw [toJsonList]) nodes

theorem toJsonSlots_eq_map (slots : List (Option Node)) :
    toJsonSlots slots = slots.map toJsonOption :=
  eq_map_of_cons (by rw [toJsonSlots]) (fun _ _ => by rw [toJsonSlots]) slots

section

open Json (ReadsAs)

variable {read : Json → Option Node} {kind name : String} {parts : List (String × Json)}
  {s : Span} {json : Json}

theorem readsAs_list {nodes : List Node} (h : ∀ n ∈ nodes, ReadsAs read n.toJson n) :
    ReadsAs (Json.list? read) (.array (toJsonList nodes)) nodes := by
  rw [toJsonList_eq_map]
  exact .list h

theorem readsAs_option {n? : Option Node} (h : ∀ n ∈ n?.toList, ReadsAs read n.toJson n) :
    ReadsAs (Json.nullable? read) (toJsonOption n?) n? := by
  cases n? with
  | none => exact .absent
  | some n => exact (h n (by simp)).present n.isNull_toJson

theorem readsAs_slots {slots : List (Option Node)}
    (h : ∀ n ∈ slots.filterMap id, ReadsAs read n.toJson n) :
    ReadsAs (Json.list? (Json.nullable? read)) (.array (toJsonSlots slots)) slots := by
  rw [toJsonSlots_eq_map]
  refine .list fun slot hslot => readsAs_option fun n hn => h n ?_
  exact List.mem_filterMap.2 ⟨slot, hslot, by simpa using hn⟩

theorem readsAs_body {body : Option (List Node)}
    (h : ∀ n ∈ body.toList.flatten, ReadsAs read n.toJson n) :
    ReadsAs (Json.nullable? (Json.list? read)) (toJsonBody body) body := by
  cases body with
  | none => exact .absent
  | some nodes => exact (readsAs_list fun n hn => h n (by simpa using hn)).present rfl

/-- The whole of an object is read as soon as its parts are. -/
theorem readsAs_treeObject {n : Node} {rounds : Nat} (hspan : Json.find? "span" parts = none)
    (h : ∀ json, (treeObject kind parts s).Same json →
      ofObject? (ofJson? rounds) json kind s = some n) :
    ReadsAs (ofJson? (rounds + 1)) (treeObject kind parts s) n := by
  intro json hsame
  have hplace : Json.find? "span" (("node", .string kind) :: parts ++ [("span", s.toJson)]) =
      some s.toJson := by
    rw [Dump.find?_append, Json.find?, hspan]
    rfl
  exact some_bind ((ReadsAs.string kind).member rfl hsame) <|
    some_bind (s.readsAs_toJson.member hplace hsame) (h json hsame)

section

variable {rounds : Nat}

theorem readsAs_classDecl {label resolved : Option Node} {members : List Node}
    (h : ∀ n ∈ (classDecl label resolved members s).children,
      ReadsAs (ofJson? rounds) n.toJson n) :
    ReadsAs (ofJson? (rounds + 1)) (classDecl label resolved members s).toJson
      (.classDecl label resolved members s) := by
  obtain ⟨hlabels, hmembers⟩ := List.forall_mem_append.1 h
  obtain ⟨hlabel, hresolved⟩ := List.forall_mem_append.1 hlabels
  exact readsAs_treeObject rfl fun json hsame =>
    some_bind ((readsAs_option hlabel).member rfl hsame) <|
    some_bind ((readsAs_option hresolved).member rfl hsame) <|
    some_bind ((readsAs_list hmembers).member rfl hsame) rfl

theorem readsAs_method {modifiers : Modifiers} {label : Node} {params : List Node}
    {body : Option (List Node)}
    (h : ∀ n ∈ (method modifiers label params body s).children,
      ReadsAs (ofJson? rounds) n.toJson n) :
    ReadsAs (ofJson? (rounds + 1)) (method modifiers label params body s).toJson
      (.method modifiers label params body s) := by
  obtain ⟨hlabel, h⟩ := List.forall_mem_cons.1 h
  obtain ⟨hparams, hbody⟩ := List.forall_mem_append.1 h
  exact readsAs_treeObject rfl fun json hsame =>
    some_bind (modifiers.readsAs_toJson.member rfl hsame) <|
    some_bind (hlabel.member rfl hsame) <|
    some_bind ((readsAs_list hparams).member rfl hsame) <|
    some_bind ((readsAs_body hbody).member rfl hsame) rfl

theorem readsAs_closure {params uses body : List Node}
    (h : ∀ n ∈ (closure params uses body s).children, ReadsAs (ofJson? rounds) n.toJson n) :
    ReadsAs (ofJson? (rounds + 1)) (closure params uses body s).toJson
      (.closure params uses body s) := by
  obtain ⟨h, hbody⟩ := List.forall_mem_append.1 h
  obtain ⟨hparams, huses⟩ := List.forall_mem_append.1 h
  exact readsAs_treeObject rfl fun json hsame =>
    some_bind ((readsAs_list hparams).member rfl hsame) <|
    some_bind ((readsAs_list huses).member rfl hsame) <|
    some_bind ((readsAs_list hbody).member rfl hsame) rfl

/-- A number that is not finite would be written as null. -/
theorem readsAs_float {value : Double} (hfinite : value.isFinite) :
    ReadsAs (ofJson? (rounds + 1)) (float value s).toJson (.float value s) := by
  have hvalue : value.toJson = .real value := by rw [Double.toJson, if_pos hfinite]
  have hjson : (float value s).toJson = treeObject "Float" [("value", .real value)] s := by
    rw [← hvalue]
    rfl
  rw [hjson]
  exact readsAs_treeObject rfl fun json hsame =>
    some_bind ((ReadsAs.real value).member rfl hsame) rfl

end

end

/-- A tree is read back from its JSON form. -/
theorem toJson_readsAs {t : Node} (h : ∀ n : Node, n.Occurs t → n.IsFinite) :
    ∀ rounds, sizeOf t ≤ rounds → Json.ReadsAs (ofJson? rounds) t.toJson t := by
  induction t using Node.induction with
  | step t ih =>
  rintro (_ | rounds) hrounds
  · cases t <;> simp at hrounds
  replace ih : ∀ child ∈ t.children, Json.ReadsAs (ofJson? rounds) child.toJson child := by
    intro child hchild
    have hlt := sizeOf_lt_of_mem_children hchild
    exact ih child hchild (fun n hn => h n (.inside hchild hn)) rounds (by omega)
  cases t with
  | expression expr s | argument expr s | parameter expr s | constant expr s =>
    have hexpr := ih expr List.mem_cons_self
    exact readsAs_treeObject rfl fun json hsame => some_bind (hexpr.member rfl hsame) rfl
  | returns value s =>
    exact readsAs_treeObject rfl fun json hsame =>
      some_bind ((readsAs_option ih).member rfl hsame) rfl
  | namespaceBlock label body s =>
    obtain ⟨hlabel, hbody⟩ := List.forall_mem_append.1 ih
    exact readsAs_treeObject rfl fun json hsame =>
      some_bind ((readsAs_option hlabel).member rfl hsame) <|
      some_bind ((readsAs_list hbody).member rfl hsame) rfl
  | classDecl label resolved members s => exact readsAs_classDecl ih
  | property modifiers items s =>
    exact readsAs_treeObject rfl fun json hsame =>
      some_bind (modifiers.readsAs_toJson.member rfl hsame) <|
      some_bind ((readsAs_list ih).member rfl hsame) rfl
  | propertyItem label initial s =>
    obtain ⟨hlabel, hinitial⟩ := List.forall_mem_cons.1 ih
    exact readsAs_treeObject rfl fun json hsame =>
      some_bind (hlabel.member rfl hsame) <|
      some_bind ((readsAs_option hinitial).member rfl hsame) rfl
  | method modifiers label params body s => exact readsAs_method ih
  | methodCall target label args s =>
    obtain ⟨htarget, ih⟩ := List.forall_mem_cons.1 ih
    obtain ⟨hlabel, hargs⟩ := List.forall_mem_cons.1 ih
    exact readsAs_treeObject rfl fun json hsame =>
      some_bind (htarget.member rfl hsame) <| some_bind (hlabel.member rfl hsame) <|
      some_bind ((readsAs_list hargs).member rfl hsame) rfl
  | functionCall callee args s | construct callee args s =>
    obtain ⟨hcallee, hargs⟩ := List.forall_mem_cons.1 ih
    exact readsAs_treeObject rfl fun json hsame =>
      some_bind (hcallee.member rfl hsame) <| some_bind ((readsAs_list hargs).member rfl hsame) rfl
  | index base key s =>
    obtain ⟨hbase, hkey⟩ := List.forall_mem_cons.1 ih
    exact readsAs_treeObject rfl fun json hsame =>
      some_bind (hbase.member rfl hsame) <| some_bind ((readsAs_option hkey).member rfl hsame) rfl
  | member left right s | assign left right s | addAssign left right s | concat left right s =>
    have hleft := ih left List.mem_cons_self
    have hright := ih right (by simp [children])
    exact readsAs_treeObject rfl fun json hsame =>
      some_bind (hleft.member rfl hsame) <| some_bind (hright.member rfl hsame) rfl
  | arrowFunction params body s =>
    obtain ⟨hparams, hbody⟩ := List.forall_mem_append.1 ih
    have hbody := hbody body List.mem_cons_self
    exact readsAs_treeObject rfl fun json hsame =>
      some_bind ((readsAs_list hparams).member rfl hsame) <|
      some_bind (hbody.member rfl hsame) rfl
  | closure params uses body s => exact readsAs_closure ih
  | array slots s =>
    exact readsAs_treeObject rfl fun json hsame =>
      some_bind ((readsAs_slots ih).member rfl hsame) rfl
  | arrayItem key value s =>
    obtain ⟨hkey, hvalue⟩ := List.forall_mem_append.1 ih
    have hvalue := hvalue value List.mem_cons_self
    exact readsAs_treeObject rfl fun json hsame =>
      some_bind ((readsAs_option hkey).member rfl hsame) <|
      some_bind (hvalue.member rfl hsame) rfl
  | var label s | string label s | identifier label s =>
    exact readsAs_treeObject rfl fun json hsame =>
      some_bind ((Json.ReadsAs.string label).member rfl hsame) rfl
  | integer value s =>
    exact readsAs_treeObject rfl fun json hsame =>
      some_bind ((Json.ReadsAs.integer value).member rfl hsame) rfl
  | float value s => exact readsAs_float (h _ .here)
  | name parts fullyQualified s =>
    have hparts : Json.ReadsAs (Json.list? Json.string?) (.array (parts.map .string)) parts :=
      .list fun part _ => .string part
    exact readsAs_treeObject rfl fun json hsame =>
      some_bind (hparts.member rfl hsame) <|
      some_bind ((Json.ReadsAs.bool fullyQualified).member rfl hsame) rfl
  | other kind children s =>
    exact readsAs_treeObject rfl fun json hsame =>
      some_bind ((Json.ReadsAs.string kind).member rfl hsame) <|
      some_bind ((readsAs_list ih).member rfl hsame) rfl

/-! ## Names -/

section

open Json (IsUnambiguous isUnambiguous_array)

/-- The names of the parts have to keep clear of each other and of the two that every node has. -/
theorem treeObject_isUnambiguous {kind : String} {parts : List (String × Json)} {s : Span}
    (hnames : ("node" :: parts.map Prod.fst ++ ["span"]).Nodup)
    (hparts : ∀ part ∈ parts, part.2.IsUnambiguous) : (treeObject kind parts s).IsUnambiguous := by
  have hspan : s.toJson.IsUnambiguous := .object (by simp) (by simp [IsUnambiguous.integer])
  refine .object (by simpa using hnames) (List.forall_mem_cons.2 ⟨.string kind, ?_⟩)
  exact List.forall_mem_append.2 ⟨hparts, List.forall_mem_singleton.2 hspan⟩

theorem isUnambiguous_list {nodes : List Node} :
    (Json.array (toJsonList nodes)).IsUnambiguous ↔ ∀ n ∈ nodes, n.toJson.IsUnambiguous := by
  simp [toJsonList_eq_map, isUnambiguous_array]

theorem isUnambiguous_option {n? : Option Node} :
    (toJsonOption n?).IsUnambiguous ↔ ∀ n ∈ n?.toList, n.toJson.IsUnambiguous := by
  cases n? <;> simp [toJsonOption, IsUnambiguous.null]

theorem isUnambiguous_slots {slots : List (Option Node)} :
    (Json.array (toJsonSlots slots)).IsUnambiguous ↔
      ∀ n ∈ slots.filterMap id, n.toJson.IsUnambiguous := by
  simp only [toJsonSlots_eq_map, isUnambiguous_array, List.forall_mem_map, isUnambiguous_option]
  simp only [List.mem_filterMap, Option.mem_toList, id, ← Option.mem_def]
  grind

theorem isUnambiguous_body {body : Option (List Node)} :
    (toJsonBody body).IsUnambiguous ↔ ∀ n ∈ body.toList.flatten, n.toJson.IsUnambiguous := by
  cases body <;> simp [toJsonBody, isUnambiguous_list, IsUnambiguous.null]

/-- No two members of an object in the JSON form of a tree have one name. -/
theorem toJson_isUnambiguous (t : Node) : t.toJson.IsUnambiguous := by
  induction t using Node.induction with
  | step t ih =>
  have hreal (x : Double) : x.toJson.IsUnambiguous := by
    unfold Double.toJson
    split
    · exact .real x
    · exact .null
  have hmodifiers (m : Modifiers) : m.toJson.IsUnambiguous := .string _
  have hparts (parts : List String) : (Json.array (parts.map .string)).IsUnambiguous :=
    .array (by simp [IsUnambiguous.string])
  cases t with
  | var | integer | float | string | identifier | name =>
    refine treeObject_isUnambiguous (by simp) ?_
    simp [hreal, hparts, IsUnambiguous.string, IsUnambiguous.integer, IsUnambiguous.bool]
  | _ =>
    refine treeObject_isUnambiguous (by simp) ?_
    simpa only [children, List.forall_mem_cons, List.forall_mem_append, List.not_mem_nil,
      List.cons_append, false_imp_iff, implies_true, and_true, true_and, and_assoc,
      isUnambiguous_list, isUnambiguous_option, isUnambiguous_slots, isUnambiguous_body,
      hmodifiers, IsUnambiguous.string] using ih

end

/-- The JSON form of trees determines them, spans included, as far as their numbers are finite:
    no object has two members of one name, and only equal lists of trees hold the same. -/
theorem same_toJsonList_iff {ns ms : List Node}
    (hns : ∀ t ∈ ns, ∀ n : Node, n.Occurs t → n.IsFinite)
    (hms : ∀ t ∈ ms, ∀ n : Node, n.Occurs t → n.IsFinite) :
    (Json.array (toJsonList ns)).IsUnambiguous ∧
      ((Json.array (toJsonList ns)).Same (.array (toJsonList ms)) ↔ ns = ms) := by
  have hread {ts : List Node} (hts : ∀ t ∈ ts, ∀ n : Node, n.Occurs t → n.IsFinite)
      (rounds : Nat) (hle : sizeOf ts ≤ rounds) :
      Json.ReadsAs (Json.list? (ofJson? rounds)) (.array (toJsonList ts)) ts :=
    readsAs_list fun t ht => toJson_readsAs (hts t ht) rounds <|
      Nat.le_trans (Nat.le_of_lt (List.sizeOf_lt_of_mem ht)) hle
  refine ⟨isUnambiguous_list.2 fun t _ => toJson_isUnambiguous t, fun hsame => ?_, ?_⟩
  · -- What holds the same is read as the same.
    have hleft := hread hns (max (sizeOf ns) (sizeOf ms)) (Nat.le_max_left _ _) hsame
    have hright := hread hms (max (sizeOf ns) (sizeOf ms)) (Nat.le_max_right _ _) (.refl _)
    exact Option.some.inj (hleft.symm.trans hright)
  · rintro rfl
    exact .refl _

/-- An abstract method, and an array with empty slots around a value in a construct without a
    rule. -/
def scattered (value : Node) : List Node :=
  [.method { isPublic := true, isAbstract := true } (.identifier "f" ⟨0, 1⟩) [] none ⟨0, 3⟩,
   .other "Stmt_Echo" [.array [none, some (.arrayItem none value ⟨7, 8⟩), none] ⟨5, 9⟩] ⟨4, 10⟩]

/-- Numbers that are equal are told apart: minus zero from zero, and both from the whole number. -/
theorem not_same_scattered :
    (Json.array (toJsonList (scattered (.float (.zero true) ⟨7, 8⟩)))).IsUnambiguous ∧
    ¬ (Json.array (toJsonList (scattered (.float (.zero true) ⟨7, 8⟩)))).Same
      (.array (toJsonList (scattered (.float (.zero false) ⟨7, 8⟩)))) ∧
    ¬ (Json.array (toJsonList (scattered (.float (.zero true) ⟨7, 8⟩)))).Same
      (.array (toJsonList (scattered (.integer 0 ⟨7, 8⟩)))) := by
  have hleaf {n : Node} (hn : n.IsFinite) (hc : n.children = [] := by rfl) :
      ∀ m : Node, m.Occurs n → m.IsFinite := forall_occurs hn (by simp [hc])
  have hone {n child : Node} (hn : n.IsFinite) (hchild : ∀ m : Node, m.Occurs child → m.IsFinite)
      (hc : n.children = [child] := by rfl) : ∀ m : Node, m.Occurs n → m.IsFinite :=
    forall_occurs hn (by simpa [hc] using hchild)
  have hfinite {value : Node} (hvalue : ∀ m : Node, m.Occurs value → m.IsFinite) :
      ∀ t ∈ scattered value, ∀ m : Node, m.Occurs t → m.IsFinite := by
    have hlabel := hleaf (n := .identifier "f" ⟨0, 1⟩) trivial
    have hmethod := hone
      (n := .method { isPublic := true, isAbstract := true } _ [] none ⟨0, 3⟩) trivial hlabel
    have hitem := hone (n := .arrayItem none value ⟨7, 8⟩) trivial hvalue
    have harray := hone (n := .array [none, some _, none] ⟨5, 9⟩) trivial hitem
    have hother := hone (n := .other "Stmt_Echo" [_] ⟨4, 10⟩) trivial harray
    exact List.forall_mem_cons.2 ⟨hmethod, List.forall_mem_singleton.2 hother⟩
  have hzero (negative : Bool) : (Double.zero negative).isFinite := by cases negative <;> decide
  have hminus := hfinite (hleaf (n := .float (.zero true) ⟨7, 8⟩) (hzero true))
  have hplus := hfinite (hleaf (n := .float (.zero false) ⟨7, 8⟩) (hzero false))
  have hwhole := hfinite (hleaf (n := .integer 0 ⟨7, 8⟩) trivial)
  obtain ⟨hnames, hzeros⟩ := same_toJsonList_iff hminus hplus
  obtain ⟨-, hkinds⟩ := same_toJsonList_iff hminus hwhole
  refine ⟨hnames, fun h => ?_, fun h => ?_⟩
  · cases hzeros.1 h
  · cases hkinds.1 h

end Node

end PhpScript
