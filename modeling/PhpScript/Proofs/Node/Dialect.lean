import PhpScript.Node.Dump
import PhpScript.Node.Tree
import PhpScript.Proofs.Node.Bare
import PhpScript.Proofs.Parse.Occurrence

/-!
# Writing dumps

The other direction of `Dump.readNode`: the dump of a tree, in each of the two
dialects. They name a few kinds of node differently, and one of them keeps the
parts of a name apart where the other joins them.

A dump holds whatever a tree holds, so reading it gives the tree back, spans
included (`Dump.readNode_writeNode`). Left out are the trees that no dump has:
`Node.IsDumpable` says which nodes can stand in one.
-/

namespace PhpScript

/-! ## Dialects -/

/-- A dialect of the dumps, by the version that it came with. -/
inductive Dialect
  | four
  | five
deriving DecidableEq, Repr

namespace Dialect

/-- The kind of a whole number. -/
def integer : Dialect → String
  | four => "Scalar_LNumber"
  | five => "Scalar_Int"

/-- The kind of a floating-point number. -/
def float : Dialect → String
  | four => "Scalar_DNumber"
  | five => "Scalar_Float"

/-- The kind of one name of a property declaration. -/
def propertyItem : Dialect → String
  | four => "Stmt_PropertyProperty"
  | five => "PropertyItem"

/-- The kind of an item of an array. -/
def arrayItem : Dialect → String
  | four => "Expr_ArrayItem"
  | five => "ArrayItem"

/-- The kind of a variable that a closure binds. -/
def closureUse : Dialect → String
  | four => "Expr_ClosureUse"
  | five => "ClosureUse"

/-- The member that holds the parts of a name. -/
def nameParts (parts : List String) : Dialect → String × Json
  | four => ("parts", .array (parts.map .string))
  | five => ("name", .string (String.intercalate "\\" parts))

end Dialect

/-- Modifiers as a bit set, the first of them being the lowest bit. -/
def Modifiers.bits (m : Modifiers) : Nat :=
  m.isPublic.toNat + 2 * m.isProtected.toNat + 4 * m.isPrivate.toNat + 8 * m.isStatic.toNat +
    16 * m.isAbstract.toNat + 32 * m.isFinal.toNat + 64 * m.isReadonly.toNat

theorem Modifiers.bits_lt (m : Modifiers) : m.bits < twoTo 32 := by
  obtain ⟨a, b, c, d, e, f, g⟩ := m
  revert a b c d e f g
  decide

theorem Modifiers.ofBits_bits (m : Modifiers) : ofBits m.bits = m := by
  obtain ⟨a, b, c, d, e, f, g⟩ := m
  revert a b c d e f g
  decide

namespace Dump

/-! ## Writing -/

/-- The attributes of a node: its first and its last position, if they are known. -/
def attributes (s : Span) : List (String × Json) :=
  if s = .unknown then []
  else [("attributes", .object
    [("startFilePos", .integer s.start), ("endFilePos", .integer (s.stop - 1 : Nat))])]

/-- The object of a node with the given kind, members and span. -/
def object (nodeType : String) (members : List (String × Json)) (s : Span) : Json :=
  .object (("nodeType", .string nodeType) :: members ++ attributes s)

/-- The object of an identifier, of which there are two kinds. -/
def writeIdentifier (nodeType label : String) (s : Span) : Json :=
  object nodeType [("name", .string label)] s

section

variable (d : Dialect)

mutual

/-- The dump of a tree. -/
def writeNode : Node → Json
  | .expression expr s => object "Stmt_Expression" [("expr", writeNode expr)] s
  | .returns value s => object "Stmt_Return" [("expr", writeOption value)] s
  | .namespaceBlock label body s =>
    object "Stmt_Namespace" [("name", writeOption label), ("stmts", .array (writeList body))] s
  | .classDecl label resolved members s =>
    object "Stmt_Class"
      [("name", writeOption label), ("extends", .null), ("implements", .array []),
       ("stmts", .array (writeList members)), ("namespacedName", writeOption resolved)] s
  | .property modifiers items s =>
    object "Stmt_Property"
      [("flags", .integer modifiers.bits), ("props", .array (writeList items))] s
  | .propertyItem (.identifier label place) initial s =>
    object d.propertyItem
      [("name", writeIdentifier "VarLikeIdentifier" label place),
       ("default", writeOption initial)] s
  | .propertyItem label initial s =>
    object d.propertyItem [("name", writeNode label), ("default", writeOption initial)] s
  | .method modifiers label params body s =>
    object "Stmt_ClassMethod"
      [("flags", .integer modifiers.bits), ("byRef", .bool false), ("name", writeNode label),
       ("params", .array (writeList params)), ("stmts", writeBody body)] s
  | .methodCall target label args s =>
    object "Expr_MethodCall"
      [("var", writeNode target), ("name", writeNode label), ("args", .array (writeList args))] s
  | .functionCall callee args s =>
    object "Expr_FuncCall" [("name", writeNode callee), ("args", .array (writeList args))] s
  | .construct cls args s =>
    object "Expr_New" [("class", writeNode cls), ("args", .array (writeList args))] s
  | .index base key s =>
    object "Expr_ArrayDimFetch" [("var", writeNode base), ("dim", writeOption key)] s
  | .member base label s =>
    object "Expr_PropertyFetch" [("var", writeNode base), ("name", writeNode label)] s
  | .assign target value s =>
    object "Expr_Assign" [("var", writeNode target), ("expr", writeNode value)] s
  | .addAssign target value s =>
    object "Expr_AssignOp_Plus" [("var", writeNode target), ("expr", writeNode value)] s
  | .concat left right s =>
    object "Expr_BinaryOp_Concat" [("left", writeNode left), ("right", writeNode right)] s
  | .arrowFunction params body s =>
    object "Expr_ArrowFunction"
      [("byRef", .bool false), ("params", .array (writeList params)), ("expr", writeNode body)] s
  | .closure params uses body s =>
    object "Expr_Closure"
      [("byRef", .bool false), ("params", .array (writeList params)),
       ("uses", .array (writeUses uses)), ("stmts", .array (writeList body))] s
  | .array slots s => object "Expr_Array" [("items", .array (writeSlots slots))] s
  | .arrayItem key value s =>
    object d.arrayItem
      [("key", writeOption key), ("value", writeNode value), ("byRef", .bool false),
       ("unpack", .bool false)] s
  | .argument value s =>
    object "Arg"
      [("name", .null), ("value", writeNode value), ("byRef", .bool false),
       ("unpack", .bool false)] s
  | .parameter bound s =>
    object "Param"
      [("byRef", .bool false), ("variadic", .bool false), ("var", writeNode bound),
       ("default", .null), ("flags", .integer 0)] s
  | .var label s => object "Expr_Variable" [("name", .string label)] s
  | .constant label s => object "Expr_ConstFetch" [("name", writeNode label)] s
  | .integer value s => object d.integer [("value", .integer value)] s
  | .float value s => object d.float [("value", value.toJson)] s
  | .string value s => object "Scalar_String" [("value", .string value)] s
  | .identifier label s => writeIdentifier "Identifier" label s
  | .name parts fullyQualified s =>
    object (if fullyQualified then "Name_FullyQualified" else "Name") [d.nameParts parts] s
  | .other kind _ s => object kind [] s

/-- The dumps of the nodes of a list. -/
def writeList : List Node → List Json
  | [] => []
  | node :: rest => writeNode node :: writeList rest

/-- The dump of a part that may be absent. -/
def writeOption : Option Node → Json
  | none => .null
  | some node => writeNode node

/-- The dumps of the slots of an array. -/
def writeSlots : List (Option Node) → List Json
  | [] => []
  | slot :: rest => writeOption slot :: writeSlots rest

/-- The dumps of the variables that a closure binds, each in an object of its own. -/
def writeUses : List Node → List Json
  | [] => []
  | bound :: rest =>
    object d.closureUse [("var", writeNode bound), ("byRef", .bool false)] bound.span ::
      writeUses rest

/-- The dump of the body of a method, which an abstract one lacks. -/
def writeBody : Option (List Node) → Json
  | none => .null
  | some body => .array (writeList body)

end

end

end Dump

/-! ## Trees with a dump -/

/-- A span that attributes can hold: it points nowhere, or it covers something. -/
def Span.IsDumpable (s : Span) : Prop := s = .unknown ∨ s.start < s.stop ∧ s.stop ≤ limit

/-- Whether the node itself can stand in a dump, whatever is below it. -/
def Node.IsDumpable (n : Node) : Prop :=
  n.span.IsDumpable ∧
    match n with
    | other .. => False
    | name parts _ _ => parts ≠ [] ∧ ∀ part ∈ parts, '\\' ∉ part.toList
    | construct cls _ _ => ∀ label resolved members s, cls ≠ .classDecl label resolved members s
    | float value _ => value.isFinite
    | integer value _ => -(twoTo 63 : Int) ≤ value ∧ value < twoTo 63
    | _ => True

namespace Dump

/-! ## Members -/

theorem find?_append (name : String) (xs ys : List (String × Json)) :
    Json.find? name (xs ++ ys) = (Json.find? name xs).or (Json.find? name ys) := by
  induction xs with
  | nil => simp [Json.find?]
  | cons x xs ih =>
    simp only [List.cons_append, Json.find?]
    split
    · rfl
    · exact ih

theorem depth_le_of_find? {name : String} {members : List (String × Json)} {json : Json}
    (h : Json.find? name members = some json) : json.depth ≤ Json.depthMembers members := by
  induction members with
  | nil => cases h
  | cons member members ih =>
    simp only [Json.find?] at h
    rw [Json.depthMembers]
    split at h
    · cases h
      exact Nat.le_max_left _ _
    · exact Nat.le_trans (ih h) (Nat.le_max_right _ _)

theorem depth_le_of_mem {json : Json} {items : List Json} (h : json ∈ items) :
    json.depth ≤ Json.depthItems items := by
  induction items with
  | nil => cases h
  | cons item items ih =>
    rw [Json.depthItems]
    rcases List.mem_cons.1 h with rfl | h
    · exact Nat.le_max_left _ _
    · exact Nat.le_trans (ih h) (Nat.le_max_right _ _)

theorem depthMembers_append (xs ys : List (String × Json)) :
    Json.depthMembers (xs ++ ys) = max (Json.depthMembers xs) (Json.depthMembers ys) := by
  induction xs with
  | nil => simp [Json.depthMembers]
  | cons x xs ih => simp [Json.depthMembers, ih, Nat.max_assoc]

/-- The members of an object apart from its attributes. -/
abbrev ownMembers (nodeType : String) (members : List (String × Json)) : List (String × Json) :=
  ("nodeType", .string nodeType) :: members

/-- What an object holds is less deep than the object. -/
theorem depthMembers_lt {nodeType : String} {members : List (String × Json)} {s : Span} :
    Json.depthMembers (ownMembers nodeType members) < (object nodeType members s).depth := by
  simp only [object, Json.depth, Json.depthMembers, List.cons_append, depthMembers_append]
  omega

/-! ## Spans -/

theorem find?_attributes {name : String} (h : name ≠ "attributes") (s : Span) :
    Json.find? name (attributes s) = none := by
  unfold attributes
  split
  · rfl
  · simp [Json.find?, h.symm]

theorem position?_of_find? {n : Nat} {name : String} {members : List (String × Json)}
    (h : Json.find? name members = some (.integer n)) (hn : n ≤ Span.limit) :
    position? members name = some n := by
  have hlimit : (Span.limit : Int) < twoTo 63 := by
    rw [twoTo]
    simp [Span.limit]
  have hrange : -(twoTo 63 : Int) ≤ n ∧ (n : Int) < twoTo 63 := by
    generalize twoTo 63 = m at *
    generalize Span.limit = l at *
    omega
  have hint : (Json.integer n).int64? = some (n : Int) := by rw [Json.int64?, if_pos hrange]
  have hle : (0 : Int) ≤ n ∧ (n : Int) ≤ Span.limit := ⟨Int.natCast_nonneg n, Int.ofNat_le.2 hn⟩
  rw [position?, h, Option.bind_eq_bind, Option.bind_some, hint, Option.bind_eq_bind,
    Option.bind_some, if_pos hle, Int.toNat_natCast]

/-- The span of an object is read back, also next to the largest offset. -/
theorem spanOf_object {nodeType : String} {members : List (String × Json)} {s : Span}
    (hs : s.IsDumpable) (hm : Json.find? "attributes" members = none) :
    spanOf (("nodeType", .string nodeType) :: members ++ attributes s) = s := by
  have hfind : Json.find? "attributes" (("nodeType", .string nodeType) :: members ++ attributes s) =
      Json.find? "attributes" (attributes s) := by
    simp [Json.find?, find?_append, hm]
  simp only [spanOf, hfind]
  rcases hs with rfl | ⟨hlt, hle⟩
  · simp [attributes, Json.find?, position?]
  · have hne : s ≠ .unknown := by
      rintro rfl
      exact Nat.lt_irrefl _ hlt
    simp only [attributes, if_neg hne, Json.find?, beq_self_eq_true, if_true, Option.bind_some,
      Json.members?, Option.getD_some]
    rw [position?_of_find? (n := s.start) (by simp [Json.find?]) (by omega),
      position?_of_find? (n := s.stop - 1) (by simp [Json.find?]) (by omega)]
    simp only
    rw [if_pos (by omega), show s.stop - 1 + 1 = s.stop by omega, Nat.min_eq_left hle]

/-! ## Reading entries -/

/-- One step after the other. -/
theorem ok_bind {x : Except Error α} {f : α → Except Error β} {a : α} {b : β} (hx : x = .ok a)
    (hf : f a = .ok b) : x >>= f = .ok b := by
  rw [hx]
  exact hf

theorem ok_map {x : Except Error α} {a : α} (f : α → β) (hx : x = .ok a) :
    f <$> x = .ok (f a) := by
  rw [hx]
  rfl

/-- What is written item by item is read item by item. -/
theorem mapM_map_eq_ok {write : α → Json} {read : Json → Except Error α} {xs : List α}
    (h : ∀ x ∈ xs, read (write x) = .ok x) : (xs.map write).mapM read = .ok xs := by
  induction xs with
  | nil => rfl
  | cons x xs ih =>
    rw [List.forall_mem_cons] at h
    rw [List.map_cons, List.mapM_cons, h.1, ih h.2]
    rfl

/-- What is read of an object. -/
def entry (nodeType : String) (members : List (String × Json)) (s : Span) : Entry :=
  ⟨nodeType, ("nodeType", .string nodeType) :: members ++ attributes s, s⟩

@[simp] theorem nodeType_entry (nodeType : String) (members : List (String × Json)) (s : Span) :
    (entry nodeType members s).nodeType = nodeType := rfl

@[simp] theorem span_entry (nodeType : String) (members : List (String × Json)) (s : Span) :
    (entry nodeType members s).span = s := rfl

theorem readNode_object {nodeType : String} {members : List (String × Json)} {s : Span}
    {rounds : Nat} (hs : s.IsDumpable) (hm : Json.find? "attributes" members = none) :
    readNode (rounds + 1) (object nodeType members s) =
      readEntry (readNode rounds) (entry nodeType members s) := by
  rw [readNode, object, readWith, spanOf_object hs hm]
  simp [Json.find?, Json.string?, entry]

/-- The value is read as the tree, in as many rounds as it is deep or more. -/
def IsReadAs (json : Json) (n : Node) : Prop :=
  ∀ rounds, json.depth ≤ rounds → readNode rounds json = .ok n

theorem IsReadAs.not_isNull {json : Json} {n : Node} (h : IsReadAs json n) :
    json.isNull = false := by
  cases json with
  | null => cases h 1 (Nat.zero_le _)
  | _ => rfl

section

variable {nodeType name : String} {members : List (String × Json)} {s : Span} {json : Json}
  {n : Node} {rounds : Nat}

theorem IsReadAs.of_entry (hs : s.IsDumpable) (hm : Json.find? "attributes" members = none)
    (h : ∀ rounds, (object nodeType members s).depth ≤ rounds + 1 →
      readEntry (readNode rounds) (entry nodeType members s) = .ok n) :
    IsReadAs (object nodeType members s) n := by
  intro rounds hdepth
  have hlt : Json.depthMembers (ownMembers nodeType members) <
      (object nodeType members s).depth := depthMembers_lt
  obtain ⟨rounds, rfl⟩ := Nat.exists_eq_succ_of_ne_zero (show rounds ≠ 0 by omega)
  rw [readNode_object hs hm]
  exact h rounds hdepth

theorem find?_entry (nodeType name : String) (members : List (String × Json)) (s : Span) :
    Json.find? name (entry nodeType members s).members =
      (Json.find? name (ownMembers nodeType members)).or (Json.find? name (attributes s)) :=
  find?_append ..

theorem get?_entry (hjson : Json.find? name (ownMembers nodeType members) = some json)
    (hnull : json.isNull = false) : (entry nodeType members s).get? name = some json := by
  simp [Entry.get?, find?_entry, hjson, hnull]

/-- A member that is null is absent, and so is one that is not there. -/
theorem get?_entry_null (hjson : Json.find? name (ownMembers nodeType members) = some .null) :
    (entry nodeType members s).get? name = none := by
  simp [Entry.get?, find?_entry, hjson, Json.isNull]

theorem get?_entry_none (hjson : Json.find? name (ownMembers nodeType members) = none)
    (hname : name ≠ "attributes") : (entry nodeType members s).get? name = none := by
  simp [Entry.get?, find?_entry, hjson, find?_attributes hname]

theorem string_entry {text : String}
    (hjson : Json.find? name (ownMembers nodeType members) = some (.string text)) :
    (entry nodeType members s).string name = .ok text := by
  simp [Entry.string, get?_entry hjson rfl, Json.string?]

/-- A flag that is not set refuses nothing. -/
theorem refuse_entry {what : Unsupported}
    (hjson : Json.find? name (ownMembers nodeType members) = some (.bool false)) :
    (entry nodeType members s).refuse name what = .ok () := by
  simp [Entry.refuse, get?_entry hjson rfl, Json.bool?]

theorem modifiers_entry {m : Modifiers}
    (hjson : Json.find? "flags" (ownMembers nodeType members) = some (.integer m.bits)) :
    (entry nodeType members s).modifiers = m := by
  simp [Entry.modifiers, get?_entry hjson rfl, Int.ofNat_lt.2 m.bits_lt, m.ofBits_bits]

section

variable (hdepth : (object nodeType members s).depth ≤ rounds + 1)

include hdepth

theorem depth_le_rounds (hjson : Json.find? name (ownMembers nodeType members) = some json) :
    json.depth ≤ rounds := by
  have hle := depth_le_of_find? hjson
  have hlt : Json.depthMembers (ownMembers nodeType members) <
      (object nodeType members s).depth := depthMembers_lt
  omega

theorem node_entry (hn : IsReadAs json n)
    (hjson : Json.find? name (ownMembers nodeType members) = some json) :
    (entry nodeType members s).node (readNode rounds) name = .ok n := by
  simp only [Entry.node, get?_entry hjson hn.not_isNull]
  exact hn rounds (depth_le_rounds hdepth hjson)

theorem node?_entry {d : Dialect} {n? : Option Node}
    (hn : ∀ n ∈ n?.toList, IsReadAs (writeNode d n) n)
    (hjson : Json.find? name (ownMembers nodeType members) = some (writeOption d n?)) :
    (entry nodeType members s).node? (readNode rounds) name = .ok n? := by
  cases n? with
  | none =>
    rw [writeOption] at hjson
    simp only [Entry.node?, get?_entry_null hjson]
  | some n =>
    rw [writeOption] at hjson
    replace hn := hn n List.mem_cons_self
    simp only [Entry.node?, get?_entry hjson hn.not_isNull]
    rw [hn rounds (depth_le_rounds hdepth hjson)]
    rfl

/-- A list whose items are read one by one. -/
theorem items_entry {write : α → Json} {read : Json → Except Error α} {xs : List α}
    (hread : ∀ x ∈ xs, (write x).depth ≤ rounds → read (write x) = .ok x)
    (hjson : Json.find? name (ownMembers nodeType members) = some (.array (xs.map write))) :
    ((entry nodeType members s).items name >>= (·.mapM read)) = .ok xs := by
  have hitems : (entry nodeType members s).items name = .ok (xs.map write) := by
    simp [Entry.items, get?_entry hjson rfl, Json.items?]
  have hle : Json.depthItems (xs.map write) + 1 ≤ rounds := by
    have hle := depth_le_rounds hdepth hjson
    rwa [Json.depth] at hle
  have hread : ∀ x ∈ xs, read (write x) = .ok x := by
    intro x hx
    have hdepth := depth_le_of_mem (List.mem_map_of_mem (f := write) hx)
    exact hread x hx (by omega)
  rw [hitems]
  exact mapM_map_eq_ok hread

end

end

/-! ## Lists -/

theorem writeList_eq_map (d : Dialect) (nodes : List Node) :
    writeList d nodes = nodes.map (writeNode d) :=
  eq_map_of_cons (by rw [writeList]) (fun _ _ => by rw [writeList]) nodes

theorem writeSlots_eq_map (d : Dialect) (slots : List (Option Node)) :
    writeSlots d slots = slots.map (writeOption d) :=
  eq_map_of_cons (by rw [writeSlots]) (fun _ _ => by rw [writeSlots]) slots

/-- The object of a variable that a closure binds. -/
def writeUse (d : Dialect) (bound : Node) : Json :=
  object d.closureUse [("var", writeNode d bound), ("byRef", .bool false)] bound.span

theorem writeUses_eq_map (d : Dialect) (uses : List Node) :
    writeUses d uses = uses.map (writeUse d) :=
  eq_map_of_cons (by rw [writeUses]) (fun _ _ => by rw [writeUses, writeUse]) uses

section

variable {d : Dialect} {nodeType name : String} {members : List (String × Json)} {s : Span}
  {rounds : Nat} (hdepth : (object nodeType members s).depth ≤ rounds + 1)

include hdepth

theorem nodes_entry {nodes : List Node} (hnodes : ∀ n ∈ nodes, IsReadAs (writeNode d n) n)
    (hjson : Json.find? name (ownMembers nodeType members) = some (.array (writeList d nodes))) :
    (entry nodeType members s).nodes (readNode rounds) name = .ok nodes := by
  rw [writeList_eq_map] at hjson
  exact items_entry hdepth (fun n hn => hnodes n hn rounds) hjson

theorem slots_entry {slots : List (Option Node)}
    (hslots : ∀ n ∈ slots.filterMap id, IsReadAs (writeNode d n) n)
    (hjson : Json.find? name (ownMembers nodeType members) = some (.array (writeSlots d slots))) :
    (entry nodeType members s).slots (readNode rounds) name = .ok slots := by
  rw [writeSlots_eq_map] at hjson
  refine items_entry hdepth (fun slot hslot hle => ?_) hjson
  cases slot with
  | none => simp [writeOption, Json.isNull]
  | some n =>
    have hn := hslots n (List.mem_filterMap.2 ⟨_, hslot, rfl⟩)
    rw [writeOption] at hle ⊢
    rw [if_neg (by simp [hn.not_isNull]), hn rounds hle]
    rfl

end

theorem writeUse_isReadAs {d : Dialect} {bound : Node} (hs : bound.span.IsDumpable)
    (hbound : IsReadAs (writeNode d bound) bound) : IsReadAs (writeUse d bound) bound := by
  refine .of_entry hs rfl fun rounds hdepth => ?_
  cases d <;> exact ok_bind (refuse_entry rfl) (node_entry hdepth hbound rfl)

theorem uses_entry {d : Dialect} {nodeType name : String} {members : List (String × Json)}
    {s : Span} {rounds : Nat} {uses : List Node}
    (hdepth : (object nodeType members s).depth ≤ rounds + 1)
    (huses : ∀ n ∈ uses, n.span.IsDumpable ∧ IsReadAs (writeNode d n) n)
    (hjson : Json.find? name (ownMembers nodeType members) = some (.array (writeUses d uses))) :
    (entry nodeType members s).nodes (readNode rounds) name = .ok uses := by
  rw [writeUses_eq_map] at hjson
  refine items_entry hdepth (fun n hn => ?_) hjson
  exact writeUse_isReadAs (huses n hn).1 (huses n hn).2 rounds

/-! ## Names -/

theorem split_of_not_mem {sep : Char} {cs : List Char} (h : sep ∉ cs) :
    Text.split sep cs = [cs] := by
  induction cs with
  | nil => rfl
  | cons c cs ih =>
    rw [List.mem_cons, not_or] at h
    simp [Text.split, Ne.symm h.1, ih h.2]

theorem split_append {sep : Char} {cs : List Char} (h : sep ∉ cs) (rest : List Char) :
    Text.split sep (cs ++ sep :: rest) = cs :: Text.split sep rest := by
  induction cs with
  | nil => simp [Text.split]
  | cons c cs ih =>
    rw [List.mem_cons, not_or] at h
    simp [Text.split, Ne.symm h.1, ih h.2]

theorem split_intercalate {sep : Char} {parts : List (List Char)} (hne : parts ≠ [])
    (h : ∀ part ∈ parts, sep ∉ part) : Text.split sep ([sep].intercalate parts) = parts := by
  match parts with
  | [] => exact absurd rfl hne
  | [part] => simpa using split_of_not_mem (h part List.mem_cons_self)
  | part :: next :: parts =>
    rw [List.forall_mem_cons] at h
    have ih := split_intercalate (List.cons_ne_nil next parts) h.2
    rw [List.intercalate_cons_cons, List.append_assoc, List.singleton_append, split_append h.1, ih]

theorem mapM_string? (texts : List String) :
    (texts.map Json.string).mapM Json.string? = some texts := by
  induction texts with
  | nil => rfl
  | cons text texts ih =>
    rw [List.map_cons, List.mapM_cons, ih]
    rfl

/-- The parts of a name are read back, whether they were joined or not. -/
theorem nameParts_entry {d : Dialect} {nodeType : String} {s : Span} {parts : List String}
    (hne : parts ≠ []) (h : ∀ part ∈ parts, '\\' ∉ part.toList) :
    (entry nodeType [d.nameParts parts] s).nameParts = .ok parts := by
  cases d with
  | four =>
    have hget : (entry nodeType [("parts", Json.array (parts.map .string))] s).get? "parts" =
        some (.array (parts.map .string)) := get?_entry rfl rfl
    simp only [Dialect.nameParts, Entry.nameParts]
    rw [hget, Option.bind_some, Json.items?]
    simp only [mapM_string?]
  | five =>
    have hget : (entry nodeType [("name", Json.string (String.intercalate "\\" parts))] s).get?
        "parts" = none := get?_entry_none rfl (by decide)
    have hsplit : Text.splitParts '\\' (String.intercalate "\\" parts) = parts := by
      rw [Text.splitParts, String.toList_intercalate, show "\\".toList = ['\\'] from rfl,
        split_intercalate (by simpa using hne) (by simpa using h)]
      simp
    simp only [Dialect.nameParts, Entry.nameParts]
    rw [hget, Option.bind_none]
    exact (ok_map _ (string_entry rfl)).trans (congrArg Except.ok hsplit)

/-! ## Reading back -/

theorem writeIdentifier_isReadAs {nodeType : String} {label : String} {s : Span}
    (hs : s.IsDumpable) (htype : nodeType = "Identifier" ∨ nodeType = "VarLikeIdentifier") :
    IsReadAs (writeIdentifier nodeType label s) (.identifier label s) := by
  refine .of_entry hs rfl fun rounds hdepth => ?_
  rcases htype with rfl | rfl <;> exact ok_bind (string_entry rfl) rfl

/-- Only a class that is declared in place makes the construction anonymous. -/
theorem isAnonymous_entry {d : Dialect} {nodeType : String} {cls : Node}
    {members : List (String × Json)} {s : Span} (hcls : IsReadAs (writeNode d cls) cls)
    (hclass : ∀ label resolved body s, cls ≠ .classDecl label resolved body s)
    (hother : ∀ kind children s, cls ≠ .other kind children s) :
    isAnonymous (entry nodeType (("class", writeNode d cls) :: members) s) = false := by
  rw [isAnonymous, get?_entry rfl hcls.not_isNull]
  cases cls with
  | classDecl label resolved body s => exact absurd rfl (hclass label resolved body s)
  | other kind children s => exact absurd rfl (hother kind children s)
  | propertyItem label initial s => cases label <;> cases d <;> rfl
  | arrayItem | integer | float => cases d <;> rfl
  | name parts fullyQualified s => cases fullyQualified <;> rfl
  | _ => rfl

section

variable {d : Dialect} {s : Span} (hs : s.IsDumpable)

include hs

theorem method_isReadAs {modifiers : Modifiers} {label : Node} {params : List Node}
    {body : Option (List Node)}
    (h : ∀ n ∈ (Node.method modifiers label params body s).children, IsReadAs (writeNode d n) n) :
    IsReadAs (writeNode d (.method modifiers label params body s))
      (.method modifiers label params body s) := by
  obtain ⟨hlabel, h⟩ := List.forall_mem_cons.1 h
  obtain ⟨hparams, hbody⟩ := List.forall_mem_append.1 h
  cases body with
  | none =>
    refine .of_entry hs rfl fun _ hd => ok_bind (refuse_entry rfl) <| ok_bind rfl <|
      ok_bind (node_entry hd hlabel rfl) <| ok_bind (nodes_entry hd hparams rfl) ?_
    rw [modifiers_entry rfl]
    rfl
  | some body =>
    have hbody := fun n hn => hbody n (by simpa using hn)
    refine .of_entry hs rfl fun _ hd => ok_bind (refuse_entry rfl) <|
      ok_bind (ok_map some (nodes_entry hd hbody rfl)) <| ok_bind (node_entry hd hlabel rfl) <|
      ok_bind (nodes_entry hd hparams rfl) ?_
    rw [modifiers_entry rfl]
    rfl

/-- A name in the place of a property is an identifier of its own kind. -/
theorem propertyItem_isReadAs {label : Node} {initial : Option Node}
    (hlabel : label.span.IsDumpable)
    (h : ∀ n ∈ (Node.propertyItem label initial s).children, IsReadAs (writeNode d n) n) :
    IsReadAs (writeNode d (.propertyItem label initial s)) (.propertyItem label initial s) := by
  obtain ⟨hread, hinitial⟩ := List.forall_mem_cons.1 h
  cases label with
  | identifier label place =>
    replace hread : IsReadAs (writeIdentifier "VarLikeIdentifier" label place) _ :=
      writeIdentifier_isReadAs hlabel (.inr rfl)
    cases d <;>
    exact .of_entry hs rfl fun _ hd =>
      ok_bind (node_entry hd hread rfl) <| ok_bind (node?_entry hd hinitial rfl) rfl
  | _ =>
    cases d <;>
    exact .of_entry hs rfl fun _ hd =>
      ok_bind (node_entry hd hread rfl) <| ok_bind (node?_entry hd hinitial rfl) rfl

theorem construct_isReadAs {cls : Node} {args : List Node}
    (hclass : ∀ label resolved body s, cls ≠ .classDecl label resolved body s)
    (hother : ∀ kind children s, cls ≠ .other kind children s)
    (h : ∀ n ∈ (Node.construct cls args s).children, IsReadAs (writeNode d n) n) :
    IsReadAs (writeNode d (.construct cls args s)) (.construct cls args s) := by
  obtain ⟨hcls, hargs⟩ := List.forall_mem_cons.1 h
  have hnamed : isAnonymous (entry "Expr_New"
      [("class", writeNode d cls), ("args", .array (writeList d args))] s) = false :=
    isAnonymous_entry hcls hclass hother
  refine .of_entry hs rfl fun _ hd => ?_
  simp only [readEntry, nodeType_entry, hnamed]
  exact ok_bind (node_entry hd hcls rfl) <| ok_bind (nodes_entry hd hargs rfl) rfl

theorem closure_isReadAs {params uses body : List Node}
    (hspans : ∀ n ∈ (Node.closure params uses body s).children, n.span.IsDumpable)
    (h : ∀ n ∈ (Node.closure params uses body s).children, IsReadAs (writeNode d n) n) :
    IsReadAs (writeNode d (.closure params uses body s)) (.closure params uses body s) := by
  obtain ⟨h, hbody⟩ := List.forall_mem_append.1 h
  obtain ⟨hparams, huses⟩ := List.forall_mem_append.1 h
  have hbound : ∀ n ∈ uses, n.span.IsDumpable ∧ IsReadAs (writeNode d n) n := fun n hn =>
    ⟨hspans n (by simp [Node.children, hn]), huses n hn⟩
  exact .of_entry hs rfl fun _ hd => ok_bind (refuse_entry rfl) <|
    ok_bind (nodes_entry hd hparams rfl) <| ok_bind (uses_entry hd hbound rfl) <|
    ok_bind (nodes_entry hd hbody rfl) rfl

theorem integer_isReadAs {value : Int} (hvalue : -(twoTo 63 : Int) ≤ value ∧ value < twoTo 63) :
    IsReadAs (writeNode d (.integer value s)) (.integer value s) := by
  have hint : (Json.integer value).int64? = some value := by rw [Json.int64?, if_pos hvalue]
  have hget : ∀ kind, (entry kind [("value", .integer value)] s).get? "value" =
      some (.integer value) := fun _ => get?_entry rfl rfl
  refine .of_entry hs rfl fun _ _ => ?_
  cases d <;> simp [readEntry, Dialect.integer, hget, hint]

end

theorem writeNode_isReadAs {d : Dialect} {t : Node} (h : ∀ n : Node, n.Occurs t → n.IsDumpable) :
    IsReadAs (writeNode d t) t := by
  induction t using Node.induction with
  | step t ih =>
  replace ih : ∀ child ∈ t.children, IsReadAs (writeNode d child) child :=
    fun child hchild => ih child hchild fun n hn => h n (.inside hchild hn)
  obtain ⟨hs, hhere⟩ := h t .here
  have hspans : ∀ child ∈ t.children, child.span.IsDumpable := fun child hchild =>
    (h child (.of_mem hchild)).1
  cases t with
  | expression expr s | constant expr s =>
    have hexpr := ih expr List.mem_cons_self
    exact .of_entry hs rfl fun _ hd => ok_bind (node_entry hd hexpr rfl) rfl
  | returns value s => exact .of_entry hs rfl fun _ hd => ok_bind (node?_entry hd ih rfl) rfl
  | namespaceBlock label body s =>
    obtain ⟨hlabel, hbody⟩ := List.forall_mem_append.1 ih
    exact .of_entry hs rfl fun _ hd =>
      ok_bind (node?_entry hd hlabel rfl) <| ok_bind (nodes_entry hd hbody rfl) rfl
  | classDecl label resolved members s =>
    obtain ⟨hlabels, hmembers⟩ := List.forall_mem_append.1 ih
    obtain ⟨hlabel, hresolved⟩ := List.forall_mem_append.1 hlabels
    exact .of_entry hs rfl fun _ hd => ok_bind (node?_entry hd hlabel rfl) <|
      ok_bind (node?_entry hd hresolved rfl) <| ok_bind (nodes_entry hd hmembers rfl) rfl
  | property modifiers items s =>
    refine .of_entry hs rfl fun _ hd => ok_bind (nodes_entry hd ih rfl) ?_
    rw [modifiers_entry rfl]
    rfl
  | method modifiers label params body s => exact method_isReadAs hs ih
  | methodCall target label args s =>
    obtain ⟨htarget, ih⟩ := List.forall_mem_cons.1 ih
    obtain ⟨hlabel, hargs⟩ := List.forall_mem_cons.1 ih
    exact .of_entry hs rfl fun _ hd => ok_bind (node_entry hd htarget rfl) <|
      ok_bind (node_entry hd hlabel rfl) <| ok_bind (nodes_entry hd hargs rfl) rfl
  | functionCall callee args s =>
    obtain ⟨hcallee, hargs⟩ := List.forall_mem_cons.1 ih
    exact .of_entry hs rfl fun _ hd =>
      ok_bind (node_entry hd hcallee rfl) <| ok_bind (nodes_entry hd hargs rfl) rfl
  | index base key s =>
    obtain ⟨hbase, hkey⟩ := List.forall_mem_cons.1 ih
    exact .of_entry hs rfl fun _ hd =>
      ok_bind (node_entry hd hbase rfl) <| ok_bind (node?_entry hd hkey rfl) rfl
  | member left right s | assign left right s | addAssign left right s | concat left right s =>
    have hleft := ih left List.mem_cons_self
    have hright := ih right (by simp [Node.children])
    exact .of_entry hs rfl fun _ hd =>
      ok_bind (node_entry hd hleft rfl) <| ok_bind (node_entry hd hright rfl) rfl
  | arrowFunction params body s =>
    obtain ⟨hparams, hbody⟩ := List.forall_mem_append.1 ih
    have hbody := hbody body List.mem_cons_self
    exact .of_entry hs rfl fun _ hd => ok_bind (refuse_entry rfl) <|
      ok_bind (nodes_entry hd hparams rfl) <| ok_bind (node_entry hd hbody rfl) rfl
  | closure params uses body s => exact closure_isReadAs hs hspans ih
  | array slots s => exact .of_entry hs rfl fun _ hd => ok_bind (slots_entry hd ih rfl) rfl
  | arrayItem key value s =>
    obtain ⟨hkey, hvalue⟩ := List.forall_mem_append.1 ih
    have hvalue := hvalue value List.mem_cons_self
    cases d <;>
    exact .of_entry hs rfl fun _ hd => ok_bind (refuse_entry rfl) <| ok_bind (refuse_entry rfl) <|
      ok_bind (node?_entry hd hkey rfl) <| ok_bind (node_entry hd hvalue rfl) rfl
  | argument value s =>
    have hvalue := ih value List.mem_cons_self
    exact .of_entry hs rfl fun _ hd => ok_bind (refuse_entry rfl) <| ok_bind (refuse_entry rfl) <|
      ok_bind (node_entry hd hvalue rfl) rfl
  | parameter bound s =>
    have hbound := ih bound List.mem_cons_self
    exact .of_entry hs rfl fun _ hd => ok_bind (refuse_entry rfl) <| ok_bind (refuse_entry rfl) <|
      ok_bind (node_entry hd hbound rfl) rfl
  | var label s => exact .of_entry hs rfl fun _ _ => rfl
  | integer value s => exact integer_isReadAs hs hhere
  | float value s =>
    have hvalue : value.toJson = .real value := by rw [Double.toJson, if_pos hhere]
    cases d <;> rw [writeNode, hvalue] <;> exact .of_entry hs rfl fun _ _ => rfl
  | string value s => exact .of_entry hs rfl fun _ _ => ok_bind (string_entry rfl) rfl
  | identifier label s => exact writeIdentifier_isReadAs hs (.inl rfl)
  | name parts fullyQualified s =>
    have hm : Json.find? "attributes" [d.nameParts parts] = none := by cases d <;> rfl
    cases fullyQualified <;>
    exact .of_entry hs hm fun _ _ => ok_bind (nameParts_entry hhere.1 hhere.2) rfl
  | other kind children s => exact hhere.elim
  | construct cls args s =>
    exact construct_isReadAs hs hhere (fun kind children s heq =>
      (heq ▸ h cls (.of_mem List.mem_cons_self)).2) ih
  | propertyItem label initial s =>
    exact propertyItem_isReadAs hs (hspans label List.mem_cons_self) ih

/-- Reading undoes writing, in each dialect: a tree all of whose nodes can stand in a dump is
    read back whole, with its spans. -/
theorem readNode_writeNode {t : Node} (h : ∀ n : Node, n.Occurs t → n.IsDumpable) (d : Dialect) :
    readNode (writeNode d t).depth (writeNode d t) = .ok t :=
  writeNode_isReadAs h _ (Nat.le_refl _)

/-- A closure with a binding, a qualified name and both kinds of number. Its span ends at the
    largest offset, and one of its nodes has no span. -/
def bindingClosure : Node :=
  .closure [] [.var "x" ⟨15, 17⟩]
    [.returns (some (.construct (.name ["A", "B"] true ⟨30, 34⟩)
      [.argument (.integer (-1) ⟨35, 37⟩) ⟨35, 37⟩,
       .argument (.float (.zero true) .unknown) .unknown]
      ⟨26, 39⟩)) ⟨19, 40⟩]
    ⟨0, Span.limit⟩

theorem readNode_bindingClosure :
    (∀ n : Node, n.Occurs bindingClosure → n.IsDumpable) ∧
    readNode (writeNode .four bindingClosure).depth (writeNode .four bindingClosure) =
      .ok bindingClosure ∧
    readNode (writeNode .five bindingClosure).depth (writeNode .five bindingClosure) =
      .ok bindingClosure := by
  have hspan {start stop : Nat} (h : start < stop ∧ stop ≤ Span.limit) :
      Span.IsDumpable ⟨start, stop⟩ := .inr h
  have hleaf {n : Node} (hn : n.IsDumpable) (hc : n.children = [] := by rfl) :
      ∀ m : Node, m.Occurs n → m.IsDumpable := Node.forall_occurs hn (by simp [hc])
  have hone {n child : Node} (hn : n.IsDumpable)
      (hchild : ∀ m : Node, m.Occurs child → m.IsDumpable)
      (hc : n.children = [child] := by rfl) : ∀ m : Node, m.Occurs n → m.IsDumpable :=
    Node.forall_occurs hn (by simpa [hc] using hchild)
  have hcls := hleaf (n := .name ["A", "B"] true ⟨30, 34⟩) ⟨hspan (by decide), by decide⟩
  have hint := hleaf (n := .integer (-1) ⟨35, 37⟩) ⟨hspan (by decide), by decide⟩
  have hfloat := hleaf (n := .float (.zero true) .unknown) ⟨.inl rfl, by decide⟩
  have hleft := hone (n := .argument _ ⟨35, 37⟩) ⟨hspan (by decide), trivial⟩ hint
  have hright := hone (n := .argument _ .unknown) ⟨.inl rfl, trivial⟩ hfloat
  have hnew : ∀ m : Node, m.Occurs (.construct _ [_, _] ⟨26, 39⟩) → m.IsDumpable :=
    Node.forall_occurs ⟨hspan (by decide), by simp⟩ <|
      List.forall_mem_cons.2 ⟨hcls, List.forall_mem_cons.2
        ⟨hleft, List.forall_mem_singleton.2 hright⟩⟩
  have huse := hleaf (n := .var "x" ⟨15, 17⟩) ⟨hspan (by decide), trivial⟩
  have hreturn := hone (n := .returns (some _) ⟨19, 40⟩) ⟨hspan (by decide), trivial⟩ hnew
  have hall : ∀ n : Node, n.Occurs bindingClosure → n.IsDumpable :=
    Node.forall_occurs ⟨hspan (by decide), trivial⟩
      (List.forall_mem_cons.2 ⟨huse, List.forall_mem_singleton.2 hreturn⟩)
  exact ⟨hall, readNode_writeNode hall .four, readNode_writeNode hall .five⟩

end Dump

end PhpScript
