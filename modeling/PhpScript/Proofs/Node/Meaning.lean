import PhpScript.Proofs.Convert.Dumps

/-!
# What a dump can say and a tree cannot

A dump can hold meaning that no tree holds: references, default values, parents of a class and
so on (`Loss`). Reading goes from the statements down to the parts of each node
(`Entry.parts`, `Visits`), and such a node is refused wherever it is visited.

* `readEntry_asks`: the parts of a node are all that is read of it, and each has to be read;
* `readEntry_overlooks`: a node that expresses a loss is refused, unless the loss is a parameter
  that is a property by none of the seven known modifiers;
* `ofText_overlooks`: so it is for all nodes that are visited when a text is read.
-/

namespace PhpScript.Dump

/-! ## The values that are visited -/

/-- How the nodes of a member are held. -/
inductive Shape
  | single
  | list
  /-- A list in which null is an empty slot. -/
  | slots
deriving DecidableEq, Repr

/-- The values of a member that are read as nodes. -/
def Shape.parts : Shape → Json → List Json
  | single, json => [json]
  | list, json => json.items?.getD []
  | slots, json => (json.items?.getD []).flatMap fun item => if item.isNull then [] else [item]

/-- The members of each kind of node that hold nodes, in the order in which they are read. -/
def partTable : List (String × List (String × Shape)) :=
  [("Stmt_Expression", [("expr", .single)]),
   ("Stmt_Return", [("expr", .single)]),
   ("Stmt_Namespace", [("name", .single), ("stmts", .list)]),
   ("Stmt_Class", [("name", .single), ("namespacedName", .single), ("stmts", .list)]),
   ("Stmt_Property", [("props", .list)]),
   ("PropertyItem", [("name", .single), ("default", .single)]),
   ("Stmt_PropertyProperty", [("name", .single), ("default", .single)]),
   ("Stmt_ClassMethod", [("stmts", .list), ("name", .single), ("params", .list)]),
   ("Expr_MethodCall", [("var", .single), ("name", .single), ("args", .list)]),
   ("Expr_FuncCall", [("name", .single), ("args", .list)]),
   ("Expr_New", [("class", .single), ("args", .list)]),
   ("Expr_ArrayDimFetch", [("var", .single), ("dim", .single)]),
   ("Expr_PropertyFetch", [("var", .single), ("name", .single)]),
   ("Expr_Assign", [("var", .single), ("expr", .single)]),
   ("Expr_AssignOp_Plus", [("var", .single), ("expr", .single)]),
   ("Expr_BinaryOp_Concat", [("left", .single), ("right", .single)]),
   ("Expr_ArrowFunction", [("params", .list), ("expr", .single)]),
   ("Expr_Closure", [("params", .list), ("uses", .list), ("stmts", .list)]),
   ("Expr_ClosureUse", [("var", .single)]),
   ("ClosureUse", [("var", .single)]),
   ("Expr_Array", [("items", .slots)]),
   ("ArrayItem", [("key", .single), ("value", .single)]),
   ("Expr_ArrayItem", [("key", .single), ("value", .single)]),
   ("Arg", [("value", .single)]),
   ("Param", [("var", .single)]),
   ("Expr_ConstFetch", [("name", .single)])]

namespace Entry

/-- The values of one member that are read as nodes. -/
def partsAt (e : Entry) (name : String) (shape : Shape) : List Json :=
  ((e.get? name).map shape.parts).getD []

/-- The values that are read as nodes. -/
def parts (e : Entry) : List Json :=
  ((partTable.lookup e.nodeType).getD []).flatMap fun member => e.partsAt member.1 member.2

end Entry

/-- A computation that reads just these values: it gives a result only if each of them is read,
    and how other values are read does not matter. -/
structure Asks (x : (Json → Except Error Node) → Except Error α) (parts : List Json) : Prop where
  reads : ∀ {read a}, x read = .ok a → ∀ part ∈ parts, ∃ n, read part = .ok n
  congr : ∀ {read read'}, (∀ part ∈ parts, read part = read' part) → x read = x read'

namespace Asks

variable {x : (Json → Except Error Node) → Except Error α}
  {f : α → (Json → Except Error Node) → Except Error β} {ps qs : List Json} {e : Entry}

theorem const (a : Except Error α) : Asks (fun _ => a) [] :=
  ⟨fun _ => List.forall_mem_nil _, fun _ => rfl⟩

theorem value (json : Json) : Asks (fun read => read json) [json] :=
  ⟨fun h => List.forall_mem_singleton.2 ⟨_, h⟩, fun h => h json List.mem_cons_self⟩

theorem bind (hx : Asks x ps) (hf : ∀ a, Asks (f a) qs) :
    Asks (fun read => x read >>= fun a => f a read) (ps ++ qs) := by
  constructor
  · intro read b hb
    cases ha : x read with
    | error e =>
      rw [ha] at hb
      cases hb
    | ok a =>
      rw [ha] at hb
      exact List.forall_mem_append.2 ⟨hx.reads ha, (hf a).reads hb⟩
  · intro read read' hagree
    rw [List.forall_mem_append] at hagree
    have hnext : (fun a => f a read) = fun a => f a read' := funext fun a => (hf a).congr hagree.2
    rw [hx.congr hagree.1, hnext]

/-- What comes before does not read. -/
theorem after {x : Except Error α} (hf : ∀ a, Asks (f a) qs) :
    Asks (fun read => x >>= fun a => f a read) qs :=
  bind (const x) hf

theorem last (hx : Asks x ps) : Asks x (ps ++ []) := by
  rwa [List.append_nil]

/-- Whether the rest is refused does not depend on what is read. -/
theorem guard {b : Prop} [Decidable b] {y : Except Error Unit}
    {f : Unit → (Json → Except Error Node) → Except Error β} (hf : ∀ a, Asks (f a) qs) :
    Asks (fun read => if b then y >>= fun a => f a read else f () read) qs := by
  split
  · exact after hf
  · exact hf ()

theorem map {g : α → β} (hx : Asks x ps) : Asks (fun read => g <$> x read) ps := by
  rw [← List.append_nil ps]
  simp only [map_eq_pure_bind]
  exact hx.bind fun a => const _

theorem mapM {f : Json → (Json → Except Error Node) → Except Error α} {parts : Json → List Json}
    {items : List Json} (hf : ∀ json, Asks (f json) (parts json)) :
    Asks (fun read => items.mapM fun json => f json read) (items.flatMap parts) := by
  induction items with
  | nil => exact const _
  | cons json items ih =>
    simp only [List.mapM_cons, List.flatMap_cons]
    rw [← List.append_nil (items.flatMap parts)]
    exact (hf json).bind fun a => ih.bind fun as => const _

theorem values (items : List Json) : Asks (fun read => items.mapM read) items := by
  have hitems : Asks (fun read => items.mapM read) (items.flatMap fun json => [json]) := mapM value
  rwa [List.flatMap_singleton'] at hitems

theorem node (name : String) : Asks (e.node · name) (e.partsAt name .single) := by
  simp only [Entry.node, Entry.partsAt]
  cases e.get? name with
  | none => exact const _
  | some json => exact value json

theorem node? (name : String) : Asks (e.node? · name) (e.partsAt name .single) := by
  simp only [Entry.node?, Entry.partsAt]
  cases e.get? name with
  | none => exact const _
  | some json => exact (value json).map

/-- The items of a member, each with the values that are read of it. -/
theorem items {f : Json → (Json → Except Error Node) → Except Error α} {parts : Json → List Json}
    (name : String) (hf : ∀ json, Asks (f json) (parts json)) :
    Asks (fun read => e.items name >>= (·.mapM fun json => f json read))
      ((e.partsAt name .list).flatMap parts) := by
  simp only [Entry.items, Entry.partsAt]
  cases e.get? name with
  | none => exact const (e.fail (.notAnArray name))
  | some json =>
    cases json with
    | array items => exact mapM hf
    | _ => exact const (e.fail (.notAnArray name))

theorem nodes (name : String) : Asks (e.nodes · name) (e.partsAt name .list) := by
  rw [← List.flatMap_singleton' (e.partsAt name .list)]
  exact items name value

theorem slots (name : String) : Asks (e.slots · name) (e.partsAt name .slots) := by
  have hparts : e.partsAt name .slots =
      (e.partsAt name .list).flatMap fun json => if json.isNull then [] else [json] := by
    simp only [Entry.partsAt]
    cases e.get? name <;> rfl
  rw [hparts]
  refine items name fun json => ?_
  split
  · exact const _
  · exact (value json).map

/-- The body of a method, which may be absent. -/
theorem body {f : Option (List Node) → (Json → Except Error Node) → Except Error β}
    (name : String) (hf : ∀ a, Asks (f a) qs) :
    Asks (fun read => if (e.get? name).isSome = true
        then (some <$> e.nodes read name) >>= fun a => f a read
        else pure none >>= fun a => f a read) (e.partsAt name .list ++ qs) := by
  split
  · exact (nodes name).map.bind hf
  · next h =>
    have hnone : e.get? name = none := by simpa using h
    rw [Entry.partsAt, hnone]
    exact (const _).bind hf

end Asks

/-- Reading a node reads just its parts. -/
theorem readEntry_asks (e : Entry) : Asks (readEntry · e) e.parts := by
  obtain ⟨nodeType, members, span⟩ := e
  unfold readEntry Entry.parts
  simp only
  split
  · exact (Asks.node "expr").bind fun _ => .const _
  · exact (Asks.node? "expr").bind fun _ => .const _
  · exact (Asks.node? "name").bind fun _ => (Asks.nodes "stmts").bind fun _ => .const _
  · exact .guard fun _ => (Asks.node? "name").bind fun _ =>
      (Asks.node? "namespacedName").bind fun _ => (Asks.nodes "stmts").bind fun _ => .const _
  · exact (Asks.nodes "props").bind fun _ => .const _
  iterate 2 exact (Asks.node "name").bind fun _ => (Asks.node? "default").bind fun _ => .const _
  · exact .after fun _ => .body "stmts" fun _ => (Asks.node "name").bind fun _ =>
      (Asks.nodes "params").bind fun _ => .const _
  · exact (Asks.node "var").bind fun _ => (Asks.node "name").bind fun _ =>
      (Asks.nodes "args").bind fun _ => .const _
  · exact (Asks.node "name").bind fun _ => (Asks.nodes "args").bind fun _ => .const _
  · exact .guard fun _ => (Asks.node "class").bind fun _ =>
      (Asks.nodes "args").bind fun _ => .const _
  · exact (Asks.node "var").bind fun _ => (Asks.node? "dim").bind fun _ => .const _
  · exact (Asks.node "var").bind fun _ => (Asks.node "name").bind fun _ => .const _
  iterate 2 exact (Asks.node "var").bind fun _ => (Asks.node "expr").bind fun _ => .const _
  · exact (Asks.node "left").bind fun _ => (Asks.node "right").bind fun _ => .const _
  · exact .after fun _ => (Asks.nodes "params").bind fun _ =>
      (Asks.node "expr").bind fun _ => .const _
  · exact .after fun _ => (Asks.nodes "params").bind fun _ => (Asks.nodes "uses").bind fun _ =>
      (Asks.nodes "stmts").bind fun _ => .const _
  iterate 2 exact .last (.after fun _ => .node "var")
  · exact (Asks.slots "items").bind fun _ => .const _
  iterate 2
    exact .after fun _ => .after fun _ => (Asks.node? "key").bind fun _ =>
      (Asks.node "value").bind fun _ => .const _
  · exact .after fun _ => .after fun _ => .guard fun _ => (Asks.node "value").bind fun _ => .const _
  · exact .after fun _ => .after fun _ => .guard fun _ => .guard fun _ =>
      (Asks.node "var").bind fun _ => .const _
  · exact .const _
  · exact (Asks.node "name").bind fun _ => .const _
  iterate 9 exact .const _
  · have hnone : partTable.lookup nodeType = none := by
      rw [List.lookup_eq_none_iff]
      simp only [partTable, List.forall_mem_cons, bne_iff_ne]
      and_intros <;> first | assumption | exact List.forall_mem_nil _
    rw [hnone]
    exact .const _

/-- The object of a node, if the value is one. -/
def Entry.of? : Json → Option Entry
  | .object members => ((Json.find? "nodeType" members).bind Json.string?).map fun nodeType =>
      ⟨nodeType, members, spanOf members⟩
  | _ => none

theorem readWith_of? {read : Json → Except Error Node} {json : Json} {e : Entry}
    (h : Entry.of? json = some e) : readWith read json = readEntry read e := by
  cases json with
  | object members =>
    obtain ⟨nodeType, hkind, rfl⟩ := Option.map_eq_some_iff.1 h
    rw [readWith, hkind]
  | _ => cases h

/-- The objects of nodes that are visited when a value is read. -/
inductive Visits : Json → Entry → Prop
  | here {json : Json} {e : Entry} : Entry.of? json = some e → Visits json e
  | part {json part : Json} {e e' : Entry} : Entry.of? json = some e → part ∈ e.parts →
    Visits part e' → Visits json e'

/-- If a value is read, then all nodes that are visited are. -/
theorem Visits.exists_read {json : Json} {e : Entry} (h : Visits json e) {rounds : Nat} {n : Node}
    (hn : readNode rounds json = .ok n) : ∃ read m, readEntry read e = .ok m := by
  induction h generalizing rounds n with
  | here hof =>
    cases rounds with
    | zero => cases hn
    | succ rounds =>
      rw [readNode, readWith_of? hof] at hn
      exact ⟨_, _, hn⟩
  | part hof hpart _ ih =>
    cases rounds with
    | zero => cases hn
    | succ rounds =>
      rw [readNode, readWith_of? hof] at hn
      obtain ⟨m, hm⟩ := (readEntry_asks _).reads hn _ hpart
      exact ih hm

/-! ## Meaning that is lost -/

/-- Meaning that a dump can express and a tree cannot. -/
inductive Loss
  | reference
  | unpacking
  | variadic
  | defaultValue
  | argumentName
  /-- A parameter that is a property too. -/
  | promotion
  | parent
  | interfaces
  | anonymousClass
deriving DecidableEq, Repr

namespace Loss

/-- The kinds of node that can express it. -/
def kinds : Loss → List String
  | reference => ["Arg", "Param", "ArrayItem", "Expr_ArrayItem", "ClosureUse", "Expr_ClosureUse",
      "Expr_Closure", "Expr_ArrowFunction", "Stmt_ClassMethod"]
  | unpacking => ["Arg", "ArrayItem", "Expr_ArrayItem"]
  | variadic | defaultValue | promotion => ["Param"]
  | argumentName => ["Arg"]
  | parent | interfaces => ["Stmt_Class"]
  | anonymousClass => ["Expr_New"]

/-- The member that expresses it. -/
def member : Loss → String
  | reference => "byRef"
  | unpacking => "unpack"
  | variadic => "variadic"
  | defaultValue => "default"
  | argumentName => "name"
  | promotion => "flags"
  | parent => "extends"
  | interfaces => "implements"
  | anonymousClass => "class"

/-- Whether a value of the member expresses it. -/
def isExpressed : Loss → Json → Bool
  | reference, .bool b | unpacking, .bool b | variadic, .bool b => b
  | defaultValue, json | argumentName, json | parent, json => !json.isNull
  | promotion, .integer flags => flags != 0
  | interfaces, .array items => !items.isEmpty
  | anonymousClass, .object members =>
    (Json.find? "nodeType" members).bind Json.string? == some "Stmt_Class"
  | _, _ => false

/-- Whether a node expresses it. -/
def isIn (loss : Loss) (e : Entry) : Bool :=
  loss.kinds.contains e.nodeType && (Json.find? loss.member e.members).any loss.isExpressed

theorem isIn_iff {loss : Loss} {e : Entry} :
    loss.isIn e ↔ e.nodeType ∈ loss.kinds ∧
      ∃ json, Json.find? loss.member e.members = some json ∧ loss.isExpressed json := by
  rw [isIn, Bool.and_eq_true, List.contains_iff_mem, Option.any_eq_true]

theorem eq_true_of_isExpressed {loss : Loss} {json : Json}
    (hloss : loss ∈ [reference, unpacking, variadic]) (h : loss.isExpressed json) :
    json = .bool true := by
  simp only [List.mem_cons, List.not_mem_nil, or_false] at hloss
  rcases hloss with rfl | rfl | rfl <;> cases json <;> simp_all [isExpressed]

theorem isNull_of_isExpressed {loss : Loss} {json : Json}
    (hloss : loss ∈ [defaultValue, argumentName, parent]) (h : loss.isExpressed json) :
    json.isNull = false := by
  simp only [List.mem_cons, List.not_mem_nil, or_false] at hloss
  rcases hloss with rfl | rfl | rfl <;> simpa [isExpressed] using h

end Loss

/-- Modifiers with none of the seven known bits, or beyond a 32-bit word. -/
def IsUnseen (flags : Int) : Prop := flags < 0 ∨ twoTo 32 ≤ flags ∨ flags % 128 = 0

/-- A parameter is a property by modifiers that are not seen. -/
def Overlooks (e : Entry) (loss : Loss) : Prop :=
  loss = .promotion ∧
    ∃ flags, Json.find? "flags" e.members = some (.integer flags) ∧ IsUnseen flags

theorem isEmpty_ofBits {bits : Nat} : (Modifiers.ofBits bits).isEmpty ↔ bits % 128 = 0 := by
  simp only [Modifiers.isEmpty, Modifiers.ofBits, Modifiers.empty, beq_iff_eq, Modifiers.mk.injEq,
    Nat.testBit_eq_decide_div_mod_eq, decide_eq_false_iff_not]
  omega

section

variable {read : Json → Except Error Node} {e : Entry} {name : String} {json : Json}

theorem get?_of_find? (hfind : Json.find? name e.members = some json)
    (hjson : json.isNull = false) : e.get? name = some json := by
  rw [Entry.get?, hfind, Option.filter_some, hjson]
  rfl

/-- Modifiers are seen by their seven bits. -/
theorem isEmpty_modifiers {flags : Int}
    (hfind : Json.find? "flags" e.members = some (.integer flags)) :
    e.modifiers.isEmpty ↔ IsUnseen flags := by
  rw [Entry.modifiers, get?_of_find? hfind rfl]
  simp only [IsUnseen]
  split
  · next h =>
    rw [isEmpty_ofBits]
    omega
  · next h =>
    refine iff_of_true rfl ?_
    omega

theorem Gives.stop {x : Except Error α} {f : α → Except Error β} {Q : β → Prop}
    (hx : Gives x fun _ => False) : Gives (x >>= f) Q :=
  hx.bind fun _ h => h.elim

theorem Gives.refused {b : Prop} [Decidable b] {complaint : Complaint} {f : Unit → Except Error β}
    {Q : β → Prop} (hb : b) : Gives (if b then e.fail complaint >>= f else f ()) Q := by
  rw [if_pos hb]
  exact .stop .fail

theorem refuse_gives {what : Unsupported}
    (hfind : Json.find? name e.members = some (.bool true)) :
    Gives (e.refuse name what) fun _ => False := by
  rw [Entry.refuse, get?_of_find? hfind rfl]
  exact .fail

/-- What a node expresses is refused, unless it is overlooked. -/
theorem readEntry_overlooks {loss : Loss} (h : loss.isIn e) :
    Gives (readEntry read e) fun _ => Overlooks e loss := by
  obtain ⟨hkind, json, hfind, hjson⟩ := Loss.isIn_iff.1 h
  cases loss with
  | reference =>
    obtain rfl := Loss.eq_true_of_isExpressed (by simp) hjson
    simp only [Loss.kinds, List.mem_cons, List.not_mem_nil, or_false] at hkind
    rcases hkind with h | h | h | h | h | h | h | h | h <;> simp only [readEntry, h] <;>
      exact .stop (refuse_gives hfind)
  | unpacking =>
    obtain rfl := Loss.eq_true_of_isExpressed (by simp) hjson
    simp only [Loss.kinds, List.mem_cons, List.not_mem_nil, or_false] at hkind
    rcases hkind with h | h | h <;> simp only [readEntry, h] <;>
      exact .after fun _ => .stop (refuse_gives hfind)
  | variadic =>
    obtain rfl := Loss.eq_true_of_isExpressed (by simp) hjson
    simp only [readEntry, List.mem_singleton.1 hkind]
    exact .after fun _ => .stop (refuse_gives hfind)
  | defaultValue =>
    have hget := get?_of_find? hfind (Loss.isNull_of_isExpressed (by simp) hjson)
    simp only [readEntry, List.mem_singleton.1 hkind]
    exact .after fun _ => .after fun _ => .refused (Option.isSome_of_eq_some hget)
  | argumentName =>
    have hget := get?_of_find? hfind (Loss.isNull_of_isExpressed (by simp) hjson)
    simp only [readEntry, List.mem_singleton.1 hkind]
    exact .after fun _ => .after fun _ => .refused (Option.isSome_of_eq_some hget)
  | promotion =>
    cases json with
    | integer flags =>
      by_cases hempty : e.modifiers.isEmpty
      · exact fun _ _ => ⟨rfl, flags, hfind, (isEmpty_modifiers hfind).1 hempty⟩
      · simp only [readEntry, List.mem_singleton.1 hkind]
        exact .after fun _ => .after fun _ => .guard (.refused (by simpa using hempty))
    | _ => cases hjson
  | parent =>
    have hget : e.get? "extends" = some json :=
      get?_of_find? hfind (Loss.isNull_of_isExpressed (by simp) hjson)
    simp only [readEntry, List.mem_singleton.1 hkind]
    exact .refused (by rw [inherits, hget]; rfl)
  | interfaces =>
    cases json with
    | array items =>
      have hget : e.get? "implements" = some (.array items) := get?_of_find? hfind rfl
      have hitems : (!items.isEmpty) = true := hjson
      simp only [readEntry, List.mem_singleton.1 hkind]
      refine .refused ?_
      simp [inherits, hget, Json.items?, hitems]
    | _ => cases hjson
  | anonymousClass =>
    cases json with
    | object members =>
      have hget : e.get? "class" = some (.object members) := get?_of_find? hfind rfl
      simp only [readEntry, List.mem_singleton.1 hkind]
      refine .refused ?_
      rw [isAnonymous, hget]
      exact hjson
    | _ => cases hjson

theorem refuse_eq_ok {what : Unsupported}
    (h : ∀ json, Json.find? name e.members = some json → json ≠ .bool true) :
    e.refuse name what = .ok () := by
  rw [Entry.refuse, if_neg]
  intro hset
  obtain ⟨json, hget, hjson⟩ := Option.bind_eq_some_iff.1 (beq_iff_eq.1 hset)
  refine h json (Option.filter_eq_some_iff.1 hget).1 ?_
  cases json with
  | bool b => exact congrArg Json.bool (Option.some.inj hjson)
  | _ => cases hjson

/-- The flags of a parameter are empty, if all that they express is overlooked. -/
theorem isEmpty_modifiers_of_overlooks (hkind : e.nodeType = "Param")
    (h : ∀ loss, loss.isIn e → Overlooks e loss) : e.modifiers.isEmpty := by
  cases hget : e.get? "flags" with
  | none =>
    rw [Entry.modifiers, hget]
    rfl
  | some json =>
    cases json with
    | integer flags =>
      have hfind := (Option.filter_eq_some_iff.1 hget).1
      refine (isEmpty_modifiers hfind).2 ?_
      by_cases hzero : flags = 0
      · exact .inr (.inr (by rw [hzero]; rfl))
      · have hin : Loss.promotion.isIn e := Loss.isIn_iff.2
          ⟨by rw [hkind]; decide, _, hfind, by simpa [Loss.isExpressed] using hzero⟩
        obtain ⟨-, flags', hfind', hunseen⟩ := h .promotion hin
        cases hfind.symm.trans hfind'
        exact hunseen
    | _ =>
      rw [Entry.modifiers, hget]
      rfl

/-- A parameter is read as its variable, if all that it expresses is overlooked. -/
theorem readEntry_param (hkind : e.nodeType = "Param")
    (h : ∀ loss, loss.isIn e → Overlooks e loss) :
    readEntry read e = (.parameter · e.span) <$> e.node read "var" := by
  have hplain (loss : Loss) (hloss : "Param" ∈ loss.kinds) (hne : loss ≠ .promotion) {json : Json}
      (hfind : Json.find? loss.member e.members = some json) : ¬loss.isExpressed json := by
    intro hjson
    exact hne (h loss (Loss.isIn_iff.2 ⟨hkind ▸ hloss, json, hfind, hjson⟩)).1
  have href : e.refuse "byRef" .byRefParameters = .ok () := by
    refine refuse_eq_ok fun json hfind hjson => hplain .reference (by decide) (by decide) hfind ?_
    rw [hjson]
    rfl
  have hvariadic : e.refuse "variadic" .variadicParameters = .ok () := by
    refine refuse_eq_ok fun json hfind hjson => hplain .variadic (by decide) (by decide) hfind ?_
    rw [hjson]
    rfl
  have hdefault : e.get? "default" = none := by
    rw [Option.eq_none_iff_forall_ne_some]
    intro json hget
    obtain ⟨hfind, hnull⟩ := Option.filter_eq_some_iff.1 hget
    exact hplain .defaultValue (by decide) (by decide) hfind hnull
  simp only [readEntry, hkind, href, hvariadic, hdefault, isEmpty_modifiers_of_overlooks hkind h]
  cases e.node read "var" <;> rfl

end

/-! ## Whole dumps -/

theorem ofText_eq_ok {text : String} {nodes : List Node} (h : ofText text = .ok nodes) :
    ∃ items, Json.ofText text = .ok (.array items) ∧
      items.mapM (fun item => readNode item.depth item) = .ok nodes := by
  unfold ofText at h
  split at h
  · next json hjson =>
    cases json with
    | array items => exact ⟨items, hjson, h⟩
    | _ => cases h
  · cases h

/-- Whatever the visited nodes of a dump express that a tree cannot is refused, but for a
    parameter that is a property by modifiers that are not seen. Such a parameter is read as a
    plain one. The parts of a node are all that is visited from it. -/
theorem ofText_overlooks {text : String} {nodes : List Node} (h : ofText text = .ok nodes) :
    (∃ items, Json.ofText text = .ok (.array items) ∧
      ∀ item ∈ items, ∀ e, Visits item e → ∀ loss : Loss, loss.isIn e → Overlooks e loss) ∧
    (∀ e : Entry, Asks (readEntry · e) e.parts) ∧
    ∀ read (e : Entry), e.nodeType = "Param" → (∀ loss : Loss, loss.isIn e → Overlooks e loss) →
      readEntry read e = (.parameter · e.span) <$> e.node read "var" := by
  refine ⟨?_, readEntry_asks, fun read e => readEntry_param⟩
  obtain ⟨items, hjson, hread⟩ := ofText_eq_ok h
  refine ⟨items, hjson, fun item hitem e hvisits loss hloss => ?_⟩
  obtain ⟨n, hn⟩ := (Asks.values items).reads hread item hitem
  obtain ⟨read, m, hm⟩ := hvisits.exists_read hn
  exact readEntry_overlooks hloss hm

/-- The dump of a parameter with the modifier `private(set)`, which is the tenth bit. -/
def promotedText : String :=
  "[\x7b\"nodeType\":\"Param\",\"var\":\x7b\"nodeType\":\"Expr_Variable\",\"name\":\"a\"\x7d," ++
  "\"flags\":512\x7d]"

/-- The parameter is read, though its flags make it a property. -/
theorem exists_promotedText : ∃ nodes items item e, ofText promotedText = .ok nodes ∧
    Json.ofText promotedText = .ok (.array items) ∧ item ∈ items ∧ Visits item e ∧
      Loss.promotion.isIn e := by
  have hread : (ofText promotedText).isOk := by decide +kernel
  have hin : ((Json.ofText promotedText).toOption.bind Json.items?).any fun items =>
      items.any fun item => (Entry.of? item).any Loss.promotion.isIn := by
    decide +kernel
  cases hnodes : ofText promotedText with
  | error error =>
    rw [hnodes] at hread
    cases hread
  | ok nodes =>
    obtain ⟨items, hjson, -⟩ := ofText_eq_ok hnodes
    rw [hjson] at hin
    obtain ⟨item, hitem, hin⟩ := List.any_eq_true.1 hin
    obtain ⟨e, hof, hin⟩ := (Option.any_eq_true _ _).1 hin
    exact ⟨nodes, items, item, e, rfl, hjson, hitem, .here hof, hin⟩

theorem promotedText_overlooks : ∃ nodes items item e, ofText promotedText = .ok nodes ∧
    Json.ofText promotedText = .ok (.array items) ∧ item ∈ items ∧ Visits item e ∧
      Loss.promotion.isIn e ∧ Overlooks e .promotion ∧
        ∀ read, readEntry read e = (.parameter · e.span) <$> e.node read "var" := by
  obtain ⟨nodes, items, item, e, hread, hjson, hitem, hvisits, hin⟩ := exists_promotedText
  obtain ⟨⟨items', hjson', hall⟩, -, hparam⟩ := ofText_overlooks hread
  cases hjson.symm.trans hjson'
  have hkind : e.nodeType = "Param" := List.mem_singleton.1 (Loss.isIn_iff.1 hin).1
  have hloss := hall item hitem e hvisits
  exact ⟨nodes, items, item, e, hread, hjson, hitem, hvisits, hin, hloss _ hin,
    fun read => hparam read e hkind hloss⟩

/-- Not every meaning that a tree cannot express is refused. -/
theorem not_always_refused :
    ¬∀ text nodes items, ofText text = .ok nodes → Json.ofText text = .ok (.array items) →
      ∀ item ∈ items, ∀ e, Visits item e → ∀ loss : Loss, ¬loss.isIn e := by
  intro h
  obtain ⟨nodes, items, item, e, hread, hjson, hitem, hvisits, hin⟩ := exists_promotedText
  exact h _ nodes items hread hjson item hitem e hvisits _ hin

end PhpScript.Dump
