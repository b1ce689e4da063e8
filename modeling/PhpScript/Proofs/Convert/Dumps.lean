import PhpScript.Proofs.Json.Nesting
import PhpScript.Proofs.Script.Domain

/-!
# Dumps are never too deep

Each object of a dump gives at most one level of the tree that is read from it
(`Dump.height_le_of_readNode`), and a text with more than `Json.maxDepth` arrays and
objects in each other is refused. So the trees of dumps are far from the depth at
which emitting fails (`Convert.dump_ne_tooDeep`).
-/

namespace PhpScript

namespace Descent

/-- The way down to every node below a node. -/
def everywhere : Descent := ⟨Node.children, fun _ => List.Subset.refl _⟩

theorem Reaches.everywhere {d : Descent} {root n : Node} {k : Nat} (h : d.Reaches root k n) :
    Descent.everywhere.Reaches root k n := by
  induction h with
  | here => exact .here
  | step hchild _ ih => exact .step (d.subset _ hchild) ih

end Descent

/-! ## Reading a node -/

namespace Dump

/-- Whatever is read is `P`. -/
def Gives (x : Except Error α) (P : α → Prop) : Prop := ∀ ⦃a⦄, x = .ok a → P a

namespace Gives

variable {x : Except Error α} {f : α → Except Error β} {P : α → Prop} {Q : β → Prop}

theorem anything : Gives x fun _ => True := fun _ _ => trivial

theorem pure {a : α} (h : P a) : Gives (Pure.pure a) P := by
  intro b hb
  cases hb
  exact h

theorem bind (hx : Gives x P) (hf : ∀ a, P a → Gives (f a) Q) : Gives (x >>= f) Q := by
  intro b hb
  cases x with
  | error e => cases hb
  | ok a => exact hf a (hx rfl) hb

/-- What is read before matters not. -/
theorem after (hf : ∀ a, Gives (f a) Q) : Gives (x >>= f) Q :=
  anything.bind fun a _ => hf a

theorem mono {P' : α → Prop} (hx : Gives x P) (h : ∀ a, P a → P' a) : Gives x P' :=
  fun _ ha => h _ (hx ha)

theorem map {g : α → β} (hx : Gives x P) (h : ∀ a, P a → Q (g a)) : Gives (g <$> x) Q := by
  rw [map_eq_pure_bind]
  exact hx.bind fun a ha => .pure (h a ha)

theorem fail {e : Entry} {complaint : Complaint} : Gives (e.fail complaint : Except Error α) P := by
  intro a ha
  cases ha

/-- A refusal before the rest leaves the rest to read. -/
theorem guard {b : Prop} [Decidable b] {y : Except Error Unit} {f : Unit → Except Error β}
    (hf : Gives (f ()) Q) : Gives (if b then y >>= f else f ()) Q := by
  split
  · exact after fun _ => hf
  · exact hf

theorem either {b : Prop} [Decidable b] {y : Except Error α} (hx : Gives x P) (hy : Gives y P)
    (hf : ∀ a, P a → Gives (f a) Q) : Gives (if b then x >>= f else y >>= f) Q := by
  split
  · exact hx.bind hf
  · exact hy.bind hf

theorem mapM {as : List α} (hf : ∀ a ∈ as, Gives (f a) Q) :
    Gives (as.mapM f) fun bs => ∀ b ∈ bs, Q b := by
  induction as with
  | nil => exact pure (by simp)
  | cons a as ih =>
    rw [List.forall_mem_cons] at hf
    rw [List.mapM_cons]
    exact hf.1.bind fun b hb => (ih hf.2).bind fun bs hbs =>
      pure (List.forall_mem_cons.2 ⟨hb, hbs⟩)

end Gives

/-- The value is a member of the entry, or an item of one. -/
def Entry.Holds (e : Entry) (json : Json) : Prop :=
  ∃ name value, Json.find? name e.members = some value ∧
    (json = value ∨ ∃ items, value = .array items ∧ json ∈ items)

theorem Entry.Holds.objectDepth_le {e : Entry} {json : Json} (h : e.Holds json) :
    json.objectDepth ≤ Json.objectDepthMembers e.members := by
  obtain ⟨name, value, hfind, rfl | ⟨items, rfl, hmem⟩⟩ := h
  · exact Json.objectDepth_le_of_find? hfind
  · exact Nat.le_trans (Json.objectDepth_le_of_mem hmem) (Json.objectDepth_le_of_find? hfind)

section

variable {read : Json → Except Error Node} {e : Entry} {name : String}

variable (read e) in
/-- The node is read from a value of the entry. -/
def IsPart (n : Node) : Prop := ∃ json, e.Holds json ∧ read json = .ok n

variable (read e) in
/-- All of the nodes are read from values of the entry. -/
def AreParts (ns : List Node) : Prop := ∀ n ∈ ns, IsPart read e n

namespace AreParts

theorem nil : AreParts read e [] := List.forall_mem_nil _

theorem cons {n : Node} {ns : List Node} (hn : IsPart read e n) (hns : AreParts read e ns) :
    AreParts read e (n :: ns) :=
  List.forall_mem_cons.2 ⟨hn, hns⟩

theorem append {ns ms : List Node} (hns : AreParts read e ns) (hms : AreParts read e ms) :
    AreParts read e (ns ++ ms) :=
  List.forall_mem_append.2 ⟨hns, hms⟩

end AreParts

theorem holds_of_get? {json : Json} (h : e.get? name = some json) : e.Holds json :=
  ⟨name, json, (Option.filter_eq_some_iff.1 h).1, .inl rfl⟩

theorem node_gives : Gives (e.node read name) (IsPart read e) := by
  unfold Entry.node
  split
  · next h => exact fun n hn => ⟨_, holds_of_get? h, hn⟩
  · exact .fail

theorem node?_gives : Gives (e.node? read name) fun n? => AreParts read e n?.toList := by
  unfold Entry.node?
  split
  · next h =>
    have hread : Gives (read _) (IsPart read e) := fun n hn => ⟨_, holds_of_get? h, hn⟩
    exact hread.map fun n hn => .cons hn .nil
  · exact .pure .nil

theorem items_gives : Gives (e.items name) fun items => ∀ json ∈ items, e.Holds json := by
  unfold Entry.items
  split
  · next h =>
    obtain ⟨value, hvalue, hitems⟩ := Option.bind_eq_some_iff.1 h
    cases value with
    | array items =>
      cases hitems
      have hfind := (Option.filter_eq_some_iff.1 hvalue).1
      exact .pure fun json hjson => ⟨name, _, hfind, .inr ⟨_, rfl, hjson⟩⟩
    | _ => cases hitems
  · exact .fail

theorem nodes_gives : Gives (e.nodes read name) (AreParts read e) :=
  items_gives.bind fun _ hitems => .mapM fun json hjson _ hn => ⟨json, hitems json hjson, hn⟩

theorem slots_gives :
    Gives (e.slots read name) fun slots => AreParts read e (slots.filterMap id) := by
  have hslots : Gives (e.slots read name) fun slots =>
      ∀ slot ∈ slots, AreParts read e slot.toList := by
    refine items_gives.bind fun items hitems => .mapM fun json hjson => ?_
    split
    · exact .pure .nil
    · have hread : Gives (read json) (IsPart read e) := fun n hn => ⟨json, hitems json hjson, hn⟩
      exact hread.map fun n hn => .cons hn .nil
  intro slots h n hn
  obtain ⟨slot, hslot, rfl⟩ := List.mem_filterMap.1 hn
  exact hslots h _ hslot n (by simp)

variable (read e) in
/-- The nodes right below the node are read from values of the entry. Where the
    entry is no more than a wrapper, the node itself is. -/
def IsBuilt (n : Node) : Prop := AreParts read e n.children ∨ IsPart read e n

theorem readEntry_gives : Gives (readEntry read e) (IsBuilt read e) := by
  unfold readEntry
  split
  · exact node_gives.bind fun _ hexpr => .pure (.inl (.cons hexpr .nil))
  · exact node?_gives.bind fun _ hvalue => .pure (.inl hvalue)
  · exact node?_gives.bind fun _ hlabel => nodes_gives.bind fun _ hbody =>
      .pure (.inl (.append hlabel hbody))
  · exact .guard <| node?_gives.bind fun _ hlabel => node?_gives.bind fun _ hresolved =>
      nodes_gives.bind fun _ hmembers =>
        .pure (.inl (.append (.append hlabel hresolved) hmembers))
  · exact nodes_gives.bind fun _ hitems => .pure (.inl hitems)
  iterate 2
    exact node_gives.bind fun _ hlabel => node?_gives.bind fun _ hinitial =>
      .pure (.inl (.cons hlabel hinitial))
  · have hsome : Gives (some <$> e.nodes read "stmts") fun body =>
        AreParts read e body.toList.flatten :=
      nodes_gives.map fun body hbody => by simpa using hbody
    exact .after fun _ => .either hsome (.pure .nil) fun _ hbody =>
      node_gives.bind fun _ hlabel => nodes_gives.bind fun _ hparams =>
        .pure (.inl (.append (.cons hlabel hparams) hbody))
  · exact node_gives.bind fun _ htarget => node_gives.bind fun _ hlabel =>
      nodes_gives.bind fun _ hargs => .pure (.inl (.cons htarget (.cons hlabel hargs)))
  · exact node_gives.bind fun _ hcallee => nodes_gives.bind fun _ hargs =>
      .pure (.inl (.cons hcallee hargs))
  · exact .guard <| node_gives.bind fun _ hcls => nodes_gives.bind fun _ hargs =>
      .pure (.inl (.cons hcls hargs))
  · exact node_gives.bind fun _ hbase => node?_gives.bind fun _ hkey =>
      .pure (.inl (.cons hbase hkey))
  iterate 4
    exact node_gives.bind fun _ hleft => node_gives.bind fun _ hright =>
      .pure (.inl (.cons hleft (.cons hright .nil)))
  · exact .after fun _ => nodes_gives.bind fun _ hparams => node_gives.bind fun _ hbody =>
      .pure (.inl (.append hparams (.cons hbody .nil)))
  · exact .after fun _ => nodes_gives.bind fun _ hparams => nodes_gives.bind fun _ huses =>
      nodes_gives.bind fun _ hbody => .pure (.inl (.append (.append hparams huses) hbody))
  iterate 2 exact .after fun _ => node_gives.mono fun _ hvariable => .inr hvariable
  · exact slots_gives.bind fun _ hslots => .pure (.inl hslots)
  iterate 2
    exact .after fun _ => .after fun _ => node?_gives.bind fun _ hkey =>
      node_gives.bind fun _ hvalue => .pure (.inl (.append hkey (.cons hvalue .nil)))
  · exact .after fun _ => .after fun _ => .guard <| node_gives.bind fun _ hvalue =>
      .pure (.inl (.cons hvalue .nil))
  · exact .after fun _ => .after fun _ => .guard <| .guard <| node_gives.bind fun _ hbound =>
      .pure (.inl (.cons hbound .nil))
  · split
    · exact .pure (.inl .nil)
    · exact .fail
  · exact node_gives.bind fun _ hlabel => .pure (.inl (.cons hlabel .nil))
  iterate 4
    split
    · exact .pure (.inl .nil)
    · exact .fail
  iterate 5 exact .after fun _ => .pure (.inl .nil)
  · exact .pure (.inl .nil)

end

/-! ## Whole trees -/

/-- Each object gives at most one level of the tree that is read from it. -/
theorem height_le_of_readNode {rounds : Nat} {json : Json} {n : Node}
    (h : readNode rounds json = .ok n) : Descent.everywhere.height n ≤ json.objectDepth := by
  induction rounds generalizing json n with
  | zero => cases h
  | succ rounds ih =>
    rw [readNode] at h
    cases json with
    | object members =>
      rw [readWith] at h
      split at h
      · next nodeType _ =>
        have hpart {m : Node}
            (hm : IsPart (readNode rounds) ⟨nodeType, members, spanOf members⟩ m) :
            Descent.everywhere.height m ≤ Json.objectDepthMembers members := by
          obtain ⟨json, hholds, hread⟩ := hm
          exact Nat.le_trans (ih hread) hholds.objectDepth_le
        rw [Json.objectDepth]
        obtain hchildren | hself := readEntry_gives h
        · exact Descent.height_le_succ_iff.2 fun child hchild => hpart (hchildren child hchild)
        · exact Nat.le_succ_of_le (hpart hself)
      · cases h
    | _ => cases h

theorem readStatements_gives (json : Json) :
    Gives (readStatements json) fun nodes =>
      ∀ n ∈ nodes, Descent.everywhere.height n ≤ json.objectDepth := by
  unfold readStatements
  split
  · exact .mapM fun item hitem n hn =>
      Nat.le_trans (height_le_of_readNode hn) (Json.objectDepth_le_of_mem hitem)
  · exact fun _ h => by cases h

/-- The trees of a dump are no higher than its text may be nested. -/
theorem height_le_of_ofText {text : String} {nodes : List Node} (h : ofText text = .ok nodes) :
    ∀ n ∈ nodes, Descent.everywhere.height n ≤ Json.maxDepth := by
  unfold ofText at h
  split at h
  · next json hjson =>
    intro n hn
    calc Descent.everywhere.height n
      _ ≤ json.objectDepth := readStatements_gives json h n hn
      _ ≤ json.depth := Json.objectDepth_le_depth json
      _ ≤ Json.maxDepth := (Json.bounded_of_ofText hjson).1
  · cases h

end Dump

/-- Trees that are no higher than the levels of a printer are never too deep for it. -/
theorem Script.ofNodes_ne_tooDeep {nodes : List Node} {span : Span}
    (h : ∀ n ∈ nodes, Descent.everywhere.height n ≤ Emit.maxDepth) :
    Script.ofNodes nodes ≠ .error (.tooDeep span) := by
  intro herror
  obtain ⟨n, hn, hfail⟩ := (Emit.failsFirst_of_ofNodes_error herror).exists_mem
  obtain ⟨k, m, -, -, -, hne⟩ | ⟨m, hreaches, -⟩ := Emit.exists_reaches_of_error hfail
  · exact hne span rfl
  · exact Nat.lt_irrefl _ (Descent.height_le_iff.1 (h n hn) _ m hreaches.everywhere)

/-- No dump is too deep to be emitted: a text that opens too many arrays and objects at
    once is refused as no JSON, and each object gives at most one level of a tree. -/
theorem Convert.dump_ne_tooDeep (json file : String) :
    (∀ file' span place, Convert.dump json file ≠ .error (.emit file' (.tooDeep span) place)) ∧
    (∀ read, read <+: Utf8.encode json.toList → Json.maxDepth < (Json.Nest.after {} read).opened →
      ∃ e, Convert.dump json file = .error (.dump file ⟨.syntaxError e, .unknown⟩)) ∧
    ∀ rounds value n, Dump.readNode rounds value = .ok n →
      Descent.everywhere.height n ≤ value.objectDepth := by
  refine ⟨fun file' span place h => ?_, fun read hread hlt => ?_, fun _ _ _ =>
    Dump.height_le_of_readNode⟩
  · unfold Convert.dump at h
    split at h
    · next nodes hnodes =>
      split at h
      · cases h
      · next herror =>
        cases h
        have hheight := fun n hn => Nat.le_trans (Dump.height_le_of_ofText hnodes n hn)
          (show Json.maxDepth ≤ Emit.maxDepth by decide)
        exact Script.ofNodes_ne_tooDeep hheight herror
    · cases h
  · cases hjson : Json.ofText json with
    | ok value => exact absurd ((Json.bounded_of_ofText hjson).2 read hread) (Nat.not_le_of_lt hlt)
    | error e => exact ⟨e, by simp [Convert.dump, Dump.ofText, hjson]⟩

/-- A text of opening brackets only. -/
def brackets (n : Nat) : String := String.ofList (List.replicate n '[')

/-- The text with 128 opening brackets is refused, and a node is one level of its object. -/
theorem Convert.brackets_ne_tooDeep :
    (Json.Nest.after {} (Utf8.encode (brackets 128).toList)).opened = 128 ∧
      (∃ e, Convert.dump (brackets 128) "f" = .error (.dump "f" ⟨.syntaxError e, .unknown⟩)) ∧
      ∃ n, Dump.readNode 1 (.object [("nodeType", .string "Stmt_Nop")]) = .ok n ∧
        Descent.everywhere.height n ≤ 1 := by
  have hopened : (Json.Nest.after {} (Utf8.encode (brackets 128).toList)).opened = 128 := by
    decide +kernel
  obtain ⟨-, hrefused, hheight⟩ := dump_ne_tooDeep (brackets 128) "f"
  refine ⟨hopened, hrefused _ (List.prefix_refl _) ?_, _, rfl,
    hheight 1 (.object [("nodeType", .string "Stmt_Nop")]) _ rfl⟩
  rw [hopened]
  decide

end PhpScript
