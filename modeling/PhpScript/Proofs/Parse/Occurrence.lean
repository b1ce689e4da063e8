import PhpScript.Proofs.Parse.Soundness

/-!
# Occurrences in parsed trees

`Node.Occurs` relates a tree to all trees inside it, at any depth. Derivations
go down along it (`Parse.Derives.of_occurs`), so what holds of every derived node
holds everywhere in a parsed program: `Parse.IsParsed` is about any node that
parsing can give, not only about the statements of a program.
-/

namespace PhpScript

namespace Node

/-- The nodes directly below a node. -/
def children : Node → List Node
  | expression expr _ => [expr]
  | returns value _ => value.toList
  | namespaceBlock label body _ => label.toList ++ body
  | classDecl label resolved members _ => label.toList ++ resolved.toList ++ members
  | property _ items _ => items
  | propertyItem label initial _ => label :: initial.toList
  | method _ label params body _ => label :: params ++ body.toList.flatten
  | methodCall target label args _ => target :: label :: args
  | functionCall callee args _ => callee :: args
  | construct cls args _ => cls :: args
  | index base key _ => base :: key.toList
  | member base label _ => [base, label]
  | assign target value _ | addAssign target value _ => [target, value]
  | concat left right _ => [left, right]
  | arrowFunction params body _ => params ++ [body]
  | closure params uses body _ => params ++ uses ++ body
  | array slots _ => slots.filterMap id
  | arrayItem key value _ => key.toList ++ [value]
  | argument value _ | parameter value _ | constant value _ => [value]
  | other _ children _ => children
  | var .. | integer .. | float .. | string .. | identifier .. | name .. => []

/-- The first node stands somewhere in the second, which may be the node itself. -/
inductive Occurs : Node → Node → Prop
  | here {n} : Occurs n n
  | inside {n child root} : child ∈ root.children → Occurs n child → Occurs n root

theorem Occurs.of_mem {child root : Node} (h : child ∈ root.children) : child.Occurs root :=
  .inside h .here

/-- What holds of a node and everywhere in its children holds everywhere in it. -/
theorem forall_occurs {P : Node → Prop} {root : Node} (here : P root)
    (inside : ∀ child ∈ root.children, ∀ n, n.Occurs child → P n) : ∀ n, n.Occurs root → P n := by
  intro n hn
  cases hn with
  | here => exact here
  | inside hchild hn => exact inside _ hchild n hn

theorem sizeOf_lt_of_mem_children {child n : Node} (h : child ∈ n.children) :
    sizeOf child < sizeOf n := by
  have hlist {nodes : List Node} (hc : child ∈ nodes) : sizeOf child < sizeOf nodes :=
    List.sizeOf_lt_of_mem hc
  have hoption {n? : Option Node} (hc : child ∈ n?) : sizeOf child < sizeOf n? := by
    cases hc
    simp
  have hslots {slot : Option Node} {slots : List (Option Node)} (hs : slot ∈ slots)
      (hc : child ∈ slot) : sizeOf child < sizeOf slots :=
    Nat.lt_trans (hoption hc) (List.sizeOf_lt_of_mem hs)
  have hbody {nodes : List Node} {body : Option (List Node)} (hn : nodes ∈ body)
      (hc : child ∈ nodes) : sizeOf child < sizeOf body := by
    cases hn
    simpa using Nat.lt_add_left 1 (hlist hc)
  cases n with
  | var | integer | float | string | identifier | name => cases h
  | _ =>
    simp only [children, List.mem_append, List.mem_cons, List.not_mem_nil, or_false,
      Option.mem_toList, List.mem_flatten, List.mem_filterMap, id, ← Option.mem_def] at h
    grind

/-- Induction over a tree: a property passes from the nodes below a node to it. -/
theorem induction {P : Node → Prop} (step : ∀ n, (∀ child ∈ n.children, P child) → P n)
    (n : Node) : P n :=
  step n fun child _ => induction step child
termination_by sizeOf n
decreasing_by exact sizeOf_lt_of_mem_children ‹_›

/-- The names in the node itself are words. -/
def IsSpelled : Node → Prop
  | var label _ | identifier label _ => isWord label.toList
  | name parts _ _ => ∀ part ∈ parts, isWord part.toList
  | _ => True

end Node

namespace Parse

/-- A tree that parsing the source text gives, or a part of one. -/
def IsParsed (text : String) (n : Node) : Prop :=
  ∃ nodes root, source text = .ok nodes ∧ root ∈ nodes ∧ n.Occurs root

namespace Derives

theorem isSpelled {form : Form} {n : Node} (h : Derives (isWord ·) form n) : n.IsSpelled := by
  induction h with
  | var hw => exact hw
  | label hw => exact hw
  | name _ hw => exact hw
  | _ => first | assumption | exact trivial

/-- What stands directly below a derived node is derived in some form. -/
theorem child {W : List Char → Prop} {form : Form} {n child : Node} (h : Derives W form n)
    (hc : child ∈ n.children) : Derives W .part child := by
  induction h with
  | programStatement _ _ ih | topStatement _ ih | ofOperation _ ih | ofAccess _ ih | ofPrimary _ ih
  | ofVariable _ ih | group _ ih | memberByLabel _ ih | memberByVariable _ ih
  | memberByExpression _ ih | constructedByName _ ih | constructedByVariable _ ih
  | constructedByExpression _ ih | part _ ih => exact ih hc
  | other _ hchildren => exact hchildren child hc
  -- Every other rule has a premise for each of the children.
  | _ =>
    simp only [Node.children, List.mem_append, List.mem_cons, List.mem_flatten, List.mem_filterMap,
      Option.mem_toList, id, ← Option.mem_def] at hc
    grind [Derives.part]

theorem of_occurs {W : List Char → Prop} {n root : Node} (h : Derives W .part root)
    (ho : n.Occurs root) : Derives W .part n := by
  induction ho with
  | here => exact h
  | inside hchild _ ih => exact ih (h.child hchild)

end Derives

theorem IsParsed.derives {text : String} {n : Node} (hsize : text.utf8ByteSize ≤ Span.limit)
    (h : IsParsed text n) : Derives (isWord ·) .part n := by
  obtain ⟨nodes, root, hsource, hroot, ho⟩ := h
  exact (Derives.part (source_derives hsize hsource root hroot)).of_occurs ho

theorem IsParsed.of_expression {text : String} {n : Node} {s : Span}
    (h : source text = .ok [.expression n s]) : IsParsed text n :=
  ⟨_, _, h, List.mem_singleton_self _, .of_mem (by simp [Node.children])⟩

/-- What a source text is can be checked by running the parser. -/
theorem exists_of_any {text : String} {check : List Node → Bool}
    (h : (source text).toOption.any check) : ∃ nodes, source text = .ok nodes ∧ check nodes := by
  cases hs : source text with
  | ok nodes => exact ⟨nodes, rfl, by simpa [hs, Except.toOption] using h⟩
  | error e => simp [hs, Except.toOption] at h

end Parse

end PhpScript
