import Mathlib.Order.Bounds.Basic
import PhpScript.Proofs.Parse.Occurrence
import PhpScript.Proofs.Script.Outcome

/-!
# The trees that have a script

The rule of a node either refuses the node or emits some of the nodes below it,
each one level deeper. So a tree has a script exactly if none of the nodes that
are reached in this way is refused and none of them is too deep, and if it has
none, the error is at one of these nodes.

* A `Descent` is a choice of the nodes to go down to, with the nodes that it
  reaches and the height of a tree along it; `Node.emission` is the one of the
  rules.
* `Emit.node_follows` is about one rule: it emits the nodes of `Node.emitted` from
  left to right, and refuses the node if `Node.isRefused`.
* `Emit.node_domain` is about the whole tree, by induction along the descent.
-/

namespace PhpScript

/-! ## Ways down a tree -/

/-- A way down a tree: of the nodes below each node, those that it goes to. -/
structure Descent where
  below : Node → List Node
  subset : ∀ n, below n ⊆ n.children

namespace Descent

variable (d : Descent)

/-- The second node is so many steps below the first one. -/
inductive Reaches : Node → Nat → Node → Prop
  | here {n} : Reaches n 0 n
  | step {root child n k} : child ∈ d.below root → Reaches child k n → Reaches root (k + 1) n

/-- The number of nodes on the longest way down from a node, the node included. -/
def height (n : Node) : Nat :=
  ((d.below n).attach.map fun child => height child.1).foldr max 0 + 1
termination_by sizeOf n
decreasing_by exact Node.sizeOf_lt_of_mem_children (d.subset _ child.2)

variable {d}

theorem foldr_max_le {ks : List Nat} {bound : Nat} :
    ks.foldr max 0 ≤ bound ↔ ∀ k ∈ ks, k ≤ bound := by
  induction ks with
  | nil => simp
  | cons k ks ih => simp [ih]

theorem height_le_succ_iff {n : Node} {bound : Nat} :
    d.height n ≤ bound + 1 ↔ ∀ child ∈ d.below n, d.height child ≤ bound := by
  rw [height, Nat.add_le_add_iff_right, foldr_max_le]
  simp

theorem height_pos (n : Node) : 0 < d.height n := by
  rw [height]
  exact Nat.succ_pos _

/-- A bound on the height is a bound on all ways down. -/
theorem height_le_iff {n : Node} {bound : Nat} :
    d.height n ≤ bound ↔ ∀ k m, d.Reaches n k m → k < bound := by
  induction bound generalizing n with
  | zero =>
    refine iff_of_false (Nat.not_le_of_lt (height_pos n)) fun h => ?_
    exact absurd (h 0 n .here) (Nat.not_lt_zero 0)
  | succ bound ih =>
    rw [height_le_succ_iff]
    constructor
    · intro h k m hm
      cases hm with
      | here => exact Nat.succ_pos _
      | step hchild hm => exact Nat.succ_lt_succ (ih.1 (h _ hchild) _ _ hm)
    · intro h child hchild
      exact ih.2 fun k m hm => Nat.lt_of_succ_lt_succ (h _ m (.step hchild hm))

/-- The height is the number of nodes on a longest way down. -/
theorem height_isGreatest (n : Node) :
    IsGreatest {size | ∃ k m, d.Reaches n k m ∧ size = k + 1} (d.height n) := by
  have hbound : ∀ k m, d.Reaches n k m → k + 1 ≤ d.height n := height_le_iff.1 (Nat.le_refl _)
  constructor
  · by_contra hnot
    -- If no way down were that long, a smaller bound would do.
    have hpos := height_pos (d := d) n
    have hle : d.height n ≤ d.height n - 1 := height_le_iff.2 fun k m hm => by
      have hne : d.height n ≠ k + 1 := fun heq => hnot ⟨k, m, hm, heq⟩
      have := hbound k m hm
      omega
    omega
  · rintro size ⟨k, m, hm, rfl⟩
    exact hbound k m hm

end Descent

/-! ## What the rules emit -/

namespace Node

/-- Whether a node can name the member of an access. -/
def isIdentifier : Node → Bool
  | identifier .. => true
  | _ => false

/-- The nodes that the rule of a node emits. The label of a namespace and the
    variables that a closure binds are left out, and so is the name of a class
    with a resolved one. A rule that refuses the node emits what stands before
    the refusal. -/
def emitted : Node → List Node
  | expression expr _ => [expr]
  | returns value _ => value.toList
  | namespaceBlock _ body _ => body
  | classDecl _ (some label) members _ | classDecl (some label) none members _ => label :: members
  | classDecl none none _ _ => []
  | property _ items _ => items
  | propertyItem label initial _ => label :: initial.toList
  | method _ label params body _ => label :: params ++ body.toList.flatten
  | methodCall target label args _ =>
    if label.isIdentifier then target :: label :: args else [target]
  | functionCall callee args _ => callee :: args
  | construct cls args _ => cls :: args
  | index _ none _ => []
  | index base (some key) _ => [base, key]
  | member base label _ => if label.isIdentifier then [base, label] else [base]
  | assign target value _ | addAssign target value _ => [target, value]
  | concat left right _ => [left, right]
  | arrowFunction params body _ => params ++ [body]
  | closure params _ body _ => params ++ body
  | array slots _ => slots.filterMap id
  | arrayItem key value _ => value :: key.toList
  | argument value _ | parameter value _ | constant value _ => [value]
  | var .. | integer .. | float .. | string .. | identifier .. | name .. | other .. => []

/-- Whether the rule of a node refuses it, whatever stands below it. -/
def isRefused : Node → Bool
  | other .. => true
  | name parts fullyQualified _ => fullyQualified || parts.length != 1
  | index _ key _ => key.isNone
  | methodCall _ label _ _ | member _ label _ => !label.isIdentifier
  | classDecl label resolved _ _ => resolved.isNone && label.isNone
  | _ => false

theorem emitted_subset_children (n : Node) : n.emitted ⊆ n.children := by
  fun_cases emitted n
  all_goals simp [children]

/-- The way down that emitting takes. -/
def emission : Descent := ⟨emitted, emitted_subset_children⟩

end Node

/-! ## One rule -/

namespace Emit

/-- Of the nodes `parts`, those before the first one that fails are emitted, and this one fails
    with the error. -/
def FailsFirst (parts : List Node) (p : Printer) (e : EmitError) : Prop :=
  ∃ before n after, parts = before ++ n :: after ∧
    (∀ k ∈ before, ∃ text, node k p = .ok text p) ∧ node n p = .error e p

namespace FailsFirst

variable {parts parts' : List Node} {p : Printer} {e : EmitError}

theorem exists_mem (h : FailsFirst parts p e) : ∃ n ∈ parts, node n p = .error e p := by
  obtain ⟨before, n, after, rfl, -, hfail⟩ := h
  exact ⟨n, by simp, hfail⟩

theorem append_right (h : FailsFirst parts p e) : FailsFirst (parts ++ parts') p e := by
  obtain ⟨before, n, after, rfl, hbefore, hfail⟩ := h
  exact ⟨before, n, after ++ parts', by simp, hbefore, hfail⟩

theorem append_left (h : FailsFirst parts' p e)
    (hparts : ∀ n ∈ parts, ∃ text, node n p = .ok text p) : FailsFirst (parts ++ parts') p e := by
  obtain ⟨before, n, after, rfl, hbefore, hfail⟩ := h
  exact ⟨parts ++ before, n, after, by simp, List.forall_mem_append.2 ⟨hparts, hbefore⟩, hfail⟩

end FailsFirst

/-- The emitter emits the nodes `parts` from left to right, and nothing else. If it
    is to refuse, then with an error at `place`, unless one of the parts fails
    before. -/
structure Follows (parts : List Node) (refuses : Bool) (place : Span) (m : Emitter α) : Prop where
  ok : ∀ {p q : Printer} {a : α}, m p = .ok a q →
    q = p ∧ refuses = false ∧ ∀ n ∈ parts, ∃ text, node n p = .ok text p
  error : ∀ {p q : Printer} {e : EmitError}, m p = .error e q →
    q = p ∧ (FailsFirst parts p e ∨ refuses ∧ e.span = place ∧ ∀ span, e ≠ .tooDeep span)

namespace Follows

variable {parts parts' : List Node} {refuses refuses' : Bool} {place : Span}
  {m : Emitter α} {f : α → Emitter β}

theorem pure {a : α} : Follows [] false place (Pure.pure a) where
  ok h := by
    cases h
    exact ⟨rfl, rfl, by simp⟩
  error h := by cases h

theorem throw {e : EmitError} (hspan : e.span = place) (hne : ∀ span, e ≠ .tooDeep span) :
    Follows [] true place (throw e : Emitter α) where
  ok h := by cases h
  error h := by
    cases h
    exact ⟨rfl, .inr ⟨rfl, hspan, hne⟩⟩

theorem node (n : Node) : Follows [n] false place (node n) where
  ok {p q a} h := by
    obtain hok | ⟨e, he⟩ := (node_describes n).keeps p
    · rw [hok] at h
      cases h
      exact ⟨rfl, rfl, List.forall_mem_singleton.2 ⟨_, hok⟩⟩
    · rw [he] at h
      cases h
  error {p q e} h := by
    obtain hok | ⟨e', he⟩ := (node_describes n).keeps p
    · rw [hok] at h
      cases h
    · rw [he] at h
      cases h
      exact ⟨rfl, .inl ⟨[], n, [], rfl, by simp, he⟩⟩

theorem bind (hm : Follows parts refuses place m)
    (hf : ∀ a, Follows parts' refuses' place (f a)) :
    Follows (parts ++ parts') (refuses || refuses') place (m >>= f) where
  ok {p q b} h := by
    simp only [Bind.bind, EStateM.bind] at h
    split at h
    · next a between hmp =>
      obtain ⟨rfl, hr, hparts⟩ := hm.ok hmp
      obtain ⟨rfl, hr', hparts'⟩ := (hf a).ok h
      exact ⟨rfl, by simp [hr, hr'], List.forall_mem_append.2 ⟨hparts, hparts'⟩⟩
    · cases h
  error {p q e} h := by
    simp only [Bind.bind, EStateM.bind] at h
    split at h
    · next a between hmp =>
      obtain ⟨rfl, -, hparts⟩ := hm.ok hmp
      obtain ⟨rfl, hfail | ⟨hr, hplace⟩⟩ := (hf a).error h
      · exact ⟨rfl, .inl (hfail.append_left hparts)⟩
      · exact ⟨rfl, .inr ⟨by simp [hr], hplace⟩⟩
    · next hmp =>
      cases h
      obtain ⟨rfl, hfail | ⟨hr, hplace⟩⟩ := hm.error hmp
      · exact ⟨rfl, .inl hfail.append_right⟩
      · exact ⟨rfl, .inr ⟨by simp [hr], hplace⟩⟩

/-- What is made of the value afterwards emits nothing. -/
theorem map {g : α → β} (hm : Follows parts refuses place m) :
    Follows parts refuses place (m >>= fun a => Pure.pure (g a)) := by
  simpa using hm.bind fun a => pure (a := g a)

theorem list (nodes : List Node) : Follows nodes false place (list nodes) := by
  induction nodes with
  | nil => exact pure
  | cons n nodes ih => exact (node n).bind fun _ => ih.map

theorem slots (items : List (Option Node)) :
    Follows (items.filterMap id) false place (slots items) := by
  induction items with
  | nil => exact pure
  | cons item items ih =>
    cases item with
    | none => exact ih.map
    | some n => exact (node n).bind fun _ => ih.map

theorem nameText {parts : List String} {fullyQualified : Bool} :
    Follows [] (Node.name parts fullyQualified place).isRefused place
      (nameText parts fullyQualified place) := by
  match parts, fullyQualified with
  | [_], false => exact pure
  | [_], true | [], false | [], true | _ :: _ :: _, true => exact throw rfl (by simp)
  | a :: b :: rest, false =>
    have hrefused : (Node.name (a :: b :: rest) false place).isRefused := by simp [Node.isRefused]
    rw [hrefused]
    exact throw rfl (by simp)

theorem ok_iff (hm : Follows parts refuses place m) {p : Printer} :
    (∃ a after, m p = .ok a after) ↔
      refuses = false ∧ ∀ n ∈ parts, ∃ text after, Emit.node n p = .ok text after := by
  constructor
  · rintro ⟨a, after, h⟩
    obtain ⟨-, hrefuses, hparts⟩ := hm.ok h
    refine ⟨hrefuses, fun n hn => ?_⟩
    obtain ⟨text, htext⟩ := hparts n hn
    exact ⟨text, p, htext⟩
  · rintro ⟨hrefuses, hparts⟩
    cases h : m p with
    | ok a after => exact ⟨a, after, rfl⟩
    | error e after =>
      obtain ⟨-, hfails | ⟨hrefuses', -⟩⟩ := hm.error h
      · obtain ⟨n, hn, hfail⟩ := hfails.exists_mem
        obtain ⟨text, after', htext⟩ := hparts n hn
        rw [hfail] at htext
        cases htext
      · rw [hrefuses] at hrefuses'
        cases hrefuses'

/-- A refusal ends the rule. -/
theorem throw_bind {e : EmitError} (hspan : e.span = place) (hne : ∀ span, e ≠ .tooDeep span) :
    Follows [] true place (MonadExcept.throw e >>= f) :=
  throw hspan hne

end Follows

/-- The rule of a node emits the nodes of `Node.emitted`, one level deeper, and
    refuses the node if it is to be refused. -/
theorem node_follows (n : Node) :
    ∃ body, node n = within n.span body ∧ Follows n.emitted n.isRefused n.span body := by
  cases n with
  | expression expr s => exact ⟨_, rfl, .node expr⟩
  | returns value s =>
    cases value with
    | none => exact ⟨_, rfl, .pure⟩
    | some value => exact ⟨_, rfl, (Follows.node value).map⟩
  | namespaceBlock label body s => exact ⟨_, rfl, (Follows.list body).map⟩
  | classDecl label resolved members s =>
    cases resolved with
    | some label => exact ⟨_, rfl, (Follows.node label).bind fun _ => (Follows.list members).map⟩
    | none =>
      cases label with
      | some label => exact ⟨_, rfl, (Follows.node label).bind fun _ => (Follows.list members).map⟩
      | none => exact ⟨_, rfl, .throw rfl (by simp)⟩
  | property flags items s => exact ⟨_, rfl, (Follows.list items).map⟩
  | propertyItem label initial s =>
    cases initial with
    | none => exact ⟨_, rfl, (Follows.node label).map⟩
    | some initial => exact ⟨_, rfl, (Follows.node label).bind fun _ => (Follows.node initial).map⟩
  | method flags label params body s =>
    cases body with
    | none =>
      refine ⟨_, rfl, ?_⟩
      simpa [Node.emitted, Node.isRefused] using
        (Follows.node label).bind fun _ => (Follows.list params).map
    | some body =>
      refine ⟨_, rfl, ?_⟩
      simpa [Node.emitted, Node.isRefused] using (Follows.node label).bind fun _ =>
        (Follows.list params).bind fun _ => (Follows.list body).map
  | methodCall target label args s =>
    cases label with
    | identifier label place =>
      exact ⟨_, rfl, (Follows.node target).bind fun _ =>
        (Follows.node (.identifier label place)).bind fun _ => (Follows.list args).map⟩
    | _ => exact ⟨_, rfl, (Follows.node target).bind fun _ => .throw_bind rfl (by simp)⟩
  | functionCall callee args s =>
    exact ⟨_, rfl, (Follows.node callee).bind fun _ => (Follows.list args).map⟩
  | construct cls args s =>
    exact ⟨_, rfl, (Follows.node cls).bind fun _ => (Follows.list args).map⟩
  | index base key s =>
    cases key with
    | none => exact ⟨_, rfl, .throw rfl (by simp)⟩
    | some key => exact ⟨_, rfl, (Follows.node base).bind fun _ => (Follows.node key).map⟩
  | member base label s =>
    cases label with
    | identifier label place =>
      exact ⟨_, rfl, (Follows.node base).bind fun _ =>
        (Follows.node (.identifier label place)).map⟩
    | _ => exact ⟨_, rfl, (Follows.node base).bind fun _ => .throw_bind rfl (by simp)⟩
  | assign left right s | addAssign left right s | concat left right s =>
    exact ⟨_, rfl, (Follows.node left).bind fun _ => (Follows.node right).map⟩
  | arrowFunction params body s =>
    exact ⟨_, rfl, (Follows.list params).bind fun _ => (Follows.node body).map⟩
  | closure params uses body s =>
    exact ⟨_, rfl, (Follows.list params).bind fun _ => (Follows.list body).map⟩
  | array items s => exact ⟨_, rfl, (Follows.slots items).map⟩
  | arrayItem key value s =>
    cases key with
    | none => exact ⟨_, rfl, .node value⟩
    | some key => exact ⟨_, rfl, (Follows.node value).bind fun _ => (Follows.node key).map⟩
  | argument value s | parameter value s | constant value s => exact ⟨_, rfl, .node value⟩
  | var | integer | float | string | identifier => exact ⟨_, rfl, .pure⟩
  | name => exact ⟨_, rfl, .nameText⟩
  | other => exact ⟨_, rfl, .throw rfl (by simp)⟩

/-! ## Whole trees -/

/-- The printer that the nodes below a node are emitted with. -/
def deeper (p : Printer) : Printer := { p with depth := p.depth + 1 }

theorem within_ok_iff {span : Span} {m : Emitter α} {p : Printer} :
    (∃ a after, within span m p = .ok a after) ↔
      p.depth < maxDepth ∧ ∃ a after, m (deeper p) = .ok a after := by
  unfold within
  split
  · next h => simp [Nat.not_lt_of_le h]
  · next h =>
    have hlt : p.depth < maxDepth := Nat.lt_of_not_le h
    cases hm : m (deeper p) with
    | ok a q =>
      rw [deeper] at hm
      simp [hm, hlt]
    | error e q =>
      rw [deeper] at hm
      simp [hm]

theorem within_error {span : Span} {m : Emitter α} {p q : Printer} {e : EmitError}
    (h : within span m p = .error e q) :
    maxDepth ≤ p.depth ∧ e = .tooDeep span ∨
      p.depth < maxDepth ∧ ∃ after, m (deeper p) = .error e after := by
  unfold within at h
  split at h
  · next hdeep =>
    cases h
    exact .inl ⟨hdeep, rfl⟩
  · next hdeep =>
    split at h
    · cases h
    · next hm =>
      cases h
      exact .inr ⟨Nat.lt_of_not_le hdeep, _, hm⟩

theorem node_ok_iff (n : Node) (p : Printer) :
    (∃ text after, node n p = .ok text after) ↔
      p.depth < maxDepth ∧ n.isRefused = false ∧
        ∀ child ∈ n.emitted, ∃ text after, node child (deeper p) = .ok text after := by
  obtain ⟨body, heq, hbody⟩ := node_follows n
  rw [heq, within_ok_iff, hbody.ok_iff]

/-- The error of a node is that of the first node below it that fails, or its own. -/
theorem node_error_first {n : Node} {p q : Printer} {e : EmitError} (h : node n p = .error e q) :
    maxDepth ≤ p.depth ∧ e = .tooDeep n.span ∨
      p.depth < maxDepth ∧ (FailsFirst n.emitted (deeper p) e ∨
        n.isRefused ∧ e.span = n.span ∧ ∀ span, e ≠ .tooDeep span) := by
  obtain ⟨body, heq, hbody⟩ := node_follows n
  rw [heq] at h
  obtain hdeep | ⟨hlt, after, hfail⟩ := within_error h
  · exact .inl hdeep
  · exact .inr ⟨hlt, (hbody.error hfail).2⟩

theorem node_error {n : Node} {p q : Printer} {e : EmitError} (h : node n p = .error e q) :
    maxDepth ≤ p.depth ∧ e = .tooDeep n.span ∨
      p.depth < maxDepth ∧ ((∃ child ∈ n.emitted, node child (deeper p) = .error e (deeper p)) ∨
        n.isRefused ∧ e.span = n.span ∧ ∀ span, e ≠ .tooDeep span) := by
  obtain hdeep | ⟨hlt, hfails | hrefused⟩ := node_error_first h
  · exact .inl hdeep
  · exact .inr ⟨hlt, .inl hfails.exists_mem⟩
  · exact .inr ⟨hlt, .inr hrefused⟩

/-- A program without a script has a first statement without one. -/
theorem failsFirst_of_ofNodes_error {nodes : List Node} {e : EmitError}
    (h : Script.ofNodes nodes = .error e) : FailsFirst nodes {} e := by
  have hfollows : Follows nodes false .unknown (program nodes) := (Follows.list nodes).map
  simp only [Script.ofNodes, serve, Request.emitter] at h
  split at h
  · cases h
  · next hrun =>
    cases h
    obtain ⟨-, hfails | ⟨hfalse, -⟩⟩ := hfollows.error hrun
    · exact hfails
    · cases hfalse

/-- A tree has a script exactly if emitting reaches no node that is refused, and
    the levels that the printer has left are enough for its height. -/
theorem node_ok_iff_reaches (n : Node) (p : Printer) :
    (∃ text after, node n p = .ok text after) ↔
      (∀ k m, Node.emission.Reaches n k m → m.isRefused = false) ∧
        p.depth + Node.emission.height n ≤ maxDepth := by
  induction n using Node.induction generalizing p with
  | step n ih =>
  have ih := fun child hchild => ih child (n.emitted_subset_children hchild) (deeper p)
  rw [node_ok_iff]
  constructor
  · rintro ⟨hlt, hrefused, hchildren⟩
    have hbelow := fun child hchild => (ih child hchild).1 (hchildren child hchild)
    constructor
    · intro k m hm
      cases hm with
      | here => exact hrefused
      | step hchild hm => exact (hbelow _ hchild).1 _ m hm
    · -- One level is for the node, and the rest has to do for each of the others.
      have hheight : Node.emission.height n ≤ (maxDepth - p.depth - 1) + 1 := by
        refine Descent.height_le_succ_iff.2 fun child hchild => ?_
        have hle : p.depth + 1 + Node.emission.height child ≤ maxDepth := (hbelow child hchild).2
        omega
      omega
  · rintro ⟨hreaches, hheight⟩
    have hpos := Descent.height_pos (d := Node.emission) n
    refine ⟨by omega, hreaches 0 n .here, fun child hchild => (ih child hchild).2 ⟨?_, ?_⟩⟩
    · exact fun k m hm => hreaches (k + 1) m (.step hchild hm)
    · have hle : Node.emission.height n ≤ (maxDepth - p.depth - 1) + 1 := by omega
      have hchild := Descent.height_le_succ_iff.1 hle child hchild
      change p.depth + 1 + _ ≤ _
      omega

/-- An error is at a node that is refused, or at one of the first level that the
    printer has no room for. -/
theorem exists_reaches_of_error {n : Node} {p q : Printer} {e : EmitError}
    (h : node n p = .error e q) :
    (∃ k m, Node.emission.Reaches n k m ∧ m.isRefused ∧ e.span = m.span ∧
      ∀ span, e ≠ .tooDeep span) ∨
    ∃ m, Node.emission.Reaches n (maxDepth - p.depth) m ∧ e = .tooDeep m.span := by
  induction n using Node.induction generalizing p q with
  | step n ih =>
  obtain ⟨hdeep, rfl⟩ | ⟨hlt, ⟨child, hchild, hfail⟩ | ⟨hrefused, hspan, hne⟩⟩ := node_error h
  · exact .inr ⟨n, by rw [Nat.sub_eq_zero_of_le hdeep]; exact .here, rfl⟩
  · obtain ⟨k, m, hm, hrefused⟩ | ⟨m, hm, heq⟩ :=
      ih child (n.emitted_subset_children hchild) hfail
    · exact .inl ⟨k + 1, m, .step hchild hm, hrefused⟩
    · have hlevels : maxDepth - p.depth = maxDepth - (deeper p).depth + 1 := by
        simp only [deeper]
        omega
      exact .inr ⟨m, by rw [hlevels]; exact .step hchild hm, heq⟩
  · exact .inl ⟨0, n, .here, hrefused, hspan, hne⟩

/-- The trees that have a script, from any printer, and where emitting the others
    fails. -/
theorem node_domain (n : Node) (p : Printer) :
    ((∃ text after, node n p = .ok text after) ↔
      (∀ k m, Node.emission.Reaches n k m → m.isRefused = false) ∧
        p.depth + Node.emission.height n ≤ maxDepth) ∧
    ∀ e after, node n p = .error e after →
      (∃ k m, Node.emission.Reaches n k m ∧ m.isRefused ∧ e.span = m.span ∧
        ∀ span, e ≠ .tooDeep span) ∨
      ∃ m, Node.emission.Reaches n (maxDepth - p.depth) m ∧ e = .tooDeep m.span :=
  ⟨node_ok_iff_reaches n p, fun _ _ h => exists_reaches_of_error h⟩

/-- `$a . $b[]`, where the second operand lacks its index. -/
def danglingIndex : Node :=
  .concat (.var "a" ⟨0, 2⟩) (.index (.var "b" ⟨5, 7⟩) none ⟨5, 9⟩) ⟨0, 9⟩

/-- With two levels left the second operand is refused, and with one the first
    operand is too deep already. -/
theorem danglingIndex_domain :
    (node danglingIndex ⟨510⟩ = .error (.missingIndex ⟨5, 9⟩) ⟨510⟩ ∧
      ∃ k m, Node.emission.Reaches danglingIndex k m ∧ m.isRefused ∧ ⟨5, 9⟩ = m.span) ∧
    node danglingIndex ⟨511⟩ = .error (.tooDeep ⟨0, 2⟩) ⟨511⟩ ∧
      ∃ m, Node.emission.Reaches danglingIndex 1 m ∧ ⟨0, 2⟩ = m.span := by
  refine ⟨⟨rfl, ?_⟩, rfl, ?_⟩
  · obtain ⟨k, m, hm, hrefused, hspan, -⟩ | ⟨m, -, heq⟩ :=
      (node_domain danglingIndex ⟨510⟩).2 _ _ rfl
    · exact ⟨k, m, hm, hrefused, hspan⟩
    · cases heq
  · obtain ⟨k, m, -, -, -, hne⟩ | ⟨m, hm, heq⟩ := (node_domain danglingIndex ⟨511⟩).2 _ _ rfl
    · exact absurd rfl (hne ⟨0, 2⟩)
    · exact ⟨m, hm, EmitError.tooDeep.inj heq⟩

end Emit

end PhpScript
