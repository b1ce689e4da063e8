import PhpScript.Proofs.Parse.Arrangement
import PhpScript.Proofs.Script.Domain

/-!
# The error that is reported

Emitting stops at the first node that it refuses. It goes through the nodes in the order of the
source, but for one rule: the item of an array emits its value before its key. So a refused
node that ends before the one that is reported was overlooked in this way, and in no other
(`Script.first_refused_iff`).

The nodes that count are those that stand in a script if their tree has one, `Node.InScript`:
all but the label of a namespace and the variables that a closure binds.
-/

namespace PhpScript

namespace Node

/-! ## Nodes in a script -/

/-- The nodes right below a node that stand in its script, in the order of the source. Of the
    names of a class it is the resolved one, if there is one. -/
def scripted : Node → List Node
  | namespaceBlock _ body _ => body
  | classDecl label resolved members _ => (resolved.or label).toList ++ members
  | closure params _ body _ => params ++ body
  | n => n.children

theorem scripted_sublist_children (n : Node) : n.scripted.Sublist n.children := by
  cases n with
  | namespaceBlock => exact List.sublist_append_right _ _
  | classDecl label resolved => cases resolved <;> simp [scripted, children]
  | closure => simp [scripted, children]
  | _ => exact .refl _

/-- The way down to the nodes that stand in a script. -/
def scripting : Descent := ⟨scripted, fun n => n.scripted_sublist_children.subset⟩

/-- The first node stands in the script of the second. -/
def InScript (n root : Node) : Prop := ∃ k, scripting.Reaches root k n

end Node

theorem Descent.Reaches.occurs {d : Descent} {root n : Node} {k : Nat} (h : d.Reaches root k n) :
    n.Occurs root := by
  induction h with
  | here => exact .here
  | step hchild _ ih => exact .inside (d.subset _ hchild) ih

namespace Node

/-- Whether a node is an item of an array with a key. -/
def isKeyed : Node → Bool
  | arrayItem (some _) _ _ => true
  | _ => false

/-- A rule emits what stands in the script in the order of the source, up to where it refuses the
    node. Only the item of an array does not. -/
theorem emitted_prefix_scripted {n : Node} (h : n.isKeyed = false) : n.emitted <+: n.scripted := by
  cases n with
  | methodCall target label args s =>
    rw [emitted]
    split
    · exact List.prefix_refl _
    · exact ⟨label :: args, rfl⟩
  | member base label s =>
    rw [emitted]
    split
    · exact List.prefix_refl _
    · exact ⟨[label], rfl⟩
  | classDecl label resolved members s =>
    cases resolved <;> cases label <;> simp [emitted, scripted]
  | index base key s => cases key <;> simp [emitted, scripted, children]
  | arrayItem key value s =>
    cases key with
    | none => exact List.prefix_refl _
    | some key => cases h
  | _ => simp [emitted, scripted, children]

theorem emitted_subset_scripted (n : Node) : n.emitted ⊆ n.scripted := by
  cases hkeyed : n.isKeyed with
  | false => exact (emitted_prefix_scripted hkeyed).subset
  | true =>
    unfold isKeyed at hkeyed
    split at hkeyed
    · simp [emitted, scripted, children]
    · cases hkeyed

/-- A rule that does not refuse the node emits all that stands in the script. -/
theorem scripted_subset_emitted {n : Node} (h : n.isRefused = false) : n.scripted ⊆ n.emitted := by
  cases n with
  | methodCall target label args s | member base label s =>
    have hlabel : label.isIdentifier := by simpa [isRefused] using h
    simp [emitted, scripted, children, hlabel]
  | classDecl label resolved members s =>
    cases resolved <;> cases label <;> simp_all [emitted, scripted, isRefused]
  | index base key s => cases key <;> simp_all [emitted, scripted, children, isRefused]
  | arrayItem key value s => cases key <;> simp [emitted, scripted, children]
  | other => cases h
  | _ => simp [emitted, scripted, children]

namespace InScript

variable {n child root : Node}

theorem here : n.InScript n := ⟨0, .here⟩

theorem below (hchild : child ∈ root.scripted) (hn : n.InScript child) : n.InScript root := by
  obtain ⟨k, hk⟩ := hn
  exact ⟨k + 1, .step hchild hk⟩

theorem occurs (h : n.InScript root) : n.Occurs root := by
  obtain ⟨k, hk⟩ := h
  exact hk.occurs

/-- What is emitted stands in the script. -/
theorem of_emission {k : Nat} (h : emission.Reaches root k n) : n.InScript root := by
  induction h with
  | here => exact here
  | step hchild _ ih => exact ih.below (emitted_subset_scripted _ hchild)

end InScript

/-- The node stands in the key of an item of an array, and a node of the span in its value. -/
def IsOverlooked (n root : Node) (span : Span) : Prop :=
  ∃ key value place, (arrayItem (some key) value place).InScript root ∧ n.InScript key ∧
    ∃ m : Node, m.InScript value ∧ m.span = span

theorem IsOverlooked.below {n child root : Node} {span : Span} (hchild : child ∈ root.scripted)
    (h : n.IsOverlooked child span) : n.IsOverlooked root span := by
  obtain ⟨key, value, place, hitem, hparts⟩ := h
  exact ⟨key, value, place, hitem.below hchild, hparts⟩

/-- What is overlooked ends before what is reported. -/
theorem IsOverlooked.stop_le {n root : Node} {span : Span} (h : n.IsOverlooked root span)
    (horder : ∀ m : Node, m.Occurs root → m.IsInOrder) : n.span.stop ≤ span.start := by
  obtain ⟨key, value, place, hitem, hn, m, hm, rfl⟩ := h
  have hpair : [key, value].Pairwise Precedes := (horder _ hitem.occurs).ordered
  exact (List.pairwise_pair.1 hpair) n hn.occurs m hm.occurs

end Node

/-! ## What fails first -/

namespace Emit

open Node (Precedes InScript IsOverlooked IsInOrder)

/-- Nothing that stands in a script is refused. -/
theorem isRefused_of_ok {root n : Node} {p q : Printer} {text : String}
    (h : node root p = .ok text q) (hn : n.InScript root) : n.isRefused = false := by
  obtain ⟨k, hk⟩ := hn
  induction hk generalizing p q text with
  | here => exact ((node_ok_iff _ p).1 ⟨text, q, h⟩).2.1
  | step hchild _ ih =>
    obtain ⟨-, hrefused, hemitted⟩ := (node_ok_iff _ p).1 ⟨text, q, h⟩
    obtain ⟨text', q', hok⟩ := hemitted _ (Node.scripted_subset_emitted hrefused hchild)
    exact ih hok

/-- The error is at a node that stands in the script. -/
theorem exists_inScript_of_error {root : Node} {p q : Printer} {e : EmitError}
    (h : node root p = .error e q) : ∃ m : Node, m.InScript root ∧ m.span = e.span := by
  obtain ⟨k, m, hm, -, hspan, -⟩ | ⟨m, hm, rfl⟩ := exists_reaches_of_error h
  · exact ⟨m, .of_emission hm, hspan.symm⟩
  · exact ⟨m, .of_emission hm, rfl⟩

/-- No refused node in the tree ends before the place of the error, but for those that are
    overlooked. -/
def ReportsFirst (root : Node) (e : EmitError) : Prop :=
  ∀ n : Node, n.InScript root → n.isRefused → n.span.stop ≤ e.span.start →
    n.IsOverlooked root e.span

variable {root : Node} {p q : Printer} {e : EmitError}

/-- Of nodes in a row, the first that fails reports what is to report. -/
theorem reportsFirst_of_failsFirst {parts nodes : List Node} (hfails : FailsFirst parts p e)
    (hparts : parts <+: nodes) (hordered : nodes.Pairwise Precedes)
    (horder : ∀ root ∈ nodes, ∀ n : Node, n.Occurs root → n.IsInOrder)
    (hreports : ∀ root ∈ nodes, ∀ q, node root p = .error e q → ReportsFirst root e) :
    ∀ root ∈ nodes, ReportsFirst root e := by
  obtain ⟨before, c, after, rfl, hbefore, hfail⟩ := hfails
  obtain ⟨rest, rfl⟩ := hparts
  rw [List.append_assoc, List.cons_append] at *
  have hc : c ∈ before ++ c :: (after ++ rest) := by simp
  intro root hroot n hn hrefused hstop
  rcases List.mem_append.1 hroot with hroot' | hroot'
  · obtain ⟨text, hok⟩ := hbefore root hroot'
    exact absurd hrefused (by simp [isRefused_of_ok hok hn])
  rcases List.mem_cons.1 hroot' with rfl | hroot'
  · exact hreports root hroot p hfail n hn hrefused hstop
  · -- What comes after the node that fails begins after the place of the error.
    obtain ⟨m, hm, hspan⟩ := exists_inScript_of_error hfail
    have hprecedes : Precedes c root :=
      (List.pairwise_cons.1 (List.pairwise_append.1 hordered).2.1).1 root hroot'
    have hle := hprecedes m hm.occurs n hn.occurs
    have hbegins := ((horder c hc m hm.occurs).begins m .here).2
    have hbegins' := ((horder root hroot n hn.occurs).begins n .here).2
    rw [← hspan] at hstop
    omega

/-- A node that is reported itself comes before all that is in it. -/
theorem reportsFirst_of_span (hspan : e.span = root.span)
    (horder : ∀ n : Node, n.Occurs root → n.IsInOrder) : ReportsFirst root e := by
  intro n hn _ hstop
  have hbegins := ((horder root .here).begins n hn.occurs).1
  have hcovers := ((horder n hn.occurs).begins n .here).2
  rw [hspan] at hstop
  omega

/-- The key of an item is emitted after its value, so it is overlooked if the value fails. -/
theorem reportsFirst_of_keyed {key value : Node} {place : Span}
    (hfails : FailsFirst [value, key] p e)
    (hreports : ∀ child ∈ [key, value], ∀ q, node child p = .error e q → ReportsFirst child e)
    {child n : Node} (hchild : child ∈ [key, value]) (hn : n.InScript child)
    (hrefused : n.isRefused) (hstop : n.span.stop ≤ e.span.start) :
    n.IsOverlooked (.arrayItem (some key) value place) e.span := by
  obtain ⟨before, c, after, hparts, hbefore, hfail⟩ := hfails
  cases before with
  | nil =>
    obtain ⟨rfl, -⟩ := List.cons_eq_cons.1 hparts
    rcases List.mem_pair.1 hchild with rfl | rfl
    · exact ⟨child, value, place, .here, hn, exists_inScript_of_error hfail⟩
    · exact (hreports child hchild p hfail n hn hrefused hstop).below hchild
  | cons first before =>
    obtain ⟨rfl, hparts⟩ := List.cons_eq_cons.1 hparts
    obtain ⟨rfl, rfl, -⟩ : before = [] ∧ c = key ∧ after = [] := by
      simpa [List.singleton_eq_append_iff] using hparts
    rcases List.mem_pair.1 hchild with rfl | rfl
    · exact (hreports child hchild p hfail n hn hrefused hstop).below hchild
    · obtain ⟨text, hok⟩ := hbefore child (by simp)
      exact absurd hrefused (by simp [isRefused_of_ok hok hn])

/-- A tree that fails reports the first of its refused nodes that is not overlooked. -/
theorem node_reportsFirst (root : Node) {p q : Printer}
    (horder : ∀ n : Node, n.Occurs root → n.IsInOrder) (h : node root p = .error e q) :
    ReportsFirst root e := by
  induction root using Node.induction generalizing p q with
  | step root ih =>
  obtain ⟨-, rfl⟩ | ⟨-, hfails | ⟨-, hspan, -⟩⟩ := node_error_first h
  · exact reportsFirst_of_span rfl horder
  · have hreports : ∀ child ∈ root.scripted, ∀ q, node child (deeper p) = .error e q →
        ReportsFirst child e := by
      intro child hchild q hfail
      have hmem := root.scripted_sublist_children.subset hchild
      exact ih child hmem (fun n hn => horder n (.inside hmem hn)) hfail
    rintro n ⟨k, hn⟩ hrefused hstop
    cases hn with
    | here =>
      -- The node that fails is in this one, and does not begin after its end.
      obtain ⟨m, hm, hspan⟩ := exists_inScript_of_error h
      have hbegins := ((horder root .here).begins m hm.occurs).2
      rw [← hspan] at hstop
      omega
    | step hchild hn =>
      cases hkeyed : root.isKeyed with
      | true =>
        unfold Node.isKeyed at hkeyed
        split at hkeyed
        · exact reportsFirst_of_keyed hfails hreports hchild ⟨_, hn⟩ hrefused hstop
        · cases hkeyed
      | false =>
        have hordered := (horder root .here).ordered.sublist root.scripted_sublist_children
        have hfirst := reportsFirst_of_failsFirst hfails (Node.emitted_prefix_scripted hkeyed)
          hordered (fun child hchild n hn =>
            horder n (.inside (root.scripted_sublist_children.subset hchild) hn)) hreports
        exact (hfirst _ hchild _ ⟨_, hn⟩ hrefused hstop).below hchild
  · exact reportsFirst_of_span hspan horder

end Emit

/-! ## Programs -/

namespace Script

/-- If the script of a source fails, the refused nodes that end before the place of the error
    are those in the key of an item whose value fails, as long as spans reach to the end of the
    source. -/
theorem first_refused_iff {text : String} {nodes : List Node} {e : EmitError}
    (hsize : text.utf8ByteSize ≤ Span.limit)
    (hsource : Parse.source text = .ok nodes) (herror : ofNodes nodes = .error e)
    {root n : Node} (hroot : root ∈ nodes) (hn : n.InScript root) (hrefused : n.isRefused) :
    n.span.stop ≤ e.span.start ↔ n.IsOverlooked root e.span := by
  obtain ⟨hordered, horder⟩ := Parse.source_inOrder hsize hsource
  constructor
  · have hfirst := Emit.reportsFirst_of_failsFirst (Emit.failsFirst_of_ofNodes_error herror)
      (List.prefix_refl nodes) hordered horder
      fun root hroot _ hfail => Emit.node_reportsFirst root (horder root hroot) hfail
    exact hfirst root hroot n hn hrefused
  · exact fun h => h.stop_le (horder root hroot)

/-- The statement `[A\B => C\D];`, with a refused name in the key and one in the value. -/
def refusedItem : Node :=
  .expression (.array [some (.arrayItem
    (some (.constant (.name ["A", "B"] false ⟨7, 10⟩) ⟨7, 8⟩))
    (.constant (.name ["C", "D"] false ⟨14, 17⟩) ⟨14, 15⟩) ⟨7, 17⟩)] ⟨6, 18⟩) ⟨6, 19⟩

/-- Whether a program is this statement. -/
def isRefusedItem : List Node → Bool
  | [.expression (.array [some (.arrayItem
      (some (.constant (.name ["A", "B"] false ⟨7, 10⟩) ⟨7, 8⟩))
      (.constant (.name ["C", "D"] false ⟨14, 17⟩) ⟨14, 15⟩) ⟨7, 17⟩)] ⟨6, 18⟩) ⟨6, 19⟩] => true
  | _ => false

theorem refusedItem_parsed : Parse.source "<?php [A\\B => C\\D];" = .ok [refusedItem] := by
  have hcheck : (Parse.source "<?php [A\\B => C\\D];").toOption.any isRefusedItem := by
    decide +kernel
  obtain ⟨nodes, hsource, hshape⟩ := Parse.exists_of_any hcheck
  unfold isRefusedItem at hshape
  split at hshape
  · exact hsource
  · cases hshape

theorem refusedItem_error :
    ofNodes [refusedItem] = .error (.unsupportedName "C\\D" ⟨14, 17⟩) := rfl

/-- The names in the key and in the value. -/
theorem refusedItem_names :
    (Node.name ["A", "B"] false ⟨7, 10⟩).InScript refusedItem ∧
      (Node.name ["C", "D"] false ⟨14, 17⟩).InScript refusedItem := by
  have hmem {child : Node} : child ∈ [child] := List.mem_singleton_self child
  constructor
  · exact .below hmem <| .below hmem <| .below (List.mem_cons_self ..) <| .below hmem .here
  · exact .below hmem <| .below hmem <| .below (List.mem_cons_of_mem _ hmem) <| .below hmem .here

/-- The key is overlooked, and the value is not. -/
theorem refusedItem_overlooked :
    (Node.name ["A", "B"] false ⟨7, 10⟩).IsOverlooked refusedItem ⟨14, 17⟩ ∧
      ¬(Node.name ["C", "D"] false ⟨14, 17⟩).IsOverlooked refusedItem ⟨14, 17⟩ := by
  have hroot : refusedItem ∈ [refusedItem] := List.mem_singleton_self _
  have hsize : "<?php [A\\B => C\\D];".utf8ByteSize ≤ Span.limit := by decide +kernel
  constructor
  · exact (first_refused_iff hsize refusedItem_parsed refusedItem_error hroot refusedItem_names.1
      rfl).1 (by decide)
  · intro h
    have hstop := (first_refused_iff hsize refusedItem_parsed refusedItem_error hroot
      refusedItem_names.2 rfl).2 h
    exact absurd hstop (by decide)

/-- Some refused nodes do end before the place of the error. -/
theorem not_always_first :
    ¬∀ (text : String) (nodes : List Node) (e : EmitError), Parse.source text = .ok nodes →
      ofNodes nodes = .error e → ∀ root ∈ nodes, ∀ n : Node, n.InScript root → n.isRefused →
        ¬n.span.stop ≤ e.span.start := by
  intro h
  exact h _ _ _ refusedItem_parsed refusedItem_error _ (List.mem_singleton_self _) _
    refusedItem_names.1 rfl (by decide)

end Script

end PhpScript
