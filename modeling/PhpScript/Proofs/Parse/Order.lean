import PhpScript.Proofs.Parse.Ending

/-!
# Nodes in the order of the source

The nodes below a node stand one after the other, in the order of `Node.children`: all that
is in one of them ends before anything in the next one begins (`Node.Precedes`). This is
told of all that is in a node, since a constant ends before its name does.

`Arranges lo began known p found` says that what `p` finds stands in a row between `lo` and the
end of the token read last. The nodes `known` stand there already, in this order, so a node
that is built from them has its children in order (`Arranges.close`). Here are its rules, and
the parsers for names and parameters.
-/

namespace PhpScript

namespace Node

/-- All that is in the first node ends before anything in the second one begins. -/
def Precedes (n m : Node) : Prop :=
  ∀ a, Occurs a n → ∀ b, Occurs b m → a.span.stop ≤ b.span.start

/-- The nodes right below the node stand one after the other, and nothing in the node begins
    before it or after its end. -/
structure IsInOrder (n : Node) : Prop where
  ordered : n.children.Pairwise Precedes
  begins : ∀ m, Occurs m n → n.span.start ≤ m.span.start ∧ m.span.start < n.span.stop

/-- All that is in the node lies between two offsets, and is in order. -/
structure IsBetween (lo hi : Nat) (n : Node) : Prop where
  inOrder : ∀ m, Occurs m n → m.IsInOrder
  lower : ∀ m, Occurs m n → lo ≤ m.span.start
  upper : ∀ m, Occurs m n → m.span.stop ≤ hi

/-- The nodes stand between two offsets, one after the other. -/
structure IsRow (lo hi : Nat) (ns : List Node) : Prop where
  between : ∀ n ∈ ns, n.IsBetween lo hi
  ordered : ns.Pairwise Precedes

variable {lo lo' mid mid' hi hi' : Nat} {n : Node} {ns ms : List Node}

theorem IsBetween.mono (h : n.IsBetween lo hi) (hlo : lo' ≤ lo) (hhi : hi ≤ hi') :
    n.IsBetween lo' hi' where
  inOrder := h.inOrder
  lower m hm := Nat.le_trans hlo (h.lower m hm)
  upper m hm := Nat.le_trans (h.upper m hm) hhi

theorem IsBetween.lt (h : n.IsBetween lo hi) : lo < hi :=
  have hbegins := ((h.inOrder n .here).begins n .here).2
  Nat.lt_of_le_of_lt (h.lower n .here) (Nat.lt_of_lt_of_le hbegins (h.upper n .here))

/-- A node lies where its children do, if its span reaches so far. -/
theorem IsBetween.ofChildren (hstart : lo ≤ n.span.start) (hcovers : n.span.start < n.span.stop)
    (hstop : n.span.stop ≤ hi) (hordered : n.children.Pairwise Precedes)
    (hchildren : ∀ child ∈ n.children, child.IsBetween n.span.start hi)
    (hbegins : ∀ child ∈ n.children, ∀ m, Occurs m child → m.span.start < n.span.stop) :
    n.IsBetween lo hi where
  inOrder := by
    refine forall_occurs ⟨hordered, forall_occurs ⟨Nat.le_refl _, hcovers⟩ ?_⟩
      fun child hchild => (hchildren child hchild).inOrder
    exact fun child hchild m hm => ⟨(hchildren child hchild).lower m hm, hbegins child hchild m hm⟩
  lower := forall_occurs hstart fun child hchild m hm =>
    Nat.le_trans hstart ((hchildren child hchild).lower m hm)
  upper := forall_occurs hstop fun child hchild => (hchildren child hchild).upper

theorem IsLeafOf.between {t : Token} (hn : n.IsLeafOf t) (ht : t.span.start < t.span.stop) :
    n.IsBetween t.span.start t.span.stop := by
  rw [← hn.span_eq] at ht ⊢
  exact .ofChildren (Nat.le_refl _) ht (Nat.le_refl _) (by simp [hn.children_eq])
    (by simp [hn.children_eq]) (by simp [hn.children_eq])

namespace IsRow

theorem nil : IsRow lo hi [] := ⟨by simp, .nil⟩

theorem singleton (h : n.IsBetween lo hi) : IsRow lo hi [n] :=
  ⟨List.forall_mem_singleton.2 h, List.pairwise_singleton _ _⟩

theorem mono (h : IsRow lo hi ns) (hlo : lo' ≤ lo) (hhi : hi ≤ hi') : IsRow lo' hi' ns :=
  ⟨fun n hn => (h.between n hn).mono hlo hhi, h.ordered⟩

theorem sublist (h : IsRow lo hi ns) (hms : ms.Sublist ns) : IsRow lo hi ms :=
  ⟨fun n hn => h.between n (hms.subset hn), h.ordered.sublist hms⟩

/-- A row is continued by what stands after its end. -/
theorem append (hns : IsRow lo mid ns) (hms : IsRow mid' hi ms) (hlo : lo ≤ mid')
    (hmid : mid ≤ mid') (hhi : mid ≤ hi) : IsRow lo hi (ns ++ ms) where
  between := List.forall_mem_append.2
    ⟨fun n hn => (hns.between n hn).mono (Nat.le_refl _) hhi,
     fun n hn => (hms.between n hn).mono hlo (Nat.le_refl _)⟩
  ordered := by
    refine List.pairwise_append.2 ⟨hns.ordered, hms.ordered, fun n hn m hm a ha b hb => ?_⟩
    exact Nat.le_trans ((hns.between n hn).upper a ha)
      (Nat.le_trans hmid ((hms.between m hm).lower b hb))

/-- A node over the whole row. -/
theorem close (h : IsRow lo hi ns) (hlt : lo < hi) (hspan : n.span = ⟨lo, hi⟩)
    (hchildren : n.children.Sublist ns) : IsRow lo hi [n] := by
  have hrow := h.sublist hchildren
  refine .singleton (.ofChildren ?_ ?_ ?_ hrow.ordered ?_ ?_)
  all_goals rw [hspan]
  · exact hlt
  · exact hrow.between
  · intro child hchild m hm
    have hchild := hrow.between child hchild
    exact Nat.lt_of_lt_of_le ((hchild.inOrder m hm).begins m .here).2 (hchild.upper m hm)

end IsRow

end Node

namespace Parse

/-! ## The judgement -/

variable (tokens : List Token)

/-- What `p` finds on the cursor `c` stands in a row between `lo` and the end of the token read
    last, if `c` is not before `lo` and the known nodes stand there in this order. With
    `began`, something was read since `lo`. -/
def Arranges (c : Cursor) (lo : Nat) (began : Bool) (known : List Node) (p : Parser α)
    (found : α → List Node) : Prop :=
  c.IsOn tokens → lo ≤ c.here → (began → lo < c.lastStop) → Node.IsRow lo c.lastStop known →
    ∀ ⦃a after⦄, p c = .ok a after →
      c.LeadsTo tokens after ∧ Node.IsRow lo after.lastStop (found a)

/-- What `p` finds stands in a row from the token it begins with on. -/
def Orders (p : Parser α) (found : α → List Node) : Prop :=
  ∀ c : Cursor, c.IsOn tokens → Arranges tokens c c.here false [] p found

variable {tokens} {c : Cursor} {lo : Nat} {began : Bool} {known : List Node} {start : Span}
  {p : Parser α} {f : α → Parser β} {found : α → List Node} {found' : β → List Node}

theorem Orders.arranges (h : Orders tokens p found) : Arranges tokens c lo began known p found := by
  intro hc hlo _ _ a after hp
  obtain ⟨hleads, hrow⟩ := h c hc hc (Nat.le_refl _) (by simp) .nil hp
  exact ⟨hleads, hrow.mono hlo (Nat.le_refl _)⟩

namespace Arranges

theorem pure {a : α} (h : (found a).Sublist known) :
    Arranges tokens c lo began known (Pure.pure a) found := by
  intro hc _ _ hknown b after hp
  cases hp
  exact ⟨hc.leadsTo, hknown.sublist h⟩

theorem ite {b : Prop} [Decidable b] {q : Parser α}
    (hp : b → Arranges tokens c lo began known p found)
    (hq : ¬b → Arranges tokens c lo began known q found) :
    Arranges tokens c lo began known (if b then p else q) found := by
  split
  · next h => exact hp h
  · next h => exact hq h

/-- Failing finds nothing. -/
theorem complain {complaint : Complaint} :
    Arranges tokens c lo began known (Parse.complain complaint) found := by
  intro _ _ _ _ a after h
  cases h

theorem throw {error : ParseError} :
    Arranges tokens c lo began known (throw error : Parser α) found := by
  intro _ _ _ _ a after h
  cases h

theorem tooDeep : Arranges tokens c lo began known (Parse.tooDeep : Parser α) found := by
  intro _ _ _ _ a after h
  cases h

/-- A refusal before the rest of a parser leaves the rest to find. -/
theorem guard {b : Prop} [Decidable b] {complaint : Complaint} {k : Unit → Parser α}
    (hk : ¬b → Arranges tokens c lo began known (k ()) found) :
    Arranges tokens c lo began known
      (if b then Parse.complain complaint >>= k else k ()) found := by
  refine .ite (fun _ => ?_) hk
  intro _ _ _ _ a after h
  cases h

/-! ## Tokens -/

theorem peek {g : Token → Parser β} (h : Arranges tokens c lo began known (g c.current) found') :
    Arranges tokens c lo began known (current >>= g) found' :=
  h

theorem peekAt {kind : TokenKind} {g : Bool → Parser β}
    (h : Arranges tokens c lo began known (g (c.current.kind == kind)) found') :
    Arranges tokens c lo began known (isAt kind >>= g) found' :=
  h

theorem peekFollowing {g : TokenKind → Parser β}
    (h : ∀ kind, Arranges tokens c lo began known (g kind) found') :
    Arranges tokens c lo began known (following >>= g) found' :=
  h _

/-- What is read over leaves the row as it is. -/
theorem skip (hp : Finds tokens p nothing)
    (hf : ∀ a d, Arranges tokens d lo began known (f a) found') :
    Arranges tokens c lo began known (p >>= f) found' := by
  intro hc hlo hbegan hknown b after h
  obtain ⟨a, between, hpc, hfa⟩ := exists_of_bind_eq_ok h
  obtain ⟨hleads, -⟩ := hp c hc hc (Nat.le_refl _) (by simp) hpc
  obtain ⟨hleads', hrow⟩ := hf a between hleads.isOn (Nat.le_trans hlo hleads.here_le)
    (fun h => Nat.lt_of_lt_of_le (hbegan h) hleads.lastStop_le)
    (hknown.mono (Nat.le_refl _) hleads.lastStop_le) hfa
  exact ⟨hleads.trans hleads', hrow⟩

/-- A token that is read may stand for nodes without children. -/
theorem read {q : Parser β} {g : β → Parser γ} {found' : γ → List Node} (leaves : List Node)
    (hq : ∀ ⦃b d⦄, q c = .ok b d → d = c.next ∧ c.current.kind ≠ .endOfFile)
    (hleaves : leaves = [] ∨ ∃ n : Node, leaves = [n] ∧ n.IsLeafOf c.current)
    (hg : ∀ b d, q c = .ok b d → Arranges tokens d lo true (known ++ leaves) (g b) found') :
    Arranges tokens c lo began known (q >>= g) found' := by
  intro hc hlo _ hknown b after h
  obtain ⟨b, d, hqc, hgd⟩ := exists_of_bind_eq_ok h
  obtain ⟨rfl, hk⟩ := hq hqc
  have hnext := hc.next hk
  have hlt := hc.here_lt_stop hk
  have hrow : Node.IsRow c.here c.next.lastStop leaves := by
    rcases hleaves with rfl | ⟨n, rfl, hn⟩
    · exact .nil
    · exact .singleton (hn.between hlt)
  obtain ⟨hleads, hfound⟩ := hg b c.next hqc hnext.isOn (Nat.le_trans hlo hnext.here_le)
    (fun _ => Nat.lt_of_le_of_lt hlo hlt)
    (hknown.append hrow hlo hc.lastStop_le hnext.lastStop_le) hgd
  exact ⟨hnext.trans hleads, hfound⟩

theorem advance {g : Token → Parser β} (hk : c.current.kind ≠ .endOfFile)
    (hg : ∀ d, Arranges tokens d lo true known (g c.current) found') :
    Arranges tokens c lo began known (Parse.advance >>= g) found' := by
  refine .read [] (fun t d h => ?_) (.inl rfl) fun t d h => ?_
  all_goals
    rw [Cursor.advance_eq hk] at h
    cases h
  · exact ⟨rfl, hk⟩
  · simpa using hg c.next

/-- A token that is read as a node. -/
theorem advanceLeaf {g : Token → Parser β} (leaf : Token → Node)
    (hleaf : ∀ t, (leaf t).IsLeafOf t) (hk : c.current.kind ≠ .endOfFile)
    (hg : ∀ d, Arranges tokens d lo true (known ++ [leaf c.current]) (g c.current) found') :
    Arranges tokens c lo began known (Parse.advance >>= g) found' := by
  refine .read [leaf c.current] (fun t d h => ?_) (.inr ⟨_, rfl, hleaf _⟩) fun t d h => ?_
  all_goals
    rw [Cursor.advance_eq hk] at h
    cases h
  · exact ⟨rfl, hk⟩
  · exact hg c.next

theorem terminator {g : Unit → Parser β}
    (hg : ∀ d, Arranges tokens d lo true known (g ()) found') :
    Arranges tokens c lo began known (Parse.terminator >>= g) found' :=
  .read [] (fun _ _ => terminator_eq_ok) (.inl rfl) fun _ d _ => by simpa using hg d

theorem expect {kind : TokenKind} {g : Token → Parser β} (hk : kind ≠ .endOfFile)
    (hg : ∀ d, Arranges tokens d lo true known (g c.current) found') :
    Arranges tokens c lo began known (Parse.expect kind >>= g) found' := by
  refine .read [] (fun _ _ h => (expect_eq_ok hk h).2) (.inl rfl) fun t d h => ?_
  obtain ⟨rfl, rfl, -⟩ := expect_eq_ok hk h
  simpa using hg c.next

theorem expectLeaf {kind : TokenKind} {g : Token → Parser β} (leaf : Token → Node)
    (hleaf : ∀ t, (leaf t).IsLeafOf t) (hk : kind ≠ .endOfFile)
    (hg : ∀ d, Arranges tokens d lo true (known ++ [leaf c.current]) (g c.current) found') :
    Arranges tokens c lo began known (Parse.expect kind >>= g) found' := by
  refine .read [leaf c.current] (fun _ _ h => (expect_eq_ok hk h).2) (.inr ⟨_, rfl, hleaf _⟩)
    fun t d h => ?_
  obtain ⟨rfl, rfl, -⟩ := expect_eq_ok hk h
  exact hg c.next

/-- A node over the known ones, from its first token to the last one read. -/
theorem close {mk : Span → Node} (hstart : IsStart tokens start)
    (hmk : ∀ s, (mk s).span = s ∧ (mk s).children.Sublist known) :
    Arranges tokens c start.start true known
      (spanFrom start >>= fun s => Pure.pure (mk s)) one := by
  intro hc hlo hbegan hknown n after h
  cases h
  obtain ⟨t, ht, rfl⟩ := hstart
  -- Something was read since the first token, so the first token was.
  have hlt := hbegan rfl
  obtain ⟨u, hu, hstop⟩ : ∃ u ∈ tokens, u.span.stop = c.lastStop :=
    hc.stops.resolve_left (Nat.ne_of_gt (Nat.zero_lt_of_lt hlt))
  have hmax : max c.lastStop t.span.stop = c.lastStop :=
    Nat.max_eq_left (hstop ▸ hc.row.stop_le_stop ht hu (hstop ▸ hlt))
  rw [hmax]
  obtain ⟨hspan, hchildren⟩ := hmk ⟨t.span.start, c.lastStop⟩
  exact ⟨hc.leadsTo, hknown.close hlt hspan hchildren⟩

theorem other {kind : String} {children : List Node} (hstart : IsStart tokens start)
    (hchildren : children.Sublist known) :
    Arranges tokens c start.start true known (Parse.other kind children start) one :=
  .close hstart fun _ => ⟨rfl, hchildren⟩

/-- A node that is built from the known ones stands in their place. -/
theorem andThen {p : Parser Node} {f : Node → Parser β}
    (hp : Arranges tokens c lo began known p one)
    (hf : ∀ n d, Arranges tokens d lo true [n] (f n) found') :
    Arranges tokens c lo began known (p >>= f) found' := by
  intro hc hlo hbegan hknown b after h
  obtain ⟨n, between, hpc, hfn⟩ := exists_of_bind_eq_ok h
  obtain ⟨hleads, hrow⟩ := hp hc hlo hbegan hknown hpc
  have hlt := (hrow.between n (List.mem_singleton_self n)).lt
  obtain ⟨hleads', hrow'⟩ := hf n between hleads.isOn (Nat.le_trans hlo hleads.here_le)
    (fun _ => hlt) hrow hfn
  exact ⟨hleads.trans hleads', hrow'⟩

end Arranges

namespace Orders

/-- What is found first stands before what is found then. -/
theorem bindAll (hp : Orders tokens p found)
    (hf : ∀ a d, Arranges tokens d lo began (known ++ found a) (f a) found') :
    Arranges tokens c lo began known (p >>= f) found' := by
  intro hc hlo hbegan hknown b after h
  obtain ⟨a, between, hpc, hfa⟩ := exists_of_bind_eq_ok h
  obtain ⟨hleads, hrow⟩ := hp c hc hc (Nat.le_refl _) (by simp) .nil hpc
  obtain ⟨hleads', hrow'⟩ := hf a between hleads.isOn (Nat.le_trans hlo hleads.here_le)
    (fun h => Nat.lt_of_lt_of_le (hbegan h) hleads.lastStop_le)
    (hknown.append hrow hlo hc.lastStop_le hleads.lastStop_le) hfa
  exact ⟨hleads.trans hleads', hrow'⟩

/-- A node that is found was read from tokens. -/
theorem bind {p : Parser Node} {f : Node → Parser β} (hp : Orders tokens p one)
    (hf : ∀ n d, Arranges tokens d lo true (known ++ [n]) (f n) found') :
    Arranges tokens c lo began known (p >>= f) found' := by
  intro hc hlo _ hknown b after h
  obtain ⟨n, between, hpc, hfn⟩ := exists_of_bind_eq_ok h
  obtain ⟨hleads, hrow⟩ := hp c hc hc (Nat.le_refl _) (by simp) .nil hpc
  have hlt := (hrow.between n (List.mem_singleton_self n)).lt
  obtain ⟨hleads', hrow'⟩ := hf n between hleads.isOn (Nat.le_trans hlo hleads.here_le)
    (fun _ => Nat.lt_of_le_of_lt hlo hlt)
    (hknown.append hrow hlo hc.lastStop_le hleads.lastStop_le) hfn
  exact ⟨hleads.trans hleads', hrow'⟩

theorem mono {found' : α → List Node} (hp : Orders tokens p found)
    (h : ∀ a, (found' a).Sublist (found a)) : Orders tokens p found' := by
  intro c hc _ hlo hbegan hknown a after hpc
  obtain ⟨hleads, hrow⟩ := hp c hc hc hlo hbegan hknown hpc
  exact ⟨hleads, hrow.sublist (h a)⟩

theorem map {g : α → β} (hp : Orders tokens p found) (h : ∀ a, (found' (g a)).Sublist (found a)) :
    Orders tokens (g <$> p) found' := by
  intro c hc
  rw [map_eq_pure_bind]
  exact hp.bindAll fun a d => .pure (by simpa using h a)

theorem optional {p : Parser Node} (hp : Orders tokens p one) :
    Orders tokens (some <$> p) Option.toList :=
  hp.map fun n => by simp

/-! ## Nesting -/

theorem within (hp : Orders tokens p found) : Orders tokens (Parse.within p) found := by
  intro c hc _ hlo hbegan hknown a after h
  obtain ⟨d, hd, rfl⟩ := within_eq_ok_iff.1 h
  have hc' := hc.withDepth (c.depth + 1)
  obtain ⟨hleads, hrow⟩ := hp _ hc' hc' hlo hbegan hknown hd
  exact ⟨⟨hleads.isOn.withDepth _, hleads.lastStop_le, hleads.here_le⟩, hrow⟩

theorem chain (hp : Orders tokens p found) : Orders tokens (Parse.chain p) found := by
  intro c hc _ hlo hbegan hknown a after h
  obtain ⟨d, hd, rfl⟩ := chain_eq_ok_iff.1 h
  obtain ⟨hleads, hrow⟩ := hp c hc hc hlo hbegan hknown hd
  exact ⟨hleads.withDepth _, hrow⟩

end Orders

/-! ## Repetition -/

theorem gatherFor_orders {step : Parser (Round α)} (h : Orders tokens step (Round.brought found))
    (bound : List Token) : Orders tokens (gatherFor step bound) fun as => as.flatMap found := by
  induction bound with
  | nil =>
    refine fun c hc => h.bindAll fun r d => ?_
    cases r with
    | stop => exact .pure (by simp)
    | last a => exact .pure (by simp)
    | more a => exact .pure (by simp)
  | cons t bound ih =>
    refine fun c hc => h.bindAll fun r d => ?_
    cases r with
    | stop => exact .pure (by simp)
    | last a => exact .pure (by simp)
    | more a => exact ih.bindAll fun as d => .pure (by simp)

theorem gather_orders {step : Parser (Round α)} (h : Orders tokens step (Round.brought found)) :
    Orders tokens (gather step) fun as => as.flatMap found :=
  fun c hc => gatherFor_orders h c.rest c hc

theorem gather_orders_nodes {step : Parser (Round Node)}
    (h : Orders tokens step (Round.brought one)) : Orders tokens (gather step) id :=
  (gather_orders h).mono fun ns => by simp

theorem gather_orders_slots {step : Parser (Round (Option Node))}
    (h : Orders tokens step (Round.brought Option.toList)) :
    Orders tokens (gather step) (List.filterMap id) :=
  (gather_orders h).mono fun slots => by
    rw [List.filterMap_eq_flatMap_toList]
    simp

theorem commaItem_orders {p : Parser Node} (h : Orders tokens p one) :
    Orders tokens (commaItem p) (Round.brought one) :=
  fun c hc => h.bind fun a d => .skip accept_finds fun _ _ =>
    .ite (fun _ => .pure (by simp)) fun _ => .pure (by simp)

theorem commaSeparated_orders {p : Parser Node} (h : Orders tokens p one) :
    Orders tokens (commaSeparated p) id :=
  gather_orders_nodes (commaItem_orders h)

/-- A list between parentheses. -/
theorem parenthesized_orders {p : Parser Node} (h : Orders tokens p one) :
    Orders tokens (do
      let _ ← expect (.symbol .openParen)
      let items ← commaListUntil .closeParen p
      let _ ← expect (.symbol .closeParen)
      return items) id := by
  have hstep : Orders tokens (do
      if ← isAt (.symbol .closeParen) then return .stop else commaItem p) (Round.brought one) :=
    fun _ _ => .peekAt <| .ite (fun _ => .pure (by simp)) fun _ => (commaItem_orders h).arranges
  exact fun _ _ => .expect (by simp) fun _ => (gather_orders_nodes hstep).bindAll fun _ _ =>
    .expect (by simp) fun _ => .pure (by simp)

/-! ## Names and parameters -/

theorem varOf_isLeafOf (t : Token) : (varOf t).IsLeafOf t := ⟨rfl, rfl, rfl⟩

theorem identifier_orders : Orders tokens identifier one :=
  fun _ _ => .peek <| .guard fun hk =>
    .advanceLeaf (fun t => .identifier t.text t.span) (fun _ => ⟨rfl, rfl, rfl⟩)
      (ne_endOfFile_of_isIdentifierLike (by simpa using hk)) fun _ => .pure (by simp)

theorem name_orders : Orders tokens name one := by
  intro c hc _ hlo _ hknown n d h
  obtain ⟨hk, hleads, parts, fullyQualified, rfl, hstop, -⟩ := name_eq_ok hc h
  have hlt := Nat.lt_of_lt_of_le (hc.here_lt_stop hk) hstop
  exact ⟨hleads, Node.IsRow.nil.close hlt rfl (by simp [Node.children])⟩

theorem parameterList_orders : Orders tokens parameterList id :=
  parenthesized_orders fun _ hc => .peek <| .peek <| .guard fun _ => .skip skipType_finds fun _ _ =>
    .peekAt <| .guard fun _ => .peekAt <| .guard fun _ =>
      .expectLeaf varOf varOf_isLeafOf (by simp) fun _ => .peekAt <| .guard fun _ =>
        .close (isStart_current hc) fun _ => ⟨rfl, by simp [Node.children]⟩

theorem closureBindings_orders : Orders tokens closureBindings id := by
  have hbinding : Orders tokens closureBinding one := fun _ _ => .peekAt <| .guard fun _ =>
    .expectLeaf varOf varOf_isLeafOf (by simp) fun _ => .pure (by simp)
  exact fun _ _ => .skip accept_finds fun _ _ => .ite
    (fun _ => (parenthesized_orders hbinding).arranges) fun _ => .pure (by simp)

end Parse

end PhpScript
