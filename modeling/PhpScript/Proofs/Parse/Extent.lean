import PhpScript.Parse.Name
import PhpScript.Proofs.Parse.Occurrence
import PhpScript.Proofs.Token.Tiling

/-!
# Where nodes lie

The tokens of a text stand in a row, as long as spans reach to its end, and the
cursor goes along it. A node is placed when its span goes from the start of a token
to the end of one and the nodes below it lie inside its span (`Node.IsPlaced`).

`Places lo known p found` says that what `p` finds lies between `lo` and the end
of the token read last, wherever `p` starts at or after `lo`. The nodes `known`
lie there already, so a node that is built from them can be closed with the span
from `lo` on (`Places.close`). Here are its rules, and the parsers for names,
types and parameters.
-/

namespace PhpScript

/-! ## Rows of tokens -/

/-- Tokens as a scan gives them. -/
structure Token.IsRow (tokens : List Token) : Prop where
  ending : ∃ before last, tokens = before ++ [last] ∧ last.kind = .endOfFile
  empty : ∀ t ∈ tokens, t.kind = .endOfFile → t.span.start = t.span.stop
  start_lt_stop : ∀ t ∈ tokens, t.kind ≠ .endOfFile → t.span.start < t.span.stop
  ordered : tokens.Pairwise fun t u => t.span.stop ≤ u.span.start

namespace Token

theorem isRow_of_scan {source : String} {tokens : List Token}
    (hsize : source.utf8ByteSize ≤ Span.limit) (h : scan source = .ok tokens) :
    IsRow tokens := by
  rw [scan_eq_scanWide hsize] at h
  obtain ⟨before, hbefore, heq⟩ := exists_of_bind_eq_ok h
  cases heq
  have hlaid := (Scans.of_wideFrom hbefore).laid
  obtain ⟨hbounds, hpairs⟩ := hlaid.bounds
  have hcovers : ∀ t ∈ before, t.kind ≠ .endOfFile ∧ t.span.start < t.span.stop := by
    intro t ht
    obtain ⟨left, text, right, hfills, -, heq⟩ := hlaid.exists_cut [] rfl t ht
    refine ⟨hfills.kind_ne, ?_⟩
    rw [heq]
    exact Nat.lt_add_of_pos_right (Text.byteLength_pos hfills.ne_nil)
  constructor
  case ending => exact ⟨before, _, rfl, rfl⟩
  case empty =>
    exact List.forall_mem_append.2 ⟨fun t ht hk => absurd hk (hcovers t ht).1, by simp⟩
  case start_lt_stop =>
    exact List.forall_mem_append.2 ⟨fun t ht _ => (hcovers t ht).2, by simp⟩
  case ordered =>
    refine List.pairwise_append.2 ⟨hpairs, List.pairwise_singleton _ _, fun t ht u hu => ?_⟩
    rw [List.mem_singleton.1 hu]
    have hle := (hbounds t ht).2
    rwa [Nat.zero_add, ← Text.utf8ByteSize_eq] at hle

namespace IsRow

variable {tokens : List Token} (h : IsRow tokens) {t u : Token}

include h

theorem start_le_stop (ht : t ∈ tokens) : t.span.start ≤ t.span.stop := by
  by_cases hk : t.kind = .endOfFile
  · exact Nat.le_of_eq (h.empty t ht hk)
  · exact Nat.le_of_lt (h.start_lt_stop t ht hk)

/-- A token that ends after the start of another one ends no earlier than it. -/
theorem stop_le_stop (ht : t ∈ tokens) (hu : u ∈ tokens) (hlt : t.span.start < u.span.stop) :
    t.span.stop ≤ u.span.stop := by
  let R (t u : Token) := t.span.start < u.span.stop → t.span.stop ≤ u.span.stop
  have hbefore : tokens.Pairwise R :=
    h.ordered.imp_of_mem fun _ hu hle _ => Nat.le_trans hle (h.start_le_stop hu)
  have hafter : tokens.Pairwise (flip R) :=
    h.ordered.imp fun hle hlt => absurd hlt (Nat.not_lt_of_le hle)
  exact hbefore.forall_of_forall_of_flip (fun _ _ _ => Nat.le_refl _) hafter ht hu hlt

end IsRow

end Token

/-! ## Placed nodes -/

/-- The first span lies inside the second. -/
def Span.IsIn (s t : Span) : Prop := t.start ≤ s.start ∧ s.stop ≤ t.stop

namespace Node

/-- Whether a node is a constant with a name of several parts, or with a backslash
    before it. -/
def isQualifiedConstant : Node → Bool
  | constant (name parts fullyQualified _) _ => fullyQualified || parts.length != 1
  | _ => false

variable (tokens : List Token)

/-- The span of the node goes from the start of a token to the end of one, and the
    nodes right below the node lie inside it, but for the name of a qualified
    constant. -/
structure IsPlaced (n : Node) : Prop where
  starts : ∃ t ∈ tokens, t.span.start = n.span.start
  stops : ∃ t ∈ tokens, t.span.stop = n.span.stop
  covers : n.span.start < n.span.stop
  nested : (∀ child ∈ n.children, child.span.IsIn n.span) ↔ n.isQualifiedConstant = false

/-- The node lies between two offsets, and it is placed with all that is in it. -/
structure LiesIn (lo hi : Nat) (n : Node) : Prop where
  placed : ∀ m : Node, m.Occurs n → m.IsPlaced tokens
  lower : lo ≤ n.span.start
  upper : n.span.stop ≤ hi

variable {tokens} {lo lo' hi hi' : Nat} {n : Node}

theorem LiesIn.mono (h : n.LiesIn tokens lo hi) (hlo : lo' ≤ lo) (hhi : hi ≤ hi') :
    n.LiesIn tokens lo' hi' :=
  ⟨h.placed, Nat.le_trans hlo h.lower, Nat.le_trans h.upper hhi⟩

theorem LiesIn.lt (h : n.LiesIn tokens lo hi) : lo < hi :=
  Nat.lt_of_le_of_lt h.lower (Nat.lt_of_lt_of_le (h.placed n .here).covers h.upper)

/-- A node is placed when the nodes below it lie inside its span. -/
theorem LiesIn.ofChildren (hstarts : ∃ t ∈ tokens, t.span.start = n.span.start)
    (hstops : ∃ t ∈ tokens, t.span.stop = n.span.stop) (hcovers : n.span.start < n.span.stop)
    (hplain : n.isQualifiedConstant = false)
    (hchildren : ∀ child ∈ n.children, child.LiesIn tokens n.span.start n.span.stop) :
    n.LiesIn tokens n.span.start n.span.stop where
  placed := by
    refine forall_occurs ⟨hstarts, hstops, hcovers, iff_of_true (fun child hchild => ?_) hplain⟩
      fun child hchild => (hchildren child hchild).placed
    exact ⟨(hchildren child hchild).lower, (hchildren child hchild).upper⟩
  lower := Nat.le_refl _
  upper := Nat.le_refl _

end Node

/-- The node has no children, and the span of the token. -/
structure Node.IsLeafOf (n : Node) (t : Token) : Prop where
  span_eq : n.span = t.span
  children_eq : n.children = []
  plain : n.isQualifiedConstant = false

/-- A token as a node. -/
def Token.leaf (t : Token) : Node := .other t.text [] t.span

theorem Token.leaf_liesIn {tokens : List Token} (h : IsRow tokens) {t : Token} (ht : t ∈ tokens)
    (hk : t.kind ≠ .endOfFile) : t.leaf.LiesIn tokens t.span.start t.span.stop :=
  .ofChildren (n := t.leaf) ⟨t, ht, rfl⟩ ⟨t, ht, rfl⟩ (h.start_lt_stop t ht hk) rfl
    (by simp [leaf, Node.children])

theorem Node.IsLeafOf.liesIn {tokens : List Token} {lo hi : Nat} {t : Token} {n : Node}
    (hn : n.IsLeafOf t) (h : t.leaf.LiesIn tokens lo hi) : n.LiesIn tokens lo hi := by
  obtain ⟨hstarts, hstops, hcovers, -⟩ := h.placed _ .here
  have hspan : n.span = t.leaf.span := hn.span_eq
  rw [← hspan] at hstarts hstops hcovers
  refine (LiesIn.ofChildren hstarts hstops hcovers hn.plain (by simp [hn.children_eq])).mono ?_ ?_
  · exact hspan ▸ h.lower
  · exact hspan ▸ h.upper

/-! ## Cursors along a row -/

namespace Cursor

variable (tokens : List Token)

/-- The offset at which the token at the cursor starts. -/
def here (c : Cursor) : Nat := c.current.span.start

/-- The cursor stands in the row of tokens. -/
structure IsOn (c : Cursor) : Prop where
  row : Token.IsRow tokens
  suffix : c.rest <:+ tokens
  /-- The end of the file is never passed. -/
  ne_nil : c.rest ≠ []
  /-- The token read last is one of the row; at first there is none. -/
  stops : c.lastStop = 0 ∨ ∃ t ∈ tokens, t.span.stop = c.lastStop
  lastStop_le : c.lastStop ≤ c.here

/-- The cursor goes along the row to another one. -/
structure LeadsTo (c d : Cursor) : Prop where
  isOn : d.IsOn tokens
  lastStop_le : c.lastStop ≤ d.lastStop
  here_le : c.here ≤ d.here

variable {tokens} {c d e : Cursor}

theorem IsOn.leadsTo (h : c.IsOn tokens) : c.LeadsTo tokens c :=
  ⟨h, Nat.le_refl _, Nat.le_refl _⟩

theorem LeadsTo.trans (hcd : c.LeadsTo tokens d) (hde : d.LeadsTo tokens e) :
    c.LeadsTo tokens e :=
  ⟨hde.isOn, Nat.le_trans hcd.lastStop_le hde.lastStop_le, Nat.le_trans hcd.here_le hde.here_le⟩

/-- How deep the parsing is nested has nothing to do with where the cursor is. -/
theorem IsOn.withDepth (h : c.IsOn tokens) (depth : Nat) : IsOn tokens { c with depth } :=
  ⟨h.row, h.suffix, h.ne_nil, h.stops, h.lastStop_le⟩

theorem LeadsTo.withDepth (h : c.LeadsTo tokens d) (depth : Nat) :
    c.LeadsTo tokens { d with depth } :=
  ⟨h.isOn.withDepth depth, h.lastStop_le, h.here_le⟩

theorem IsOn.current_mem (h : c.IsOn tokens) : c.current ∈ tokens := by
  obtain ⟨t, rest, hrest⟩ := List.exists_cons_of_ne_nil h.ne_nil
  have hmem := h.suffix.subset
  rw [hrest] at hmem
  simpa [current, hrest] using hmem List.mem_cons_self

/-- The cursor after the token at it. -/
def next (c : Cursor) : Cursor := { c with rest := c.rest.tail, lastStop := c.current.span.stop }

theorem advance_eq (hk : c.current.kind ≠ .endOfFile) : Parse.advance c = .ok c.current c.next := by
  simp [Parse.advance, next, hk]

theorem IsOn.here_le_stop (h : c.IsOn tokens) : c.here ≤ c.current.span.stop :=
  h.row.start_le_stop h.current_mem

theorem IsOn.here_lt_stop (h : c.IsOn tokens) (hk : c.current.kind ≠ .endOfFile) :
    c.here < c.current.span.stop :=
  h.row.start_lt_stop _ h.current_mem hk

theorem IsOn.length_next (h : c.IsOn tokens) : c.next.rest.length < c.rest.length := by
  rw [next, List.length_tail]
  exact Nat.sub_one_lt_of_lt (List.length_pos_iff.2 h.ne_nil)

/-- Before the end of the file there is another token. -/
theorem IsOn.exists_rest (h : c.IsOn tokens) (hk : c.current.kind ≠ .endOfFile) :
    ∃ t u rest, c.rest = t :: u :: rest := by
  obtain ⟨before, last, heq, hlast⟩ := h.row.ending
  obtain ⟨t, rest, hrest⟩ := List.exists_cons_of_ne_nil h.ne_nil
  cases rest with
  | cons u rest => exact ⟨t, u, rest, hrest⟩
  | nil =>
    obtain ⟨done, hdone⟩ := h.suffix
    rw [hrest, heq] at hdone
    have ht : t = last := by simpa using (List.append_inj' hdone rfl).2
    simp [current, hrest, ht, hlast] at hk

theorem IsOn.next (h : c.IsOn tokens) (hk : c.current.kind ≠ .endOfFile) :
    c.LeadsTo tokens c.next := by
  obtain ⟨t, u, rest, hrest⟩ := h.exists_rest hk
  have hcurrent : c.current = t := by simp [current, hrest]
  have hnext : c.next.current = u := by simp [Cursor.next, current, hrest]
  have hle : c.next.lastStop ≤ c.next.here := by
    have hpairs := h.row.ordered.sublist h.suffix.sublist
    rw [hrest, List.pairwise_cons] at hpairs
    rw [here, hnext, Cursor.next, hcurrent]
    exact hpairs.1 u List.mem_cons_self
  have hlast : c.lastStop ≤ c.next.lastStop := Nat.le_trans h.lastStop_le h.here_le_stop
  have hhere : c.here ≤ c.next.here := Nat.le_trans h.here_le_stop hle
  have hsuffix : c.next.rest <:+ tokens := (List.tail_suffix _).trans h.suffix
  exact ⟨⟨h.row, hsuffix, by simp [Cursor.next, hrest], .inr ⟨_, h.current_mem, rfl⟩, hle⟩,
    hlast, hhere⟩

/-- What comes next ends later. -/
theorem IsOn.stop_lt (h : c.next.IsOn tokens) (hk : c.next.current.kind ≠ .endOfFile) :
    c.current.span.stop < c.next.current.span.stop :=
  Nat.lt_of_le_of_lt h.lastStop_le (h.here_lt_stop hk)

/-- At the end of the file, reading a token leaves the cursor there. -/
theorem IsOn.advance (h : c.IsOn tokens) {t : Token} (hrun : Parse.advance c = .ok t d) :
    c.LeadsTo tokens d := by
  by_cases hk : c.current.kind = .endOfFile
  · obtain ⟨-, rfl⟩ : c.current = t ∧ { c with lastStop := c.current.span.stop } = d := by
      simpa [Parse.advance, hk] using hrun
    have hempty := h.row.empty _ h.current_mem hk
    exact ⟨⟨h.row, h.suffix, h.ne_nil, .inr ⟨_, h.current_mem, rfl⟩, Nat.le_of_eq hempty.symm⟩,
      Nat.le_trans h.lastStop_le h.here_le_stop, Nat.le_refl _⟩
  · rw [advance_eq hk] at hrun
    cases hrun
    exact h.next hk

/-- The cursor before the first token. -/
theorem isOn_of_scan {text : String} (hsize : text.utf8ByteSize ≤ Span.limit)
    (h : Token.scan text = .ok tokens) : IsOn tokens { rest := tokens } := by
  have hrow := Token.isRow_of_scan hsize h
  obtain ⟨before, last, hlast, -⟩ := hrow.ending
  exact ⟨hrow, List.suffix_refl _, by simp [hlast], .inl rfl, Nat.zero_le _⟩

end Cursor

/-! ## The judgement -/

namespace Parse

variable (tokens : List Token)

/-- What `p` finds on the cursor `c` lies between `lo` and the end of the token read
    last, if `c` is not before `lo` and the known nodes lie there. -/
def Places (c : Cursor) (lo : Nat) (known : List Node) (p : Parser α)
    (found : α → List Node) : Prop :=
  c.IsOn tokens → lo ≤ c.here → (∀ n ∈ known, n.LiesIn tokens lo c.lastStop) →
    ∀ ⦃a after⦄, p c = .ok a after →
      c.LeadsTo tokens after ∧ ∀ n ∈ found a, n.LiesIn tokens lo after.lastStop

/-- What `p` finds lies between the token it begins with and the one it ends with. -/
def Finds (p : Parser α) (found : α → List Node) : Prop :=
  ∀ c : Cursor, c.IsOn tokens → Places tokens c c.here [] p found

/-- The span is that of a token. -/
def IsStart (start : Span) : Prop := ∃ t ∈ tokens, t.span = start

/-- Nothing is found. -/
abbrev nothing : α → List Node := fun _ => []

/-- The node that is read is found. -/
abbrev one : Node → List Node := fun n => [n]

variable {tokens} {c : Cursor} {lo : Nat} {known : List Node} {start : Span} {p : Parser α}
  {f : α → Parser β} {found : α → List Node} {found' : β → List Node}

theorem Finds.places (h : Finds tokens p found) : Places tokens c lo known p found := by
  intro hc hlo _ a after hp
  obtain ⟨hleads, hfound⟩ := h c hc hc (Nat.le_refl _) (by simp) hp
  exact ⟨hleads, fun n hn => (hfound n hn).mono hlo (Nat.le_refl _)⟩

theorem isStart_current (hc : c.IsOn tokens) : IsStart tokens c.current.span :=
  ⟨_, hc.current_mem, rfl⟩

theorem exists_of_bind_eq_ok {b : β} {after : Cursor} (h : (p >>= f) c = .ok b after) :
    ∃ a between, p c = .ok a between ∧ f a between = .ok b after := by
  simp only [Bind.bind, EStateM.bind] at h
  split at h
  · next a between hp => exact ⟨a, between, hp, h⟩
  · cases h

theorem expect_eq_ok {kind : TokenKind} {t : Token} {d : Cursor} (hk : kind ≠ .endOfFile)
    (h : expect kind c = .ok t d) :
    t = c.current ∧ d = c.next ∧ c.current.kind ≠ .endOfFile := by
  simp only [expect, Bind.bind, EStateM.bind, isAt] at h
  split at h
  · next hkind =>
    have hne : c.current.kind ≠ .endOfFile := eq_of_beq hkind ▸ hk
    rw [Cursor.advance_eq hne] at h
    cases h
    exact ⟨rfl, rfl, hne⟩
  · cases h

theorem accept_eq_ok {kind : TokenKind} {b : Bool} {d : Cursor} (hk : kind ≠ .endOfFile)
    (h : accept kind c = .ok b d) :
    b ∧ d = c.next ∧ c.current.kind ≠ .endOfFile ∨ ¬b ∧ d = c := by
  simp only [accept, Bind.bind, EStateM.bind, isAt] at h
  split at h
  · next hkind =>
    have hne : c.current.kind ≠ .endOfFile := eq_of_beq hkind ▸ hk
    obtain ⟨t, between, ht, hpure⟩ := exists_of_bind_eq_ok h
    rw [Cursor.advance_eq hne] at ht
    cases ht
    cases hpure
    exact .inl ⟨rfl, rfl, hne⟩
  · cases h
    exact .inr ⟨Bool.false_ne_true, rfl⟩

theorem terminator_eq_ok {u : Unit} {d : Cursor} (h : terminator c = .ok u d) :
    d = c.next ∧ c.current.kind ≠ .endOfFile := by
  obtain ⟨b, between, hsemicolon, hrest⟩ := exists_of_bind_eq_ok h
  obtain ⟨hb, rfl, hne⟩ | ⟨hb, rfl⟩ := accept_eq_ok (by simp) hsemicolon
  · rw [if_pos hb] at hrest
    cases hrest
    exact ⟨rfl, hne⟩
  · rw [if_neg hb] at hrest
    obtain ⟨b, between, hcloseTag, hlast⟩ := exists_of_bind_eq_ok hrest
    obtain ⟨hb, rfl, hne⟩ | ⟨hb, rfl⟩ := accept_eq_ok (by simp) hcloseTag
    · rw [if_pos hb] at hlast
      cases hlast
      exact ⟨rfl, hne⟩
    · rw [if_neg hb] at hlast
      cases hlast

namespace Places

theorem pure {a : α} (h : found a ⊆ known) : Places tokens c lo known (Pure.pure a) found := by
  intro hc _ hknown b after hp
  cases hp
  exact ⟨hc.leadsTo, fun n hn => hknown n (h hn)⟩

theorem bind (hp : Places tokens c lo known p found)
    (hf : ∀ a d, Places tokens d lo (found a ++ known) (f a) found') :
    Places tokens c lo known (p >>= f) found' := by
  intro hc hlo hknown b after h
  obtain ⟨a, between, hpc, hfa⟩ := exists_of_bind_eq_ok h
  obtain ⟨hleads, hfound⟩ := hp hc hlo hknown hpc
  have hknown' : ∀ n ∈ found a ++ known, n.LiesIn tokens lo between.lastStop :=
    List.forall_mem_append.2 ⟨hfound, fun n hn =>
      (hknown n hn).mono (Nat.le_refl _) hleads.lastStop_le⟩
  obtain ⟨hleads', hfound'⟩ :=
    hf a between hleads.isOn (Nat.le_trans hlo hleads.here_le) hknown' hfa
  exact ⟨hleads.trans hleads', hfound'⟩

theorem ite {b : Prop} [Decidable b] {q : Parser α} (hp : b → Places tokens c lo known p found)
    (hq : ¬b → Places tokens c lo known q found) :
    Places tokens c lo known (if b then p else q) found := by
  split
  · next h => exact hp h
  · next h => exact hq h

/-- Failing finds nothing. -/
theorem complain {complaint : Complaint} :
    Places tokens c lo known (Parse.complain complaint) found := by
  intro _ _ _ a after h
  cases h

theorem throw {error : ParseError} : Places tokens c lo known (throw error : Parser α) found := by
  intro _ _ _ a after h
  cases h

theorem tooDeep : Places tokens c lo known (Parse.tooDeep : Parser α) found := by
  intro _ _ _ a after h
  cases h

/-- A refusal before the rest of a parser leaves the rest to find. -/
theorem guard {b : Prop} [Decidable b] {complaint : Complaint} {k : Unit → Parser α}
    (hk : ¬b → Places tokens c lo known (k ()) found) :
    Places tokens c lo known (if b then Parse.complain complaint >>= k else k ()) found := by
  refine .ite (fun _ => ?_) hk
  intro _ _ _ a after h
  cases h

/-! ## Tokens -/

theorem peek {g : Token → Parser β} (h : Places tokens c lo known (g c.current) found') :
    Places tokens c lo known (current >>= g) found' :=
  h

theorem peekAt {kind : TokenKind} {g : Bool → Parser β}
    (h : Places tokens c lo known (g (c.current.kind == kind)) found') :
    Places tokens c lo known (isAt kind >>= g) found' :=
  h

theorem peekFollowing {g : TokenKind → Parser β}
    (h : ∀ kind, Places tokens c lo known (g kind) found') :
    Places tokens c lo known (following >>= g) found' :=
  h _

/-- A token that is read is known. -/
theorem read {q : Parser β} {g : β → Parser γ} {found' : γ → List Node}
    (hq : ∀ ⦃b d⦄, q c = .ok b d → d = c.next ∧ c.current.kind ≠ .endOfFile)
    (hg : ∀ b d, q c = .ok b d → Places tokens d lo (c.current.leaf :: known) (g b) found') :
    Places tokens c lo known (q >>= g) found' := by
  intro hc hlo hknown b after h
  obtain ⟨b, d, hqc, hgd⟩ := exists_of_bind_eq_ok h
  obtain ⟨rfl, hk⟩ := hq hqc
  have hnext := hc.next hk
  have hleaf := (Token.leaf_liesIn hc.row hc.current_mem hk).mono hlo (Nat.le_refl _)
  obtain ⟨hleads, hfound⟩ := hg b c.next hqc hnext.isOn (Nat.le_trans hlo hnext.here_le)
    (List.forall_mem_cons.2 ⟨hleaf, fun n hn =>
      (hknown n hn).mono (Nat.le_refl _) hnext.lastStop_le⟩) hgd
  exact ⟨hnext.trans hleads, hfound⟩

theorem advance {g : Token → Parser β} (hk : c.current.kind ≠ .endOfFile)
    (hg : ∀ d, Places tokens d lo (c.current.leaf :: known) (g c.current) found') :
    Places tokens c lo known (Parse.advance >>= g) found' := by
  refine .read (fun t d h => ?_) fun t d h => ?_
  all_goals
    rw [Cursor.advance_eq hk] at h
    cases h
  · exact ⟨rfl, hk⟩
  · exact hg _

theorem terminator {g : Unit → Parser β}
    (hg : ∀ d, Places tokens d lo (c.current.leaf :: known) (g ()) found') :
    Places tokens c lo known (Parse.terminator >>= g) found' :=
  .read (fun _ _ => terminator_eq_ok) fun _ d _ => hg d

/-- A token that is read may begin a node. -/
theorem expectStart {kind : TokenKind} {g : Token → Parser β} (hk : kind ≠ .endOfFile)
    (hg : ∀ t d, t ∈ tokens → Places tokens d t.span.start [t.leaf] (g t) found') :
    Places tokens c lo known (expect kind >>= g) found' := by
  intro hc hlo _ b after h
  obtain ⟨t, d, ht, hgd⟩ := exists_of_bind_eq_ok h
  obtain ⟨rfl, rfl, hk⟩ := expect_eq_ok hk ht
  have hnext := hc.next hk
  obtain ⟨hleads, hfound⟩ := hg c.current c.next hc.current_mem hnext.isOn hnext.here_le
    (List.forall_mem_singleton.2 (Token.leaf_liesIn hc.row hc.current_mem hk)) hgd
  exact ⟨hnext.trans hleads, fun n hn => (hfound n hn).mono hlo (Nat.le_refl _)⟩

/-- A node without children is known where its token is. -/
theorem also {t : Token} {n : Node} (hn : n.IsLeafOf t) (ht : t.leaf ∈ known)
    (h : Places tokens c lo (n :: known) p found) : Places tokens c lo known p found := by
  intro hc hlo hknown
  exact h hc hlo (List.forall_mem_cons.2 ⟨hn.liesIn (hknown _ ht), hknown⟩)

theorem leaf {t : Token} {n : Node} (hn : n.IsLeafOf t) (ht : t.leaf ∈ known) :
    Places tokens c lo known (Pure.pure n) one :=
  .also hn ht (.pure (by simp))

/-- A node with known nodes below it, from its first token to the last one read. -/
theorem close {mk : Span → Node} (hstart : IsStart tokens start) (hne : known ≠ [])
    (hmk : ∀ s, (mk s).span = s ∧ (mk s).isQualifiedConstant = false)
    (hchildren : ∀ s, (mk s).children ⊆ known) :
    Places tokens c start.start known (spanFrom start >>= fun s => Pure.pure (mk s)) one := by
  intro hc hlo hknown n after h
  cases h
  obtain ⟨t, ht, rfl⟩ := hstart
  refine ⟨hc.leadsTo, List.forall_mem_singleton.2 ?_⟩
  -- Something was read since the first token, so the first token was.
  obtain ⟨m, hm⟩ := List.exists_mem_of_ne_nil _ hne
  have hlt := (hknown m hm).lt
  obtain ⟨u, hu, hstop⟩ : ∃ u ∈ tokens, u.span.stop = c.lastStop :=
    hc.stops.resolve_left (Nat.ne_of_gt (Nat.zero_lt_of_lt hlt))
  have hmax : max c.lastStop t.span.stop = c.lastStop :=
    Nat.max_eq_left (hstop ▸ hc.row.stop_le_stop ht hu (hstop ▸ hlt))
  rw [hmax]
  obtain ⟨hspan, hplain⟩ := hmk ⟨t.span.start, c.lastStop⟩
  refine (Node.LiesIn.ofChildren ⟨t, ht, by rw [hspan]⟩ ⟨u, hu, by rw [hspan, hstop]⟩
    (by rw [hspan]; exact hlt) hplain fun child hchild => ?_).mono ?_ ?_
  · rw [hspan]
    exact hknown child (hchildren _ hchild)
  · rw [hspan]
  · rw [hspan]

theorem other {kind : String} {children : List Node} (hstart : IsStart tokens start)
    (hne : known ≠ []) (hchildren : children ⊆ known) :
    Places tokens c start.start known (Parse.other kind children start) one :=
  .close hstart hne (fun _ => ⟨rfl, rfl⟩) fun _ => hchildren

end Places

namespace Finds

theorem bind (hp : Finds tokens p found)
    (hf : ∀ a d, Places tokens d lo (found a ++ known) (f a) found') :
    Places tokens c lo known (p >>= f) found' :=
  hp.places.bind hf

theorem mono {found' : α → List Node} (hp : Finds tokens p found) (h : ∀ a, found' a ⊆ found a) :
    Finds tokens p found' := by
  intro c hc _ hlo hknown a after hpc
  obtain ⟨hleads, hfound⟩ := hp c hc hc hlo hknown hpc
  exact ⟨hleads, fun n hn => hfound n (h a hn)⟩

theorem map {g : α → β} (hp : Finds tokens p found) (h : ∀ a, found' (g a) ⊆ found a) :
    Finds tokens (g <$> p) found' := by
  intro c hc
  rw [map_eq_pure_bind]
  exact hp.bind fun a d => .pure (List.subset_append_of_subset_left _ (h a))

theorem optional {p : Parser Node} (hp : Finds tokens p one) :
    Finds tokens (some <$> p) Option.toList :=
  hp.map fun n => by simp

/-! ## Nesting -/

theorem within (hp : Finds tokens p found) : Finds tokens (Parse.within p) found := by
  intro c hc _ hlo hknown a after h
  simp only [Parse.within] at h
  split at h
  · next a' d hd =>
    cases h
    have hc' := hc.withDepth (c.depth + 1)
    obtain ⟨hleads, hfound⟩ := hp _ hc' hc' hlo hknown hd
    exact ⟨⟨hleads.isOn.withDepth _, hleads.lastStop_le, hleads.here_le⟩, hfound⟩
  · cases h

theorem chain (hp : Finds tokens p found) : Finds tokens (Parse.chain p) found := by
  intro c hc _ hlo hknown a after h
  simp only [Parse.chain] at h
  split at h
  · next a' d hd =>
    cases h
    obtain ⟨hleads, hfound⟩ := hp c hc hc hlo hknown hd
    exact ⟨hleads.withDepth _, hfound⟩
  · cases h

end Finds

theorem link_finds : Finds tokens link nothing := by
  intro c hc _ _ _ a after h
  cases h
  exact ⟨hc.leadsTo.withDepth _, by simp⟩

theorem advance_finds : Finds tokens advance nothing :=
  fun _ hc _ _ _ _ _ h => ⟨hc.advance h, by simp⟩

theorem accept_finds {kind : TokenKind} : Finds tokens (accept kind) nothing :=
  fun _ _ => .peekAt <| .ite (fun _ => advance_finds.bind fun _ _ => .pure (by simp))
    fun _ => .pure (by simp)

theorem expect_finds {kind : TokenKind} (hk : kind ≠ .endOfFile) :
    Finds tokens (expect kind) fun t => [t.leaf] := by
  intro c hc _ hlo _ t d h
  obtain ⟨rfl, rfl, hk⟩ := expect_eq_ok hk h
  exact ⟨hc.next hk, List.forall_mem_singleton.2
    ((Token.leaf_liesIn hc.row hc.current_mem hk).mono hlo (Nat.le_refl _))⟩

/-! ## Repetition -/

/-- What is found in what a round brings. -/
@[simp]
def Round.brought (found : α → List Node) : Round α → List Node
  | stop => []
  | last a | more a => found a

theorem gatherFor_finds {step : Parser (Round α)} (h : Finds tokens step (Round.brought found))
    (bound : List Token) : Finds tokens (gatherFor step bound) fun as => as.flatMap found := by
  induction bound with
  | nil =>
    refine fun c hc => h.bind fun r d => ?_
    cases r with
    | stop => exact .pure (by simp)
    | last a => exact .pure (by simp)
    | more a => exact .pure (by simp)
  | cons t bound ih =>
    refine fun c hc => h.bind fun r d => ?_
    cases r with
    | stop => exact .pure (by simp)
    | last a => exact .pure (by simp)
    | more a => exact ih.bind fun as d => .pure (by simp)

theorem gather_finds {step : Parser (Round α)} (h : Finds tokens step (Round.brought found)) :
    Finds tokens (gather step) fun as => as.flatMap found :=
  fun c hc => gatherFor_finds h c.rest c hc

theorem gather_finds_nothing {step : Parser (Round α)} (h : Finds tokens step nothing) :
    Finds tokens (gather step) nothing := by
  have hstep : Finds tokens step (Round.brought nothing) := h.mono fun r => by cases r <;> simp
  exact (gather_finds hstep).mono fun _ => by simp

theorem gather_finds_nodes {step : Parser (Round Node)}
    (h : Finds tokens step (Round.brought one)) : Finds tokens (gather step) id :=
  (gather_finds h).mono fun ns => by simp

theorem gather_finds_slots {step : Parser (Round (Option Node))}
    (h : Finds tokens step (Round.brought Option.toList)) :
    Finds tokens (gather step) (List.filterMap id) :=
  (gather_finds h).mono fun slots n hn => by
    obtain ⟨slot, hslot, rfl⟩ := List.mem_filterMap.1 hn
    exact List.mem_flatMap.2 ⟨_, hslot, by simp⟩

theorem commaItem_finds (h : Finds tokens p found) :
    Finds tokens (commaItem p) (Round.brought found) :=
  fun c hc => h.bind fun a d => accept_finds.bind fun _ _ =>
    .ite (fun _ => .pure (by simp)) fun _ => .pure (by simp)

theorem commaSeparated_finds {p : Parser Node} (h : Finds tokens p one) :
    Finds tokens (commaSeparated p) id :=
  gather_finds_nodes (commaItem_finds h)

theorem commaListUntil_finds {close : Symbol} {p : Parser Node} (h : Finds tokens p one) :
    Finds tokens (commaListUntil close p) id :=
  gather_finds_nodes fun _ _ => .peekAt <| .ite (fun _ => .pure (by simp))
    fun _ => (commaItem_finds h).places

/-! ## Names -/

theorem ne_endOfFile_of_isIdentifierLike {kind : TokenKind} (h : kind.isIdentifierLike) :
    kind ≠ .endOfFile := by
  rintro rfl
  cases h

theorem identifier_finds : Finds tokens identifier one :=
  fun _ _ => .peek <| .guard fun hk =>
    .advance (ne_endOfFile_of_isIdentifierLike (by simpa using hk)) fun _ =>
      .leaf ⟨rfl, rfl, rfl⟩ List.mem_cons_self

/-- A part of a name is the token at the cursor, and the part before another one
    has a backslash after it. -/
theorem namePart_eq_ok (hc : c.IsOn tokens) {r : Round String} {d : Cursor}
    (h : namePart c = .ok r d) :
    c.current.kind ≠ .endOfFile ∧ c.LeadsTo tokens d ∧ d.rest.length < c.rest.length ∧
      ∃ text, r = .last text ∧ d.lastStop = c.current.span.stop ∨
        r = .more text ∧ c.current.span.stop < d.lastStop := by
  obtain ⟨t, c', hcurrent, h⟩ := exists_of_bind_eq_ok h
  cases hcurrent
  dsimp only at h
  split at h
  · obtain ⟨u, d, hcomplain, -⟩ := exists_of_bind_eq_ok h
    cases hcomplain
  · next hk =>
    have hk := ne_endOfFile_of_isIdentifierLike (by simpa using hk)
    have hnext := hc.next hk
    obtain ⟨t, d, hadvance, h⟩ := exists_of_bind_eq_ok h
    rw [Cursor.advance_eq hk] at hadvance
    cases hadvance
    obtain ⟨b, d, hat, h⟩ := exists_of_bind_eq_ok h
    cases hat
    obtain ⟨kind, between, hfollowing, h⟩ := exists_of_bind_eq_ok h
    obtain rfl : c.next = between := (EStateM.Result.ok.inj hfollowing).2
    split at h
    · next hbackslash =>
      have hk' : c.next.current.kind ≠ .endOfFile := by
        rw [Bool.and_eq_true, beq_iff_eq] at hbackslash
        simp [hbackslash.1]
      obtain ⟨t, d, hadvance, h⟩ := exists_of_bind_eq_ok h
      rw [Cursor.advance_eq hk'] at hadvance
      cases hadvance
      cases h
      exact ⟨hk, hnext.trans (hnext.isOn.next hk'),
        Nat.lt_trans hnext.isOn.length_next hc.length_next, _, .inr ⟨rfl, hnext.isOn.stop_lt hk'⟩⟩
    · cases h
      exact ⟨hk, hnext, hc.length_next, _, .inl ⟨rfl, rfl⟩⟩

/-- The parts of a name end with the first token exactly if there is one part. -/
theorem gatherFor_namePart {bound : List Token} (hc : c.IsOn tokens)
    (hbound : c.rest.length ≤ bound.length) {parts : List String} {d : Cursor}
    (h : gatherFor namePart bound c = .ok parts d) :
    c.current.kind ≠ .endOfFile ∧ c.LeadsTo tokens d ∧ c.current.span.stop ≤ d.lastStop ∧
      parts ≠ [] ∧ (d.lastStop ≤ c.current.span.stop ↔ parts.length = 1) := by
  induction bound generalizing c parts with
  | nil => exact absurd (List.length_eq_zero_iff.1 (Nat.le_zero.1 hbound)) hc.ne_nil
  | cons t bound ih =>
    obtain ⟨r, between, hstep, hrest⟩ := exists_of_bind_eq_ok h
    obtain ⟨hk, hleads, hlength, text, ⟨rfl, hstop⟩ | ⟨rfl, hlt⟩⟩ := namePart_eq_ok hc hstep
    · cases hrest
      exact ⟨hk, hleads, Nat.le_of_eq hstop.symm, by simp, by simp [hstop]⟩
    · obtain ⟨more, after, hmore, hpure⟩ := exists_of_bind_eq_ok hrest
      cases hpure
      have hbound' : between.rest.length ≤ bound.length := by
        rw [List.length_cons] at hbound
        omega
      obtain ⟨-, hleads', -, hne, -⟩ := ih hleads.isOn hbound' hmore
      have hlt' := Nat.lt_of_lt_of_le hlt hleads'.lastStop_le
      have hpos := List.length_pos_iff.2 hne
      refine ⟨hk, hleads.trans hleads', Nat.le_of_lt hlt', by simp, ?_⟩
      exact iff_of_false (Nat.not_le_of_lt hlt') (by rw [List.length_cons]; omega)

/-- A name goes from the token at the cursor to the last one read, and these are one
    token exactly if the name has one part and no backslash before it. -/
theorem name_eq_ok (hc : c.IsOn tokens) {n : Node} {d : Cursor} (h : name c = .ok n d) :
    c.current.kind ≠ .endOfFile ∧ c.LeadsTo tokens d ∧ ∃ parts fullyQualified,
      n = .name parts fullyQualified ⟨c.here, d.lastStop⟩ ∧ c.current.span.stop ≤ d.lastStop ∧
      (d.lastStop ≤ c.current.span.stop ↔ (fullyQualified || parts.length != 1) = false) := by
  obtain ⟨t, c', hcurrent, h⟩ := exists_of_bind_eq_ok h
  cases hcurrent
  obtain ⟨fullyQualified, between, haccept, h⟩ := exists_of_bind_eq_ok h
  obtain ⟨parts, after, hgather, h⟩ := exists_of_bind_eq_ok h
  cases h
  obtain ⟨hb, rfl, hne⟩ | ⟨hb, rfl⟩ := accept_eq_ok (by simp) haccept
  · have hnext := hc.next hne
    obtain ⟨hk, hleads, hstop, -, -⟩ := gatherFor_namePart hnext.isOn (Nat.le_refl _) hgather
    have hlt : c.current.span.stop < d.lastStop :=
      Nat.lt_of_lt_of_le (hnext.isOn.stop_lt hk) hstop
    refine ⟨hne, hnext.trans hleads, parts, fullyQualified, ?_, Nat.le_of_lt hlt, ?_⟩
    · rw [Nat.max_eq_left (Nat.le_of_lt hlt)]
      rfl
    · exact iff_of_false (Nat.not_le_of_lt hlt) (by simp [hb])
  · obtain ⟨hk, hleads, hstop, -, hiff⟩ := gatherFor_namePart hc (Nat.le_refl _) hgather
    refine ⟨hk, hleads, parts, fullyQualified, ?_, hstop, ?_⟩
    · rw [Nat.max_eq_left hstop]
      rfl
    · simpa [hb] using hiff

theorem name_finds : Finds tokens name one := by
  intro c hc _ hlo hknown n d h
  obtain ⟨hk, hleads, parts, fullyQualified, rfl, hstop, -⟩ := name_eq_ok hc h
  refine ⟨hleads, List.forall_mem_singleton.2 ?_⟩
  have hlt := Nat.lt_of_lt_of_le (hc.here_lt_stop hk) hstop
  have hstops := hleads.isOn.stops.resolve_left (Nat.ne_of_gt (Nat.zero_lt_of_lt hlt))
  exact .ofChildren (n := .name parts fullyQualified ⟨c.here, d.lastStop⟩)
    ⟨_, hc.current_mem, rfl⟩ hstops hlt rfl (by simp [Node.children])

/-! ## Types and parameters -/

theorem typePart_finds : Finds tokens typePart nothing := by
  refine fun c _ => .peek ?_
  split
  · exact advance_finds.bind fun _ _ => .pure (by simp)
  all_goals try exact .pure (by simp)
  all_goals
    refine advance_finds.bind fun _ d => .peek ?_
    split
    · exact .pure (by simp)
    · exact advance_finds.bind fun _ _ => .pure (by simp)
    · exact .peekFollowing fun _ => .ite (fun _ => .pure (by simp)) fun _ =>
        advance_finds.bind fun _ _ => .pure (by simp)
    · exact .pure (by simp)

theorem skipType_finds : Finds tokens skipType nothing :=
  fun _ _ => accept_finds.bind fun _ _ => (gather_finds_nothing typePart_finds).bind fun _ _ =>
    .guard fun _ => .pure (by simp)

theorem skipReturnType_finds : Finds tokens skipReturnType nothing :=
  fun _ _ => accept_finds.bind fun _ _ => .ite
    (fun _ => skipType_finds.bind fun _ _ => .ite (fun _ => .complain) fun _ => .pure (by simp))
    fun _ => .pure (by simp)

theorem parameter_finds : Finds tokens parameter one :=
  fun _ hc => .peek <| .peek <| .guard fun _ => skipType_finds.bind fun _ _ => .peekAt <|
    .guard fun _ => .peekAt <| .guard fun _ => (expect_finds (by simp)).bind fun token _ =>
      .peekAt <| .guard fun _ => .also (n := varOf token) ⟨rfl, rfl, rfl⟩ List.mem_cons_self <|
        .close (isStart_current hc) (by simp) (fun _ => ⟨rfl, rfl⟩) (by simp [Node.children])

theorem parameterList_finds : Finds tokens parameterList id :=
  fun _ _ => (expect_finds (by simp)).bind fun _ _ =>
    (commaListUntil_finds parameter_finds).bind fun _ _ =>
      (expect_finds (by simp)).bind fun _ _ => .pure (by simp)

theorem refuseByRefReturn_finds : Finds tokens refuseByRefReturn nothing :=
  fun _ _ => .peekAt <| .ite (fun _ => .complain) fun _ => .pure (by simp)

theorem closureBinding_finds : Finds tokens closureBinding one :=
  fun _ _ => .peekAt <| .guard fun _ => (expect_finds (by simp)).bind fun _ _ =>
    .leaf ⟨rfl, rfl, rfl⟩ List.mem_cons_self

theorem closureBindings_finds : Finds tokens closureBindings id :=
  fun _ _ => accept_finds.bind fun _ _ => .ite
    (fun _ => (expect_finds (by simp)).bind fun _ _ =>
      (commaListUntil_finds closureBinding_finds).bind fun _ _ =>
        (expect_finds (by simp)).bind fun _ _ => .pure (by simp))
    fun _ => .pure (by simp)

end Parse

end PhpScript
