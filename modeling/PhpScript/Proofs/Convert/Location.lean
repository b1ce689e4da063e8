import PhpScript.Proofs.Parse.Placeless
import PhpScript.Proofs.Script.Outcome
import PhpScript.Proofs.Text.Lines
import PhpScript.Proofs.Token.Tiling

/-!
# The places of errors

Every error of converting a source text whose offsets fit into spans points at a
span of whole characters of that text (`Span.Fits`), and so at a line and a column
of it.

* A scan error is at a piece of the text, and so is every token.
* A parser makes spans from those of tokens alone, by extending one to the end
  of another. That is an instance of how parsers agree with themselves: over one
  text, with the places in it related to themselves (`Placing.within`).
* An emit error is at the place of some node of the tree (`Emit.node_blames`).

`Convert.error_located` puts them together and adds the lines and columns that
the line map gives (`LineCut`).
-/

namespace PhpScript

open Text (byteLength)

/-! ## Spans in a text -/

/-- An offset of a text at which a character begins or the text ends. -/
def Text.IsBoundary (text : String) (offset : Nat) : Prop :=
  ∃ left right, text.toList = left ++ right ∧ byteLength left = offset

/-- The span covers whole characters of the text. -/
structure Span.Fits (s : Span) (text : String) : Prop where
  start : Text.IsBoundary text s.start
  stop : Text.IsBoundary text s.stop
  ordered : s.start ≤ s.stop

namespace Span.Fits

variable {s t : Span} {text : String}

theorem of_cut {left mid right : List Char} (h : text.toList = left ++ (mid ++ right)) :
    (Span.wide (byteLength left) mid).Fits text where
  start := ⟨left, mid ++ right, h, rfl⟩
  stop := ⟨left ++ mid, right, by rw [h, List.append_assoc], Text.byteLength_append ..⟩
  ordered := Nat.le_add_right _ _

theorem extend (hs : s.Fits text) (ht : t.Fits text) :
    Span.Fits ⟨s.start, max t.stop s.stop⟩ text where
  start := hs.start
  stop := by
    rcases Nat.le_total t.stop s.stop with h | h
    · rw [Nat.max_eq_right h]
      exact hs.stop
    · rw [Nat.max_eq_left h]
      exact ht.stop
  ordered := Nat.le_trans hs.ordered (Nat.le_max_right _ _)

theorem isUnknown_eq (h : s.Fits text) (hsize : text.utf8ByteSize < limit) :
    s.isUnknown = false := by
  obtain ⟨left, right, htext, hstart⟩ := h.start
  rw [Text.utf8ByteSize_eq, htext, Text.byteLength_append] at hsize
  exact beq_false_of_ne (by omega)

theorem isSome_slice? (h : s.Fits text) (hsize : text.utf8ByteSize < limit) :
    (s.slice? text).isSome := by
  obtain ⟨left, right, htext, hstart⟩ := h.start
  obtain ⟨left', right', htext', hstop⟩ := h.stop
  -- Of two pieces that a text begins with, the shorter begins the longer.
  obtain ⟨mid, hleft⟩ : ∃ mid, left' = left ++ mid := by
    rcases List.append_eq_append_iff.1 (htext.symm.trans htext') with
      ⟨mid, hmid, -⟩ | ⟨mid, hmid, -⟩
    · exact ⟨mid, hmid⟩
    · have hle := h.ordered
      rw [← hstart, ← hstop, hmid, Text.byteLength_append] at hle
      have hnil : mid = [] := by
        by_contra hne
        have := Text.byteLength_pos hne
        omega
      exact ⟨[], by simp [hmid, hnil]⟩
  have hcut : text.toList = left ++ (mid ++ right') := by
    rw [htext', hleft, List.append_assoc]
  rw [Span.slice?, h.isUnknown_eq hsize, ← hstart, ← hstop, hleft, Text.byteLength_append,
    Text.slice?_append hcut]
  rfl

end Span.Fits

/-! ## Tokens and parsed trees -/

/-- The places in a text, each of which belongs to itself. -/
def Placing.within (text : String) : Placing where
  Rel s t := s = t ∧ s.Fits text
  extend := by
    rintro s _ t _ ⟨rfl, hs⟩ ⟨rfl, ht⟩
    exact ⟨rfl, hs.extend ht⟩

section

variable {text : String} (hsize : text.utf8ByteSize ≤ Span.limit)

include hsize

theorem ScanError.fits {e : ScanError} (h : Token.scan text = .error e) : e.span.Fits text := by
  rw [Token.scan_eq_scanWide hsize] at h
  have hscan : Token.wideFrom .html 0 text.toList = .error e := Token.eq_error_of_map h
  obtain ⟨left, piece, right, htext, hrefusal⟩ := Token.exists_cut_of_wideFrom_error hscan
  rw [hrefusal.span_eq, Nat.zero_add]
  exact .of_cut htext

theorem Token.fits {tokens : List Token} (h : scan text = .ok tokens) :
    ∀ t ∈ tokens, t.span.Fits text := by
  rw [scan_eq_scanWide hsize] at h
  obtain ⟨before, hbefore, heq⟩ := exists_of_bind_eq_ok h
  cases heq
  intro t ht
  rcases List.mem_append.1 ht with ht | ht
  · obtain ⟨left, piece, right, -, htext, hplace⟩ :=
      (Scans.of_wideFrom hbefore).laid.exists_cut [] rfl t ht
    rw [hplace]
    exact .of_cut htext
  · have hend : Text.IsBoundary text text.utf8ByteSize :=
      ⟨text.toList, [], by simp, (Text.utf8ByteSize_eq text).symm⟩
    rw [List.mem_singleton.1 ht]
    exact ⟨hend, hend, Nat.le_refl _⟩

theorem Token.alike_within {tokens : List Token} (h : scan text = .ok tokens) :
    List.Forall₂ (Alike (.within text)) tokens tokens :=
  List.forall₂_same.2 fun t ht => .mk ⟨rfl, fits hsize h t ht⟩

end

theorem Node.Alike.exists_of_mem {P : Placing} {n : Node} {ns ms : List Node}
    (h : List.Forall₂ (Alike P) ns ms) (hn : n ∈ ns) : ∃ m, n.Alike P m := by
  induction h with
  | nil => cases hn
  | cons h _ ih =>
    rcases List.mem_cons.1 hn with rfl | hn
    · exact ⟨_, h⟩
    · exact ih hn

/-- Each part of a tree that is alike to some tree is so itself. -/
theorem Node.Alike.exists_of_occurs {P : Placing} {n m k : Node} (h : n.Alike P m)
    (hk : k.Occurs n) : ∃ k', k.Alike P k' := by
  induction hk generalizing m with
  | here => exact ⟨m, h⟩
  | inside hchild _ ih =>
    obtain ⟨-, -, hchildren⟩ := h
    obtain ⟨child', hlike⟩ := exists_of_mem hchildren hchild
    exact ih hlike

/-- Parsing fails in the text, or every node of the program is in it. -/
theorem Parse.source_fits (text : String) (hsize : text.utf8ByteSize ≤ Span.limit) :
    (∃ nodes, source text = .ok nodes ∧
      ∀ root ∈ nodes, ∀ n : Node, n.Occurs root → n.span.Fits text) ∨
    ∃ e, source text = .error e ∧ e.span.Fits text := by
  cases hscan : Token.scan text with
  | error e =>
    refine .inr ⟨.scan e, ?_, ScanError.fits hsize hscan⟩
    simp [source, start, hscan, bind, Except.bind]
  | ok tokens =>
    obtain ⟨nodes, _, hsource, -, hlike⟩ | ⟨e, e', herror, -, -, hfits⟩ :=
      source_agrees hscan hscan (Token.alike_within hsize hscan)
    · refine .inl ⟨nodes, hsource, fun root hroot n hn => ?_⟩
      obtain ⟨root', hroot'⟩ := Node.Alike.exists_of_mem hlike hroot
      obtain ⟨n', -, ⟨-, hfits⟩, -⟩ := hroot'.exists_of_occurs hn
      exact hfits
    · exact .inr ⟨e, herror, hfits⟩

/-! ## Emitting -/

namespace Emit

/-- An emitter that fails does so at a place of `Q`. -/
def Blames (Q : Span → Prop) (m : Emitter α) : Prop :=
  ∀ ⦃p q : Printer⦄ ⦃e : EmitError⦄, m p = .error e q → Q e.span

section

variable {Q : Span → Prop} {m : Emitter α} {f : α → Emitter β}

namespace Blames

theorem pure {a : α} : Blames Q (Pure.pure a) := by
  intro p q e h
  cases h

theorem throw {error : EmitError} (h : Q error.span) : Blames Q (throw error : Emitter α) := by
  intro p q e he
  cases he
  exact h

theorem bind (hm : Blames Q m) (hf : ∀ a, Blames Q (f a)) : Blames Q (m >>= f) := by
  intro p q e h
  simp only [Bind.bind, EStateM.bind] at h
  split at h
  · exact hf _ h
  · next hp =>
    cases h
    exact hm hp

theorem map {g : α → β} (hm : Blames Q m) : Blames Q (m >>= fun a => Pure.pure (g a)) :=
  hm.bind fun _ => .pure

theorem within {s : Span} (hs : Q s) (hm : Blames Q m) : Blames Q (within s m) := by
  intro p q e h
  unfold Emit.within at h
  split at h
  · cases h
    exact hs
  · split at h
    · cases h
    · next hp =>
      cases h
      exact hm hp

end Blames

theorem list_blames {nodes : List Node} (h : ∀ n ∈ nodes, Blames Q (node n)) :
    Blames Q (list nodes) := by
  induction nodes with
  | nil => exact .pure
  | cons n nodes ih =>
    rw [List.forall_mem_cons] at h
    exact h.1.bind fun _ => (ih h.2).map

theorem slots_blames {items : List (Option Node)}
    (h : ∀ n ∈ items.filterMap id, Blames Q (node n)) : Blames Q (slots items) := by
  induction items with
  | nil => exact .pure
  | cons item items ih =>
    cases item with
    | none => exact (ih (by simpa using h)).map
    | some n =>
      rw [List.filterMap_cons_some (f := id) rfl, List.forall_mem_cons] at h
      exact h.1.bind fun _ => (ih h.2).map

theorem memberName_blames {kind : String} {s : Span} {label : Node} (hs : Q s)
    (hlabel : Q label.span) : Blames Q (memberName kind s label) := by
  unfold memberName
  split
  · exact .within hlabel .pure
  · exact .throw hs

theorem nameText_blames {parts : List String} {fullyQualified : Bool} {s : Span} (hs : Q s) :
    Blames Q (nameText parts fullyQualified s) := by
  unfold nameText
  split
  · exact .pure
  · exact .throw hs

/-- Emitting a tree fails at the place of a node in it. -/
theorem node_blames (n : Node) : (∀ k : Node, k.Occurs n → Q k.span) → Blames Q (node n) := by
  induction n using Node.induction with
  | step n ih =>
  intro h
  have hs : Q n.span := h n .here
  have hplace : ∀ child ∈ n.children, Q child.span := fun child hc => h child (.of_mem hc)
  have hchild : ∀ child ∈ n.children, Blames Q (node child) :=
    fun child hc => ih child hc fun k hk => h k (.inside hc hk)
  have hlist : ∀ nodes ⊆ n.children, Blames Q (list nodes) :=
    fun nodes hn => list_blames fun child hc => hchild child (hn hc)
  cases n with
  | expression expr s => exact .within hs (hchild expr (by simp [Node.children]))
  | returns value s =>
    cases value with
    | none => exact .within hs .pure
    | some value => exact .within hs (hchild value (by simp [Node.children])).map
  | namespaceBlock label body s => exact .within hs (hlist body (by simp [Node.children])).map
  | classDecl label resolved members s =>
    have hmembers := hlist members (by simp [Node.children])
    cases resolved with
    | some label =>
      exact .within hs ((hchild label (by simp [Node.children])).bind fun _ => hmembers.map)
    | none =>
      cases label with
      | some label =>
        exact .within hs ((hchild label (by simp [Node.children])).bind fun _ => hmembers.map)
      | none => exact .within hs (.throw hs)
  | property flags items s => exact .within hs (hlist items (by simp [Node.children])).map
  | propertyItem label initial s =>
    have hlabel := hchild label (by simp [Node.children])
    cases initial with
    | none => exact .within hs hlabel.map
    | some initial =>
      exact .within hs (hlabel.bind fun _ => (hchild initial (by simp [Node.children])).map)
  | method flags label params body s =>
    have hlabel := hchild label (by simp [Node.children])
    have hparams := hlist params (by simp [Node.children])
    cases body with
    | none => exact .within hs (hlabel.bind fun _ => hparams.map)
    | some body =>
      exact .within hs (hlabel.bind fun _ => hparams.bind fun _ =>
        (hlist body (by simp [Node.children])).map)
  | methodCall target label args s =>
    exact .within hs ((hchild target (by simp [Node.children])).bind fun _ =>
      (memberName_blames hs (hplace label (by simp [Node.children]))).bind fun _ =>
        (hlist args (by simp [Node.children])).map)
  | functionCall callee args s =>
    exact .within hs ((hchild callee (by simp [Node.children])).bind fun _ =>
      (hlist args (by simp [Node.children])).map)
  | construct cls args s =>
    exact .within hs ((hchild cls (by simp [Node.children])).bind fun _ =>
      (hlist args (by simp [Node.children])).map)
  | index base key s =>
    cases key with
    | none => exact .within hs (.throw hs)
    | some key =>
      exact .within hs ((hchild base (by simp [Node.children])).bind fun _ =>
        (hchild key (by simp [Node.children])).map)
  | member base label s =>
    exact .within hs ((hchild base (by simp [Node.children])).bind fun _ =>
      (memberName_blames hs (hplace label (by simp [Node.children]))).map)
  | assign left right s | addAssign left right s | concat left right s =>
    exact .within hs ((hchild left (by simp [Node.children])).bind fun _ =>
      (hchild right (by simp [Node.children])).map)
  | arrowFunction params body s =>
    exact .within hs ((hlist params (by simp [Node.children])).bind fun _ =>
      (hchild body (by simp [Node.children])).map)
  | closure params uses body s =>
    exact .within hs ((hlist params (by simp [Node.children])).bind fun _ =>
      (hlist body (by simp [Node.children])).map)
  | array items s => exact .within hs (slots_blames hchild).map
  | arrayItem key value s =>
    have hvalue := hchild value (by simp [Node.children])
    cases key with
    | none => exact .within hs hvalue
    | some key =>
      exact .within hs (hvalue.bind fun _ => (hchild key (by simp [Node.children])).map)
  | argument value s | parameter value s | constant value s =>
    exact .within hs (hchild value (by simp [Node.children]))
  | var | integer | float | string | identifier => exact .within hs .pure
  | name => exact .within hs (nameText_blames hs)
  | other => exact .within hs (.throw hs)

end

end Emit

theorem Script.ofNodes_blames {Q : Span → Prop} {nodes : List Node} {e : EmitError}
    (hQ : ∀ root ∈ nodes, ∀ n : Node, n.Occurs root → Q n.span) (h : ofNodes nodes = .error e) :
    Q e.span := by
  have hprogram : Emit.Blames Q (Emit.program nodes) :=
    (Emit.list_blames fun root hroot => Emit.node_blames root (hQ root hroot)).map
  simp only [ofNodes, Emit.serve, Emit.Request.emitter] at h
  split at h
  · cases h
  · next hp =>
    cases h
    exact hprogram hp

/-! ## Conversion -/

namespace Convert

/-- An error of conversion is a parse error or an emit error, at a span of the
    text, with the place that the line map gives for it. -/
theorem exists_of_source_error {text file : String} {e : ConvertError}
    (hsize : text.utf8ByteSize ≤ Span.limit) (h : source text file = .error e) :
    (∃ error, e = .parse file error (.ofSpan text error.span) ∧ error.span.Fits text) ∨
    ∃ error, e = .emit file error (.ofSpan text error.span) ∧ error.span.Fits text := by
  obtain ⟨nodes, hsource, hfits⟩ | ⟨error, herror, hfits⟩ := Parse.source_fits text hsize
  · cases hscript : Script.ofNodes nodes with
    | ok script =>
      simp [source, parse, hsource, hscript, bind, Except.bind, pure, Except.pure] at h
    | error error =>
      simp only [source, parse, hsource, hscript, bind, Except.bind, throw, throwThe,
        MonadExceptOf.throw, Except.error.injEq] at h
      exact .inr ⟨error, h.symm, Script.ofNodes_blames (Q := (Span.Fits · text)) hfits hscript⟩
  · simp only [source, parse, herror, bind, Except.bind, Except.error.injEq] at h
    exact .inl ⟨error, h.symm, hfits⟩

theorem ofSpan_eq {text : String} {span : Span} (hsize : text.utf8ByteSize < Span.limit)
    (h : span.Fits text) (cut : LineCut text span.start) :
    Place.ofSpan text span = ⟨some cut.location, some cut.lineText⟩ := by
  simp only [Place.ofSpan, h.isUnknown_eq hsize, Bool.false_eq_true, if_false,
    cut.location_eq hsize, cut.lineText?_eq hsize.le]

/-- Every error of converting a source text tells its file, a span of whole
    characters of the text, the line and column of that span, and its line. -/
theorem error_located {text file : String} {e : ConvertError}
    (hsize : text.utf8ByteSize < Span.limit) (h : source text file = .error e) :
    e.file? = some file ∧ ∃ span, e.span? = some span ∧ (span.slice? text).isSome ∧
      ∃ cut : LineCut text span.start,
        e.location? = some cut.location ∧ e.lineText? = some cut.lineText := by
  obtain ⟨error, rfl, hfits⟩ | ⟨error, rfl, hfits⟩ := exists_of_source_error hsize.le h
  all_goals
    obtain ⟨left, right, htext, hstart⟩ := hfits.start
    obtain ⟨cut⟩ := hstart ▸ LineCut.exists_of_append htext
    refine ⟨rfl, error.span, ?_, hfits.isSome_slice? hsize, cut, ?_⟩
    · simp [ConvertError.span?, hfits.isUnknown_eq hsize]
    · simp [ConvertError.location?, ConvertError.lineText?, ConvertError.place,
        ofSpan_eq hsize hfits cut]

/-- An access without an index, after a letter of two bytes on the second line. -/
theorem missingIndex_located :
    ∃ e, source "<?php\r\n'é'; $a[];" "page.php" = .error e ∧ e.location? = some ⟨2, 6⟩ ∧
      e.file? = some "page.php" ∧ ∃ span, e.span? = some span ∧
        (span.slice? "<?php\r\n'é'; $a[];").isSome ∧
        ∃ cut : LineCut "<?php\r\n'é'; $a[];" span.start,
          e.location? = some cut.location ∧ e.lineText? = some cut.lineText := by
  have hsize : "<?php\r\n'é'; $a[];".utf8ByteSize < Span.limit := by decide +kernel
  have h : source "<?php\r\n'é'; $a[];" "page.php" = .error
      (.emit "page.php" (.missingIndex ⟨13, 17⟩) ⟨some ⟨2, 6⟩, some "'é'; $a[];"⟩) := by
    decide +kernel
  exact ⟨_, h, rfl, error_located hsize h⟩

end Convert

end PhpScript
