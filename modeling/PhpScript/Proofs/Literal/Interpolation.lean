import Mathlib
import PhpScript.Proofs.Literal.Decoding

/-!
# Interpolated literals

In double quotes a variable can stand among the text. The body of a literal is cut into plain
bytes and escape sequences (`IsEscape`), the longest that can be taken each time, and a
backslash that begins none takes the byte after it along. A variable is opened where one of
these pieces begins (`IsFree`), by one of three openers (`Opener`).

* `escape_of_isLongestEscape`, `escape_kept`: the decoder takes just these pieces;
* `doubleQuoted?_eq_none_iff`: so a literal has no plain value if and only if one of two of the
  openers occurs in it. A dollar before a brace is taken as text.
-/

namespace PhpScript.Literal

/-! ## Escape sequences -/

/-- Hexadecimal digits of a code point, with an optional plus sign before them. -/
def SpellsCodePoint (text : List UInt8) : Prop :=
  ∃ digits, (text = digits ∨ text = byte '+' :: digits) ∧ digits ≠ [] ∧
    digits.all (isDigitByte 16) ∧ (valueOfBytes 16 digits).isValidChar

/-- The escape sequences of double quotes. -/
inductive IsEscape : List UInt8 → Prop
  | named {b : UInt8} : b ∈ ['n', 't', 'r', 'v', 'e', 'f', '\\', '$', '"'].map byte →
    IsEscape [byte '\\', b]
  /-- Up to three octal digits. -/
  | octal {digits : List UInt8} : digits ≠ [] → digits.length ≤ 3 →
    digits.all (isDigitByte 8) → IsEscape (byte '\\' :: digits)
  /-- Up to two hexadecimal digits. -/
  | hex {digits : List UInt8} : digits ≠ [] → digits.length ≤ 2 →
    digits.all (isDigitByte 16) → IsEscape (byte '\\' :: byte 'x' :: digits)
  /-- A code point in braces. -/
  | codePoint {text : List UInt8} : SpellsCodePoint text →
    IsEscape (byte '\\' :: byte 'u' :: byte '\x7b' :: (text ++ [byte '\x7d']))

/-- No longer escape sequence begins there. -/
structure IsLongestEscape (seq rest : List UInt8) : Prop where
  isEscape : IsEscape seq
  longest : ∀ other, IsEscape other → other <+: seq ++ rest → other.length ≤ seq.length

/-- What is left of a text at a position that no escape sequence before it takes. -/
inductive IsFree : List UInt8 → List UInt8 → Prop
  | here {bs : List UInt8} : IsFree bs bs
  | plain {b : UInt8} {bs rest : List UInt8} : b ≠ byte '\\' → IsFree bs rest →
    IsFree (b :: bs) rest
  | escape {seq bs rest : List UInt8} : IsLongestEscape seq bs → IsFree bs rest →
    IsFree (seq ++ bs) rest
  /-- A backslash without an escape sequence takes the byte after it along. -/
  | kept {b : UInt8} {bs rest : List UInt8} :
    (∀ seq, IsEscape seq → ¬seq <+: byte '\\' :: b :: bs) → IsFree bs rest →
    IsFree (byte '\\' :: b :: bs) rest

/-! ## Named escapes and digits -/

theorem namedEscape?_eq_none_iff {b : UInt8} :
    namedEscape? b = none ↔ b ∉ ['n', 't', 'r', 'v', 'e', 'f', '\\', '$', '"'].map byte := by
  simp only [namedEscape?, List.map_cons, List.map_nil, List.mem_cons, List.not_mem_nil]
  grind

theorem namedEscape?_eq_none_of_isDigitByte {b : UInt8} (h : isDigitByte 8 b) :
    namedEscape? b = none := by
  rw [namedEscape?_eq_none_iff]
  intro hb
  simp only [List.map_cons, List.map_nil, List.mem_cons, List.not_mem_nil, or_false] at hb
  rcases hb with rfl | rfl | rfl | rfl | rfl | rfl | rfl | rfl | rfl <;> cases h

theorem digitsAhead_append_drop (radix : Nat) (rest : List UInt8) :
    digitsAhead radix rest ++ rest.drop (digitsAhead radix rest).length = rest :=
  List.prefix_iff_eq_append.1 ((List.takeWhile_prefix _).trans (List.take_prefix 2 rest))

theorem length_digitsAhead_le (radix : Nat) (rest : List UInt8) :
    (digitsAhead radix rest).length ≤ 2 :=
  Nat.le_trans (List.takeWhile_prefix _).length_le (List.length_take_le 2 rest)

theorem all_digitsAhead (radix : Nat) (rest : List UInt8) :
    (digitsAhead radix rest).all (isDigitByte radix) := List.all_takeWhile

/-- No longer run of at most two digits is ahead. -/
theorem length_le_digitsAhead {radix : Nat} {ds rest : List UInt8} (hds : ds <+: rest)
    (hlen : ds.length ≤ 2) (hall : ds.all (isDigitByte radix)) :
    ds.length ≤ (digitsAhead radix rest).length := by
  obtain ⟨tail, htail⟩ := List.prefix_take_iff.2 ⟨hds, hlen⟩
  rw [digitsAhead, ← htail, List.takeWhile_append_of_pos (List.all_eq_true.1 hall),
    List.length_append]
  exact Nat.le_add_right _ _

/-! ## Code points -/

theorem codePoint?_isSome_iff {text : List UInt8} :
    (codePoint? text).isSome ↔ SpellsCodePoint text := by
  have hplus : ¬isDigitByte 16 (byte '+') := by decide
  rcases text with _ | ⟨b, ds⟩
  · simp [codePoint?, SpellsCodePoint]
  · by_cases hb : b = byte '+'
    · subst hb
      simp only [codePoint?, SpellsCodePoint, beq_self_eq_true, if_true]
      split_ifs <;> grind
    · simp only [codePoint?, SpellsCodePoint, beq_eq_false_iff_ne.2 hb]
      split_ifs <;> grind

theorem SpellsCodePoint.forall_ne {text : List UInt8} (h : SpellsCodePoint text) :
    ∀ b ∈ text, (b != byte '\x7d') = true := by
  obtain ⟨digits, htext, -, hdigits, -⟩ := h
  have hne : ∀ b ∈ digits, (b != byte '\x7d') = true := by
    intro b hb
    rw [bne_iff_ne]
    rintro rfl
    exact absurd (List.all_eq_true.1 hdigits _ hb) (by decide)
  rcases htext with rfl | rfl
  · exact hne
  · exact List.forall_mem_cons.2 ⟨by decide, hne⟩

/-- The braces end at the first closing one, and a code point holds none. -/
theorem bracedCodePoint?_isSome_iff {rest tail : List UInt8} :
    (∃ c, bracedCodePoint? rest = some (c, tail)) ↔
      ∃ text, SpellsCodePoint text ∧ rest = byte '\x7b' :: (text ++ byte '\x7d' :: tail) := by
  constructor
  · rintro ⟨c, hc⟩
    rcases rest with _ | ⟨b, rest⟩
    · cases hc
    rw [bracedCodePoint?] at hc
    split at hc
    · next hb =>
      split at hc
      · cases hc
      · next d ds hdrop =>
        obtain ⟨_, hchar, heq⟩ := Option.map_eq_some_iff.1 hc
        cases heq
        refine ⟨_, codePoint?_isSome_iff.1 (Option.isSome_of_eq_some hchar), ?_⟩
        obtain ⟨rfl⟩ : d = byte '\x7d' := by
          have := List.head?_dropWhile_not (· != byte '\x7d') rest
          simpa [hdrop] using this
        rw [eq_of_beq hb, ← hdrop, List.takeWhile_append_dropWhile]
    · cases hc
  · rintro ⟨text, htext, rfl⟩
    obtain ⟨c, hc⟩ := Option.isSome_iff_exists.1 (codePoint?_isSome_iff.2 htext)
    refine ⟨c, ?_⟩
    rw [bracedCodePoint?, if_pos (beq_self_eq_true _), List.dropWhile_append_of_pos htext.forall_ne,
      List.takeWhile_append_of_pos htext.forall_ne]
    simp [hc]

/-! ## The pieces of the decoder -/

theorem escape_octal {b : UInt8} (hb : isDigitByte 8 b) (rest : List UInt8) :
    (escape b rest).2 = rest.drop (digitsAhead 8 rest).length := by
  rw [escape, namedEscape?_eq_none_of_isDigitByte hb]
  simp only [hb, if_true]

theorem escape_hex {rest : List UInt8} (hrest : digitsAhead 16 rest ≠ []) :
    (escape (byte 'x') rest).2 = rest.drop (digitsAhead 16 rest).length := by
  have hnamed : namedEscape? (byte 'x') = none := rfl
  have hoctal : isDigitByte 8 (byte 'x') = false := rfl
  rw [escape, hnamed]
  simp [hoctal, hrest]

theorem escape_codePoint {rest tail : List UInt8} {c : Char}
    (h : bracedCodePoint? rest = some (c, tail)) : (escape (byte 'u') rest).2 = tail := by
  have hnamed : namedEscape? (byte 'u') = none := rfl
  have hoctal : isDigitByte 8 (byte 'u') = false := rfl
  have hhex : (byte 'u' == byte 'x') = false := rfl
  rw [escape, hnamed]
  simp [hoctal, hhex, h]

theorem isEscape_octal {b : UInt8} (hb : isDigitByte 8 b) (rest : List UInt8) :
    IsEscape (byte '\\' :: b :: digitsAhead 8 rest) := by
  refine .octal (by simp) ?_ ?_
  · exact Nat.succ_le_succ (length_digitsAhead_le 8 rest)
  · rw [List.all_cons, hb, all_digitsAhead]
    rfl

theorem isEscape_hex {rest : List UInt8} (hrest : digitsAhead 16 rest ≠ []) :
    IsEscape (byte '\\' :: byte 'x' :: digitsAhead 16 rest) :=
  .hex hrest (length_digitsAhead_le 16 rest) (all_digitsAhead 16 rest)

/-- What the decoder takes where an escape sequence begins is one, and none is longer. -/
theorem exists_escape {seq : List UInt8} (hseq : IsEscape seq) {b : UInt8} {rest : List UInt8}
    (h : seq <+: byte '\\' :: b :: rest) :
    ∃ taken, IsEscape (byte '\\' :: b :: taken) ∧ taken ++ (escape b rest).2 = rest ∧
      seq.length ≤ taken.length + 2 := by
  cases hseq with
  | named hb =>
    obtain ⟨tail, htail⟩ := h
    cases htail
    have hsome := mt namedEscape?_eq_none_iff.1 (not_not.2 hb)
    obtain ⟨out, hout⟩ := Option.ne_none_iff_exists'.1 hsome
    refine ⟨[], .named hb, ?_, Nat.le_refl _⟩
    rw [escape, hout]
    rfl
  | @octal digits hne hlen hall =>
    obtain ⟨d, ds, rfl⟩ := List.exists_cons_of_ne_nil hne
    simp only [List.cons_prefix_cons, true_and, List.all_cons, Bool.and_eq_true,
      List.length_cons] at h hall hlen
    obtain ⟨rfl, hds⟩ := h
    refine ⟨_, isEscape_octal hall.1 rest, ?_, ?_⟩
    · rw [escape_octal hall.1, digitsAhead_append_drop]
    · have := length_le_digitsAhead hds (by omega) hall.2
      simp only [List.length_cons]
      omega
  | @hex digits hne hlen hall =>
    simp only [List.cons_prefix_cons, true_and] at h
    obtain ⟨rfl, hds⟩ := h
    have hle := length_le_digitsAhead hds hlen hall
    have hahead : digitsAhead 16 rest ≠ [] := by
      rw [← List.length_pos_iff] at hne ⊢
      omega
    refine ⟨_, isEscape_hex hahead, ?_, ?_⟩
    · rw [escape_hex hahead, digitsAhead_append_drop]
    · simp only [List.length_cons]
      omega
  | @codePoint text htext =>
    simp only [List.cons_prefix_cons, true_and] at h
    obtain ⟨rfl, tail, rfl⟩ := h
    obtain ⟨c, hc⟩ := bracedCodePoint?_isSome_iff.2 ⟨text, htext, rfl⟩
    refine ⟨_, .codePoint htext, ?_, Nat.le_refl _⟩
    rw [escape_codePoint (by simpa using hc)]

/-- A backslash that begins no escape sequence stands for itself, with the byte after it. -/
theorem escape_kept {b : UInt8} {rest : List UInt8}
    (h : ∀ seq, IsEscape seq → ¬seq <+: byte '\\' :: b :: rest) : (escape b rest).2 = rest := by
  have hnone {taken : List UInt8} (htaken : IsEscape (byte '\\' :: b :: taken)) :
      ¬taken <+: rest := by
    intro hp
    exact h _ htaken (by simpa only [List.cons_prefix_cons, true_and] using hp)
  have hnamed : namedEscape? b = none := by
    rw [namedEscape?_eq_none_iff]
    exact fun hb => hnone (.named hb) List.nil_prefix
  have hoctal : isDigitByte 8 b = false := by
    rw [Bool.eq_false_iff]
    exact fun hb => hnone (isEscape_octal hb rest) ⟨_, digitsAhead_append_drop 8 rest⟩
  have hhex : (b == byte 'x' && !(digitsAhead 16 rest).isEmpty) = false := by
    rw [Bool.eq_false_iff, ne_eq, Bool.and_eq_true, beq_iff_eq]
    rintro ⟨rfl, hahead⟩
    exact hnone (isEscape_hex (by simpa using hahead)) ⟨_, digitsAhead_append_drop 16 rest⟩
  rw [escape, hnamed]
  simp only [hoctal, hhex, Bool.false_eq_true, if_false]
  split
  · next hb =>
    obtain rfl := eq_of_beq hb
    cases hbraced : bracedCodePoint? rest with
    | none => rfl
    | some found =>
      obtain ⟨text, htext, hrest⟩ := bracedCodePoint?_isSome_iff.1 ⟨_, hbraced⟩
      exact (hnone (.codePoint htext) ⟨found.2, by simp [hrest]⟩).elim
  · rfl

/-- Where an escape sequence begins, the decoder takes the longest. -/
theorem exists_isLongestEscape {seq : List UInt8} (hseq : IsEscape seq) {b : UInt8}
    {rest : List UInt8} (h : seq <+: byte '\\' :: b :: rest) :
    ∃ taken, IsLongestEscape (byte '\\' :: b :: taken) (escape b rest).2 ∧
      taken ++ (escape b rest).2 = rest := by
  obtain ⟨taken, htaken, hrest, -⟩ := exists_escape hseq h
  refine ⟨taken, ⟨htaken, fun other hother hp => ?_⟩, hrest⟩
  rw [List.cons_append, List.cons_append, hrest] at hp
  obtain ⟨taken', -, hrest', hlen⟩ := exists_escape hother hp
  obtain rfl := List.append_cancel_right (hrest'.trans hrest.symm)
  exact hlen

theorem IsLongestEscape.unique {seq seq' rest rest' : List UInt8} (h : IsLongestEscape seq rest)
    (h' : IsLongestEscape seq' rest') (heq : seq ++ rest = seq' ++ rest') : rest = rest' := by
  have hle := h.longest _ h'.isEscape ⟨rest', heq.symm⟩
  have hge := h'.longest _ h.isEscape ⟨rest, heq⟩
  exact (List.append_inj heq (Nat.le_antisymm hge hle)).2

theorem IsEscape.exists_cons {seq : List UInt8} (h : IsEscape seq) :
    ∃ b bs, seq = byte '\\' :: b :: bs := by
  cases h with
  | named hb => exact ⟨_, _, rfl⟩
  | octal hne hlen hall =>
    obtain ⟨d, ds, rfl⟩ := List.exists_cons_of_ne_nil hne
    exact ⟨_, _, rfl⟩
  | hex hne hlen hall => exact ⟨_, _, rfl⟩
  | codePoint htext => exact ⟨_, _, rfl⟩

theorem escape_of_isLongestEscape {b : UInt8} {taken rest : List UInt8}
    (h : IsLongestEscape (byte '\\' :: b :: taken) rest) : (escape b (taken ++ rest)).2 = rest := by
  have hbegins : byte '\\' :: b :: taken <+: byte '\\' :: b :: (taken ++ rest) := ⟨rest, rfl⟩
  obtain ⟨taken', h', heq⟩ := exists_isLongestEscape h.isEscape hbegins
  refine h'.unique h ?_
  simp only [List.cons_append, heq]

/-- What is free after a backslash is what is free after what the decoder takes. -/
theorem isFree_backslash {b : UInt8} {bs rest : List UInt8} (h : IsFree (escape b bs).2 rest) :
    IsFree (byte '\\' :: b :: bs) rest := by
  by_cases hseq : ∃ seq, IsEscape seq ∧ seq <+: byte '\\' :: b :: bs
  · obtain ⟨seq, hseq, hp⟩ := hseq
    obtain ⟨taken, htaken, hbs⟩ := exists_isLongestEscape hseq hp
    have hfree := IsFree.escape htaken h
    rwa [List.cons_append, List.cons_append, hbs] at hfree
  · have hkept : ∀ seq, IsEscape seq → ¬seq <+: byte '\\' :: b :: bs :=
      fun seq hs hp => hseq ⟨seq, hs, hp⟩
    rw [escape_kept hkept] at h
    exact .kept hkept h

/-! ## Openers -/

/-- What opens a variable. -/
inductive Opener
  /-- A dollar before a name. -/
  | name
  /-- A brace before a dollar. -/
  | brace
  /-- A dollar before a brace. -/
  | dollarBrace
deriving DecidableEq, Repr

namespace Opener

/-- The opener stands at the beginning of a text. -/
def Begins : Opener → List UInt8 → Prop
  | name, bs => ∃ n rest, bs = byte '$' :: n :: rest ∧
      ((asciiChar n).isAlpha ∨ n = byte '_' ∨ 0x80 ≤ n)
  | brace, bs => [byte '\x7b', byte '$'] <+: bs
  | dollarBrace, bs => [byte '$', byte '\x7b'] <+: bs

/-- The opener stands at a position that no escape sequence takes. -/
def Occurs (o : Opener) (bs : List UInt8) : Prop := ∃ rest, IsFree bs rest ∧ o.Begins rest

theorem Begins.ne_nil {o : Opener} {bs : List UInt8} (h : o.Begins bs) : bs ≠ [] := by
  rintro rfl
  rcases o with _ | _ | _ <;> simp [Begins] at h

end Opener

theorem opensInterpolation_iff {b : UInt8} {rest : List UInt8} :
    opensInterpolation b rest ↔ ∃ o, o ≠ .dollarBrace ∧ Opener.Begins o (b :: rest) := by
  have hopeners : (∃ o, o ≠ .dollarBrace ∧ Opener.Begins o (b :: rest)) ↔
      Opener.Begins .name (b :: rest) ∨ Opener.Begins .brace (b :: rest) := by
    constructor
    · rintro ⟨_ | _ | _, hne, ho⟩
      · exact .inl ho
      · exact .inr ho
      · exact absurd rfl hne
    · rintro (ho | ho)
      · exact ⟨.name, by decide, ho⟩
      · exact ⟨.brace, by decide, ho⟩
  rw [hopeners]
  rcases rest with _ | ⟨n, rest⟩
  · simp [opensInterpolation, Opener.Begins]
  · have hname : Opener.Begins .name (b :: n :: rest) ↔
        b = byte '$' ∧ ((asciiChar n).isAlpha ∨ n = byte '_' ∨ 0x80 ≤ n) := by
      constructor
      · rintro ⟨_, _, ⟨⟩, hn⟩
        exact ⟨rfl, hn⟩
      · rintro ⟨rfl, hn⟩
        exact ⟨n, rest, rfl, hn⟩
    have hbrace : Opener.Begins .brace (b :: n :: rest) ↔ b = byte '\x7b' ∧ n = byte '$' := by
      simp [Opener.Begins, eq_comm]
    rw [hname, hbrace, opensInterpolation]
    simp only [Bool.or_eq_true, Bool.and_eq_true, beq_iff_eq, decide_eq_true_eq]
    rw [or_comm (a := n = byte '_'), or_assoc]

/-- Decoding fails if an opener begins at a free position, and only then. -/
theorem unescapeDouble?_eq_none_iff {bs : List UInt8} :
    unescapeDouble? bs = none ↔ ∃ o, o ≠ .dollarBrace ∧ Opener.Occurs o bs := by
  constructor
  · intro h
    fun_induction unescapeDouble? bs with
    | case1 => cases h
    | case2 b rest hopens =>
      obtain ⟨o, ho, hbegins⟩ := opensInterpolation_iff.1 hopens
      exact ⟨o, ho, _, .here, hbegins⟩
    | case3 b => cases h
    | case4 b hb e tail hopens next ih =>
      obtain ⟨o, ho, rest, hfree, hbegins⟩ := ih (Option.map_eq_none_iff.1 h)
      exact ⟨o, ho, rest, eq_of_beq hb ▸ isFree_backslash hfree, hbegins⟩
    | case5 b rest hopens hb ih =>
      obtain ⟨o, ho, left, hfree, hbegins⟩ := ih (Option.map_eq_none_iff.1 h)
      exact ⟨o, ho, left, .plain (by simpa using hb) hfree, hbegins⟩
  · rintro ⟨o, ho, rest, hfree, hbegins⟩
    induction hfree with
    | @here bs =>
      obtain ⟨b, bs, rfl⟩ := List.exists_cons_of_ne_nil hbegins.ne_nil
      exact unescapeDouble?_of_opens (opensInterpolation_iff.2 ⟨o, ho, hbegins⟩)
    | @plain b bs rest hb hfree ih =>
      by_cases hopens : opensInterpolation b bs
      · exact unescapeDouble?_of_opens hopens
      · rw [unescapeDouble?_plain (by simpa using hopens) hb, ih hbegins]
        rfl
    | @escape seq bs rest hseq hfree ih =>
      obtain ⟨b, taken, rfl⟩ := hseq.isEscape.exists_cons
      rw [List.cons_append, List.cons_append, unescapeDouble?_backslash,
        escape_of_isLongestEscape hseq, ih hbegins]
      rfl
    | @kept b bs rest hkept hfree ih =>
      rw [unescapeDouble?_backslash, escape_kept hkept, ih hbegins]
      rfl

/-- A literal in double quotes has no plain value if and only if a dollar before a name or a brace
    before a dollar occurs in it at a position that no escape sequence takes. -/
theorem doubleQuoted?_eq_none_iff (cs : List Char) :
    doubleQuoted? (String.ofList ('"' :: cs ++ ['"'])) = none ↔
      ∃ o, o ≠ .dollarBrace ∧ Opener.Occurs o (Utf8.encode cs) := by
  rw [doubleQuoted?, body_quoted rfl, String.toList_ofList, Option.map_eq_none_iff,
    unescapeDouble?_eq_none_iff]

/-- A dollar before a brace opens a variable too, but it is taken as text. -/
theorem dollarBrace_decoded :
    ¬∀ cs, doubleQuoted? (String.ofList ('"' :: cs ++ ['"'])) = none ↔
      ∃ o, Opener.Occurs o (Utf8.encode cs) := by
  intro h
  have hvalue : doubleQuoted? (String.ofList ('"' :: ['$', '\x7b', 'x', '\x7d'] ++ ['"'])) =
      some "$\x7bx\x7d" := by decide +kernel
  have hoccurs : Opener.dollarBrace.Occurs (Utf8.encode ['$', '\x7b', 'x', '\x7d']) :=
    ⟨_, .here, [byte 'x', byte '\x7d'], rfl⟩
  cases hvalue.symm.trans ((h _).2 ⟨_, hoccurs⟩)

end PhpScript.Literal
