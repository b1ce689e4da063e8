import Mathlib.Data.List.Chain
import PhpScript.Proofs.Literal.Decoding
import PhpScript.Proofs.Token.Words

/-!
# Scanning a written text

What `Token.scanWide` makes of a text that is written piece by piece: `Sign` is a
token before it is written, `Piece` a sign or a blank.

* `Rule.longest?_eq_filter`: only the rules that can begin with the first
  character compete for the longest match;
* `Sign.ofCode_text`: a sign is scanned as the token it is meant to be, if what
  follows does not prolong it;
* `Token.scanWide_code`: a text after an opening tag is scanned as its signs, if
  every piece is followed by one that does not prolong it.
-/

namespace PhpScript

namespace Rule

/-! ## The longest match -/

/-- Whether a text of the rule's class can begin with a character. -/
def opens : Rule → Char → Bool
  | keyword k, c => k.text.toList.head? == some c.toLower
  | symbol s, c => s.text.toList.head? == some c
  | varName, c => c == '$'
  | identifier, c => isNameStart c
  | decimalInteger, c | pointFloat, c | exponentFloat, c => isDecimal c
  | hexInteger, c | octalInteger, c | binaryInteger, c => c == '0'
  | leadingPointFloat, c => c == '.'
  | singleQuoted, c => c == '\''
  | doubleQuoted, c => c == '"'
  | blank, c => isCodeBlank c
  | slashComment, c | blockComment, c => c == '/'
  | hashComment, c => c == '#'

theorem exactly?_eq_none {d c : Char} (ds cs : List Char) (h : d ≠ c) :
    exactly? (d :: ds) (c :: cs) = none := by
  simp [exactly?, h]

/-- A rule does not match where it cannot begin. -/
theorem reach?_eq_none {r : Rule} {c : Char} (cs : List Char) (h : r.opens c = false) :
    r.reach? (c :: cs) = none := by
  cases r with
  | keyword k =>
    cases hk : k.text.toList with
    | nil => cases k <;> cases hk
    | cons d ds =>
      have hlen : k.text.length = ds.length + 1 := by simp [← String.length_toList, hk]
      simp only [opens, hk, List.head?_cons, beq_eq_false_iff_ne, ne_eq, Option.some.injEq] at h
      rw [reach?, hk, hlen, List.take_succ_cons, List.map_cons, exactly?_eq_none _ _ h]
  | symbol s =>
    cases hs : s.text.toList with
    | nil => cases s <;> cases hs
    | cons d ds =>
      simp only [opens, hs, List.head?_cons, beq_eq_false_iff_ne, ne_eq, Option.some.injEq] at h
      rw [reach?, hs, exactly?_eq_none _ _ h]
  | slashComment | hashComment | blockComment =>
    simp only [opens, beq_eq_false_iff_ne, ne_eq] at h
    simp [reach?, exactly?_eq_none _ _ (Ne.symm h)]
  | hexInteger | octalInteger | binaryInteger => cases cs <;> simp_all [opens, reach?, prefixed?]
  | _ => simp_all [opens, reach?, startThenRun?, digits?, quoted?]

/-- The rule that reaches furthest among some. -/
def furthest (cs : List Char) (rules : List Rule) : Option (Rule × Nat) :=
  rules.foldl (fun best r => better best ((r.reach? cs).map (r, ·))) none

theorem longest?_eq_filter (c : Char) (cs : List Char) :
    longest? (c :: cs) = furthest (c :: cs) (all.filter (·.opens c)) := by
  unfold longest? furthest
  generalize (none : Option (Rule × Nat)) = best
  induction all generalizing best with
  | nil => rfl
  | cons r rules ih =>
    cases ho : r.opens c with
    | true => simpa [List.filter_cons, ho] using ih _
    | false =>
      have hbest : better best none = best := by cases best <;> rfl
      simpa [List.filter_cons, ho, reach?_eq_none cs ho, hbest] using ih best

theorem longest?_of_filter (rules : List Rule) {c : Char} {cs : List Char}
    {best : Option (Rule × Nat)} (hrules : all.filter (·.opens c) = rules)
    (hbest : furthest (c :: cs) rules = best) : longest? (c :: cs) = best := by
  rw [longest?_eq_filter, hrules, hbest]

/-- A match wins if no other rule can begin with the first character. -/
theorem longest?_of_sole {r : Rule} {c : Char} {cs : List Char} {n : Nat}
    (hsole : all.filter (·.opens c) = [r]) (hr : r.reach? (c :: cs) = some n) :
    longest? (c :: cs) = some (r, n) :=
  longest?_of_filter _ hsole (by simp [furthest, better, hr])

/-- A match wins if all before it are shorter and none after it is longer. -/
theorem furthest_eq {cs : List Char} {before after : List Rule} {r : Rule} {n : Nat}
    (hr : r.reach? cs = some n) (hb : ∀ s ∈ before, ∀ m, s.reach? cs = some m → m < n)
    (ha : ∀ s ∈ after, ∀ m, s.reach? cs = some m → m ≤ n) :
    furthest cs (before ++ r :: after) = some (r, n) := by
  -- Every best match before this one is shorter, so this one replaces it.
  have hbefore (best : Option (Rule × Nat)) (hbest : ∀ s m, best = some (s, m) → m < n) :
      better (before.foldl (fun best r => better best ((r.reach? cs).map (r, ·))) best)
        (some (r, n)) = some (r, n) := by
    induction before generalizing best with
    | nil =>
      cases best with
      | none => rfl
      | some b => simp [better, hbest b.1 b.2 rfl]
    | cons s rules ih =>
      refine ih (fun t ht => hb t (List.mem_cons_of_mem _ ht)) _ fun t m htm => ?_
      rcases better_eq best ((s.reach? cs).map (s, ·)) with he | he
      · exact hbest t m (he ▸ htm)
      · replace htm : (s.reach? cs).map (s, ·) = some (t, m) := he ▸ htm
        obtain ⟨k, hk, hkm⟩ := Option.map_eq_some_iff.1 htm
        cases hkm
        exact hb s List.mem_cons_self _ hk
  -- The rules after it match no more, and the earlier of two equal matches stays.
  have hafter : after.foldl (fun best r => better best ((r.reach? cs).map (r, ·))) (some (r, n))
      = some (r, n) := by
    induction after with
    | nil => rfl
    | cons s rules ih =>
      have hstep : better (some (r, n)) ((s.reach? cs).map (s, ·)) = some (r, n) := by
        cases hs : s.reach? cs with
        | none => rfl
        | some m =>
          have hle := ha s List.mem_cons_self m hs
          simp [better, Nat.not_lt_of_le hle]
      simpa [hstep] using ih fun t ht => ha t (List.mem_cons_of_mem _ ht)
  rw [furthest, List.foldl_append, List.foldl_cons, hr, Option.map_some,
    hbefore none (by simp), hafter]

end Rule

/-! ## Signs -/

/-- A name that the name rule takes as a whole. -/
structure Word where
  text : String
  isWord : isWord text.toList

/-- What a word is scanned as: a keyword in any letter case is one. -/
def Word.kind (w : Word) : TokenKind :=
  match Keyword.all.find? (fun k => k.text.toList == w.text.toList.map Char.toLower) with
  | some k => .keyword k
  | none => .identifier

theorem Word.isIdentifierLike_kind (w : Word) : w.kind.isIdentifierLike := by
  unfold Word.kind
  split <;> rfl

/-- Whether a symbol is one of those that signs are made of. -/
def Symbol.isPlain : Symbol → Bool
  | openParen | closeParen | openBracket | closeBracket | openBrace | closeBrace | comma
  | semicolon | arrow | doubleArrow | equals | plusEquals | dot => true
  | _ => false

/-- A token that is still to be written. -/
inductive Sign
  | symbol (mark : Symbol) (isPlain : mark.isPlain)
  | keyword (word : Keyword)
  | word (w : Word)
  | var (w : Word)
  | integer (value : Nat)
  | string (value : String)

/-- A character that prolongs no sign. -/
def isGap (c : Char) : Bool := [' ', '(', ')', ']', ',', ';'].contains c

/-- The text is at its end, or goes on with a gap. -/
def BeginsWithGap (cs : List Char) : Prop := ∀ c ∈ cs.head?, isGap c

namespace Sign

/-- What a sign is scanned as. -/
def kind : Sign → TokenKind
  | symbol mark _ => .symbol mark
  | keyword k => .keyword k
  | word w => w.kind
  | var _ => .varName
  | integer _ => .integer
  | string _ => .singleQuoted

/-- How a sign is written. -/
def text : Sign → List Char
  | symbol mark _ => mark.text.toList
  | keyword k => k.text.toList
  | word w => w.text.toList
  | var w => '$' :: w.text.toList
  | integer value => Nat.toDigits 10 value
  | string value => '\'' :: quotedChars value.toList ++ ['\'']

/-- Whether the next characters could prolong a sign. -/
def needsGap : Sign → Bool
  | symbol .equals _ | symbol .dot _ | keyword _ | word _ | var _ | integer _ => true
  | _ => false

/-- The token of a sign, without its place. -/
def sig (s : Sign) : TokenKind × String := (s.kind, String.ofList s.text)

/-- A sign is none of the symbols that signs are not made of. -/
theorem kind_ne_symbol (s : Sign) {m : Symbol} (hm : m.isPlain = false) : s.kind ≠ .symbol m := by
  cases s with
  | symbol mark hmark =>
    rintro ⟨⟩
    cases hmark.symm.trans hm
  | word w =>
    change w.kind ≠ _
    unfold Word.kind
    split <;> simp
  | _ => simp [kind]

theorem text_ne_nil (s : Sign) : s.text ≠ [] := by
  cases s with
  | symbol mark =>
    change mark.text.toList ≠ []
    cases mark <;> decide
  | keyword k => cases k <;> decide
  | word w =>
    intro h
    have hw := w.isWord
    rw [show w.text.toList = [] from h] at hw
    cases hw
  | integer n => exact Nat.toDigits_ne_nil
  | _ => simp [text]

end Sign

namespace Rule

theorem isNamePart_of_isGap {c : Char} (h : isGap c) : isNamePart c = false := by
  simp only [isGap, List.contains_iff_mem, List.mem_cons, List.not_mem_nil, or_false] at h
  rcases h with rfl | rfl | rfl | rfl | rfl | rfl <;> rfl

theorem run_append {p : Char → Bool} {w rest : List Char} (hw : w.all p)
    (hrest : ∀ c ∈ rest.head?, p c = false) : run p (w ++ rest) = w.length := by
  rw [run, List.takeWhile_append_of_pos (by simpa using hw)]
  cases rest with
  | nil => simp
  | cons c rest => simp [hrest c rfl]

/-! ## Names -/

theorem reach?_identifier {w rest : List Char} (hw : isWord w) (hrest : BeginsWithGap rest) :
    startThenRun? isNameStart isNamePart (w ++ rest) = some w.length := by
  cases w with
  | nil => cases hw
  | cons c w =>
    simp only [isWord, Bool.and_eq_true] at hw
    have hrun := run_append hw.2 fun c hc => isNamePart_of_isGap (hrest c hc)
    simp [startThenRun?, hw.1, hrun, Nat.add_comm]

/-- A keyword matches no more than a word, and all of it only if it is the word. -/
theorem reach?_keyword {k : Keyword} {w rest : List Char} {n : Nat} (hrest : BeginsWithGap rest)
    (h : (keyword k).reach? (w ++ rest) = some n) :
    n ≤ w.length ∧ (n = w.length → k.text.toList = w.map Char.toLower) := by
  obtain ⟨hn, hlow⟩ := take_of_keyword h
  have hle : n ≤ w.length := by
    -- A longer match would take the gap along, which is part of no name.
    refine Nat.le_of_not_lt fun hlt => ?_
    have hall := all_isNamePart_of_isWord (isWord_take_of_keyword h)
    have hlen := congrArg List.length hlow
    cases rest with
    | nil =>
      simp only [List.append_nil, List.length_map, List.length_take, String.length_toList] at hlen
      omega
    | cons c rest =>
      have hc : c ∈ (w ++ c :: rest).take n := by
        rw [List.take_append, List.mem_append]
        exact .inr (by rw [show n - w.length = (n - w.length - 1) + 1 by omega]; simp)
      have hpart := List.all_eq_true.1 hall c hc
      rw [isNamePart_of_isGap (hrest c rfl)] at hpart
      cases hpart
  refine ⟨hle, fun hn => ?_⟩
  subst hn
  rw [← hlow, List.take_left']
  rfl

theorem isNameStart_of_isDecimal {c : Char} (h : isDecimal c) : isNameStart c = false := by
  simp only [isDecimal, Bool.and_eq_true, decide_eq_true_eq, Char.le_def,
    UInt32.le_iff_toNat_le] at h
  simp only [isNameStart, Bool.or_eq_false_iff, Bool.and_eq_false_iff, decide_eq_false_iff_not,
    Char.le_def, UInt32.le_iff_toNat_le, beq_eq_false_iff_ne, Char.toNat]
  refine ⟨⟨⟨.inl ?_, .inl ?_⟩, ?_⟩, ?_⟩
  · simp at *
    omega
  · simp at *
    omega
  · rintro rfl
    simp at h
  · simp at *
    omega

theorem isNameStart_of_isCodeBlank {c : Char} (h : isCodeBlank c) : isNameStart c = false := by
  simp only [isCodeBlank, Bool.or_eq_true, beq_iff_eq] at h
  rcases h with (((rfl | rfl) | rfl) | rfl) | rfl <;> rfl

/-- No symbol begins like a name or a number. -/
theorem not_opens_symbol {s : Symbol} {c : Char} (hc : isNamePart c) :
    (symbol s).opens c = false := by
  refine Bool.eq_false_iff.2 fun ho => ?_
  have hmark : s.text.toList.head?.all (fun d => !isNamePart d) := by cases s <;> rfl
  rw [Option.all_eq_true] at hmark
  simpa [hc] using hmark c (eq_of_beq ho)

/-- Only names and keywords begin like a name. -/
theorem eq_of_opens_of_isNameStart {r : Rule} {c : Char} (hc : isNameStart c) (ho : r.opens c) :
    r = identifier ∨ ∃ k, r = keyword k := by
  cases r with
  | keyword k => exact .inr ⟨k, rfl⟩
  | identifier => exact .inl rfl
  | symbol s =>
    rw [not_opens_symbol (isNamePart_of_isNameStart hc)] at ho
    cases ho
  | decimalInteger | pointFloat | exponentFloat => simp [isNameStart_of_isDecimal ho] at hc
  | blank => simp [isNameStart_of_isCodeBlank ho] at hc
  | _ =>
    cases eq_of_beq ho
    cases hc

/-- What a rule takes of a word before a gap: at most the word. -/
theorem reach?_le_of_isWord {r : Rule} {w rest : List Char} {n : Nat} (hw : isWord w)
    (hrest : BeginsWithGap rest) (h : r.reach? (w ++ rest) = some n) :
    n ≤ w.length ∧ (n = w.length → r = identifier ∨
      ∃ k, r = keyword k ∧ k.text.toList = w.map Char.toLower) := by
  cases w with
  | nil => cases hw
  | cons c w =>
    have hc : isNameStart c := (Bool.and_eq_true_iff.1 hw).1
    cases ho : r.opens c with
    | false =>
      rw [List.cons_append, reach?_eq_none _ ho] at h
      cases h
    | true =>
      rcases eq_of_opens_of_isNameStart hc ho with rfl | ⟨k, rfl⟩
      · rw [reach?, reach?_identifier hw hrest] at h
        cases h
        exact ⟨Nat.le_refl _, fun _ => .inl rfl⟩
      · obtain ⟨hle, heq⟩ := reach?_keyword hrest h
        exact ⟨hle, fun hn => .inr ⟨k, rfl, heq hn⟩⟩

/-- The rule that takes a word before a gap. -/
theorem longest?_word (w : Word) {rest : List Char} (hrest : BeginsWithGap rest) :
    longest? (w.text.toList ++ rest) = some (match w.kind with
      | .keyword k => keyword k
      | _ => identifier, w.text.length) := by
  have hreach {r : Rule} {n : Nat} (h : r.reach? (w.text.toList ++ rest) = some n) :=
    reach?_le_of_isWord w.isWord hrest h
  rw [← String.length_toList]
  unfold Word.kind
  cases hf : Keyword.all.find? (fun k => k.text.toList == w.text.toList.map Char.toLower) with
  | some k =>
    obtain ⟨hk, before, after, hall, hbefore⟩ := List.find?_eq_some_iff_append.1 hf
    have hk : k.text.toList = w.text.toList.map Char.toLower := eq_of_beq hk
    have hlen : k.text.length = w.text.toList.length := by simp [← String.length_toList, hk]
    have hr : (keyword k).reach? (w.text.toList ++ rest) = some w.text.toList.length := by
      simp [reach?, exactly?, hlen, hk]
    -- The keywords before this one are not the word, so they match less of it.
    have hb : ∀ s ∈ before.map keyword, ∀ m, s.reach? (w.text.toList ++ rest) = some m →
        m < w.text.toList.length := by
      intro s hs m hm
      obtain ⟨k', hk', rfl⟩ := List.mem_map.1 hs
      refine Nat.lt_of_le_of_ne (hreach hm).1 fun hn => ?_
      obtain h | ⟨k'', h, htext⟩ := (hreach hm).2 hn
      · cases h
      · cases h
        exact absurd (beq_iff_eq.2 htext) (by simpa using hbefore k' hk')
    rw [longest?, all, hall]
    simp only [List.map_append, List.map_cons, List.append_assoc, List.cons_append]
    exact furthest_eq hr hb fun s _ m hm => (hreach hm).1
  | none =>
    -- No keyword is the word, so the name rule is the first to take all of it.
    have hb : ∀ s ∈ Keyword.all.map keyword ++ Symbol.all.map symbol ++ [varName], ∀ m,
        s.reach? (w.text.toList ++ rest) = some m → m < w.text.toList.length := by
      intro s hs m hm
      refine Nat.lt_of_le_of_ne (hreach hm).1 fun hn => ?_
      obtain rfl | ⟨k, rfl, htext⟩ := (hreach hm).2 hn
      · simp at hs
      · exact absurd (beq_iff_eq.2 htext) (List.find?_eq_none.1 hf k (Keyword.mem_all k))
    have hsplit : all = Keyword.all.map keyword ++ Symbol.all.map symbol ++ [varName] ++
        identifier :: all.drop (Keyword.all.length + Symbol.all.length + 2) := by decide
    rw [longest?, hsplit]
    exact furthest_eq (reach?_identifier w.isWord hrest) hb fun s _ m hm => (hreach hm).1

/-! ## Numbers -/

theorem isDecimal_of_isDigit {c : Char} (h : c.isDigit) : isDecimal c := by
  simpa [Char.isDigit, isDecimal, Char.le_def] using h

theorem isDecimal_toDigits (n : Nat) : (Nat.toDigits 10 n).all isDecimal :=
  List.all_eq_true.2 fun _ hc =>
    isDecimal_of_isDigit (Nat.isDigit_of_mem_toDigits (by decide) (by decide) hc)

theorem eq_of_isGap {c : Char} (h : isGap c) :
    c = ' ' ∨ c = '(' ∨ c = ')' ∨ c = ']' ∨ c = ',' ∨ c = ';' := by
  simpa [isGap] using h

theorem digits?_append {ds rest : List Char} (hne : ds ≠ []) (hds : ds.all isDecimal)
    (hrest : BeginsWithGap rest) : digits? (ds ++ rest) = some ds.length := by
  cases ds with
  | nil => exact absurd rfl hne
  | cons d ds =>
    simp only [List.all_cons, Bool.and_eq_true] at hds
    have hgap : ∀ c ∈ rest.head?, orUnderscore isDecimal c = false := by
      intro c hc
      rcases eq_of_isGap (hrest c hc) with rfl | rfl | rfl | rfl | rfl | rfl <;> rfl
    have hall : ds.all (orUnderscore isDecimal) := by
      simp only [List.all_eq_true] at hds ⊢
      exact fun c hc => by simp [orUnderscore, hds.2 c hc]
    simp [digits?, startThenRun?, hds.1, run_append hall hgap, Nat.add_comm]

/-- Digits before a gap announce no other radix. -/
theorem prefixed?_digits {lower upper : Char} {digit : Char → Bool} {d : Char}
    {ds rest : List Char} (hds : ds.all isDecimal) (hrest : BeginsWithGap rest)
    (hlower : isDecimal lower = false ∧ isGap lower = false)
    (hupper : isDecimal upper = false ∧ isGap upper = false) :
    prefixed? lower upper digit (d :: ds ++ rest) = none := by
  have hletter : ∀ c, isDecimal c ∨ isGap c → (c == lower || c == upper) = false := by
    intro c hc
    rw [Bool.or_eq_false_iff, beq_eq_false_iff_ne, beq_eq_false_iff_ne]
    constructor <;> rintro rfl <;> simp_all
  match ds, rest with
  | [], [] => rfl
  | [], c :: rest => simp [prefixed?, hletter c (.inr (hrest c rfl))]
  | e :: ds, rest =>
    simp only [List.all_cons, Bool.and_eq_true] at hds
    simp [prefixed?, hletter e (.inl hds.1)]

theorem exponent?_gap {rest : List Char} (hrest : BeginsWithGap rest) : exponent? rest = none := by
  cases rest with
  | nil => rfl
  | cons c rest => rcases eq_of_isGap (hrest c rfl) with rfl | rfl | rfl | rfl | rfl | rfl <;> rfl

/-- Only one rule takes digits before a gap. -/
theorem reach?_digits {r : Rule} {d : Char} {ds rest : List Char} (hr : r ≠ decimalInteger)
    (hds : (d :: ds).all isDecimal) (hrest : BeginsWithGap rest) :
    r.reach? (d :: ds ++ rest) = none := by
  have hnum := digits?_append (List.cons_ne_nil d ds) hds hrest
  simp only [List.all_cons, Bool.and_eq_true] at hds
  have hstart := isNameStart_of_isDecimal hds.1
  cases r with
  | decimalInteger => exact absurd rfl hr
  | hexInteger | octalInteger | binaryInteger =>
    exact prefixed?_digits hds.2 hrest (by decide) (by decide)
  | pointFloat =>
    simp only [reach?, hnum, Option.bind_eq_bind, Option.bind_some, List.drop_left']
    cases rest with
    | nil => rfl
    | cons c rest =>
      rcases eq_of_isGap (hrest c rfl) with rfl | rfl | rfl | rfl | rfl | rfl <;> rfl
  | exponentFloat =>
    simp only [reach?, hnum, Option.bind_eq_bind, Option.bind_some, List.drop_left',
      exponent?_gap hrest, Option.bind_none]
  | keyword k =>
    refine reach?_eq_none _ (Bool.eq_false_iff.2 fun ho => ?_)
    have hk := isNameStart_of_mem_keyword k _ (List.mem_of_mem_head? (eq_of_beq ho))
    rw [isNameStart_of_toLower hk] at hstart
    cases hstart
  | symbol s =>
    exact reach?_eq_none _ (not_opens_symbol (by rw [isNamePart, hstart]; exact hds.1))
  | identifier => exact reach?_eq_none _ hstart
  | blank =>
    refine reach?_eq_none _ (Bool.eq_false_iff.2 fun ho => ?_)
    simp only [opens, isCodeBlank, Bool.or_eq_true, beq_iff_eq] at ho
    rcases ho with (((rfl | rfl) | rfl) | rfl) | rfl <;> cases hds.1
  | _ =>
    refine reach?_eq_none _ (Bool.eq_false_iff.2 fun ho => ?_)
    cases eq_of_beq ho
    cases hds.1

theorem longest?_digits {ds rest : List Char} (hne : ds ≠ []) (hds : ds.all isDecimal)
    (hrest : BeginsWithGap rest) :
    longest? (ds ++ rest) = some (decimalInteger, ds.length) := by
  have hsplit : all = all.take (Keyword.all.length + Symbol.all.length + 2) ++
      decimalInteger :: all.drop (Keyword.all.length + Symbol.all.length + 3) := by decide
  have hother (s : Rule) (hs : s ≠ decimalInteger) : s.reach? (ds ++ rest) = none := by
    obtain ⟨d, ds, rfl⟩ := List.exists_cons_of_ne_nil hne
    exact reach?_digits hs hds hrest
  rw [longest?, hsplit]
  refine furthest_eq (digits?_append hne hds hrest) (fun s hs m hm => ?_) fun s hs m hm => ?_
  all_goals
    rw [hother s (by rintro rfl; exact absurd hs (by decide))] at hm
    cases hm

/-! ## Quoted texts -/

theorem quotedBody?_append (value rest : List Char) :
    quotedBody? '\'' (quotedChars value ++ '\'' :: rest) =
      some ((quotedChars value).length + 1) := by
  induction value with
  | nil =>
    unfold quotedBody?
    rfl
  | cons c value ih =>
    rw [quotedChars]
    split
    · unfold quotedBody?
      simp [ih]
      omega
    · next h =>
      simp only [Bool.or_eq_true, beq_iff_eq, not_or] at h
      unfold quotedBody?
      simp [h, ih]
      omega

theorem longest?_string (value rest : List Char) :
    longest? ('\'' :: quotedChars value ++ '\'' :: rest) =
      some (singleQuoted, (quotedChars value).length + 2) :=
  longest?_of_sole (by decide) (by simp [reach?, quoted?, quotedBody?_append]; omega)

theorem longest?_var {w rest : List Char} (hw : isWord w) (hrest : BeginsWithGap rest) :
    longest? ('$' :: w ++ rest) = some (varName, w.length + 1) :=
  longest?_of_sole (by decide) (by simp [reach?, reach?_identifier hw hrest, Nat.add_comm])

theorem longest?_blank {c : Char} (hc : isCodeBlank c) (cs : List Char) :
    longest? (c :: cs) = some (blank, 1 + run isCodeBlank cs) := by
  refine longest?_of_sole ?_ (by simp [reach?, startThenRun?, hc])
  simp only [isCodeBlank, Bool.or_eq_true, beq_iff_eq] at hc
  rcases hc with (((rfl | rfl) | rfl) | rfl) | rfl <;> decide

/-! ## Symbols -/

theorem reach?_symbol (s : Symbol) (rest : List Char) :
    (symbol s).reach? (s.text.toList ++ rest) = some s.text.length := by
  simp [reach?, exactly?, String.length_toList]

theorem longest?_symbol {s : Symbol} (hs : s.isPlain) {rest : List Char}
    (hrest : s = .equals ∨ s = .dot → BeginsWithGap rest) :
    longest? (s.text.toList ++ rest) = some (symbol s, s.text.length) := by
  have hgap {c : Char} {rest : List Char} (h : BeginsWithGap (c :: rest)) := eq_of_isGap (h c rfl)
  cases s with
  | openParen | closeParen | openBracket | closeBracket | openBrace | closeBrace | comma
  | semicolon => exact longest?_of_sole (by decide) (reach?_symbol _ rest)
  | arrow =>
    exact longest?_of_filter [symbol .arrow, symbol .minusEquals, symbol .minus]
      (by decide) rfl
  | doubleArrow =>
    exact longest?_of_filter [symbol .doubleArrow, symbol .equals, symbol .equalsEquals,
      symbol .equalsEqualsEquals] (by decide) rfl
  | plusEquals =>
    exact longest?_of_filter [symbol .plusEquals, symbol .plus] (by decide) rfl
  | equals =>
    refine longest?_of_filter [symbol .doubleArrow, symbol .equals,
      symbol .equalsEquals, symbol .equalsEqualsEquals] (by decide) ?_
    cases rest with
    | nil => rfl
    | cons c rest => rcases hgap (hrest (by simp)) with rfl | rfl | rfl | rfl | rfl | rfl <;> rfl
  | dot =>
    refine longest?_of_filter [symbol .ellipsis, symbol .dotEquals, symbol .dot,
      leadingPointFloat] (by decide) ?_
    cases rest with
    | nil => rfl
    | cons c rest => rcases hgap (hrest (by simp)) with rfl | rfl | rfl | rfl | rfl | rfl <;> rfl
  | _ => cases hs

end Rule

/-! ## Lexemes -/

/-- The kind of the token that a rule takes; none for what leaves no token. -/
def Rule.kind? : Rule → Option TokenKind
  | keyword k => some (.keyword k)
  | symbol s => some (.symbol s)
  | varName => some .varName
  | identifier => some .identifier
  | decimalInteger | hexInteger | octalInteger | binaryInteger => some .integer
  | pointFloat | leadingPointFloat | exponentFloat => some .float
  | singleQuoted => some .singleQuoted
  | doubleQuoted => some .doubleQuoted
  | blank | slashComment | hashComment | blockComment => none

theorem Lexeme.ofCode_of_longest? {cs : List Char} {r : Rule} {n : Nat} {kind : TokenKind}
    (h : Rule.longest? cs = some (r, n)) (hkind : r.kind? = some kind) :
    ofCode cs = .token kind n := by
  unfold ofCode
  simp only [h]
  cases r <;> cases hkind <;> rfl

theorem Lexeme.ofCode_blank {cs : List Char} {n : Nat}
    (h : Rule.longest? cs = some (.blank, n)) : ofCode cs = .trivia n := by
  unfold ofCode
  simp only [h]

/-- A keyword as a word. -/
def Keyword.word (k : Keyword) : Word := ⟨k.text, by cases k <;> decide⟩

theorem Keyword.kind_word (k : Keyword) : k.word.kind = .keyword k := by
  cases k <;> decide

theorem Word.ofCode_text (w : Word) {rest : List Char} (hrest : BeginsWithGap rest) :
    Lexeme.ofCode (w.text.toList ++ rest) = .token w.kind w.text.length := by
  refine Lexeme.ofCode_of_longest? (Rule.longest?_word w hrest) ?_
  unfold Word.kind
  cases Keyword.all.find? (fun k => k.text.toList == w.text.toList.map Char.toLower) <;> rfl

/-- A sign is scanned as the token it is meant to be. -/
theorem Sign.ofCode_text (s : Sign) {rest : List Char} (hrest : s.needsGap → BeginsWithGap rest) :
    Lexeme.ofCode (s.text ++ rest) = .token s.kind s.text.length := by
  cases s with
  | symbol mark hmark =>
    have hgap : mark = .equals ∨ mark = .dot → BeginsWithGap rest := by
      rintro (rfl | rfl) <;> exact hrest rfl
    rw [text, String.length_toList]
    exact Lexeme.ofCode_of_longest? (Rule.longest?_symbol hmark hgap) rfl
  | keyword k =>
    have h := k.word.ofCode_text (hrest rfl)
    rw [k.kind_word] at h
    rw [text, String.length_toList]
    exact h
  | word w =>
    rw [text, String.length_toList]
    exact w.ofCode_text (hrest rfl)
  | var w =>
    exact Lexeme.ofCode_of_longest? (Rule.longest?_var w.isWord (hrest rfl)) rfl
  | integer n =>
    exact Lexeme.ofCode_of_longest? (Rule.longest?_digits Nat.toDigits_ne_nil
      (Rule.isDecimal_toDigits n) (hrest rfl)) rfl
  | string value =>
    have h := Lexeme.ofCode_of_longest? (Rule.longest?_string value.toList rest) rfl
    simpa [text, Sign.kind] using h

/-! ## Pieces -/

/-- A sign, or a blank between signs. -/
inductive Piece
  | sign (s : Sign)
  | blank

namespace Piece

/-- How a piece is written. -/
def text : Piece → List Char
  | sign s => s.text
  | blank => [' ']

/-- The sign of a piece. -/
def sign? : Piece → Option Sign
  | sign s => some s
  | blank => none

/-- Whether a piece begins with a gap. -/
def isGap : Piece → Bool
  | blank => true
  | sign (.symbol mark _) =>
    match mark with
    | .openParen | .closeParen | .closeBracket | .comma | .semicolon => true
    | _ => false
  | sign _ => false

/-- Whether the second piece does not prolong the first. -/
def Fits : Piece → Piece → Prop
  | sign s, next => s.needsGap → next.isGap
  | blank, _ => True

theorem beginsWithGap {p : Piece} (h : p.isGap) (rest : List Char) :
    BeginsWithGap (p.text ++ rest) := by
  have hfirst : ∃ c cs, p.text = c :: cs ∧ PhpScript.isGap c := by
    unfold isGap at h
    split at h
    · exact ⟨' ', [], rfl, rfl⟩
    · split at h
      all_goals first | exact ⟨_, _, rfl, rfl⟩ | cases h
    · cases h
  obtain ⟨c, cs, hc, hgap⟩ := hfirst
  rintro d hd
  rw [hc] at hd
  cases hd
  exact hgap

end Piece

namespace Token

/-- A token without its place. -/
def sig (t : Token) : TokenKind × String := (t.kind, t.text)

/-- Blanks leave no token, however many there are. -/
theorem wideFrom_blank (offset : Nat) {c : Char} (hc : isCodeBlank c) (cs : List Char) :
    wideFrom .code offset (c :: cs) = wideFrom .code (offset + c.utf8Size) cs := by
  have hblank {c : Char} (hc : isCodeBlank c) (cs : List Char) :=
    Lexeme.ofCode_blank (Rule.longest?_blank hc cs)
  -- The rule takes all blanks of a run at once, and so it does with those after
  -- the first one.
  rw [wideFrom_trivia (hblank hc cs)]
  cases cs with
  | nil => simp [Rule.run]
  | cons d cs =>
    cases hd : isCodeBlank d with
    | true =>
      rw [wideFrom_trivia (hblank hd cs)]
      simp [Rule.run, hd, Nat.add_comm 1, Nat.add_assoc]
    | false => simp [Rule.run, hd]

/-- A sign before what does not prolong it leaves its token. -/
theorem wideFrom_sign (s : Sign) {offset : Nat} {rest : List Char}
    (hrest : s.needsGap → BeginsWithGap rest) :
    wideFrom .code offset (s.text ++ rest) =
      (wide s.kind offset s.text :: ·) <$>
        wideFrom .code (wide s.kind offset s.text).span.stop rest := by
  have hlex := s.ofCode_text hrest
  obtain ⟨c, cs, hc⟩ := List.exists_cons_of_ne_nil s.text_ne_nil
  rw [hc, List.cons_append] at hlex ⊢
  rw [wideFrom_token hlex (s.kind_ne_symbol rfl)]
  simp

theorem wideFrom_pieces {ps : List Piece} (hps : ps.IsChain Piece.Fits) (offset : Nat) :
    ∃ tokens, wideFrom .code offset (ps.flatMap Piece.text) = .ok tokens ∧
      tokens.map sig = (ps.filterMap Piece.sign?).map Sign.sig := by
  induction ps generalizing offset with
  | nil => exact ⟨[], wideFrom_nil _ _, rfl⟩
  | cons p ps ih =>
    cases p with
    | blank =>
      obtain ⟨tokens, hscan, hsig⟩ := ih (List.IsChain.tail hps) (offset + 1)
      exact ⟨tokens, (wideFrom_blank offset rfl _).trans hscan, hsig⟩
    | sign s =>
      have hgap : s.needsGap → BeginsWithGap (ps.flatMap Piece.text) := by
        intro hs
        cases ps with
        | nil => simp [BeginsWithGap]
        | cons q ps => exact Piece.beginsWithGap ((List.isChain_cons_cons.1 hps).1 hs) _
      obtain ⟨tokens, hscan, hsig⟩ := ih (List.IsChain.tail hps)
        (wide s.kind offset s.text).span.stop
      refine ⟨wide s.kind offset s.text :: tokens, ?_, congrArg (s.sig :: ·) hsig⟩
      rw [List.flatMap_cons, Piece.text, wideFrom_sign s hgap, hscan]
      rfl

theorem wideFrom_openTag (cs : List Char) :
    wideFrom .html 0 (openTag ++ cs) = wideFrom .code openTag.length cs := by
  have hbefore : beforeTag (openTag ++ cs) = [] := rfl
  change wideFrom .html 0 ('<' :: '?' :: 'p' :: 'h' :: 'p' :: cs) = _
  conv => lhs; unfold wideFrom
  simp only [show beforeTag ('<' :: '?' :: 'p' :: 'h' :: 'p' :: cs) = [] from hbefore,
    List.isEmpty_nil, if_true, bind_pure]
  rfl

/-- Pieces after an opening tag are scanned as their signs, for offsets of any size. -/
theorem scanWide_code {ps : List Piece} (hps : ps.IsChain Piece.Fits) :
    ∃ tokens span, scanWide (String.ofList (openTag ++ ps.flatMap Piece.text)) =
        .ok (tokens ++ [⟨.endOfFile, span, ""⟩]) ∧
      tokens.map sig = (ps.filterMap Piece.sign?).map Sign.sig := by
  obtain ⟨tokens, hscan, hsig⟩ := wideFrom_pieces hps openTag.length
  have hscan : wideFrom .html 0 (openTag ++ ps.flatMap Piece.text) = .ok tokens :=
    (wideFrom_openTag _).trans hscan
  exact ⟨tokens, ⟨_, _⟩, by rw [scanWide, String.toList_ofList, hscan]; rfl, hsig⟩

end Token

end PhpScript
