import PhpScript.Proofs.Token.Spacing

/-!
# Tokens are longest matches

The tokens of code are cut by the languages of the rules alone. `Lexeme.Matches` says
what makes a text the token at the start of the code: the text is of its kind, no rule
takes more of the code, and a keyword is that keyword in every letter case. White space
and comments never become a token.

* `Lexeme.matches_of_token`: every lexeme that is a token is so matched;
* `Token.scan_matches`: so is every token of a scanned text; and where scanning gives up,
  no rule matches.
-/

namespace PhpScript

/-- The texts that a token of the kind can have in code. -/
def TokenKind.pattern (kind : TokenKind) : Language Char :=
  {w | ∃ r : Rule, r.kind? = some kind ∧ w ∈ r.pattern}

/-- The text is the token of a kind at the start of the code. -/
structure Lexeme.Matches (kind : TokenKind) (text rest : List Char) : Prop where
  /-- The text is one of the texts of the kind. -/
  pattern : text ∈ kind.pattern
  /-- No rule takes more of the code. -/
  longest : ∀ r : Rule, ∀ w ∈ r.pattern, w <+: text ++ rest → w.length ≤ text.length
  /-- A keyword is never taken for a name, whatever the case of its letters. -/
  keyword : ∀ k : Keyword, text.map Char.toLower = k.text.toList → kind = .keyword k
  /-- The text is no white space, no comment and no opening of one. -/
  visible : ∀ r : Rule, r.kind? = none → text ∉ r.pattern

/-! ## Rules -/

theorem Keyword.text_injective {k k' : Keyword} (h : k.text = k'.text) : k = k' := by
  have hword : k.word = k'.word := Word.mk.injEq .. ▸ h
  have hkind := k.kind_word
  rw [hword, k'.kind_word] at hkind
  exact (TokenKind.keyword.inj hkind).symm

namespace Rule

/-- The name rule comes after the keywords, so a keyword wins over it. -/
theorem not_mem_after_identifier {before after : List Rule}
    (hall : all = before ++ identifier :: after) (k : Keyword) : keyword k ∉ after := by
  have hpairs : all.Pairwise fun r s =>
      r = identifier → (s.kind?.all fun kind => !kind.isKeyword) := by decide
  rw [hall, List.pairwise_append, List.pairwise_cons] at hpairs
  intro hmem
  cases hpairs.2.1.1 _ hmem rfl

/-- If the longest match is a keyword in any letter case, the rule of this keyword takes it. -/
theorem eq_keyword_of_longest? {r : Rule} {k : Keyword} {text rest : List Char}
    (h : longest? (text ++ rest) = some (r, text.length)) (htext : text ∈ (keyword k).pattern) :
    r = keyword k := by
  obtain ⟨before, after, hall, hr, hbefore, -⟩ := longest?_eq_some_iff.1 h
  obtain ⟨n, hn, hle⟩ := le_reach? htext rest
  have hmem := (keyword k).mem_all
  rw [hall, List.mem_append, List.mem_cons] at hmem
  rcases hmem with hmem | heq | hmem
  · exact absurd (hbefore _ hmem n hn) (Nat.not_lt_of_le hle)
  · exact heq.symm
  -- A rule before this keyword takes the whole keyword: it is the name rule, or a keyword.
  obtain ⟨c, text, rfl⟩ := List.exists_cons_of_ne_nil (ne_nil_of_mem_pattern htext)
  have hpattern := mem_pattern_of_reach? hr
  have hstart : isNameStart c := by
    refine isNameStart_of_toLower (isNameStart_of_mem_keyword k _ ?_)
    rw [← show (c :: text).map Char.toLower = k.text.toList from htext]
    exact List.mem_map_of_mem List.mem_cons_self
  obtain rfl | ⟨k', rfl⟩ := eq_of_opens_of_isNameStart hstart (opens_of_mem_pattern hpattern)
  · exact absurd hmem (not_mem_after_identifier hall k)
  · have htexts : k'.text.toList = k.text.toList := hpattern.symm.trans htext
    rw [Keyword.text_injective (String.toList_inj.1 htexts)]

/-- What a token takes is no white space, no comment and no opening of one. -/
theorem not_mem_pattern_of_kind? {r s : Rule} {kind : TokenKind} {text : List Char}
    (hr : r.kind? = some kind) (htext : text ∈ r.pattern) (hs : s.kind? = none) :
    text ∉ s.pattern := by
  intro hmem
  cases s with
  | blank =>
    obtain ⟨_, ⟨c, hc, rfl⟩, w, -, rfl⟩ := Language.mem_mul.1 hmem
    obtain rfl := eq_blank_of_opens hc (opens_of_mem_pattern htext)
    cases hr
  | slashComment =>
    obtain ⟨_, rfl, w, -, rfl⟩ := Language.mem_mul.1 hmem
    exact not_begins_slashes hr htext (List.prefix_append _ _)
  | hashComment =>
    obtain rfl : text = ['#'] := hmem
    have hopens : r ∈ [symbol .attributeStart, hashComment] :=
      mem_of_opens (by decide) (opens_of_mem_pattern htext)
    simp only [List.mem_cons, List.not_mem_nil, or_false] at hopens
    rcases hopens with rfl | rfl
    · cases htext
    · cases hr
  | blockComment =>
    obtain rfl : text = ['/', '*'] := hmem
    have hopens : r ∈ [symbol .slashEquals, symbol .slash, slashComment, blockComment] :=
      mem_of_opens (by decide) (opens_of_mem_pattern htext)
    simp only [List.mem_cons, List.not_mem_nil, or_false] at hopens
    rcases hopens with rfl | rfl | rfl | rfl
    · cases htext
    · cases htext
    · cases hr
    · cases hr
  | _ => cases hs

/-- Where no match is the longest, no text of a rule stands. -/
theorem not_begins_of_longest?_eq_none {cs : List Char} (h : longest? cs = none) (r : Rule)
    {w : List Char} (hw : w ∈ r.pattern) : ¬w <+: cs := by
  rintro ⟨rest, rfl⟩
  obtain ⟨n, hn, -⟩ := le_reach? hw rest
  cases (furthest_eq_none h r r.mem_all).symm.trans hn

end Rule

theorem Lexeme.matches_of_token {kind : TokenKind} {text rest : List Char}
    (h : ofCode (text ++ rest) = .token kind text.length) : Matches kind text rest := by
  obtain ⟨r, hl, hkind⟩ := ofCode_eq_token_iff.1 h
  have htext := Rule.mem_pattern_of_reach? (Rule.reach?_of_longest? hl)
  constructor
  case pattern => exact ⟨r, hkind, htext⟩
  case longest =>
    rintro s w hw ⟨tail, htail⟩
    obtain ⟨n, hn, hle⟩ := Rule.le_reach? hw tail
    rw [htail] at hn
    exact Nat.le_trans hle (Rule.le_of_longest? hl hn)
  case keyword =>
    intro k hk
    obtain rfl := Rule.eq_keyword_of_longest? (k := k) hl hk
    exact (Option.some.inj hkind).symm
  case visible => exact fun s hs => Rule.not_mem_pattern_of_kind? hkind htext hs

/-! ## Scanned texts -/

namespace Token

/-- The token stands in the source where its span begins, and is matched there. -/
def IsMatched (source : List Char) (t : Token) : Prop :=
  ∃ left right, source = left ++ (t.text.toList ++ right) ∧
    t.span = .wide (Text.byteLength left) t.text.toList ∧
    Lexeme.Matches t.kind t.text.toList right

theorem isMatched_of_token {kind : TokenKind} {left text right : List Char}
    (h : Lexeme.ofCode (text ++ right) = .token kind text.length) :
    IsMatched (left ++ (text ++ right)) (wide kind (Text.byteLength left) text) := by
  refine ⟨left, right, ?_, ?_, ?_⟩
  · rw [wide, String.toList_ofList]
  · rw [wide, String.toList_ofList]
  · rw [wide, String.toList_ofList]
    exact Lexeme.matches_of_token h

/-- Every token is plain text, or it is matched where it stands. -/
theorem Scans.isMatched {mode : Mode} {offset : Nat} {cs : List Char} {tokens : List Token}
    (h : Scans mode offset cs tokens) (before : List Char)
    (hbefore : Text.byteLength before = offset) :
    ∀ t ∈ tokens, t.kind ≠ .inlineHtml → IsMatched (before ++ cs) t := by
  -- The pieces that the steps take go over to what is before, one after the other.
  induction h generalizing before with
  | done => simp
  | plain htext => exact fun t ht hkind => absurd (mem_ofText ht) hkind
  | @enter offset text rest tokens htext hscans ih =>
    intro t ht hkind
    have hrest := ih (before ++ text ++ openTag)
      (by rw [Text.byteLength_append, Text.byteLength_append, hbefore]; rfl)
    rcases List.mem_append.1 ht with ht | ht
    · exact absurd (mem_ofText ht) hkind
    · simpa using hrest t ht hkind
  | @trivia offset text rest tokens htrivia hscans ih =>
    intro t ht hkind
    simpa using ih (before ++ text) (by simp [hbefore]) t ht hkind
  | @token offset kind text rest tokens hlex hclose hscans ih =>
    have hrest := ih (before ++ text) (by simp [hbefore])
    rw [List.forall_mem_cons, ← hbefore]
    exact ⟨fun _ => isMatched_of_token hlex, by simpa using hrest⟩
  | @leave offset lineEnd rest tokens hline hscans ih =>
    have hbytes := (mem_of_lineEndAfterTag hline).2
    have hrest := ih (before ++ ['?', '>'] ++ lineEnd)
      (by rw [Text.byteLength_append, Text.byteLength_append, hbefore, hbytes]; rfl)
    rw [List.forall_mem_cons, ← hbefore]
    exact ⟨fun _ => isMatched_of_token (Lexeme.ofCode_closeTag _), by simpa using hrest⟩

/-- The tokens of code are longest matches of the rules, keywords before names; and where
    scanning gives up, no rule matches. -/
theorem scan_matches (source : String) (hsize : source.utf8ByteSize < Span.limit) :
    (∀ tokens, scan source = .ok tokens →
      ∀ t ∈ tokens, t.kind ≠ .inlineHtml → t.kind ≠ .endOfFile → IsMatched source.toList t) ∧
    ∀ text span, scan source = .error (.unrecognized text span) →
      ∃ left right, source.toList = left ++ (text.toList ++ right) ∧ text.toList ≠ [] ∧
        span = .wide (Text.byteLength left) text.toList ∧
        ∀ r : Rule, ∀ w ∈ r.pattern, ¬w <+: text.toList ++ right := by
  rw [scan_eq_scanWide (Nat.le_of_lt hsize)]
  constructor
  · intro tokens h t ht hplain hend
    obtain ⟨before, hbefore, heq⟩ := exists_of_bind_eq_ok h
    cases heq
    rcases List.mem_append.1 ht with ht | ht
    · exact (Scans.of_wideFrom hbefore).isMatched [] rfl t ht hplain
    · exact absurd (List.mem_singleton.1 ht ▸ rfl) hend
  · intro text span h
    have hscan : wideFrom .html 0 source.toList = .error (.unrecognized text span) :=
      eq_error_of_map h
    obtain ⟨left, piece, right, hsource, hrefusal⟩ := exists_cut_of_wideFrom_error hscan
    rw [Nat.zero_add] at hrefusal
    cases hrefusal with
    | unrecognized hne hnone =>
      refine ⟨left, right, ?_⟩
      rw [String.toList_ofList]
      exact ⟨hsource, hne, rfl, fun r w hw => Rule.not_begins_of_longest?_eq_none hnone r hw⟩

/-- A keyword in capitals, a number that backs up from an exponent, and a quote that is
    never closed. -/
theorem scan_matches_keyword_and_quote :
    ("<?php iF 1e+.5".utf8ByteSize < Span.limit ∧ "<?php é\"b".utf8ByteSize < Span.limit) ∧
    (∃ tokens, scan "<?php iF 1e+.5" = .ok tokens ∧
      ⟨.keyword .ifKw, ⟨6, 8⟩, "iF"⟩ ∈ tokens ∧ ⟨.integer, ⟨9, 10⟩, "1"⟩ ∈ tokens ∧
      IsMatched "<?php iF 1e+.5".toList ⟨.keyword .ifKw, ⟨6, 8⟩, "iF"⟩ ∧
      IsMatched "<?php iF 1e+.5".toList ⟨.integer, ⟨9, 10⟩, "1"⟩) ∧
    scan "<?php é\"b" = .error (.unrecognized "\"b" ⟨8, 10⟩) ∧
      ∃ left right, "<?php é\"b".toList = left ++ ("\"b".toList ++ right) ∧ "\"b".toList ≠ [] ∧
        (⟨8, 10⟩ : Span) = .wide (Text.byteLength left) "\"b".toList ∧
        ∀ r : Rule, ∀ w ∈ r.pattern, ¬w <+: "\"b".toList ++ right := by
  have hscan : scan "<?php iF 1e+.5" = .ok
      [⟨.keyword .ifKw, ⟨6, 8⟩, "iF"⟩, ⟨.integer, ⟨9, 10⟩, "1"⟩, ⟨.identifier, ⟨10, 11⟩, "e"⟩,
       ⟨.symbol .plus, ⟨11, 12⟩, "+"⟩, ⟨.float, ⟨12, 14⟩, ".5"⟩, ⟨.endOfFile, ⟨14, 14⟩, ""⟩] := by
    decide +kernel
  have herror : scan "<?php é\"b" = .error (.unrecognized "\"b" ⟨8, 10⟩) := by decide +kernel
  have hsize : "<?php iF 1e+.5".utf8ByteSize < Span.limit := by decide +kernel
  have hsize' : "<?php é\"b".utf8ByteSize < Span.limit := by decide +kernel
  have hmatched := (scan_matches "<?php iF 1e+.5" hsize).1 _ hscan
  refine ⟨⟨hsize, hsize'⟩, ⟨_, hscan, by simp, by simp, ?_, ?_⟩, herror,
    (scan_matches "<?php é\"b" hsize').2 _ _ herror⟩
  · exact hmatched _ (by simp) (by simp) (by simp)
  · exact hmatched _ (by simp) (by simp) (by simp)

end Token

end PhpScript
