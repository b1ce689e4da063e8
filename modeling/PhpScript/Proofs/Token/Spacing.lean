import PhpScript.Proofs.Token.Tiling

/-!
# White space between tokens

White space before a token leaves the tokens of a text as they are, but for their
places. The longest match sees the white space only if a rule can go on into it,
and those rules that can (quoted texts, white space and comments) have begun
before it already: `Rule.longest?_insert`. So each step of the scanner stays the
same up to the white space (`Token.Scans.insert`), and goes on the same after it.
-/

namespace PhpScript

/-! ## Texts without white space -/

theorem eq_of_isCodeBlank {c : Char} (h : isCodeBlank c) :
    c = ' ' ∨ c = '\t' ∨ c = '\r' ∨ c = '\n' ∨ c = '\x0c' := by
  simpa [isCodeBlank, or_assoc] using h

theorem isCodeBlank_eq_false {p : Char → Bool} {c : Char} (hc : p c)
    (hp : [' ', '\t', '\r', '\n', '\x0c'].all (!p ·)) : isCodeBlank c = false := by
  by_contra hblank
  rcases eq_of_isCodeBlank (Bool.eq_true_of_not_eq_false hblank) with
    rfl | rfl | rfl | rfl | rfl <;> simp_all

/-- No word of the language holds white space. -/
def IsSolid (L : Language Char) : Prop := ∀ w ∈ L, ∀ c ∈ w, isCodeBlank c = false

namespace IsSolid

variable {L M : Language Char} {p : Char → Bool}

theorem one (hp : [' ', '\t', '\r', '\n', '\x0c'].all (!p ·) := by decide) :
    IsSolid (one p) := by
  rintro _ ⟨c, hc, rfl⟩ d hd
  rw [List.mem_singleton.1 hd]
  exact isCodeBlank_eq_false hc hp

theorem many (hp : [' ', '\t', '\r', '\n', '\x0c'].all (!p ·) := by decide) :
    IsSolid (many p) :=
  fun _ hw c hc => isCodeBlank_eq_false (List.all_eq_true.1 hw c hc) hp

theorem text {v : List Char} (hv : v.all (!isCodeBlank ·) := by decide) : IsSolid {v} := by
  rintro _ rfl c hc
  simpa using List.all_eq_true.1 hv c hc

theorem mul (hL : IsSolid L) (hM : IsSolid M) : IsSolid (L * M) := by
  intro w hw c hc
  obtain ⟨u, hu, v, hv, rfl⟩ := Language.mem_mul.1 hw
  rcases List.mem_append.1 hc with hc | hc
  · exact hL u hu c hc
  · exact hM v hv c hc

theorem maybe (hL : IsSolid L) : IsSolid (1 + L) := by
  rintro w (rfl | hw) c hc
  · cases hc
  · exact hL w hw c hc

theorem digits : IsSolid digits := mul one many

theorem exponent : IsSolid exponent := mul one (mul (maybe one) (mul one many))

end IsSolid

namespace Rule

/-- Whether a text of the rule's class can hold white space. -/
def holdsBlanks : Rule → Bool
  | singleQuoted | doubleQuoted | blank | slashComment => true
  | _ => false

theorem isSolid_pattern {r : Rule} (hr : r.holdsBlanks = false) : IsSolid r.pattern := by
  cases r with
  | keyword k =>
    intro w hw c hc
    have hstart := isNameStart_of_mem_keyword k c.toLower (hw ▸ List.mem_map_of_mem hc)
    exact isCodeBlank_eq_false (isNameStart_of_toLower hstart) (by decide)
  | symbol s => exact .text (by cases s <;> decide)
  | varName => exact .mul .one (.mul .one .many)
  | identifier => exact .mul .one .many
  | decimalInteger => exact .digits
  | hexInteger | octalInteger | binaryInteger =>
    exact .mul .one (.mul .one (.mul .one .many))
  | pointFloat => exact .mul (.mul .digits (.mul .one .many)) (.maybe .exponent)
  | leadingPointFloat => exact .mul (.mul .one .digits) (.maybe .exponent)
  | exponentFloat => exact .mul .digits .exponent
  | hashComment | blockComment => exact .text
  | singleQuoted | doubleQuoted | blank | slashComment => cases hr

/-! ## The longest match before white space -/

section

variable {r s : Rule} {kind : TokenKind} {text u blanks rest : List Char}

theorem mem_of_opens {c : Char} {rules : List Rule} (hrules : all.filter (·.opens c) = rules)
    (ho : r.opens c) : r ∈ rules :=
  hrules ▸ List.mem_filter.2 ⟨r.mem_all, ho⟩

theorem eq_of_opens_of_sole {c : Char} (hsole : all.filter (·.opens c) = [s]) (ho : r.opens c) :
    r = s :=
  List.mem_singleton.1 (mem_of_opens hsole ho)

/-- Of the rules that begin with white space, none has a kind. -/
theorem eq_blank_of_opens {c : Char} (hc : isCodeBlank c) (ho : r.opens c) : r = blank := by
  refine eq_of_opens_of_sole ?_ ho
  rcases eq_of_isCodeBlank hc with rfl | rfl | rfl | rfl | rfl <;> decide

/-- No token begins like a comment. -/
theorem not_begins_slashes (hr : r.kind? = some kind) (htext : text ∈ r.pattern) :
    ¬['/', '/'] <+: text := by
  rintro ⟨tail, rfl⟩
  have hmem : r ∈ [symbol .slashEquals, symbol .slash, slashComment, blockComment] :=
    mem_of_opens (by decide) (opens_of_mem_pattern htext)
  simp only [List.mem_cons, List.not_mem_nil, or_false] at hmem
  rcases hmem with rfl | rfl | rfl | rfl
  · cases htext
  · cases htext
  · cases hr
  · cases hr

/-- A quoted text ends at the first quote that closes it. -/
theorem eq_nil_of_quoted {quote : Char} (hquote : quote ≠ '\\') {tail : List Char}
    (htext : text ∈ one (· == quote) * quotedBody quote)
    (hlonger : text ++ tail ∈ one (· == quote) * quotedBody quote) : tail = [] := by
  obtain ⟨_, ⟨c, -, rfl⟩, body, hbody, rfl⟩ := Language.mem_mul.1 htext
  rw [List.append_assoc, List.singleton_append, cons_mem_one_mul] at hlonger
  have hshort := QuotedBody.quotedBody?_append hquote hbody tail
  have hlong := QuotedBody.quotedBody?_append hquote hlonger.2 []
  rw [List.append_nil, hshort, Option.some.injEq, List.length_append] at hlong
  exact List.length_eq_zero_iff.1 (by omega)

/-- A comment that goes on into white space has not begun with a token. -/
theorem not_slashComment_insert {c b : Char} {tail : List Char} (hr : r.kind? = some kind)
    (htext : c :: text ∈ r.pattern)
    (h : longest? (c :: text ++ (u ++ rest)) = some (r, (c :: text).length))
    (hb : isCodeBlank b) : c :: text ++ (u ++ b :: tail) ∉ slashComment.pattern := by
  intro hv
  obtain ⟨_, rfl, body, hbody, hcut⟩ := Language.mem_mul.1 hv
  replace hcut : '/' :: '/' :: body = c :: (text ++ (u ++ b :: tail)) := hcut
  rw [List.cons.injEq, ← List.append_assoc] at hcut
  obtain ⟨rfl, hcut⟩ := hcut
  cases hmid : text ++ u with
  | nil =>
    rw [hmid] at hcut
    cases hcut
    cases hb
  | cons d mid =>
    -- The comment is there without the white space already, so the token is no longest match.
    rw [hmid] at hcut
    cases hcut
    have hcomment : '/' :: (text ++ u) ∈ slashComment.pattern := by
      rw [hmid]
      refine Language.mem_mul.2 ⟨['/', '/'], rfl, mid, ?_, rfl⟩
      exact List.all_eq_true.2 fun c hc =>
        List.all_eq_true.1 hbody c (List.mem_append_left _ hc)
    obtain ⟨n, hn, hle⟩ := le_reach? hcomment rest
    rw [List.cons_append, List.append_assoc, ← List.cons_append] at hn
    have hlen := hle.trans (le_of_longest? h hn)
    simp only [List.length_cons, List.length_append] at hlen
    have hu : u = [] := List.length_eq_zero_iff.1 (by omega)
    subst hu
    rw [List.append_nil] at hmid
    subst hmid
    exact not_begins_slashes hr htext ⟨mid, rfl⟩

/-- A rule that goes on into white space has not begun with a token. -/
theorem length_le_of_insert {v : List Char} (hr : r.kind? = some kind) (htext : text ∈ r.pattern)
    (h : longest? (text ++ (u ++ rest)) = some (r, text.length))
    (hne : blanks ≠ []) (hblanks : blanks.all isCodeBlank) (hv : v ∈ s.pattern)
    (hbegins : v <+: text ++ (u ++ (blanks ++ rest))) : v.length ≤ (text ++ u).length := by
  by_contra hlong
  obtain ⟨b, blanks, rfl⟩ := List.exists_cons_of_ne_nil hne
  have hb : isCodeBlank b := (List.all_eq_true.1 hblanks b List.mem_cons_self)
  -- The text of the rule goes on at least with the first blank.
  obtain ⟨tail, rfl⟩ : ∃ tail, v = text ++ (u ++ b :: tail) := by
    have hfirst : text ++ (u ++ [b]) <+: v := by
      refine List.prefix_of_prefix_length_le ?_ hbegins (by simp at hlong ⊢; omega)
      exact ⟨blanks ++ rest, by simp⟩
    obtain ⟨tail, rfl⟩ := hfirst
    exact ⟨tail, by simp⟩
  have hholds : s.holdsBlanks := by
    by_contra hs
    have hsolid := isSolid_pattern (Bool.eq_false_iff.2 hs) _ hv b (by simp)
    rw [hb] at hsolid
    cases hsolid
  obtain ⟨c, text, rfl⟩ := List.exists_cons_of_ne_nil (ne_nil_of_mem_pattern htext)
  have hrc : r.opens c := opens_of_mem_pattern htext
  have hsc : s.opens c := opens_of_mem_pattern hv
  cases s with
  | blank =>
    obtain rfl := eq_blank_of_opens hsc hrc
    cases hr
  | slashComment =>
    exact not_slashComment_insert hr htext h hb hv
  | singleQuoted =>
    obtain rfl : r = singleQuoted := eq_of_opens_of_sole (by decide) (eq_of_beq hsc ▸ hrc)
    simpa using eq_nil_of_quoted (by decide) htext hv
  | doubleQuoted =>
    obtain rfl : r = doubleQuoted := eq_of_opens_of_sole (by decide) (eq_of_beq hsc ▸ hrc)
    simpa using eq_nil_of_quoted (by decide) htext hv
  | _ => cases hholds

/-- What a rule takes after the white space is put in, it takes without it too. -/
theorem exists_reach?_of_insert (hr : r.kind? = some kind) (htext : text ∈ r.pattern)
    (h : longest? (text ++ (u ++ rest)) = some (r, text.length))
    (hne : blanks ≠ []) (hblanks : blanks.all isCodeBlank) {m : Nat}
    (hm : s.reach? (text ++ (u ++ (blanks ++ rest))) = some m) :
    ∃ k, s.reach? (text ++ (u ++ rest)) = some k ∧ m ≤ k := by
  obtain ⟨v, hv, tail, hcut, rfl⟩ := s.reach?_finds.sound hm
  have hbegins : v <+: text ++ (u ++ (blanks ++ rest)) := ⟨tail, hcut.symm⟩
  have hle := length_le_of_insert hr htext h hne hblanks hv hbegins
  have hinside : v <+: text ++ u := by
    refine List.prefix_of_prefix_length_le hbegins ?_ hle
    exact ⟨blanks ++ rest, by simp⟩
  obtain ⟨w, hw⟩ := hinside
  obtain ⟨k, hk, hvk⟩ := le_reach? hv (w ++ rest)
  rw [← List.append_assoc, hw, List.append_assoc] at hk
  exact ⟨k, hk, hvk⟩

/-- White space somewhere after a token does not change the longest match. -/
theorem longest?_insert (hr : r.kind? = some kind)
    (h : longest? (text ++ (u ++ rest)) = some (r, text.length))
    (hne : blanks ≠ []) (hblanks : blanks.all isCodeBlank) :
    longest? (text ++ (u ++ (blanks ++ rest))) = some (r, text.length) := by
  obtain ⟨before, after, hall, hreach, hbefore, hafter⟩ := longest?_eq_some_iff.1 h
  have htext : text ∈ r.pattern := mem_pattern_of_reach? hreach
  have hless {s : Rule} {m : Nat} :=
    exists_reach?_of_insert (s := s) (m := m) hr htext h hne hblanks
  refine longest?_eq_some_iff.2 ⟨before, after, hall, ?_, fun s hs m hm => ?_, fun s hs m hm => ?_⟩
  · obtain ⟨n, hn, hle⟩ := le_reach? htext (u ++ (blanks ++ rest))
    obtain ⟨k, hk, hnk⟩ := hless hn
    cases hreach.symm.trans hk
    rw [hn, Nat.le_antisymm hnk hle]
  · obtain ⟨k, hk, hmk⟩ := hless hm
    exact Nat.lt_of_le_of_lt hmk (hbefore s hs k hk)
  · obtain ⟨k, hk, hmk⟩ := hless hm
    exact Nat.le_trans hmk (hafter s hs k hk)

end

end Rule

theorem Lexeme.ofCode_insert {kind : TokenKind} {text u blanks rest : List Char}
    (h : ofCode (text ++ (u ++ rest)) = .token kind text.length) (hne : blanks ≠ [])
    (hblanks : blanks.all isCodeBlank) :
    ofCode (text ++ (u ++ (blanks ++ rest))) = .token kind text.length := by
  obtain ⟨r, hl, hr⟩ := ofCode_eq_token_iff.1 h
  exact ofCode_eq_token_iff.2 ⟨r, Rule.longest?_insert hr hl hne hblanks, hr⟩

namespace Token

/-! ## Scanning before white space -/

section

variable {mode : Mode} {offset : Nat} {cs : List Char} {tokens : List Token} {t : Token}

theorem map_sig_ofText (offset offset' : Nat) (text : List Char) :
    (ofText offset' text).map sig = (ofText offset text).map sig := by
  unfold ofText
  split <;> rfl

theorem Scans.le_start (h : Scans mode offset cs tokens) (ht : t ∈ tokens) :
    offset ≤ t.span.start :=
  (h.laid.bounds.1 t ht).1

/-- Elsewhere a text has the same tokens. -/
theorem Scans.shift (h : Scans mode offset cs tokens) (offset' : Nat) :
    ∃ tokens', Scans mode offset' cs tokens' ∧ tokens'.map sig = tokens.map sig := by
  induction h generalizing offset' with
  | done => exact ⟨[], .done, rfl⟩
  | plain htext => exact ⟨_, .plain htext, map_sig_ofText _ _ _⟩
  | enter htext hscans ih =>
    obtain ⟨tokens', hscans', hsig⟩ := ih (offset' + _ + _)
    exact ⟨_, .enter htext hscans', by rw [List.map_append, List.map_append, hsig, map_sig_ofText]⟩
  | trivia htrivia hscans ih =>
    obtain ⟨tokens', hscans', hsig⟩ := ih _
    exact ⟨tokens', .trivia htrivia hscans', hsig⟩
  | token hlex hkind hscans ih =>
    obtain ⟨tokens', hscans', hsig⟩ := ih _
    exact ⟨_, .token hlex hkind hscans', congrArg (_ :: ·) hsig⟩
  | leave hline hscans ih =>
    obtain ⟨tokens', hscans', hsig⟩ := ih _
    exact ⟨_, .leave hline hscans', congrArg (_ :: ·) hsig⟩

theorem Scans.blanks (h : Scans .code offset cs tokens) {blanks : List Char} (hne : blanks ≠ [])
    (hblanks : blanks.all isCodeBlank) (offset' : Nat) :
    ∃ tokens', Scans .code offset' (blanks ++ cs) tokens' ∧ tokens'.map sig = tokens.map sig := by
  obtain ⟨tokens', hscans', hsig⟩ := h.shift (offset' + Text.byteLength blanks)
  exact ⟨tokens', .trivia (.blanks hne hblanks) hscans', hsig⟩

/-- A token in plain text comes after a tag. -/
theorem Scans.exists_tag (h : Scans .html offset cs tokens) (ht : t ∈ tokens)
    (hkind : t.kind ≠ .inlineHtml) :
    ∃ text rest, cs = text ++ (openTag ++ rest) ∧
      offset + Text.byteLength text + openTag.length ≤ t.span.start := by
  cases h with
  | plain htext => exact absurd (mem_ofText ht) hkind
  | enter htext hscans =>
    rcases List.mem_append.1 ht with ht | ht
    · exact absurd (mem_ofText ht) hkind
    · exact ⟨_, _, rfl, hscans.le_start ht⟩

/-- A token does not begin with white space. -/
theorem Scans.head_of_start (h : Scans .code offset cs tokens) (ht : t ∈ tokens)
    (hstart : t.span.start = offset) : ∃ c ∈ cs.head?, isCodeBlank c = false := by
  cases h with
  | done => cases ht
  | trivia htrivia hscans =>
    have hle := hscans.le_start ht
    have hpos := Text.byteLength_pos htrivia.ne_nil
    omega
  | token hlex hkind hscans =>
    obtain ⟨r, hr, htext⟩ := Lexeme.exists_pattern_of_token hlex
    obtain ⟨c, text, rfl⟩ := List.exists_cons_of_ne_nil (ne_nil_of_token hlex)
    refine ⟨c, rfl, Bool.eq_false_iff.2 fun hblank => ?_⟩
    obtain rfl := Rule.eq_blank_of_opens hblank (Rule.opens_of_mem_pattern htext)
    cases hr
  | leave hline hscans => exact ⟨'?', rfl, rfl⟩

theorem Trivia.insert {text mid right blanks : List Char} (h : Trivia text (mid ++ right))
    (hmid : mid = [] → ∃ c ∈ right.head?, isCodeBlank c = false) :
    Trivia text (mid ++ (blanks ++ right)) := by
  cases h with
  | blanks hne hblank => exact .blanks hne hblank
  | line hline hrest =>
    refine .line hline ?_
    cases mid with
    | nil =>
      obtain ⟨c, hc, hblank⟩ := hmid rfl
      rw [hrest c hc] at hblank
      cases hblank
    | cons c mid => exact hrest
  | block hbody => exact .block hbody

theorem lineEndAfterTag_append {cs : List Char} (hlen : 2 ≤ cs.length) (xs ys : List Char) :
    lineEndAfterTag (cs ++ xs) = lineEndAfterTag (cs ++ ys) := by
  match cs, hlen with
  | a :: b :: cs, _ => simp [lineEndAfterTag]

/-- A piece that ends before a place is part of what comes before it. -/
theorem exists_of_append_eq {piece rest left right : List Char} (h : piece ++ rest = left ++ right)
    (hle : Text.byteLength piece ≤ Text.byteLength left) :
    ∃ mid, left = piece ++ mid ∧ rest = mid ++ right := by
  rcases List.append_eq_append_iff.1 h with ⟨mid, hleft, hrest⟩ | ⟨mid, hpiece, hright⟩
  · exact ⟨mid, hleft, hrest⟩
  · have hnil : mid = [] := by
      by_contra hne
      have hpos := Text.byteLength_pos hne
      rw [hpiece, Text.byteLength_append] at hle
      omega
    subst hnil
    exact ⟨[], by simpa using hpiece.symm, by simpa using hright.symm⟩

/-- White space before a token changes the places of tokens only. -/
theorem Scans.insert (h : Scans mode offset cs tokens) {left right blanks : List Char}
    (hne : blanks ≠ []) (hblanks : blanks.all isCodeBlank) (ht : t ∈ tokens)
    (hkind : t.kind ≠ .inlineHtml) (hcs : cs = left ++ right)
    (hstart : t.span.start = offset + Text.byteLength left) (offset' : Nat) :
    ∃ tokens', Scans mode offset' (left ++ (blanks ++ right)) tokens' ∧
      tokens'.map sig = tokens.map sig := by
  induction h generalizing left offset' with
  | done => cases ht
  | plain htext => exact absurd (mem_ofText ht) hkind
  | @enter offset text rest tokens htext hscans ih =>
    rcases List.mem_append.1 ht with ht | ht
    · exact absurd (mem_ofText ht) hkind
    have hle := hscans.le_start ht
    have hbytes : Text.byteLength (text ++ openTag) = Text.byteLength text + openTag.length :=
      Text.byteLength_append text openTag
    obtain ⟨mid, rfl, rfl⟩ := exists_of_append_eq ((List.append_assoc _ _ _).trans hcs)
      (by omega)
    rw [Text.byteLength_append, hbytes] at hstart
    obtain ⟨tokens', hscans', hsig⟩ := ih ht rfl (by omega)
      (offset' + Text.byteLength text + openTag.length)
    refine ⟨ofText offset' text ++ tokens', ?_, ?_⟩
    · rw [List.append_assoc, List.append_assoc]
      exact .enter (beforeTag_append htext _) hscans'
    · rw [List.map_append, List.map_append, hsig, map_sig_ofText offset offset']
  | @trivia offset text rest tokens htrivia hscans ih =>
    cases left with
    | nil =>
      obtain rfl : text ++ rest = right := hcs
      exact Scans.blanks (.trivia htrivia hscans) hne hblanks offset'
    | cons c left =>
    have hle := hscans.le_start ht
    obtain ⟨mid, hmid, rfl⟩ := exists_of_append_eq hcs (by omega)
    rw [hmid, Text.byteLength_append] at hstart
    obtain ⟨tokens', hscans', hsig⟩ := ih ht rfl (by omega) (offset' + Text.byteLength text)
    have hhead : mid = [] → ∃ c ∈ right.head?, isCodeBlank c = false := by
      rintro rfl
      exact hscans.head_of_start ht (by simpa using hstart)
    rw [hmid, List.append_assoc]
    exact ⟨tokens', .trivia (Trivia.insert htrivia hhead) hscans', hsig⟩
  | @token offset kind text rest tokens hlex htoken hscans ih =>
    cases left with
    | nil =>
      obtain rfl : text ++ rest = right := hcs
      exact Scans.blanks (.token hlex htoken hscans) hne hblanks offset'
    | cons c left =>
    have hpos := Text.byteLength_pos (List.cons_ne_nil c left)
    rcases List.mem_cons.1 ht with rfl | ht
    · simp only [wide, Span.wide] at hstart
      omega
    have hle := hscans.le_start ht
    obtain ⟨mid, hmid, rfl⟩ := exists_of_append_eq hcs (by omega)
    rw [hmid, Text.byteLength_append] at hstart
    obtain ⟨tokens', hscans', hsig⟩ := ih ht rfl (by omega) (offset' + Text.byteLength text)
    rw [hmid, List.append_assoc]
    exact ⟨_, .token (Lexeme.ofCode_insert hlex hne hblanks) htoken hscans',
      congrArg (_ :: ·) hsig⟩
  | @leave offset lineEnd rest tokens hline hscans ih =>
    cases left with
    | nil =>
      obtain rfl : ['?', '>'] ++ (lineEnd ++ rest) = right := hcs
      exact Scans.blanks (.leave hline hscans) hne hblanks offset'
    | cons c left =>
    have hpos := Text.byteLength_pos (List.cons_ne_nil c left)
    rcases List.mem_cons.1 ht with rfl | ht
    · simp only [wide, Span.wide] at hstart
      omega
    -- The next token comes after a tag, so the line end and the text after it are settled.
    obtain ⟨text, rest, rfl, hle⟩ := hscans.exists_tag ht hkind
    have hbytes : Text.byteLength (['?', '>'] ++ lineEnd) = 2 + lineEnd.length := by
      rw [Text.byteLength_append, (mem_of_lineEndAfterTag hline).2]
      rfl
    obtain ⟨mid, hmid, hrest⟩ := exists_of_append_eq ((List.append_assoc _ _ _).trans hcs)
      (by omega)
    rw [hmid, Text.byteLength_append, hbytes] at hstart
    have htag : Text.byteLength (text ++ openTag) = Text.byteLength text + openTag.length :=
      Text.byteLength_append text openTag
    obtain ⟨mid', hmid', -⟩ := exists_of_append_eq ((List.append_assoc _ _ _).trans hrest)
      (by omega)
    obtain ⟨tokens', hscans', hsig⟩ := ih ht hrest (by omega) (offset' + 2 + lineEnd.length)
    refine ⟨wide (.symbol .closeTag) offset' ['?', '>'] :: tokens', ?_, congrArg (_ :: ·) hsig⟩
    rw [hmid, List.append_assoc, List.append_assoc]
    refine .leave ?_ hscans'
    rw [← hline, hrest, ← List.append_assoc, ← List.append_assoc lineEnd mid right]
    refine lineEndAfterTag_append ?_ _ _
    rw [hmid']
    simp [openTag]
    omega

/-- White space before a token of code leaves the tokens of a text as they are. -/
theorem scan_insert {source blanks : String} (h : scan source = .ok tokens) (ht : t ∈ tokens)
    (hkind : t.kind ≠ .inlineHtml ∧ t.kind ≠ .endOfFile) (hne : blanks ≠ "")
    (hblanks : blanks.toList.all isCodeBlank)
    (hsize : source.utf8ByteSize + blanks.utf8ByteSize ≤ Span.limit) :
    ∃ left right, source = left ++ right ∧ left.utf8ByteSize = t.span.start ∧
      ∃ tokens', scan (left ++ blanks ++ right) = .ok tokens' ∧
        tokens'.map sig = tokens.map sig := by
  rw [scan_eq_scanWide (Nat.le_of_add_right_le hsize)] at h
  obtain ⟨before, hbefore, heq⟩ := exists_of_bind_eq_ok h
  cases heq
  replace ht : t ∈ before := by
    rcases List.mem_append.1 ht with ht | ht
    · exact ht
    · exact absurd (List.mem_singleton.1 ht ▸ rfl) hkind.2
  have hscans := Scans.of_wideFrom hbefore
  obtain ⟨left, text, right, -, hcut, hplace⟩ := hscans.laid.exists_cut [] rfl t ht
  have hstart : t.span.start = 0 + Text.byteLength left := by
    rw [hplace, Nat.zero_add]
    rfl
  have hsource : source = String.ofList left ++ String.ofList (text ++ right) := by
    rw [← String.ofList_append, ← hcut]
    exact String.ofList_toList.symm
  refine ⟨String.ofList left, String.ofList (text ++ right), hsource, ?_, ?_⟩
  · rw [Text.utf8ByteSize_ofList, hstart, Nat.zero_add]
  · have hne : blanks.toList ≠ [] := by simpa using hne
    have hfits : (String.ofList left ++ blanks ++ String.ofList (text ++ right)).utf8ByteSize ≤
        Span.limit := by
      rw [hsource, String.utf8ByteSize_append] at hsize
      rw [String.utf8ByteSize_append, String.utf8ByteSize_append]
      omega
    obtain ⟨after, hafter, hsig⟩ := hscans.insert hne hblanks ht hkind.1 hcut hstart 0
    have hscan : ∃ final : Token,
        scan (String.ofList left ++ blanks ++ String.ofList (text ++ right)) =
          .ok (after ++ [final]) ∧ final.sig = (.endOfFile, "") := by
      rw [scan_eq_scanWide hfits, scanWide, String.toList_append, String.toList_append,
        String.toList_ofList, String.toList_ofList, List.append_assoc, hafter.wideFrom_eq]
      exact ⟨_, rfl, rfl⟩
    obtain ⟨final, hscan, hfinal⟩ := hscan
    refine ⟨_, hscan, ?_⟩
    rw [List.map_append, List.map_append, hsig, List.map_singleton, hfinal]
    rfl

end

end Token

end PhpScript
