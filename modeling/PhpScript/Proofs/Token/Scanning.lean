import PhpScript.Proofs.Token.Pattern

/-!
# Scanning as a relation

`Scans` says which tokens a text has, one step of the scanner at a time, and
with the text cut into the pieces that the steps take: plain text, tags, tokens,
white space and comments. `Scans.of_wideFrom` and `Scans.wideFrom_eq` say that scanning gives just
these tokens.

White space may be taken in several steps here, while the scanner takes a run of
it at once. So what is between two tokens can be cut anywhere.
-/

namespace PhpScript

/-! ## Trivia -/

/-- The mark that closes a block comment. -/
def commentEnd : List Char := ['*', '/']

/-- A comment that the end of its line ends. An attribute also begins with `#`. -/
def IsLineComment (text : List Char) : Prop :=
  (['/', '/'] <+: text ∨ ['#'] <+: text ∧ ¬['#', '['] <+: text) ∧ '\n' ∉ text

/-- What leaves no token: white space or a whole comment, before the rest of the text. -/
inductive Trivia : List Char → List Char → Prop
  | blanks {text rest : List Char} : text ≠ [] → text.all isCodeBlank → Trivia text rest
  | line {text rest : List Char} : IsLineComment text → (∀ c ∈ rest.head?, c = '\n') →
    Trivia text rest
  | block {body rest : List Char} : ¬commentEnd <:+: body →
    Trivia (['/', '*'] ++ body ++ commentEnd) rest

theorem Trivia.ne_nil {text rest : List Char} (h : Trivia text rest) : text ≠ [] := by
  cases h with
  | blanks hne hblank => exact hne
  | line hline hrest =>
    rintro rfl
    rcases hline.1 with h | h
    · simp at h
    · simp at h
  | block hbody => simp

namespace Lexeme

/-! ## Comments -/

theorem commentEnd?_eq_some {cs : List Char} {n : Nat} (h : commentEnd? cs = some n) :
    ∃ body rest, cs = body ++ (commentEnd ++ rest) ∧ n = body.length + 2 ∧
      ¬commentEnd <:+: body := by
  induction cs generalizing n with
  | nil => cases h
  | cons c cs ih =>
    rw [commentEnd?] at h
    split at h
    · next hend =>
      cases h
      obtain ⟨rest, hrest⟩ := List.isPrefixOf_iff_prefix.1 hend
      exact ⟨[], rest, hrest.symm, rfl, by simp [commentEnd]⟩
    · next hend =>
      obtain ⟨m, hm, rfl⟩ := Option.map_eq_some_iff.1 h
      obtain ⟨body, rest, rfl, rfl, hbody⟩ := ih hm
      refine ⟨c :: body, rest, rfl, by simp; omega, ?_⟩
      rw [List.infix_cons_iff, not_or]
      refine ⟨fun hp => hend ?_, hbody⟩
      rw [List.isPrefixOf_iff_prefix]
      exact hp.trans (List.prefix_append (c :: body) _)

theorem commentEnd?_append {body : List Char} (hbody : ¬commentEnd <:+: body) (rest : List Char) :
    commentEnd? (body ++ (commentEnd ++ rest)) = some (body.length + 2) := by
  induction body with
  | nil => rfl
  | cons c body ih =>
    rw [List.infix_cons_iff, not_or] at hbody
    have hnot : ¬['*', '/'].isPrefixOf (c :: (body ++ (commentEnd ++ rest))) := by
      intro hp
      rw [List.isPrefixOf_iff_prefix] at hp
      cases body with
      | nil =>
        -- The next character is the star of the closing mark, and no slash.
        simp [commentEnd] at hp
      | cons d body =>
        refine hbody.1 ?_
        simpa [commentEnd] using hp
    rw [List.cons_append, commentEnd?, if_neg hnot, ih hbody.2, Option.map_some, List.length_cons]
    congr 1
    omega

/-! ## Lexemes -/

/-- A token is the longest match of a rule that has a kind. -/
theorem ofCode_eq_token_iff {cs : List Char} {kind : TokenKind} {n : Nat} :
    ofCode cs = .token kind n ↔ ∃ r, Rule.longest? cs = some (r, n) ∧ r.kind? = some kind := by
  constructor
  · intro h
    unfold ofCode at h
    split at h
    · cases h
    · next r m hl =>
      refine ⟨r, ?_⟩
      cases r with
      | blockComment =>
        simp only at h
        split at h <;> cases h
      | _ => cases h <;> exact ⟨hl, rfl⟩
  · rintro ⟨r, hl, hkind⟩
    exact ofCode_of_longest? hl hkind

/-- What a token takes is a text of the rule that wins. -/
theorem exists_pattern_of_token {kind : TokenKind} {text rest : List Char}
    (h : ofCode (text ++ rest) = .token kind text.length) :
    ∃ r : Rule, r.kind? = some kind ∧ text ∈ r.pattern := by
  obtain ⟨r, hl, hkind⟩ := ofCode_eq_token_iff.1 h
  exact ⟨r, hkind, Rule.mem_pattern_of_reach? (Rule.reach?_of_longest? hl)⟩

/-- A token does not reach beyond the text. -/
theorem exists_cut_of_token {cs : List Char} {kind : TokenKind} {n : Nat}
    (h : ofCode cs = .token kind n) : ∃ text rest, cs = text ++ rest ∧ text.length = n := by
  obtain ⟨r, hl, -⟩ := ofCode_eq_token_iff.1 h
  obtain ⟨text, -, rest, hcs, hn⟩ := r.reach?_finds.sound (Rule.reach?_of_longest? hl)
  exact ⟨text, rest, hcs, hn⟩

/-- The opening of a comment and all up to the end of the line. -/
theorem trivia_of_run {mark cs : List Char} (hmark : '\n' ∉ mark)
    (hopen : ['/', '/'] <+: mark ∨ ['#'] <+: mark ∧ ¬['#', '['] <+: mark ++ cs) :
    Trivia (mark ++ cs.takeWhile (· != '\n')) (cs.dropWhile (· != '\n')) := by
  refine .line ⟨hopen.imp ?_ ?_, ?_⟩ ?_
  · exact fun h => h.trans (List.prefix_append _ _)
  · refine fun h => ⟨h.1.trans (List.prefix_append _ _), fun hattr => h.2 (hattr.trans ?_)⟩
    exact (List.prefix_append_right_inj mark).2 (List.takeWhile_prefix _)
  · rw [List.mem_append, not_or]
    refine ⟨hmark, fun hmem => ?_⟩
    have hall : (cs.takeWhile (· != '\n')).all (· != '\n') := List.all_takeWhile
    simpa using List.all_eq_true.1 hall _ hmem
  · intro c hc
    have hnot := List.head?_dropWhile_not (· != '\n') cs
    simpa [Option.mem_def.1 hc] using hnot

/-- What is skipped is trivia. -/
theorem trivia_of_ofCode {cs : List Char} {n : Nat} (h : ofCode cs = .trivia n) :
    ∃ text rest, cs = text ++ rest ∧ text.length = n ∧ Trivia text rest := by
  unfold ofCode at h
  split at h
  · cases h
  · next r m hl =>
    have hreach := Rule.reach?_of_longest? hl
    cases r with
    | blank =>
      cases h
      obtain ⟨text, htext, rest, hcs, hn⟩ := Rule.blank.reach?_finds.sound hreach
      refine ⟨text, rest, hcs, hn, .blanks (Rule.ne_nil_of_mem_pattern htext) ?_⟩
      obtain ⟨_, ⟨c, hc, rfl⟩, u, hu, rfl⟩ := Language.mem_mul.1 htext
      simpa [hc] using mem_many.1 hu
    | slashComment =>
      cases h
      obtain ⟨k, hk, rfl⟩ := Option.map_eq_some_iff.1 hreach
      obtain ⟨_, rfl, rest, rfl, rfl⟩ := (exactly?_finds _).sound hk
      exact ⟨['/', '/'] ++ rest.takeWhile (· != '\n'), rest.dropWhile (· != '\n'), by simp,
        by simp [Rule.run, Nat.add_comm 2], trivia_of_run (by decide) (.inl (List.prefix_refl _))⟩
    | hashComment =>
      cases h
      obtain ⟨_, rfl, rest, rfl, rfl⟩ := (exactly?_finds _).sound hreach
      have hattr : ¬['#', '['] <+: ['#'] ++ rest := by
        rintro ⟨tail, htail⟩
        have hattr := Rule.reach?_symbol .attributeStart tail
        exact absurd (Rule.le_of_longest? hl (htail ▸ hattr)) (by decide)
      exact ⟨['#'] ++ rest.takeWhile (· != '\n'), rest.dropWhile (· != '\n'), by simp,
        by simp [Rule.run, Nat.add_comm 1],
        trivia_of_run (by decide) (.inr ⟨List.prefix_refl _, hattr⟩)⟩
    | blockComment =>
      obtain ⟨_, rfl, rest, rfl, rfl⟩ := (exactly?_finds _).sound hreach
      simp only [List.drop_left] at h
      split at h
      · next k hk =>
        cases h
        obtain ⟨body, rest, rfl, rfl, hbody⟩ := commentEnd?_eq_some hk
        exact ⟨['/', '*'] ++ body ++ commentEnd, rest, by simp, by simp [commentEnd]; omega,
          .block hbody⟩
      · cases h
    | _ => cases h

theorem ofCode_block {body : List Char} (hbody : ¬commentEnd <:+: body) (rest : List Char) :
    ofCode (['/', '*'] ++ body ++ commentEnd ++ rest) =
      .trivia (['/', '*'] ++ body ++ commentEnd).length := by
  have hl : Rule.longest? ('/' :: '*' :: (body ++ (commentEnd ++ rest))) =
      some (.blockComment, 2) :=
    Rule.longest?_of_filter [.symbol .slashEquals, .symbol .slash, .slashComment,
      .blockComment] (by decide) rfl
  unfold ofCode
  simp [hl, commentEnd?_append hbody]
  simp [commentEnd, Nat.add_comm 2]

/-- A comment is skipped up to the end of its line. -/
theorem ofCode_line {text rest : List Char} (htext : IsLineComment text)
    (hrest : ∀ c ∈ rest.head?, c = '\n') : ofCode (text ++ rest) = .trivia text.length := by
  have hrun {body : List Char} (hbody : '\n' ∉ body) :
      Rule.run (· != '\n') (body ++ rest) = body.length := by
    refine Rule.run_append (List.all_eq_true.2 fun c hc => ?_) (by simpa using hrest)
    rw [bne_iff_ne]
    rintro rfl
    exact hbody hc
  obtain ⟨⟨body, rfl⟩ | ⟨⟨body, rfl⟩, hattr⟩, hline⟩ := htext
  · have hbody : '\n' ∉ body := fun hmem => hline (List.mem_append_right _ hmem)
    have hslash : (Rule.symbol .slash).reach? ('/' :: '/' :: (body ++ rest)) = some 1 := rfl
    have hequals : (Rule.symbol .slashEquals).reach? ('/' :: '/' :: (body ++ rest)) = none := rfl
    have hblock : Rule.blockComment.reach? ('/' :: '/' :: (body ++ rest)) = none := rfl
    have hcomment : Rule.slashComment.reach? ('/' :: '/' :: (body ++ rest)) =
        some (2 + body.length) := by
      rw [← hrun hbody]
      rfl
    have hl : Rule.longest? ('/' :: '/' :: (body ++ rest)) =
        some (.slashComment, 2 + body.length) := by
      refine Rule.longest?_of_filter [.symbol .slashEquals, .symbol .slash, .slashComment,
        .blockComment] (by decide) ?_
      simp only [Rule.furthest, List.foldl_cons, List.foldl_nil, hslash, hequals, hblock, hcomment,
        Option.map_some, Option.map_none, Rule.better]
      rw [if_pos (by omega)]
    unfold ofCode
    simp [hl, Nat.add_comm 2]
  · have hbody : '\n' ∉ body := fun hmem => hline (List.mem_append_right _ hmem)
    have hl : Rule.longest? ('#' :: (body ++ rest)) = some (.hashComment, 1) := by
      refine Rule.longest?_of_filter [.symbol .attributeStart, .hashComment] (by decide) ?_
      have hattr : (Rule.symbol .attributeStart).reach? ('#' :: (body ++ rest)) = none := by
        rw [Option.eq_none_iff_forall_ne_some]
        intro n hn
        obtain ⟨_, rfl, tail, htail, -⟩ := (exactly?_finds _).sound hn
        cases body with
        | nil =>
          cases rest with
          | nil => cases htail
          | cons c rest =>
            cases htail
            cases hrest '[' rfl
        | cons c body =>
          cases htail
          exact hattr ⟨body, rfl⟩
      have hhash : Rule.hashComment.reach? ('#' :: (body ++ rest)) = some 1 := rfl
      simp [Rule.furthest, hattr, hhash, Rule.better]
    unfold ofCode
    simp [hl, hrun hbody, Nat.add_comm 1]

/-- A closing tag is a token, whatever follows it. -/
theorem ofCode_closeTag (cs : List Char) :
    ofCode (['?', '>'] ++ cs) = .token (.symbol .closeTag) 2 := by
  have hl : Rule.longest? ('?' :: '>' :: cs) = some (.symbol .closeTag, 2) :=
    Rule.longest?_of_filter [.symbol .closeTag, .symbol .nullsafeArrow, .symbol .question]
      (by decide) rfl
  exact ofCode_of_longest? hl rfl

/-- What is not recognised is matched by no rule, and some of it is reported. -/
theorem longest?_of_unrecognized {cs : List Char} {n : Nat} (h : ofCode cs = .unrecognized n) :
    Rule.longest? cs = none ∧ n = unmatched cs := by
  unfold ofCode at h
  split at h
  · next hl =>
    cases h
    exact ⟨hl, rfl⟩
  · next r m hl =>
    cases r with
    | blockComment =>
      simp only at h
      split at h <;> cases h
    | _ => cases h

theorem unmatched_pos (c : Char) (cs : List Char) : 0 < unmatched (c :: cs) := by
  rw [unmatched]
  split <;> omega

end Lexeme

/-! ## Plain text -/

theorem beforeTag_begins (cs : List Char) : beforeTag cs <+: cs := by
  rcases beforeTag_eq cs with h | ⟨rest, h⟩
  · rw [h]
  · exact ⟨_, h.symm⟩

/-- Plain text never holds a tag. -/
theorem not_infix_beforeTag (cs : List Char) : ¬openTag <:+: beforeTag cs := by
  induction cs with
  | nil => simp [beforeTag, openTag]
  | cons c cs ih =>
    rw [beforeTag_cons]
    split
    · simp [openTag]
    · next htag =>
      rw [List.infix_cons_iff, not_or]
      refine ⟨fun hp => htag ?_, ih⟩
      rw [List.isPrefixOf_iff_prefix]
      exact hp.trans ((List.prefix_cons_inj c).2 (beforeTag_begins cs))

/-- The first tag stays the first one, whatever follows it. -/
theorem beforeTag_append {text rest : List Char} (h : beforeTag (text ++ (openTag ++ rest)) = text)
    (rest' : List Char) : beforeTag (text ++ (openTag ++ rest')) = text := by
  induction text with
  | nil => rfl
  | cons c text ih =>
    rw [List.cons_append, beforeTag_cons] at h ⊢
    split at h
    · cases h
    · next htag =>
      rw [if_neg, ih (List.cons.inj h).2]
      -- A tag fits into the text and the tag after it, so the rest does not matter.
      intro htag'
      refine htag ?_
      rw [List.isPrefixOf_iff_prefix, ← List.cons_append, ← List.append_assoc] at htag' ⊢
      have hfits : openTag <+: c :: text ++ openTag :=
        List.prefix_of_prefix_length_le htag' (List.prefix_append _ _) (by simp; omega)
      exact hfits.trans (List.prefix_append _ _)

namespace Token

/-- The tokens of a text that starts at a byte offset, step by step. -/
inductive Scans : Mode → Nat → List Char → List Token → Prop
  | done {offset : Nat} : Scans .code offset [] []
  /-- Plain text without a tag. -/
  | plain {offset : Nat} {text : List Char} : beforeTag text = text →
    Scans .html offset text (ofText offset text)
  /-- Plain text up to a tag. -/
  | enter {offset : Nat} {text rest : List Char} {tokens : List Token} :
    beforeTag (text ++ (openTag ++ rest)) = text →
    Scans .code (offset + Text.byteLength text + openTag.length) rest tokens →
    Scans .html offset (text ++ (openTag ++ rest)) (ofText offset text ++ tokens)
  | trivia {offset : Nat} {text rest : List Char} {tokens : List Token} :
    Trivia text rest → Scans .code (offset + Text.byteLength text) rest tokens →
    Scans .code offset (text ++ rest) tokens
  | token {offset : Nat} {kind : TokenKind} {text rest : List Char} {tokens : List Token} :
    Lexeme.ofCode (text ++ rest) = .token kind text.length → kind ≠ .symbol .closeTag →
    Scans .code (offset + Text.byteLength text) rest tokens →
    Scans .code offset (text ++ rest) (wide kind offset text :: tokens)
  /-- A closing tag, with one line end after it. -/
  | leave {offset : Nat} {lineEnd rest : List Char} {tokens : List Token} :
    lineEndAfterTag (lineEnd ++ rest) = lineEnd.length →
    Scans .html (offset + 2 + lineEnd.length) rest tokens →
    Scans .code offset (['?', '>'] ++ (lineEnd ++ rest))
      (wide (.symbol .closeTag) offset ['?', '>'] :: tokens)

theorem wideFrom_leave (offset : Nat) (cs : List Char) :
    wideFrom .code offset (['?', '>'] ++ cs) =
      (wide (.symbol .closeTag) offset ['?', '>'] :: ·) <$>
        wideFrom .html (offset + 2 + lineEndAfterTag cs) (cs.drop (lineEndAfterTag cs)) := by
  have hlex : Lexeme.ofCode ('?' :: '>' :: cs) = .token (.symbol .closeTag) 2 :=
    Lexeme.ofCode_closeTag cs
  change wideFrom .code offset ('?' :: '>' :: cs) = _
  conv => lhs; unfold wideFrom
  simp only [hlex, if_true]
  rw [show ('>' :: cs).drop (2 - 1 + lineEndAfterTag (('>' :: cs).drop (2 - 1))) =
    cs.drop (lineEndAfterTag cs) by rw [Nat.add_comm]; rfl]
  rfl

theorem wideFrom_blanks (offset : Nat) {text : List Char} (htext : text.all isCodeBlank)
    (rest : List Char) :
    wideFrom .code offset (text ++ rest) =
      wideFrom .code (offset + Text.byteLength text) rest := by
  induction text generalizing offset with
  | nil => rfl
  | cons c text ih =>
    rw [List.all_cons, Bool.and_eq_true] at htext
    rw [List.cons_append, wideFrom_blank offset htext.1, ih _ htext.2, Text.byteLength_cons,
      Nat.add_assoc]

theorem wideFrom_skip (offset : Nat) {text rest : List Char} (h : Trivia text rest) :
    wideFrom .code offset (text ++ rest) =
      wideFrom .code (offset + Text.byteLength text) rest := by
  have hskip {text rest : List Char} (hne : text ≠ [])
      (hlex : Lexeme.ofCode (text ++ rest) = .trivia text.length) :
      wideFrom .code offset (text ++ rest) =
        wideFrom .code (offset + Text.byteLength text) rest := by
    obtain ⟨c, text, rfl⟩ := List.exists_cons_of_ne_nil hne
    rw [List.cons_append] at hlex ⊢
    rw [wideFrom_trivia hlex]
    simp
  cases h with
  | blanks hne hblank => exact wideFrom_blanks offset hblank rest
  | line hline hrest =>
    exact hskip (Trivia.line hline hrest).ne_nil (Lexeme.ofCode_line hline hrest)
  | block hbody => exact hskip (by simp) (Lexeme.ofCode_block hbody rest)

theorem wideFrom_cut {offset : Nat} {kind : TokenKind} {text rest : List Char} (hne : text ≠ [])
    (hlex : Lexeme.ofCode (text ++ rest) = .token kind text.length)
    (hkind : kind ≠ .symbol .closeTag) :
    wideFrom .code offset (text ++ rest) =
      (wide kind offset text :: ·) <$> wideFrom .code (offset + Text.byteLength text) rest := by
  obtain ⟨c, text, rfl⟩ := List.exists_cons_of_ne_nil hne
  rw [List.cons_append] at hlex ⊢
  rw [wideFrom_token hlex hkind]
  simp [wide, Span.wide]

theorem ne_nil_of_token {kind : TokenKind} {text rest : List Char}
    (hlex : Lexeme.ofCode (text ++ rest) = .token kind text.length) : text ≠ [] := by
  obtain ⟨r, -, htext⟩ := Lexeme.exists_pattern_of_token hlex
  exact Rule.ne_nil_of_mem_pattern htext

theorem eq_error_of_map {x : Except ScanError α} {f : α → β} {error : ScanError}
    (h : f <$> x = .error error) : x = .error error := by
  cases x with
  | error e => cases h; rfl
  | ok a => cases h

/-- Only one rule takes a closing tag. -/
theorem eq_closeTag_of_mem_pattern {r : Rule} {text : List Char}
    (hr : r.kind? = some (.symbol .closeTag)) (htext : text ∈ r.pattern) : text = ['?', '>'] := by
  cases r with
  | symbol s =>
    cases hr
    exact htext
  | _ => cases hr

theorem mem_of_lineEndAfterTag {lineEnd rest : List Char}
    (h : lineEndAfterTag (lineEnd ++ rest) = lineEnd.length) :
    lineEnd ∈ [[], ['\n'], ['\r', '\n']] ∧ Text.byteLength lineEnd = lineEnd.length := by
  obtain ⟨lineEnd', rest', heq, hlen, hmem⟩ := exists_lineEnd (lineEnd ++ rest)
  obtain ⟨rfl, -⟩ := List.append_inj heq (h.symm.trans hlen)
  refine ⟨hmem, ?_⟩
  simp only [List.mem_cons, List.not_mem_nil, or_false] at hmem
  rcases hmem with rfl | rfl | rfl <;> rfl

/-- The errors for a text that is no lexeme: the part of it that they report, and the rest. -/
inductive IsRefusal (offset : Nat) (text rest : List Char) : ScanError → Prop
  | unrecognized : text ≠ [] → Rule.longest? (text ++ rest) = none →
    IsRefusal offset text rest (.unrecognized (String.ofList text) (.wide offset text))
  | unterminatedComment :
    IsRefusal offset text rest (.unterminatedComment (.wide offset text))

theorem IsRefusal.span_eq {offset : Nat} {text rest : List Char} {error : ScanError}
    (h : IsRefusal offset text rest error) : error.span = .wide offset text := by
  cases h <;> rfl

/-- What scanning does first with a text. -/
inductive First : Mode → List Char → Prop
  | done : First .code []
  | plain {text} : beforeTag text = text → First .html text
  | enter {text rest} : beforeTag (text ++ (openTag ++ rest)) = text →
    First .html (text ++ (openTag ++ rest))
  | trivia {text rest} : Trivia text rest → First .code (text ++ rest)
  | token {kind text rest} : Lexeme.ofCode (text ++ rest) = .token kind text.length →
    kind ≠ .symbol .closeTag → First .code (text ++ rest)
  | leave {lineEnd rest} : lineEndAfterTag (lineEnd ++ rest) = lineEnd.length →
    First .code (['?', '>'] ++ (lineEnd ++ rest))
  /-- The text is no lexeme, and scanning fails at its start. -/
  | refused {text rest} : (∀ offset, ∃ error, wideFrom .code offset (text ++ rest) = .error error ∧
    IsRefusal offset text rest error) → First .code (text ++ rest)

theorem first (mode : Mode) (cs : List Char) : First mode cs := by
  cases mode with
  | html =>
    rcases beforeTag_eq cs with hplain | ⟨rest, htag⟩
    · exact .plain hplain
    · have htext : beforeTag (beforeTag cs ++ (openTag ++ rest)) = beforeTag cs := by rw [← htag]
      rw [htag]
      exact .enter htext
  | code =>
    cases cs with
    | nil => exact .done
    | cons c cs =>
      cases hlex : Lexeme.ofCode (c :: cs) with
      | token kind n =>
        obtain ⟨text, rest, hcs, rfl⟩ := Lexeme.exists_cut_of_token hlex
        rw [hcs] at hlex ⊢
        by_cases hclose : kind = .symbol .closeTag
        · subst hclose
          obtain ⟨r, hr, htext⟩ := Lexeme.exists_pattern_of_token hlex
          obtain rfl := eq_closeTag_of_mem_pattern hr htext
          obtain ⟨lineEnd, rest, rfl, hline, -⟩ := exists_lineEnd rest
          exact .leave hline
        · exact .token hlex hclose
      | trivia n =>
        obtain ⟨text, rest, hcs, rfl, htrivia⟩ := Lexeme.trivia_of_ofCode hlex
        rw [hcs]
        exact .trivia htrivia
      | unrecognized n =>
        obtain ⟨hnone, rfl⟩ := Lexeme.longest?_of_unrecognized hlex
        rw [← List.take_append_drop (Lexeme.unmatched (c :: cs)) (c :: cs)]
        refine .refused fun offset => ⟨_, ?_, .unrecognized ?_ ?_⟩
        · rw [List.take_append_drop]
          unfold wideFrom
          simp only [hlex]
        · simp [(Lexeme.unmatched_pos c cs).ne']
        · rwa [List.take_append_drop]
      | unterminatedComment n =>
        rw [← List.take_append_drop n (c :: cs)]
        refine .refused fun offset => ⟨_, ?_, .unterminatedComment⟩
        rw [List.take_append_drop]
        unfold wideFrom
        simp only [hlex]

/-- Whatever scanning gives is reached step by step. -/
theorem Scans.of_wideFrom {mode : Mode} {offset : Nat} {cs : List Char} {tokens : List Token}
    (h : wideFrom mode offset cs = .ok tokens) : Scans mode offset cs tokens := by
  induction hn : cs.length using Nat.strong_induction_on generalizing mode offset cs tokens with
  | _ n ih =>
  subst hn
  cases first mode cs with
  | done =>
    rw [wideFrom_nil] at h
    cases h
    exact .done
  | plain hplain =>
    rw [wideFrom_html, hplain, List.drop_eq_nil_of_le (by omega), wideFrom_nil] at h
    cases h
    simpa using Scans.plain hplain
  | enter htext =>
    rw [wideFrom_html, htext, ← List.append_assoc, List.drop_left' (by simp)] at h
    obtain ⟨after, hafter, rfl⟩ := exists_of_map_eq_ok h
    exact .enter htext (ih _ (by simp [openTag]; omega) hafter rfl)
  | trivia htrivia =>
    have hlt := List.length_pos_iff.2 htrivia.ne_nil
    rw [wideFrom_skip _ htrivia] at h
    exact .trivia htrivia (ih _ (by simp; omega) h rfl)
  | token hlex hclose =>
    have hlt := List.length_pos_iff.2 (ne_nil_of_token hlex)
    rw [wideFrom_cut (ne_nil_of_token hlex) hlex hclose] at h
    obtain ⟨after, hafter, rfl⟩ := exists_of_map_eq_ok h
    exact .token hlex hclose (ih _ (by simp; omega) hafter rfl)
  | leave hline =>
    rw [wideFrom_leave, hline, List.drop_left] at h
    obtain ⟨after, hafter, rfl⟩ := exists_of_map_eq_ok h
    exact .leave hline (ih _ (by simp; omega) hafter rfl)
  | refused hrefused =>
    obtain ⟨error, herror, -⟩ := hrefused offset
    rw [herror] at h
    cases h

/-- Whatever is reached step by step is what scanning gives. -/
theorem Scans.wideFrom_eq {mode : Mode} {offset : Nat} {cs : List Char} {tokens : List Token}
    (h : Scans mode offset cs tokens) : wideFrom mode offset cs = .ok tokens := by
  induction h with
  | done => exact wideFrom_nil _ _
  | plain htext =>
    rw [wideFrom_html, htext, List.drop_eq_nil_of_le (by omega), wideFrom_nil]
    exact congrArg Except.ok (List.append_nil _)
  | enter htext hscans ih =>
    rw [wideFrom_html, htext, ← List.append_assoc, List.drop_left' (by simp), ih]
    rfl
  | trivia htrivia hscans ih => rw [wideFrom_skip _ htrivia, ih]
  | token hlex hkind hscans ih =>
    rw [wideFrom_cut (ne_nil_of_token hlex) hlex hkind, ih]
    rfl
  | leave hline hscans ih =>
    rw [wideFrom_leave, hline, List.drop_left, ih]
    rfl

/-- Scanning fails at a piece of the text. -/
theorem exists_cut_of_wideFrom_error {mode : Mode} {offset : Nat} {cs : List Char}
    {error : ScanError} (h : wideFrom mode offset cs = .error error) :
    ∃ left text right, cs = left ++ (text ++ right) ∧
      IsRefusal (offset + Text.byteLength left) text right error := by
  induction hn : cs.length using Nat.strong_induction_on generalizing mode offset cs with
  | _ n ih =>
  subst hn
  -- What is scanned first is passed over when scanning fails after it.
  have hpass (mode : Mode) {text rest : List Char} (hlt : rest.length < cs.length)
      (hcs : cs = text ++ rest)
      (hrest : wideFrom mode (offset + Text.byteLength text) rest = .error error) :
      ∃ left text right, cs = left ++ (text ++ right) ∧
        IsRefusal (offset + Text.byteLength left) text right error := by
    obtain ⟨left, piece, right, rfl, hrefusal⟩ := ih _ hlt hrest rfl
    refine ⟨text ++ left, piece, right, by rw [hcs, List.append_assoc], ?_⟩
    rwa [Text.byteLength_append, ← Nat.add_assoc]
  cases first mode cs with
  | done =>
    rw [wideFrom_nil] at h
    cases h
  | plain hplain =>
    rw [wideFrom_html, hplain, List.drop_eq_nil_of_le (by omega), wideFrom_nil] at h
    cases h
  | enter htext =>
    rw [wideFrom_html, htext, ← List.append_assoc, List.drop_left' (by simp)] at h
    refine hpass .code (by simp [openTag]; omega) (List.append_assoc ..).symm ?_
    rw [Text.byteLength_append, ← Nat.add_assoc]
    exact eq_error_of_map h
  | trivia htrivia =>
    have hlt := List.length_pos_iff.2 htrivia.ne_nil
    rw [wideFrom_skip _ htrivia] at h
    exact hpass .code (by simp; omega) rfl h
  | token hlex hclose =>
    have hlt := List.length_pos_iff.2 (ne_nil_of_token hlex)
    rw [wideFrom_cut (ne_nil_of_token hlex) hlex hclose] at h
    exact hpass .code (by simp; omega) rfl (eq_error_of_map h)
  | leave hline =>
    rw [wideFrom_leave, hline, List.drop_left, ← (mem_of_lineEndAfterTag hline).2] at h
    refine hpass .html (by simp; omega) (List.append_assoc ..).symm ?_
    rw [Text.byteLength_append, ← Nat.add_assoc]
    exact eq_error_of_map h
  | refused hrefused =>
    obtain ⟨_, herror, hrefusal⟩ := hrefused offset
    rw [herror] at h
    cases h
    exact ⟨[], _, _, rfl, hrefusal⟩

end Token

end PhpScript
