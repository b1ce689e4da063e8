import PhpScript.Proofs.Token.Scanning

/-!
# The tokens of a text tile it

A scanned text is cut into its tokens and the gaps between them, and a gap holds
nothing but tags, white space and comments, and one line end after a closing tag.
`Laid` is this layout, with the offsets that the tokens have in it; what it says
about a whole text is in `Tiles`, and `Token.scan_tiles` says it of every scan.
-/

namespace PhpScript

/-! ## Gaps -/

/-- What can stand before the rest of a text without leaving a token: in plain text a tag,
    and in code white space and comments. -/
inductive Gap : Mode → List Char → List Char → Prop
  | nil {mode : Mode} {rest : List Char} : Gap mode [] rest
  | tag {gap rest : List Char} : Gap .code gap rest → Gap .html (openTag ++ gap) rest
  | trivia {text gap rest : List Char} : Trivia text (gap ++ rest) → Gap .code gap rest →
    Gap .code (text ++ gap) rest

/-- What can stand after a token of a kind. -/
def GapAfter : TokenKind → List Char → List Char → Prop
  | .inlineHtml => Gap .html
  | .symbol .closeTag => fun gap rest =>
    ∃ lineEnd ∈ [[], ['\n'], ['\r', '\n']], ∃ tail, gap = lineEnd ++ tail ∧ Gap .html tail rest
  | _ => Gap .code

namespace Token

/-- The gap of the source before a token, and after the previous one if there is one. -/
def IsGapBetween (source : List Char) (previous? : Option Token) (t : Token) : Prop :=
  ∃ before gap rest, source = before ++ (gap ++ rest) ∧
    Text.byteLength (before ++ gap) = t.span.start ∧
    match previous? with
    | none => before = [] ∧ Gap .html gap rest
    | some previous => Text.byteLength before = previous.span.stop ∧
      GapAfter previous.kind gap rest

/-- The tokens and the gaps between them make up the source. -/
structure Tiles (source : String) (tokens : List Token) : Prop where
  /-- The end of the file is the last token, and only the last. -/
  ending : ∃ before, (∀ t ∈ before, t.kind ≠ .endOfFile) ∧
    tokens = before ++ [⟨.endOfFile, ⟨source.utf8ByteSize, source.utf8ByteSize⟩, ""⟩]
  /-- Every other token covers its text. -/
  covered : ∀ t ∈ tokens, t.kind ≠ .endOfFile →
    t.span.start < t.span.stop ∧ t.span.slice? source = some t.text
  ordered : tokens.Pairwise fun t u => t.span.stop ≤ u.span.start
  plain : ∀ t ∈ tokens, t.kind = .inlineHtml → ¬openTag <:+: t.text.toList
  gaps : ∀ before t after, tokens = before ++ t :: after →
    IsGapBetween source.toList before.getLast? t

/-! ## Layout -/

/-- Characters that make up a token of a kind. -/
structure Fills (kind : TokenKind) (text : List Char) : Prop where
  ne_nil : text ≠ []
  kind_ne : kind ≠ .endOfFile
  plain : kind = .inlineHtml → ¬openTag <:+: text

/-- A text from an offset on, laid out as gaps and tokens; the first gap is of a given form. -/
inductive Laid : (List Char → List Char → Prop) → Nat → List Char → List Token → Prop
  | last {G : List Char → List Char → Prop} {offset : Nat} {gap : List Char} :
    G gap [] → Laid G offset gap []
  | next {G : List Char → List Char → Prop} {offset : Nat} {kind : TokenKind}
    {gap text rest : List Char} {tokens : List Token} :
    G gap (text ++ rest) → Fills kind text →
    Laid (GapAfter kind) (offset + Text.byteLength gap + Text.byteLength text) rest tokens →
    Laid G offset (gap ++ (text ++ rest))
      (wide kind (offset + Text.byteLength gap) text :: tokens)

namespace Laid

variable {G H : List Char → List Char → Prop} {offset : Nat} {cs : List Char}
  {tokens : List Token}

/-- A piece before the first gap makes it a longer one. -/
theorem cons {piece : List Char} (h : Laid G (offset + Text.byteLength piece) cs tokens)
    (hgap : ∀ gap rest, gap ++ rest = cs → G gap rest → H (piece ++ gap) rest) :
    Laid H offset (piece ++ cs) tokens := by
  cases h with
  | last hG => exact .last (hgap _ _ (List.append_nil _) hG)
  | next hG hfills hrest =>
    have hoffset (gap : List Char) : offset + Text.byteLength piece + Text.byteLength gap =
        offset + Text.byteLength (piece ++ gap) := by rw [Text.byteLength_append, Nat.add_assoc]
    rw [← List.append_assoc piece]
    rw [hoffset] at hrest ⊢
    exact .next (hgap _ _ rfl hG) hfills hrest

/-- A token without a gap before it. -/
theorem here {kind : TokenKind} {text : List Char} (hG : G [] (text ++ cs))
    (hfills : Fills kind text)
    (h : Laid (GapAfter kind) (offset + Text.byteLength text) cs tokens) :
    Laid G offset (text ++ cs) (wide kind offset text :: tokens) :=
  .next hG hfills h

/-- Plain text without a gap before it, if there is any. -/
theorem plain {text : List Char} (htext : ¬openTag <:+: text)
    (h : Laid (Gap .html) (offset + Text.byteLength text) cs tokens) :
    Laid (Gap .html) offset (text ++ cs) (ofText offset text ++ tokens) := by
  cases text with
  | nil => exact h
  | cons c text => exact .here .nil ⟨by simp, by simp, fun _ => htext⟩ h

theorem bounds (h : Laid G offset cs tokens) :
    (∀ t ∈ tokens, offset ≤ t.span.start ∧ t.span.stop ≤ offset + Text.byteLength cs) ∧
      tokens.Pairwise fun t u => t.span.stop ≤ u.span.start := by
  induction h with
  | last hG => simp
  | next hG hfills hrest ih =>
    obtain ⟨hbounds, hpairs⟩ := ih
    simp only [List.forall_mem_cons, List.pairwise_cons, Text.byteLength_append, wide,
      Span.wide]
    refine ⟨⟨by omega, fun u hu => ?_⟩, fun u hu => ?_, hpairs⟩
    · have hle := hbounds u hu
      omega
    · exact (hbounds u hu).1

/-- Every token is a piece of the text. -/
theorem exists_cut (h : Laid G offset cs tokens) (before : List Char)
    (hbefore : Text.byteLength before = offset) :
    ∀ t ∈ tokens, ∃ left text right, Fills t.kind text ∧ before ++ cs = left ++ (text ++ right) ∧
      t = wide t.kind (Text.byteLength left) text := by
  induction h generalizing before with
  | last hG => simp
  | @next G offset kind gap text rest tokens hG hfills hrest ih =>
    rw [List.forall_mem_cons]
    refine ⟨⟨before ++ gap, text, rest, hfills, by simp, ?_⟩, ?_⟩
    · rw [Text.byteLength_append, hbefore]
      rfl
    · have hcuts := ih (before ++ gap ++ text) (by simp [hbefore, Nat.add_assoc])
      simpa using hcuts

theorem gaps (h : Laid G offset cs tokens) (done : List Char)
    (hdone : Text.byteLength done = offset) {final : Token}
    (hfinal : final.span.start = offset + Text.byteLength cs) {before after : List Token}
    {t : Token} (heq : tokens ++ [final] = before ++ t :: after) :
    ∃ left gap rest, done ++ cs = left ++ (gap ++ rest) ∧
      Text.byteLength (left ++ gap) = t.span.start ∧
      match before.getLast? with
      | none => left = done ∧ G gap rest
      | some previous => Text.byteLength left = previous.span.stop ∧
        GapAfter previous.kind gap rest := by
  induction h generalizing before done with
  | @last G offset gap hG =>
    rw [List.nil_append, List.singleton_eq_append_iff] at heq
    obtain ⟨rfl, hcons⟩ | ⟨-, hnil⟩ := heq
    · cases hcons
      exact ⟨done, gap, [], by simp, by simp [hdone, hfinal], rfl, hG⟩
    · cases hnil
  | @next G offset kind gap text rest tokens hG hfills hrest ih =>
    cases before with
    | nil =>
      cases heq
      exact ⟨done, gap, text ++ rest, rfl, by simp [hdone, wide, Span.wide], rfl, hG⟩
    | cons first before =>
      rw [List.cons_append, List.cons_append, List.cons.injEq] at heq
      obtain ⟨rfl, heq⟩ := heq
      obtain ⟨left, gap', rest', hcut, hstart, hafter⟩ := ih (done ++ gap ++ text)
        (by simp [hdone, Nat.add_assoc]) (by rw [hfinal]; simp [Nat.add_assoc]) heq
      refine ⟨left, gap', rest', by simpa using hcut, hstart, ?_⟩
      rw [List.getLast?_cons]
      cases hlast : before.getLast? with
      | none =>
        rw [hlast] at hafter
        obtain ⟨rfl, hgap⟩ := hafter
        exact ⟨by simp [hdone, wide, Span.wide, Nat.add_assoc], hgap⟩
      | some previous =>
        rw [hlast] at hafter
        exact hafter

end Laid

theorem gapAfter_eq {kind : TokenKind} (hclose : kind ≠ .symbol .closeTag)
    (hplain : kind ≠ .inlineHtml) : GapAfter kind = Gap .code := by
  unfold GapAfter
  split
  · exact absurd rfl hplain
  · exact absurd rfl hclose
  · rfl

theorem fills_of_token {kind : TokenKind} {text rest : List Char}
    (hlex : Lexeme.ofCode (text ++ rest) = .token kind text.length) :
    kind ≠ .inlineHtml ∧ Fills kind text := by
  obtain ⟨r, hr, -⟩ := Lexeme.exists_pattern_of_token hlex
  have hkind : kind ≠ .inlineHtml ∧ kind ≠ .endOfFile := by
    cases r <;> cases hr <;> simp
  exact ⟨hkind.1, ne_nil_of_token hlex, hkind.2, fun h => absurd h hkind.1⟩

/-- Scanning lays a text out. -/
theorem Scans.laid {mode : Mode} {offset : Nat} {cs : List Char} {tokens : List Token}
    (h : Scans mode offset cs tokens) : Laid (Gap mode) offset cs tokens := by
  induction h with
  | done => exact .last .nil
  | plain htext =>
    have hnot := htext ▸ not_infix_beforeTag _
    simpa using Laid.plain hnot (.last .nil)
  | enter htext hscans ih =>
    have hnot := htext ▸ not_infix_beforeTag _
    exact .plain hnot (.cons ih fun gap rest _ hgap => .tag hgap)
  | trivia htrivia hscans ih =>
    exact .cons ih fun gap rest heq hgap => .trivia (heq ▸ htrivia) hgap
  | token hlex hkind hscans ih =>
    obtain ⟨hplain, hfills⟩ := fills_of_token hlex
    exact .here .nil hfills (gapAfter_eq hkind hplain ▸ ih)
  | leave hline hscans ih =>
    obtain ⟨hmem, hbytes⟩ := mem_of_lineEndAfterTag hline
    rw [← hbytes] at ih
    exact .here .nil ⟨by simp, by simp, by simp⟩
      (.cons ih fun gap rest _ hgap => ⟨_, hmem, gap, rfl, hgap⟩)

/-! ## Tiling -/

/-- A token that is a piece of a text covers just this piece. -/
theorem covers_of_cut {source : String} {kind : TokenKind} {left text right : List Char}
    (hsize : source.utf8ByteSize < Span.limit) (hne : text ≠ [])
    (hsource : source.toList = left ++ (text ++ right)) :
    (wide kind (Text.byteLength left) text).span.start <
        (wide kind (Text.byteLength left) text).span.stop ∧
      (wide kind (Text.byteLength left) text).span.slice? source =
        some (String.ofList text) := by
  have hlt : Text.byteLength left < Span.limit := by
    rw [Text.utf8ByteSize_eq, hsource, Text.byteLength_append] at hsize
    omega
  have hknown : ¬(wide kind (Text.byteLength left) text).span.isUnknown := by
    simpa [Span.isUnknown, wide, Span.wide] using hlt.ne
  rw [Span.slice?, if_neg hknown]
  exact ⟨Nat.lt_add_of_pos_right (Text.byteLength_pos hne), Text.slice?_append hsource⟩

/-- The tokens of a text below the largest offset tile it. -/
theorem scan_tiles {source : String} {tokens : List Token}
    (hsize : source.utf8ByteSize < Span.limit) (h : scan source = .ok tokens) :
    Tiles source tokens := by
  rw [scan_eq_scanWide (Nat.le_of_lt hsize)] at h
  obtain ⟨before, hbefore, heq⟩ := exists_of_bind_eq_ok h
  cases heq
  have hlaid := (Scans.of_wideFrom hbefore).laid
  have hend : (⟨.endOfFile, ⟨source.utf8ByteSize, source.utf8ByteSize⟩, ""⟩ : Token).span.start =
      0 + Text.byteLength source.toList := by rw [Nat.zero_add, ← Text.utf8ByteSize_eq]
  have hcuts := hlaid.exists_cut [] rfl
  have hmem : ∀ t ∈ before ++ [⟨.endOfFile, ⟨source.utf8ByteSize, source.utf8ByteSize⟩, ""⟩],
      t.kind ≠ .endOfFile → t ∈ before := by
    intro t ht hkind
    rcases List.mem_append.1 ht with ht | ht
    · exact ht
    · exact absurd (List.mem_singleton.1 ht ▸ rfl) hkind
  constructor
  case ending =>
    refine ⟨before, fun t ht => ?_, rfl⟩
    obtain ⟨left, text, right, hfills, -⟩ := hcuts t ht
    exact hfills.kind_ne
  case covered =>
    intro t ht hkind
    obtain ⟨left, text, right, hfills, hsource, heq⟩ := hcuts t (hmem t ht hkind)
    rw [heq]
    exact covers_of_cut hsize hfills.ne_nil hsource
  case ordered =>
    obtain ⟨hbounds, hpairs⟩ := hlaid.bounds
    refine List.pairwise_append.2 ⟨hpairs, List.pairwise_singleton _ _, fun t ht u hu => ?_⟩
    rw [List.mem_singleton.1 hu, hend]
    exact (hbounds t ht).2
  case plain =>
    intro t ht hkind
    obtain ⟨left, text, right, hfills, hsource, heq⟩ := hcuts t (hmem t ht (by simp [hkind]))
    rw [heq, wide, String.toList_ofList]
    exact hfills.plain hkind
  case gaps =>
    intro before' t after heq
    exact hlaid.gaps [] rfl hend heq

/-- Plain text, code with a comment, a line end after the closing tag, and plain text again. -/
theorem tiles_comment_between_texts :
    ∃ tokens, "é<?php #b\n$c?>\r\nd".utf8ByteSize < Span.limit ∧
      scan "é<?php #b\n$c?>\r\nd" = .ok tokens ∧ Tiles "é<?php #b\n$c?>\r\nd" tokens := by
  have hsize : "é<?php #b\n$c?>\r\nd".utf8ByteSize < Span.limit := by decide +kernel
  have hscan : scan "é<?php #b\n$c?>\r\nd" = .ok
      [⟨.inlineHtml, ⟨0, 2⟩, "é"⟩, ⟨.varName, ⟨11, 13⟩, "$c"⟩,
       ⟨.symbol .closeTag, ⟨13, 15⟩, "?>"⟩, ⟨.inlineHtml, ⟨17, 18⟩, "d"⟩,
       ⟨.endOfFile, ⟨18, 18⟩, ""⟩] := by decide +kernel
  exact ⟨_, hsize, hscan, scan_tiles hsize hscan⟩

end Token

end PhpScript
