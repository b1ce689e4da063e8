import PhpScript.Proofs.Token.Scanning

/-!
# Scanning beyond the largest offset

What still holds of the tokens of a text that a span cannot reach to the end:

* `Token.scan_isShown`: every token shows what its span covers in the text, if that is
  anything;
* `Token.scan_eq_map_narrow`: without a closing tag the tokens are those of the wide
  scan, with the spans that hold their offsets.

So a token can show what stands at the beginning of the text. `Token.scan_farText` gives
the tokens of code that begins right beyond the largest offset.
-/

namespace PhpScript

namespace Token

/-! ## What is shown -/

/-- The token shows what its span covers in the source, or nothing. -/
def IsShown (source : String) (t : Token) : Prop := t.text = (t.span.slice? source).getD ""

/-- A token that covers nothing shows nothing. -/
theorem isShown_empty (source : String) (kind : TokenKind) (offset : Nat) :
    IsShown source ⟨kind, ⟨offset, offset⟩, ""⟩ := by
  rw [IsShown, Span.slice?, Text.slice?]
  split
  · rfl
  · cases Text.dropBytes? offset source.toList <;> simp [Text.takeBytes?]

theorem ofChars_nil (source : String) (kind : TokenKind) (offset : Nat) :
    ofChars source kind offset [] = ⟨kind, ⟨Span.wrap offset, Span.wrap offset⟩, ""⟩ := by
  have hshown : "" = _ := isShown_empty source kind (Span.wrap offset)
  simp [ofChars, Span.ofChars, ← hshown]

section

variable {source : String} {kind : TokenKind}

/-- As long as the span holds the end of the text, that text is what it covers. -/
theorem ofChars_isShown {left mid right : List Char}
    (hsource : source.toList = left ++ (mid ++ right)) (hne : mid ≠ []) :
    (ofChars source kind (Text.byteLength left) mid).IsShown source := by
  unfold IsShown ofChars
  simp only
  split
  · next hstop =>
    have hpos := Text.byteLength_pos hne
    have hle : Text.byteLength left + Text.byteLength mid ≤ Span.limit := by
      rw [← hstop]
      exact Span.wrap_le _
    have hknown : (Text.byteLength left == Span.limit) = false := beq_false_of_ne (by omega)
    rw [Span.ofChars_eq_wide hle, Span.wide, Span.slice?, Span.isUnknown, hknown,
      if_neg Bool.false_ne_true, Text.slice?_append hsource, Option.getD_some]
  · rfl

/-- A lexeme that is not empty, and what is left after it. -/
theorem take_drop_of_cut {c : Char} {cs text rest : List Char} (hcs : c :: cs = text ++ rest)
    (hne : text ≠ []) :
    (c :: cs).take text.length = text ∧ cs.drop (text.length - 1) = rest := by
  obtain ⟨d, text, rfl⟩ := List.exists_cons_of_ne_nil hne
  obtain ⟨rfl, rfl⟩ := List.cons.inj hcs
  simp

/-- The code of a source, and what follows its closing tag. -/
theorem scanCode_isShown {left cs : List Char} {tokens : List Token}
    {tag? : Option (Nat × List Char)} (hsource : source.toList = left ++ cs)
    (h : scanCode source (Text.byteLength left) cs = .ok (tokens, tag?)) :
    (∀ t ∈ tokens, t.IsShown source) ∧
      ∀ stop rest, tag? = some (stop, rest) →
        ∃ before, source.toList = before ++ rest ∧ Text.byteLength before = stop := by
  induction hlen : cs.length using Nat.strong_induction_on generalizing left cs tokens tag? with
  | _ len ih =>
  subst hlen
  cases cs with
  | nil =>
    rw [scanCode_nil] at h
    cases h
    exact ⟨by simp, by simp⟩
  | cons c cs =>
    cases hlex : Lexeme.ofCode (c :: cs) with
    | token kind n =>
      obtain ⟨text, rest, hcs, rfl⟩ := Lexeme.exists_cut_of_token hlex
      have hne := ne_nil_of_token (hcs ▸ hlex)
      obtain ⟨htake, hdrop⟩ := take_drop_of_cut hcs hne
      have hshown : (ofChars source kind (Text.byteLength left) text).IsShown source :=
        ofChars_isShown (hcs ▸ hsource) hne
      by_cases hkind : kind = .symbol .closeTag
      · subst hkind
        rw [scanCode_closeTag hlex, htake, hdrop] at h
        cases h
        refine ⟨List.forall_mem_singleton.2 hshown, fun stop rest heq => ?_⟩
        cases heq
        exact ⟨left ++ text, by rw [hsource, hcs, List.append_assoc], Text.byteLength_append _ _⟩
      · rw [scanCode_token hlex hkind, htake, hdrop, ← Text.byteLength_append] at h
        obtain ⟨⟨after, tag'?⟩, hafter, heq⟩ := exists_of_map_eq_ok h
        cases heq
        obtain ⟨htokens, htag⟩ := ih _ (by simp [hcs, List.length_pos_iff.2 hne])
          (by rw [hsource, hcs, List.append_assoc]) hafter rfl
        exact ⟨List.forall_mem_cons.2 ⟨hshown, htokens⟩, htag⟩
    | trivia n =>
      obtain ⟨text, rest, hcs, rfl, htrivia⟩ := Lexeme.trivia_of_ofCode hlex
      obtain ⟨htake, hdrop⟩ := take_drop_of_cut hcs htrivia.ne_nil
      rw [scanCode_trivia hlex, htake, hdrop, ← Text.byteLength_append] at h
      exact ih _ (by simp [hcs, List.length_pos_iff.2 htrivia.ne_nil])
        (by rw [hsource, hcs, List.append_assoc]) h rfl
    | unrecognized n =>
      unfold scanCode at h
      simp only [hlex] at h
      cases h
    | unterminatedComment n =>
      unfold scanCode at h
      simp only [hlex] at h
      cases h

/-- The code after plain text and a tag; without a tag there is none. -/
theorem scanCode_isShown_of_beforeTag {left cs : List Char} {tokens : List Token}
    {tag? : Option (Nat × List Char)} (hsource : source.toList = left ++ cs)
    (h : scanCode source (Text.byteLength left + Text.byteLength (beforeTag cs) + openTag.length)
      (cs.drop ((beforeTag cs).length + openTag.length)) = .ok (tokens, tag?)) :
    (∀ t ∈ tokens, t.IsShown source) ∧
      ∀ stop rest, tag? = some (stop, rest) →
        ∃ before, source.toList = before ++ rest ∧ Text.byteLength before = stop := by
  rcases beforeTag_eq cs with hplain | ⟨rest, htag⟩
  · rw [hplain, List.drop_eq_nil_of_le (Nat.le_add_right _ _), scanCode_nil] at h
    cases h
    exact ⟨by simp, by simp⟩
  · have hplace : source.toList = (left ++ beforeTag cs ++ openTag) ++ rest := by
      rw [hsource, List.append_assoc, List.append_assoc, ← htag]
    have hdrop : cs.drop ((beforeTag cs).length + openTag.length) = rest := by
      generalize beforeTag cs = html at htag ⊢
      rw [htag, ← List.append_assoc, ← List.length_append, List.drop_left]
    have hoffset : Text.byteLength (left ++ beforeTag cs ++ openTag) =
        Text.byteLength left + Text.byteLength (beforeTag cs) + openTag.length := by
      rw [Text.byteLength_append, Text.byteLength_append]
      rfl
    rw [hdrop, ← hoffset] at h
    exact scanCode_isShown hplace h

/-- Plain text goes on at a place of the source. -/
theorem exists_of_resume? {before rest cs : List Char} {offset : Nat}
    (hsource : source.toList = before ++ rest)
    (h : resume? source (Text.byteLength before) rest = some (offset, cs)) :
    ∃ left, source.toList = left ++ cs ∧ Text.byteLength left = offset := by
  obtain ⟨found, hfound, heq⟩ := Option.map_eq_some_iff.1 h
  cases heq
  obtain ⟨left, hleft, hplace⟩ : ∃ left, source.toList = left ++ found ∧
      Text.byteLength left = Span.wrap (Text.byteLength before) := by
    split at hfound
    · next hstop =>
      cases hfound
      exact ⟨before, hsource, hstop.symm⟩
    · exact Text.exists_of_dropBytes? hfound
  -- One line end is passed over, if there is one.
  obtain ⟨lineEnd, after, hcut, hlength, hmem⟩ := exists_lineEnd found
  have hbytes := (mem_of_lineEndAfterTag (hcut ▸ hlength)).2
  refine ⟨left ++ lineEnd, ?_, ?_⟩
  · rw [hlength, hleft, hcut, List.drop_left, List.append_assoc]
  · rw [Text.byteLength_append, hplace, hbytes, hlength]

/-- Plain text and code from a place of the source on. -/
theorem scanFrom_isShown {bound left cs : List Char} {tokens : List Token}
    (hsource : source.toList = left ++ cs)
    (h : scanFrom source bound (Text.byteLength left) cs = .ok tokens) :
    ∀ t ∈ tokens, t.IsShown source := by
  induction bound generalizing left cs tokens with
  | nil =>
    cases cs with
    | nil =>
      cases h
      simp
    | cons c cs => cases h
  | cons b bound ih =>
    cases cs with
    | nil =>
      cases h
      simp
    | cons c cs =>
      rw [scanFrom] at h
      obtain ⟨⟨code, tag?⟩, hcode, h⟩ := exists_of_bind_eq_ok h
      obtain ⟨hcode, htag⟩ := scanCode_isShown_of_beforeTag hsource hcode
      have hhtml (hne : beforeTag (c :: cs) ≠ []) :
          (ofChars source .inlineHtml (Text.byteLength left) (beforeTag (c :: cs))).IsShown
            source := by
        obtain ⟨rest, hrest⟩ := beforeTag_begins (c :: cs)
        exact ofChars_isShown (by rw [hsource, hrest]) hne
      obtain ⟨after, hafter, htokens⟩ : ∃ after, (∀ t ∈ after, t.IsShown source) ∧
          tokens = if (beforeTag (c :: cs)).isEmpty then code ++ after
            else ofChars source .inlineHtml (Text.byteLength left) (beforeTag (c :: cs)) ::
              (code ++ after) := by
        cases tag? with
        | none =>
          cases h
          exact ⟨[], by simp, rfl⟩
        | some tag =>
          obtain ⟨stop, rest⟩ := tag
          obtain ⟨before, hbefore, rfl⟩ := htag stop rest rfl
          simp only at h
          split at h
          · next offset cs hresume =>
            obtain ⟨after, hscan, h⟩ := exists_of_bind_eq_ok h
            cases h
            obtain ⟨place, hplace, rfl⟩ := exists_of_resume? hbefore hresume
            exact ⟨after, ih hplace hscan, rfl⟩
          · cases h
      have hrest := List.forall_mem_append.2 ⟨hcode, hafter⟩
      rw [htokens]
      split
      · exact hrest
      · next hempty => exact List.forall_mem_cons.2 ⟨hhtml (by simpa using hempty), hrest⟩

/-- Every token shows what its span covers in the source. -/
theorem scan_isShown {tokens : List Token} (h : scan source = .ok tokens) :
    ∀ t ∈ tokens, t.IsShown source := by
  obtain ⟨before, hbefore, heq⟩ := exists_of_bind_eq_ok h
  cases heq
  intro t ht
  rcases List.mem_append.1 ht with ht | ht
  · have hfrom : scanFrom source source.toList (Text.byteLength []) source.toList = .ok before :=
      hbefore
    exact scanFrom_isShown rfl hfrom t ht
  · rw [List.mem_singleton.1 ht]
    exact isShown_empty source _ _

end

/-! ## Where no tag closes the code -/

/-- A token of the wide scan as a span holds it. -/
def narrow (source : String) (t : Token) : Token :=
  ofChars source t.kind t.span.start t.text.toList

theorem narrow_wide (source : String) (kind : TokenKind) (offset : Nat) (cs : List Char) :
    narrow source (wide kind offset cs) = ofChars source kind offset cs := by
  rw [narrow, wide, String.toList_ofList]
  rfl

/-- A token that ends beyond the largest offset shows what stands where its span points. -/
theorem ofChars_of_limit_lt {source : String} {kind : TokenKind} {offset : Nat}
    {cs : List Char} (left mid right : List Char) (hsource : source.toList = left ++ (mid ++ right))
    (hstart : Span.wrap offset = Text.byteLength left)
    (hstop : Span.wrap (offset + Text.byteLength cs) = Text.byteLength left + Text.byteLength mid)
    (hknown : Text.byteLength left ≠ Span.limit)
    (hfar : Span.limit < offset + Text.byteLength cs) :
    ofChars source kind offset cs =
      ⟨kind, ⟨Text.byteLength left, Text.byteLength left + Text.byteLength mid⟩,
        String.ofList mid⟩ := by
  have hne : Text.byteLength left + Text.byteLength mid ≠ offset + Text.byteLength cs := by
    have hle := Span.wrap_le (offset + Text.byteLength cs)
    omega
  have hslice : (Span.mk (Text.byteLength left)
      (Text.byteLength left + Text.byteLength mid)).slice? source = some (String.ofList mid) := by
    rw [Span.slice?, Span.isUnknown, beq_false_of_ne hknown, if_neg Bool.false_ne_true]
    exact Text.slice?_append hsource
  simp only [ofChars, Span.ofChars, hstart, hstop, if_neg hne, hslice, Option.getD_some]

theorem scanCode_of_wideFrom (source : String) {offset : Nat} {cs : List Char}
    {tokens : List Token} (h : wideFrom .code offset cs = .ok tokens)
    (hopen : ∀ t ∈ tokens, t.kind ≠ .symbol .closeTag) :
    scanCode source offset cs = .ok (tokens.map (narrow source), none) := by
  induction hlen : cs.length using Nat.strongRecOn generalizing offset cs tokens with
  | _ len ih =>
  subst hlen
  cases cs with
  | nil =>
    rw [wideFrom_nil] at h
    cases h
    exact scanCode_nil
  | cons c cs =>
    have hlength (n : Nat) : (cs.drop (n - 1)).length < (c :: cs).length := by
      simp only [List.length_drop, List.length_cons]
      omega
    cases hlex : Lexeme.ofCode (c :: cs) with
    | token kind n =>
      by_cases hkind : kind = .symbol .closeTag
      · subst hkind
        rw [wideFrom_closeTag hlex] at h
        obtain ⟨after, hafter, hcons⟩ := exists_of_map_eq_ok h
        subst hcons
        exact absurd rfl (hopen _ List.mem_cons_self)
      · rw [wideFrom_token hlex hkind] at h
        obtain ⟨after, hafter, hcons⟩ := exists_of_map_eq_ok h
        subst hcons
        have hrest := ih _ (hlength n) hafter (fun t ht => hopen t (List.mem_cons_of_mem _ ht)) rfl
        rw [scanCode_token hlex hkind, ← narrow_wide]
        exact congrArg (_ <$> ·) hrest
    | trivia n =>
      rw [wideFrom_trivia hlex] at h
      rw [scanCode_trivia hlex]
      exact ih _ (hlength n) h hopen rfl
    | unrecognized n =>
      unfold wideFrom at h
      simp only [hlex] at h
      cases h
    | unterminatedComment n =>
      unfold wideFrom at h
      simp only [hlex] at h
      cases h

/-- Plain text and the code after it, in which no tag ends it. -/
theorem scanFrom_of_wideFrom {source : String} {offset : Nat} {cs : List Char}
    {tokens : List Token} (h : wideFrom .html offset cs = .ok tokens)
    (hopen : ∀ t ∈ tokens, t.kind ≠ .symbol .closeTag) :
    scanFrom source cs offset cs = .ok (tokens.map (narrow source)) := by
  cases cs with
  | nil =>
    rw [wideFrom_nil] at h
    cases h
    rfl
  | cons c cs =>
    rw [wideFrom_html] at h
    obtain ⟨code, hcode, htokens⟩ := exists_of_map_eq_ok h
    subst htokens
    have hcode := scanCode_of_wideFrom source hcode
      (fun t ht => hopen t (List.mem_append_right _ ht))
    have hdrop : (c :: cs).drop ((beforeTag (c :: cs)).length + openTag.length) =
        cs.drop ((beforeTag (c :: cs)).length + openTag.length - 1) := rfl
    rw [hdrop] at hcode
    rw [scanFrom, ofText]
    generalize beforeTag (c :: cs) = html at *
    simp only [hcode, bind, Except.bind, pure, Except.pure, List.append_nil]
    cases html with
    | nil => rfl
    | cons b html =>
      rw [List.isEmpty_cons, if_neg Bool.false_ne_true, if_neg Bool.false_ne_true,
        List.singleton_append, List.map_cons, narrow_wide]

/-- Without a closing tag the tokens of a text are those of the wide scan, whatever its size,
    each with the span that holds its offsets and with the text that this span covers. -/
theorem scan_eq_map_narrow {source : String} {tokens : List Token}
    (h : scanWide source = .ok tokens) (hopen : ∀ t ∈ tokens, t.kind ≠ .symbol .closeTag) :
    scan source = .ok (tokens.map (narrow source)) := by
  obtain ⟨before, hbefore, heq⟩ := exists_of_bind_eq_ok h
  cases heq
  have hopen := fun t ht => hopen t (List.mem_append_left _ ht)
  have hfrom : scanFrom source source.toList 0 source.toList = .ok (before.map (narrow source)) :=
    scanFrom_of_wideFrom hbefore hopen
  have hend : narrow source ⟨.endOfFile, ⟨source.utf8ByteSize, source.utf8ByteSize⟩, ""⟩ =
      ⟨.endOfFile, ⟨Span.wrap source.utf8ByteSize, Span.wrap source.utf8ByteSize⟩, ""⟩ := by
    rw [narrow]
    exact ofChars_nil source .endOfFile source.utf8ByteSize
  rw [scan, hfrom, List.map_append, List.map_singleton, hend]
  rfl

/-! ## Code right beyond the largest offset -/

/-- One token of code, where the text is given as the token and the rest. -/
theorem Scans.cut {offset : Nat} {kind : TokenKind} {tokens : List Token} (text rest : List Char)
    (hlex : Lexeme.ofCode (text ++ rest) = .token kind text.length)
    (hkind : kind ≠ .symbol .closeTag)
    (h : Scans .code (offset + Text.byteLength text) rest tokens) :
    Scans .code offset (text ++ rest) (wide kind offset text :: tokens) := .token hlex hkind h

/-- Plain text, an opening tag, and code after `n` blanks. -/
def farText (html : List Char) (n : Nat) (code : List Char) : String :=
  String.ofList (html ++ (openTag ++ (List.replicate n ' ' ++ code)))

section

variable {html code : List Char} {n : Nat}

/-- The code of the text is scanned like code at an offset that no span holds. -/
theorem scan_farText {tokens : List Token}
    (hhead : Text.byteLength html + openTag.length ≤ Span.limit)
    (hn : Text.byteLength html + (openTag.length + n) = Span.limit + 1)
    (hhtml : beforeTag (html ++ (openTag ++ (List.replicate n ' ' ++ code))) = html)
    (hcode : Scans .code (Span.limit + 1) code tokens)
    (hopen : ∀ t ∈ tokens, t.kind ≠ .symbol .closeTag) :
    scan (farText html n code) =
      .ok (ofText 0 html ++ tokens.map (narrow (farText html n code)) ++
        [⟨.endOfFile, ⟨Span.wrap (Text.byteLength code), Span.wrap (Text.byteLength code)⟩,
          ""⟩]) := by
  have hpos : n ≠ 0 := by omega
  have hblanks : Text.byteLength (List.replicate n ' ') = n := Text.byteLength_replicate _ rfl
  have htag : Text.byteLength openTag = openTag.length := rfl
  have hscans : Scans .html 0 (farText html n code).toList (ofText 0 html ++ tokens) := by
    rw [farText, String.toList_ofList]
    refine .enter hhtml (.trivia (.blanks (by simp [hpos]) (by simp [isCodeBlank])) ?_)
    rwa [hblanks, Nat.zero_add, Nat.add_assoc, hn]
  have hsize : (farText html n code).utf8ByteSize = Text.byteLength code + (Span.limit + 1) := by
    rw [farText, Text.utf8ByteSize_ofList, Text.byteLength_append, Text.byteLength_append,
      Text.byteLength_append, hblanks, htag]
    omega
  have hwide : scanWide (farText html n code) = .ok (ofText 0 html ++ tokens ++
      [⟨.endOfFile, ⟨Text.byteLength code + (Span.limit + 1),
        Text.byteLength code + (Span.limit + 1)⟩, ""⟩]) := by
    rw [scanWide, hscans.wideFrom_eq, hsize]
    rfl
  have hplain : (ofText 0 html).map (narrow (farText html n code)) = ofText 0 html := by
    rw [ofText]
    split
    · rfl
    · rw [List.map_singleton, narrow_wide, ofChars_eq_wide (by omega)]
  have hend : narrow (farText html n code) ⟨.endOfFile, ⟨Text.byteLength code + (Span.limit + 1),
      Text.byteLength code + (Span.limit + 1)⟩, ""⟩ =
      ⟨.endOfFile, ⟨Span.wrap (Text.byteLength code), Span.wrap (Text.byteLength code)⟩, ""⟩ := by
    rw [narrow, ← Span.wrap_add_round]
    exact ofChars_nil _ _ _
  rw [scan_eq_map_narrow hwide, List.map_append, List.map_append, hplain, List.map_singleton, hend]
  intro t ht
  rcases List.mem_append.1 ht with ht | ht
  · rcases List.mem_append.1 ht with ht | ht
    · simp [mem_ofText ht]
    · exact hopen t ht
  · simp [List.mem_singleton.1 ht]

/-- A token of the code shows what stands as far from the start of the text as the token from
    the start of the code. -/
theorem narrow_far (left mid : List Char) {right cs : List Char} {source : String}
    {kind : TokenKind} (hsource : source.toList = left ++ (mid ++ right))
    (hbytes : Text.byteLength mid = Text.byteLength cs)
    (hfits : Text.byteLength left + Text.byteLength cs < Span.limit) :
    narrow source (wide kind (Span.limit + 1 + Text.byteLength left) cs) =
      ⟨kind, ⟨Text.byteLength left, Text.byteLength left + Text.byteLength cs⟩,
        String.ofList mid⟩ := by
  rw [narrow_wide, ← hbytes]
  refine ofChars_of_limit_lt left mid right hsource ?_ ?_ (by omega) (by omega)
  · rw [Nat.add_comm, Span.wrap_add_round, Span.wrap_of_le (by omega)]
  · rw [← hbytes, Nat.add_assoc, Nat.add_comm, Span.wrap_add_round, Span.wrap_of_le (by omega)]

/-- A statement of one token shows the beginning of the opening tag. -/
theorem scan_farStatement {kind : TokenKind} (text shown mark : List Char) {right : List Char}
    (htag : openTag = shown ++ (mark ++ right))
    (hshown : Text.byteLength shown = Text.byteLength text) (hmark : Text.byteLength mark = 1)
    (hlex : Lexeme.ofCode (text ++ [';']) = .token kind text.length)
    (hkind : kind ≠ .symbol .closeTag) (hn : openTag.length + n = Span.limit + 1) :
    scan (farText [] n (text ++ [';'])) =
      .ok [⟨kind, ⟨0, Text.byteLength text⟩, String.ofList shown⟩,
        ⟨.symbol .semicolon, ⟨Text.byteLength text, Text.byteLength text + 1⟩,
          String.ofList mark⟩,
        ⟨.endOfFile, ⟨Text.byteLength text + 1, Text.byteLength text + 1⟩, ""⟩] := by
  have hsize : Text.byteLength shown + 1 ≤ openTag.length := by
    have hlength : openTag.length = Text.byteLength openTag := rfl
    rw [hlength, htag, Text.byteLength_append, Text.byteLength_append, hmark]
    omega
  have hle : openTag.length < Span.limit := by decide
  have hcode : Scans .code (Span.limit + 1) (text ++ [';'])
      [wide kind (Span.limit + 1) text,
        wide (.symbol .semicolon) (Span.limit + 1 + Text.byteLength shown) [';']] := by
    rw [hshown]
    exact .cut text [';'] hlex hkind (.cut [';'] [] rfl (by decide) .done)
  have hsource : (farText [] n (text ++ [';'])).toList =
      shown ++ (mark ++ (right ++ (List.replicate n ' ' ++ (text ++ [';'])))) := by
    rw [farText, String.toList_ofList, htag]
    simp
  have hfirst : narrow (farText [] n (text ++ [';'])) (wide kind (Span.limit + 1) text) =
      ⟨kind, ⟨0, 0 + Text.byteLength text⟩, String.ofList shown⟩ :=
    narrow_far [] shown hsource hshown (by simp only [Text.byteLength_nil]; omega)
  have hsecond : narrow (farText [] n (text ++ [';']))
      (wide (.symbol .semicolon) (Span.limit + 1 + Text.byteLength shown) [';']) =
        ⟨.symbol .semicolon, ⟨Text.byteLength shown, Text.byteLength shown + 1⟩,
          String.ofList mark⟩ :=
    narrow_far shown mark hsource hmark (show Text.byteLength shown + 1 < Span.limit by omega)
  have hend : Text.byteLength (text ++ [';']) = Text.byteLength text + 1 :=
    Text.byteLength_append _ _
  have hhead : Text.byteLength [] + openTag.length ≤ Span.limit := by decide
  rw [scan_farText hhead (by rwa [Text.byteLength_nil, Nat.zero_add]) rfl hcode
    (by simpa [wide] using hkind), List.map_cons, List.map_singleton, hfirst, hsecond, hend, hshown,
    Nat.zero_add, Span.wrap_of_le (by omega)]
  rfl

end

end Token

end PhpScript
