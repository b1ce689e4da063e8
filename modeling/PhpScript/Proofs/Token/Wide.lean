import PhpScript.Token.Scan

/-!
# Scanning with offsets of any size

`Token.scanWide` scans a text as if a span held every offset: plain text goes on
right after a closing tag, and a token shows the text that it was read from. A
text whose offsets all fit into spans is scanned just so (`Token.scan_eq_scanWide`).
So what is said about the tokens of such texts is shown of `Token.scanWide`.
-/

namespace PhpScript

/-- How the text that follows is read. -/
inductive Mode
  | html
  | code
deriving DecidableEq, Repr

namespace Span

/-- The span of the characters `cs`, for offsets of any size. -/
def wide (offset : Nat) (cs : List Char) : Span := ⟨offset, offset + Text.byteLength cs⟩

theorem ofChars_eq_wide {offset : Nat} {cs : List Char}
    (h : offset + Text.byteLength cs ≤ limit) : ofChars offset cs = wide offset cs := by
  rw [ofChars, wide, wrap_of_le h, wrap_of_le (Nat.le_of_add_right_le h)]

end Span

/-! ## Plain text -/

theorem beforeTag_cons (c : Char) (cs : List Char) :
    beforeTag (c :: cs) = if openTag.isPrefixOf (c :: cs) then [] else c :: beforeTag cs := rfl

/-- Plain text is all of the text, or what comes before a tag. -/
theorem beforeTag_eq (cs : List Char) :
    beforeTag cs = cs ∨ ∃ rest, cs = beforeTag cs ++ (openTag ++ rest) := by
  induction cs with
  | nil => exact .inl rfl
  | cons c cs ih =>
    rw [beforeTag_cons]
    split
    · next htag =>
      obtain ⟨rest, hrest⟩ := List.isPrefixOf_iff_prefix.1 htag
      exact .inr ⟨rest, hrest.symm⟩
    · rcases ih with ih | ⟨rest, ih⟩
      · exact .inl (by rw [ih])
      · exact .inr ⟨rest, by rw [List.cons_append, ← ih]⟩

namespace Token

/-! ## The wide scan -/

/-- The token that characters form, for offsets of any size. -/
def wide (kind : TokenKind) (offset : Nat) (cs : List Char) : Token :=
  ⟨kind, .wide offset cs, String.ofList cs⟩

/-- The tokens of a text that starts at an offset, for offsets of any size. -/
def wideFrom (mode : Mode) (offset : Nat) (cs : List Char) : Except ScanError (List Token) :=
  match mode, cs with
  | _, [] => .ok []
  | .html, c :: rest => do
    let html := beforeTag (c :: rest)
    let next := offset + Text.byteLength html + openTag.length
    let tokens ← wideFrom .code next (rest.drop (html.length + openTag.length - 1))
    return if html.isEmpty then tokens else wide .inlineHtml offset html :: tokens
  | .code, c :: rest => do
    match Lexeme.ofCode (c :: rest) with
    | .token kind n =>
      let token := wide kind offset ((c :: rest).take n)
      if kind = .symbol .closeTag then
        let skipped := lineEndAfterTag (rest.drop (n - 1))
        let tokens ← wideFrom .html (token.span.stop + skipped) (rest.drop (n - 1 + skipped))
        return token :: tokens
      else
        let tokens ← wideFrom .code token.span.stop (rest.drop (n - 1))
        return token :: tokens
    | .trivia n =>
      wideFrom .code (offset + Text.byteLength ((c :: rest).take n)) (rest.drop (n - 1))
    | .unrecognized n =>
      let text := (c :: rest).take n
      .error (.unrecognized (String.ofList text) (.wide offset text))
    | .unterminatedComment n =>
      .error (.unterminatedComment (.wide offset ((c :: rest).take n)))
termination_by cs.length
decreasing_by all_goals (simp only [List.length_drop, List.length_cons]; omega)

/-- The tokens of a source text, for offsets of any size. -/
def scanWide (source : String) : Except ScanError (List Token) := do
  let tokens ← wideFrom .html 0 source.toList
  let size := source.utf8ByteSize
  return tokens ++ [⟨.endOfFile, ⟨size, size⟩, ""⟩]

/-- The token of plain text, if there is any. -/
def ofText (offset : Nat) (text : List Char) : List Token :=
  if text.isEmpty then [] else [wide .inlineHtml offset text]

theorem mem_ofText {t : Token} {offset : Nat} {text : List Char} (h : t ∈ ofText offset text) :
    t.kind = .inlineHtml := by
  unfold ofText at h
  split at h
  · cases h
  · rw [List.mem_singleton.1 h]
    rfl

theorem exists_of_map_eq_ok {x : Except ScanError α} {f : α → β} {b : β}
    (h : f <$> x = .ok b) : ∃ a, x = .ok a ∧ f a = b := by
  cases x with
  | error e => cases h
  | ok a => exact ⟨a, rfl, Except.ok.inj h⟩

theorem exists_of_bind_eq_ok {x : Except ScanError α} {f : α → Except ScanError β} {b : β}
    (h : (x >>= f) = .ok b) : ∃ a, x = .ok a ∧ f a = .ok b := by
  cases x with
  | error e => cases h
  | ok a => exact ⟨a, rfl, h⟩

/-! ## One step -/

theorem wideFrom_nil (mode : Mode) (offset : Nat) : wideFrom mode offset [] = .ok [] := by
  unfold wideFrom
  cases mode <;> rfl

theorem wideFrom_html (offset : Nat) (cs : List Char) :
    wideFrom .html offset cs = (ofText offset (beforeTag cs) ++ ·) <$>
      wideFrom .code (offset + Text.byteLength (beforeTag cs) + openTag.length)
        (cs.drop ((beforeTag cs).length + openTag.length)) := by
  cases cs with
  | nil =>
    rw [List.drop_nil, wideFrom_nil, wideFrom_nil]
    rfl
  | cons c cs =>
    have hdrop : (c :: cs).drop ((beforeTag (c :: cs)).length + openTag.length) =
        cs.drop ((beforeTag (c :: cs)).length + openTag.length - 1) := rfl
    rw [hdrop]
    conv => lhs; unfold wideFrom
    simp only [ofText]
    split <;> rfl

section

variable {source : String} {offset n : Nat} {c : Char} {cs : List Char}

theorem wideFrom_trivia (h : Lexeme.ofCode (c :: cs) = .trivia n) :
    wideFrom .code offset (c :: cs) =
      wideFrom .code (offset + Text.byteLength ((c :: cs).take n)) (cs.drop (n - 1)) := by
  conv => lhs; unfold wideFrom
  simp only [h]

theorem wideFrom_token {kind : TokenKind} (h : Lexeme.ofCode (c :: cs) = .token kind n)
    (hkind : kind ≠ .symbol .closeTag) :
    wideFrom .code offset (c :: cs) =
      (wide kind offset ((c :: cs).take n) :: ·) <$>
        wideFrom .code (wide kind offset ((c :: cs).take n)).span.stop (cs.drop (n - 1)) := by
  conv => lhs; unfold wideFrom
  simp only [h, hkind, if_false]
  rfl

theorem wideFrom_closeTag (h : Lexeme.ofCode (c :: cs) = .token (.symbol .closeTag) n) :
    wideFrom .code offset (c :: cs) =
      (wide (.symbol .closeTag) offset ((c :: cs).take n) :: ·) <$>
        wideFrom .html (offset + Text.byteLength ((c :: cs).take n) +
          lineEndAfterTag (cs.drop (n - 1)))
          ((cs.drop (n - 1)).drop (lineEndAfterTag (cs.drop (n - 1)))) := by
  conv => lhs; unfold wideFrom
  simp only [h, if_true, List.drop_drop]
  rfl

theorem scanCode_nil : scanCode source offset [] = .ok ([], none) := by
  conv => lhs; unfold scanCode

theorem scanCode_trivia (h : Lexeme.ofCode (c :: cs) = .trivia n) :
    scanCode source offset (c :: cs) =
      scanCode source (offset + Text.byteLength ((c :: cs).take n)) (cs.drop (n - 1)) := by
  conv => lhs; unfold scanCode
  simp only [h]

theorem scanCode_token {kind : TokenKind} (h : Lexeme.ofCode (c :: cs) = .token kind n)
    (hkind : kind ≠ .symbol .closeTag) :
    scanCode source offset (c :: cs) =
      (fun code => (ofChars source kind offset ((c :: cs).take n) :: code.1, code.2)) <$>
        scanCode source (offset + Text.byteLength ((c :: cs).take n)) (cs.drop (n - 1)) := by
  conv => lhs; unfold scanCode
  simp only [h, hkind, if_false]
  rfl

theorem scanCode_closeTag (h : Lexeme.ofCode (c :: cs) = .token (.symbol .closeTag) n) :
    scanCode source offset (c :: cs) =
      .ok ([ofChars source (.symbol .closeTag) offset ((c :: cs).take n)],
        some (offset + Text.byteLength ((c :: cs).take n), cs.drop (n - 1))) := by
  conv => lhs; unfold scanCode
  simp only [h, if_true]
  rfl

end

/-! ## Where all offsets fit -/

/-- A line end after a closing tag is taken off the text. -/
theorem exists_lineEnd (cs : List Char) :
    ∃ lineEnd rest, cs = lineEnd ++ rest ∧ lineEndAfterTag cs = lineEnd.length ∧
      lineEnd ∈ [[], ['\n'], ['\r', '\n']] := by
  rw [lineEndAfterTag]
  split
  · next h =>
    obtain ⟨rest, hrest⟩ := List.isPrefixOf_iff_prefix.1 h
    exact ⟨['\r', '\n'], rest, hrest.symm, rfl, by simp⟩
  · split
    · next h =>
      obtain ⟨rest, hrest⟩ := List.isPrefixOf_iff_prefix.1 h
      exact ⟨['\n'], rest, hrest.symm, rfl, by simp⟩
    · exact ⟨[], cs, rfl, rfl, by simp⟩

theorem byteLength_drop_lineEnd (cs : List Char) :
    lineEndAfterTag cs + Text.byteLength (cs.drop (lineEndAfterTag cs)) = Text.byteLength cs := by
  obtain ⟨lineEnd, rest, hcs, hlen, hmem⟩ := exists_lineEnd cs
  have hbytes : Text.byteLength lineEnd = lineEnd.length := by
    simp only [List.mem_cons, List.not_mem_nil, or_false] at hmem
    rcases hmem with rfl | rfl | rfl <;> rfl
  rw [hlen, hcs, List.drop_left, Text.byteLength_append, hbytes]

theorem ofChars_eq_wide {source : String} {kind : TokenKind} {offset : Nat} {cs : List Char}
    (h : offset + Text.byteLength cs ≤ Span.limit) :
    ofChars source kind offset cs = wide kind offset cs := by
  rw [ofChars, wide, Span.ofChars_eq_wide h, Span.wide]
  simp

theorem resume?_eq {source : String} {stop : Nat} {rest : List Char} (h : stop ≤ Span.limit) :
    resume? source stop rest =
      some (stop + lineEndAfterTag rest, rest.drop (lineEndAfterTag rest)) := by
  simp [resume?, Span.wrap_of_le h]

/-- What is taken off a text and what is left of it are no more than the text. -/
theorem byteLength_take_add_drop_le (n : Nat) (c : Char) (cs : List Char) :
    Text.byteLength ((c :: cs).take n) + Text.byteLength (cs.drop (n - 1)) ≤
      Text.byteLength (c :: cs) := by
  cases n with
  | zero => simp
  | succ n =>
    have hcut : Text.byteLength cs = Text.byteLength (cs.take n) + Text.byteLength (cs.drop n) := by
      rw [← Text.byteLength_append, List.take_append_drop]
    simp only [List.take_succ_cons, Text.byteLength_cons, Nat.add_sub_cancel]
    omega

/-- The wide tokens of code that has been scanned up to a closing tag, with those of
    the plain text after it. -/
def wideAfter (code : List Token × Option (Nat × List Char)) : Except ScanError (List Token) :=
  match code.2 with
  | none => .ok code.1
  | some (stop, rest) =>
    (code.1 ++ ·) <$> wideFrom .html (stop + lineEndAfterTag rest)
      (rest.drop (lineEndAfterTag rest))

theorem wideAfter_cons (token : Token) (code : List Token × Option (Nat × List Char)) :
    wideAfter (token :: code.1, code.2) = (token :: ·) <$> wideAfter code := by
  obtain ⟨tokens, _ | ⟨stop, rest⟩⟩ := code
  · rfl
  · simp [wideAfter, Functor.map_map]

/-- Code up to a closing tag, which stands in it, and what follows the tag. -/
theorem scanCode_eq (source : String) {offset : Nat} {cs : List Char}
    (h : offset + Text.byteLength cs ≤ Span.limit) :
    wideFrom .code offset cs = scanCode source offset cs >>= wideAfter ∧
      ∀ code stop rest, scanCode source offset cs = .ok (code, some (stop, rest)) →
        stop + Text.byteLength rest ≤ offset + Text.byteLength cs ∧ rest.length < cs.length := by
  induction hlen : cs.length using Nat.strongRecOn generalizing offset cs with
  | _ len ih =>
  subst hlen
  cases cs with
  | nil =>
    rw [wideFrom_nil, scanCode_nil]
    exact ⟨rfl, by simp⟩
  | cons c cs =>
    cases hlex : Lexeme.ofCode (c :: cs) with
    | token kind n =>
      have hbytes := byteLength_take_add_drop_le n c cs
      have hlength : (cs.drop (n - 1)).length < (c :: cs).length := by
        simp only [List.length_drop, List.length_cons]
        omega
      have hfits : offset + Text.byteLength ((c :: cs).take n) +
          Text.byteLength (cs.drop (n - 1)) ≤ Span.limit := by omega
      have htoken : ofChars source kind offset ((c :: cs).take n) =
          wide kind offset ((c :: cs).take n) := ofChars_eq_wide (by omega)
      by_cases hkind : kind = .symbol .closeTag
      · subst hkind
        rw [wideFrom_closeTag hlex, scanCode_closeTag hlex, htoken]
        refine ⟨rfl, fun code stop rest heq => ?_⟩
        cases heq
        exact ⟨by omega, hlength⟩
      · obtain ⟨hrest, hbounds⟩ := ih _ hlength hfits rfl
        have hstop : (wide kind offset ((c :: cs).take n)).span.stop =
          offset + Text.byteLength ((c :: cs).take n) := rfl
        rw [wideFrom_token hlex hkind, scanCode_token hlex hkind, htoken, hstop, hrest]
        cases hcode : scanCode source (offset + Text.byteLength ((c :: cs).take n))
            (cs.drop (n - 1)) with
        | error e => exact ⟨rfl, fun _ _ _ heq => by cases heq⟩
        | ok code =>
          obtain ⟨tokens, tag?⟩ := code
          refine ⟨(wideAfter_cons _ (tokens, tag?)).symm, fun code' stop rest heq => ?_⟩
          cases heq
          have hbounds := hbounds _ _ _ hcode
          exact ⟨by omega, by omega⟩
    | trivia n =>
      have hbytes := byteLength_take_add_drop_le n c cs
      have hlength : (cs.drop (n - 1)).length < (c :: cs).length := by
        simp only [List.length_drop, List.length_cons]
        omega
      have hfits : offset + Text.byteLength ((c :: cs).take n) +
          Text.byteLength (cs.drop (n - 1)) ≤ Span.limit := by omega
      obtain ⟨hrest, hbounds⟩ := ih _ hlength hfits rfl
      rw [wideFrom_trivia hlex, scanCode_trivia hlex, hrest]
      refine ⟨rfl, fun code stop rest heq => ?_⟩
      have hbounds := hbounds _ _ _ heq
      exact ⟨by omega, by omega⟩
    | unrecognized n =>
      have hbytes := byteLength_take_add_drop_le n c cs
      have hspan : Span.ofChars offset ((c :: cs).take n) = .wide offset ((c :: cs).take n) :=
        Span.ofChars_eq_wide (by omega)
      unfold wideFrom scanCode
      simp only [hlex, hspan]
      exact ⟨rfl, by simp⟩
    | unterminatedComment n =>
      have hbytes := byteLength_take_add_drop_le n c cs
      have hspan : Span.ofChars offset ((c :: cs).take n) = .wide offset ((c :: cs).take n) :=
        Span.ofChars_eq_wide (by omega)
      unfold wideFrom scanCode
      simp only [hlex, hspan]
      exact ⟨rfl, by simp⟩

/-- Plain text is no more than the text. Behind the tag after it there is less than that, and
    without a tag there is nothing. -/
theorem bounds_beforeTag (cs : List Char) :
    Text.byteLength (beforeTag cs) ≤ Text.byteLength cs ∧
      (cs.drop ((beforeTag cs).length + openTag.length) = [] ∨
        Text.byteLength (beforeTag cs) + openTag.length +
            Text.byteLength (cs.drop ((beforeTag cs).length + openTag.length)) ≤
          Text.byteLength cs ∧
        (cs.drop ((beforeTag cs).length + openTag.length)).length < cs.length) := by
  have htag : Text.byteLength openTag = openTag.length ∧ 0 < openTag.length := by decide
  rcases beforeTag_eq cs with hplain | ⟨rest, hcs⟩
  · exact ⟨Nat.le_of_eq (by rw [hplain]), .inl (List.drop_eq_nil_of_le (by rw [hplain]; omega))⟩
  · generalize beforeTag cs = html at hcs ⊢
    subst hcs
    rw [← List.append_assoc, ← List.length_append, List.drop_left]
    simp only [Text.byteLength_append, List.length_append]
    exact ⟨by omega, .inr ⟨by omega, by omega⟩⟩

/-- Plain text and code after it are scanned alike. -/
theorem scanFrom_eq_wideFrom {source : String} {bound cs : List Char} {offset : Nat}
    (hbound : cs.length ≤ bound.length) (h : offset + Text.byteLength cs ≤ Span.limit) :
    scanFrom source bound offset cs = wideFrom .html offset cs := by
  induction bound generalizing offset cs with
  | nil =>
    obtain rfl := List.length_eq_zero_iff.1 (Nat.le_zero.1 hbound)
    rw [wideFrom_nil]
    rfl
  | cons b bound ih =>
    cases cs with
    | nil =>
      rw [wideFrom_nil]
      rfl
    | cons c cs =>
      obtain ⟨hle, hcode⟩ := bounds_beforeTag (c :: cs)
      rw [wideFrom_html, scanFrom, ofText, ofChars_eq_wide (by omega)]
      have hdrop : cs.drop ((beforeTag (c :: cs)).length + openTag.length - 1) =
        (c :: cs).drop ((beforeTag (c :: cs)).length + openTag.length) := rfl
      rw [hdrop]
      generalize beforeTag (c :: cs) = html at *
      rcases hcode with hnil | ⟨hbytes, hlength⟩
      · rw [hnil, wideFrom_nil, scanCode_nil]
        cases html <;> rfl
      · generalize (c :: cs).drop (html.length + openTag.length) = code at *
        have hfits : offset + Text.byteLength html + openTag.length + Text.byteLength code ≤
            Span.limit := by omega
        obtain ⟨hcode, hafter⟩ := scanCode_eq source hfits
        rw [hcode]
        cases hscan : scanCode source (offset + Text.byteLength html + openTag.length) code with
        | error e => rfl
        | ok result =>
          obtain ⟨tokens, tag?⟩ := result
          cases tag? with
          | none =>
            change (pure _ : Except ScanError (List Token)) = .ok _
            rw [List.append_nil]
            cases html <;> rfl
          | some tag =>
            obtain ⟨stop, rest⟩ := tag
            obtain ⟨hstop, hrest⟩ := hafter _ _ _ hscan
            have hline := byteLength_drop_lineEnd rest
            have hresume : resume? source stop rest =
                some (stop + lineEndAfterTag rest, rest.drop (lineEndAfterTag rest)) :=
              resume?_eq (by omega)
            have hafter : scanFrom source bound (stop + lineEndAfterTag rest)
                (rest.drop (lineEndAfterTag rest)) =
                wideFrom .html (stop + lineEndAfterTag rest)
                  (rest.drop (lineEndAfterTag rest)) := by
              refine ih ?_ (by omega)
              simp only [List.length_cons, List.length_drop] at hbound hlength ⊢
              omega
            simp only [bind, Except.bind, hresume, hafter, wideAfter]
            cases wideFrom .html (stop + lineEndAfterTag rest)
              (rest.drop (lineEndAfterTag rest)) with
            | error e => rfl
            | ok after => cases html <;> rfl

/-- A text whose offsets all fit into spans is scanned as if all offsets did. -/
theorem scan_eq_scanWide {source : String} (h : source.utf8ByteSize ≤ Span.limit) :
    scan source = scanWide source := by
  rw [scan, scanWide, Span.wrap_of_le h,
    scanFrom_eq_wideFrom (Nat.le_refl _) (by rwa [Nat.zero_add, ← Text.utf8ByteSize_eq])]

end Token

end PhpScript
