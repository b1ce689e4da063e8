import PhpScript.Proofs.Token.Wide

/-!
# Words

A *word* is a text that the name rule takes as a whole: one character that can
begin a name, then characters that can continue it. Scanning gives names to
the rest of the program in three kinds of token only, and each of them is
spelled with a word:

* an identifier and a keyword are a word;
* a variable is a word after its mark.

`Token.scan_isSpelled` says so of every token of every text whose offsets fit into
spans. In a longer text a token can show anything, and nothing holds of its spelling;
so a spelling is asked for by a predicate on names, which is `isWord` or takes all.
-/

namespace PhpScript

/-- Whether the characters are a name as a whole. -/
def isWord : List Char → Bool
  | [] => false
  | c :: cs => isNameStart c && cs.all isNamePart

/-- A token that stands for a name is spelled with one of the names `W`. -/
def Token.IsSpelled (W : List Char → Prop) (t : Token) : Prop :=
  match t.kind with
  | .varName => W (t.text.toList.drop 1)
  | .identifier | .keyword _ => W t.text.toList
  | _ => True

theorem isNamePart_of_isNameStart {c : Char} (h : isNameStart c) : isNamePart c := by
  simp [isNamePart, h]

theorem all_isNamePart_of_isWord {w : List Char} (h : isWord w) : w.all isNamePart := by
  cases w with
  | nil => rfl
  | cons c w =>
    simp only [isWord, Bool.and_eq_true] at h
    simpa [isNamePart_of_isNameStart h.1] using h.2

/-- The letter case of a character does not decide whether it can begin a name. -/
theorem isNameStart_of_toLower {c : Char} (h : isNameStart c.toLower) : isNameStart c := by
  by_cases hc : 'A' ≤ c ∧ c ≤ 'Z'
  · simp [isNameStart, hc]
  · have hlower : c.toLower = c := dif_neg fun hu => hc ⟨hu.1, hu.2⟩
    rwa [hlower] at h

namespace Rule

/-! ## What a rule takes -/

theorem take_startThenRun? {p q : Char → Bool} {cs : List Char} {n : Nat}
    (h : startThenRun? p q cs = some n) :
    ∃ c rest, cs.take n = c :: rest ∧ p c ∧ rest.all q := by
  cases cs with
  | nil => simp [startThenRun?] at h
  | cons c cs =>
    simp only [startThenRun?, run] at h
    split at h
    · next hc =>
      cases h
      refine ⟨c, cs.takeWhile q, ?_, hc, List.all_takeWhile⟩
      rw [Nat.add_comm, List.take_succ_cons,
        ← List.prefix_iff_eq_take.1 (List.takeWhile_prefix q)]
    · cases h

theorem isWord_take_of_identifier {cs : List Char} {n : Nat}
    (h : identifier.reach? cs = some n) : isWord (cs.take n) := by
  obtain ⟨c, rest, ht, hc, hr⟩ := take_startThenRun? h
  simp [ht, isWord, hc, hr]

theorem take_of_varName {cs : List Char} {n : Nat} (h : varName.reach? cs = some n) :
    ∃ w, cs.take n = '$' :: w ∧ isWord w := by
  cases cs with
  | nil => simp [reach?] at h
  | cons c cs =>
    simp only [reach?] at h
    split at h
    · next hc =>
      obtain ⟨m, hm, rfl⟩ := Option.map_eq_some_iff.1 h
      refine ⟨cs.take m, ?_, isWord_take_of_identifier hm⟩
      rw [Nat.add_comm, List.take_succ_cons, eq_of_beq hc]
    · cases h

/-- The spelling of a keyword is a word, character by character. -/
theorem isNameStart_of_mem_keyword (k : Keyword) : ∀ c ∈ k.text.toList, isNameStart c := by
  have hall : k.text.toList.all isNameStart := by cases k <;> rfl
  exact List.all_eq_true.1 hall

/-- What a keyword takes is its spelling, in some letter case. -/
theorem take_of_keyword {k : Keyword} {cs : List Char} {n : Nat}
    (h : (keyword k).reach? cs = some n) :
    n = k.text.length ∧ (cs.take n).map Char.toLower = k.text.toList := by
  simp only [reach?, exactly?] at h
  split at h
  · next hp =>
    cases h
    rw [String.length_toList]
    rw [List.isPrefixOf_iff_prefix] at hp
    refine ⟨rfl, (hp.eq_of_length_le ?_).symm⟩
    rw [List.length_map, List.length_take, String.length_toList]
    exact Nat.min_le_left _ _
  · cases h

theorem isWord_take_of_keyword {k : Keyword} {cs : List Char} {n : Nat}
    (h : (keyword k).reach? cs = some n) : isWord (cs.take n) := by
  have hlow := (take_of_keyword h).2
  have hall : ∀ c ∈ cs.take n, isNameStart c := fun c hc =>
    isNameStart_of_toLower (isNameStart_of_mem_keyword k _ (hlow ▸ List.mem_map_of_mem hc))
  have hne : cs.take n ≠ [] := by
    intro hnil
    rw [hnil] at hlow
    cases k <;> simp [Keyword.text] at hlow
  obtain ⟨c, rest, hcr⟩ := List.exists_cons_of_ne_nil hne
  rw [hcr, List.forall_mem_cons] at hall
  rw [hcr, isWord, hall.1, Bool.true_and, List.all_eq_true]
  exact fun d hd => isNamePart_of_isNameStart (hall.2 d hd)

/-! ## What the longest match takes -/

/-- Of two candidates, the better one is one of them. -/
theorem better_eq (a b : Option (Rule × Nat)) : better a b = a ∨ better a b = b := by
  unfold better
  split
  · split <;> simp
  · simp
  · simp

/-- The rule that reaches furthest does reach that far. -/
theorem reach?_of_longest? {cs : List Char} {r : Rule} {n : Nat}
    (h : longest? cs = some (r, n)) : r.reach? cs = some n := by
  -- The invariant of the fold: the best match so far is a match.
  have go : ∀ (rules : List Rule) (best : Option (Rule × Nat)),
      (∀ s m, best = some (s, m) → s.reach? cs = some m) →
      ∀ s m, rules.foldl (fun best r => better best ((r.reach? cs).map (r, ·))) best
        = some (s, m) → s.reach? cs = some m := by
    intro rules
    induction rules with
    | nil => exact fun best hb => hb
    | cons r rules ih =>
      intro best hb
      refine ih _ fun s m hsm => ?_
      rcases better_eq best ((r.reach? cs).map (r, ·)) with he | he
      · exact hb s m (he ▸ hsm)
      · replace hsm : (r.reach? cs).map (r, ·) = some (s, m) := he ▸ hsm
        obtain ⟨k, hk, hkm⟩ := Option.map_eq_some_iff.1 hsm
        cases hkm
        exact hk
  exact go all none (by simp) r n h

end Rule

/-! ## What scanning gives -/

/-- A lexeme that is a token is spelled as its kind asks. -/
theorem Lexeme.isSpelled_of_ofCode {cs : List Char} {kind : TokenKind} {n : Nat}
    (h : ofCode cs = .token kind n) (offset : Nat) :
    (Token.wide kind offset (cs.take n)).IsSpelled (isWord ·) := by
  unfold ofCode at h
  split at h
  · cases h
  · next rule m hl =>
    have hr := Rule.reach?_of_longest? hl
    cases rule with
    | keyword k =>
      cases h
      simpa [Token.IsSpelled, Token.wide] using Rule.isWord_take_of_keyword hr
    | varName =>
      cases h
      obtain ⟨w, hw, hword⟩ := Rule.take_of_varName hr
      simpa [Token.IsSpelled, Token.wide, hw] using hword
    | identifier =>
      cases h
      simpa [Token.IsSpelled, Token.wide] using Rule.isWord_take_of_identifier hr
    | blockComment =>
      simp only at h
      split at h <;> cases h
    | _ =>
      cases h
      try exact trivial

namespace Token

/-- A scan that goes on after another one succeeds when both do. -/
theorem wideFrom_isSpelled {mode : Mode} {offset : Nat} {cs : List Char} {tokens : List Token}
    (h : wideFrom mode offset cs = .ok tokens) : ∀ t ∈ tokens, t.IsSpelled (isWord ·) := by
  fun_induction wideFrom mode offset cs generalizing tokens with
  | case1 => cases h; simp
  | case2 =>
    rename_i ih
    obtain ⟨after, ha, hp⟩ := exists_of_bind_eq_ok h
    cases hp
    split
    · exact ih ha
    · exact List.forall_mem_cons.2 ⟨trivial, ih ha⟩
  | case3 =>
    rename_i ih
    obtain ⟨after, ha, hp⟩ := exists_of_bind_eq_ok h
    cases hp
    exact List.forall_mem_cons.2 ⟨trivial, ih ha⟩
  | case4 offset =>
    rename_i hl _ _ ih
    obtain ⟨after, ha, hp⟩ := exists_of_bind_eq_ok h
    cases hp
    exact List.forall_mem_cons.2 ⟨Lexeme.isSpelled_of_ofCode hl offset, ih ha⟩
  | case5 offset c rest n hl ih => exact ih h
  | case6 => cases h
  | case7 => cases h

/-- Every token of a text is spelled as its kind asks. -/
theorem scan_isSpelled {source : String} {tokens : List Token}
    (hsize : source.utf8ByteSize ≤ Span.limit) (h : scan source = .ok tokens) :
    ∀ t ∈ tokens, t.IsSpelled (isWord ·) := by
  rw [scan_eq_scanWide hsize] at h
  obtain ⟨before, hb, hp⟩ := exists_of_bind_eq_ok h
  cases hp
  intro t ht
  rcases List.mem_append.1 ht with ht | ht
  · exact wideFrom_isSpelled hb t ht
  · rw [List.mem_singleton.1 ht]
    exact trivial

/-- Any token is spelled with any names at all. -/
theorem isSpelled_of_forall {W : List Char → Prop} (hW : ∀ w, W w) (t : Token) :
    t.IsSpelled W := by
  unfold IsSpelled
  split <;> first | exact hW _ | exact trivial

end Token

end PhpScript
