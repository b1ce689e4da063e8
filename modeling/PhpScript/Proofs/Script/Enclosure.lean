import Mathlib.Algebra.Group.Nat.Even
import PhpScript.Proofs.Token.Pattern
import PhpScript.Script.Literal

/-!
# Strings that stay in their quotes

`Script.quote` puts a backslash before every quote of a string and leaves the
backslashes of the string alone. Whether a quote closes the literal then depends
on how many backslashes stand before it, and a reader that goes from left to
right only has to know whether it has just passed one that is still open
(`Closes`). That is the same as a condition on the runs of backslashes of the
string (`HasEvenRuns`).

* `Script.quote_closes_last_iff`: a literal ends at its last character just
  when the runs of its string that stand before a quote or at the end are even,
  and otherwise it ends earlier or not at all.
-/

namespace PhpScript.Script

/-! ## Reading an escaped string -/

/-- Reading on in a string, after an open backslash or not, no quote of the string closes
    the literal and the one after the string does. -/
def Closes (opened : Bool) : List Char → Bool
  | [] => !opened
  | c :: cs =>
    if c = '\\' then Closes (!opened) cs
    else if c = '\'' then !opened && Closes false cs
    else Closes false cs

theorem quotedBody_backslash_iff {c : Char} {w : List Char} :
    QuotedBody '\'' ('\\' :: c :: w) ↔ QuotedBody '\'' w := by
  constructor
  · intro h
    cases h with
    | escape _ hw => exact hw
    | plain _ hslash _ => exact absurd rfl hslash
  · exact .escape c

theorem quotedBody_plain_iff {c : Char} {w : List Char} (hquote : c ≠ '\'') (hslash : c ≠ '\\') :
    QuotedBody '\'' (c :: w) ↔ QuotedBody '\'' w := by
  constructor
  · intro h
    cases h with
    | close => exact absurd rfl hquote
    | escape _ _ => exact absurd rfl hslash
    | plain _ _ hw => exact hw
  · exact .plain hquote hslash

theorem not_quotedBody_quote_cons {c : Char} {w : List Char} :
    ¬ QuotedBody '\'' ('\'' :: c :: w) := by
  intro h
  cases h with
  | plain hquote _ _ => exact hquote rfl

/-- An escaped string with the closing quote, and the same after a backslash that is
    still open: the two go together, as a backslash of the string leads from one to
    the other. -/
theorem quotedBody_escape_iff_closes (cs : List Char) :
    (QuotedBody '\'' (escape cs ++ ['\'']) ↔ Closes false cs) ∧
      (QuotedBody '\'' ('\\' :: (escape cs ++ ['\''])) ↔ Closes true cs) := by
  induction cs with
  | nil =>
    refine ⟨by simp [escape, Closes, QuotedBody.close], ?_⟩
    rw [escape, List.nil_append, quotedBody_backslash_iff]
    simp only [Closes, Bool.not_true, Bool.false_eq_true, iff_false]
    exact fun h => nomatch h
  | cons c cs ih =>
    by_cases hslash : c = '\\'
    · subst hslash
      refine ⟨ih.2, ?_⟩
      simpa [escape, Closes, quotedBody_backslash_iff] using ih.1
    by_cases hquote : c = '\''
    · subst hquote
      refine ⟨by simpa [escape, Closes, quotedBody_backslash_iff] using ih.1, ?_⟩
      -- The backslash of the escape is itself escaped, and the quote closes too early.
      obtain ⟨d, w, hw⟩ := List.exists_cons_of_ne_nil
        (show escape cs ++ ['\''] ≠ [] from List.append_ne_nil_of_right_ne_nil _ (by simp))
      simp [escape, Closes, hw, quotedBody_backslash_iff, not_quotedBody_quote_cons]
    · have hplain : escape (c :: cs) = c :: escape cs := by simp [escape, hquote]
      rw [hplain, List.cons_append, quotedBody_plain_iff hquote hslash, quotedBody_backslash_iff]
      simpa [Closes, hslash, hquote] using ih.1

/-! ## Runs of backslashes -/

/-- Every run of backslashes that goes as far as possible and is followed by a quote, or by
    nothing, is of even length. -/
def HasEvenRuns (cs : List Char) : Prop :=
  ∀ before after n, cs = before ++ (List.replicate n '\\' ++ after) →
    before.getLast? ≠ some '\\' → (∀ c ∈ after.head?, c = '\'') → Even n

/-- Before a maximal run, backslashes alone cannot stand. -/
theorem eq_nil_of_forall_backslash {before : List Char} (hall : ∀ c ∈ before, c = '\\')
    (hlast : before.getLast? ≠ some '\\') : before = [] := by
  by_contra hne
  have hbackslash := hall _ (List.getLast_mem hne)
  exact hlast (List.getLast?_eq_some_getLast hne ▸ congrArg some hbackslash)

/-- A run of backslashes is as long as the other one, when both are followed by something
    else. -/
theorem replicate_append_inj {n k : ℕ} {c d : Char} {u v : List Char} (hc : c ≠ '\\')
    (hd : d ≠ '\\')
    (h : List.replicate n '\\' ++ c :: u = List.replicate k '\\' ++ d :: v) : n = k ∧ c = d := by
  induction n generalizing k with
  | zero =>
    cases k with
    | zero => exact ⟨rfl, (List.cons.inj h).1⟩
    | succ k => exact absurd (List.cons.inj h).1 hc
  | succ n ih =>
    cases k with
    | zero => exact absurd (List.cons.inj h).1.symm hd
    | succ k =>
      obtain ⟨rfl, rfl⟩ := ih (List.cons.inj h).2
      exact ⟨rfl, rfl⟩

theorem hasEvenRuns_replicate_iff (k : ℕ) :
    HasEvenRuns (List.replicate k '\\') ↔ Even k := by
  constructor
  · intro h
    exact h [] [] k (by simp) (by simp) (by simp)
  · intro hk before after n hcut hbefore hafter
    have hall : ∀ c ∈ before ++ (List.replicate n '\\' ++ after), c = '\\' := by
      rw [← hcut]
      exact fun c => List.eq_of_mem_replicate
    have hnil : before = [] :=
      eq_nil_of_forall_backslash (fun c hc => hall c (List.mem_append_left _ hc)) hbefore
    have hend : after = [] := by
      cases after with
      | nil => rfl
      | cons c after =>
        have hc : c = '\\' := hall c (by simp)
        have hc' : c = '\'' := hafter c rfl
        exact absurd (hc.symm.trans hc') (by decide)
    subst hnil hend
    have hlen : k = n := by simpa using congrArg List.length hcut
    exact hlen ▸ hk

/-- Only what follows a run directly counts: the runs after another character are those of
    the rest. -/
theorem hasEvenRuns_replicate_cons_iff {k : ℕ} {c : Char} {cs : List Char} (hc : c ≠ '\\') :
    HasEvenRuns (List.replicate k '\\' ++ c :: cs) ↔ (c = '\'' → Even k) ∧ HasEvenRuns cs := by
  constructor
  · intro h
    refine ⟨fun hquote => h [] (c :: cs) k rfl (by simp) (by simp [hquote]), ?_⟩
    intro before after n hcut hbefore hafter
    refine h (List.replicate k '\\' ++ c :: before) after n (by simp [hcut]) ?_ hafter
    cases before with
    | nil => simpa using hc
    | cons d before => simpa [List.getLast?_append, List.getLast?_cons] using hbefore
  · rintro ⟨hrun, hrest⟩ before after n hcut hbefore hafter
    rcases List.append_eq_append_iff.1 hcut with ⟨as, hbefore', hcs⟩ | ⟨bs, hreplicate, hafter'⟩
    · cases as with
      | nil =>
        -- The run would begin with `c`, so there is none.
        cases n with
        | zero => exact Even.zero
        | succ n => exact absurd (List.cons.inj hcs).1 hc
      | cons d as =>
        obtain ⟨rfl, rfl⟩ := List.cons.inj hcs
        refine hrest as after n rfl ?_ hafter
        cases as with
        | nil => simp
        | cons e as => simpa [hbefore', List.getLast?_append, List.getLast?_cons] using hbefore
    · have hnil : before = [] :=
        eq_nil_of_forall_backslash (fun d hd => List.eq_of_mem_replicate
          (hreplicate ▸ List.mem_append_left bs hd)) hbefore
      subst hnil
      cases after with
      | nil =>
        have hmem : c ∈ List.replicate n '\\' := by
          rw [List.append_nil] at hafter'
          simp [hafter']
        exact absurd (List.eq_of_mem_replicate hmem) hc
      | cons d after =>
        have hd : d = '\'' := hafter d rfl
        obtain ⟨rfl, rfl⟩ := replicate_append_inj hc (by simp [hd]) hcut
        exact hrun hd

/-- After `k` backslashes the reader has passed an open one when `k` is odd. -/
theorem closes_iff_hasEvenRuns (k : ℕ) (cs : List Char) :
    Closes (decide (¬ Even k)) cs ↔ HasEvenRuns (List.replicate k '\\' ++ cs) := by
  induction cs generalizing k with
  | nil => simp [Closes, hasEvenRuns_replicate_iff]
  | cons c cs ih =>
    by_cases hslash : c = '\\'
    · subst hslash
      have hmove : List.replicate k '\\' ++ '\\' :: cs = List.replicate (k + 1) '\\' ++ cs := by
        simp [List.replicate_succ']
      have hparity : (!decide (¬ Even k)) = decide (¬ Even (k + 1)) := by
        simp only [Nat.even_add_one, decide_not]
      rw [hmove, ← ih (k + 1), Closes, if_pos rfl, hparity]
    · have hrest : Closes false cs ↔ HasEvenRuns cs := ih 0
      rw [hasEvenRuns_replicate_cons_iff hslash, ← hrest]
      by_cases hquote : c = '\'' <;> simp [Closes, hslash, hquote]

/-! ## The whole literal -/

theorem toList_quote (value : String) :
    (quote value).toList = '\'' :: (escape value.toList ++ ['\'']) := by
  simp [quote]

theorem quotedBody_escape_iff_hasEvenRuns (cs : List Char) :
    QuotedBody '\'' (escape cs ++ ['\'']) ↔ HasEvenRuns cs :=
  (quotedBody_escape_iff_closes cs).1.trans (closes_iff_hasEvenRuns 0 cs)

theorem reach?_quote_append {value : String} (h : HasEvenRuns value.toList) (rest : List Char) :
    Rule.singleQuoted.reach? ((quote value).toList ++ rest) = some (quote value).length := by
  have hbody := (quotedBody_escape_iff_hasEvenRuns value.toList).2 h
  have hfound := hbody.quotedBody?_append (by decide) rest
  rw [← String.length_toList, toList_quote, List.cons_append]
  simp only [Rule.reach?, Rule.quoted?, beq_self_eq_true, if_true, hfound, Option.map_some,
    List.length_cons, Nat.add_comm 1]

theorem hasEvenRuns_of_reach?_quote {value : String} (rest : List Char)
    (h : Rule.singleQuoted.reach? ((quote value).toList ++ rest) = some (quote value).length) :
    HasEvenRuns value.toList := by
  rw [← String.length_toList] at h
  have hmem := Rule.mem_pattern_of_reach? h
  rw [toList_quote] at hmem
  exact (quotedBody_escape_iff_hasEvenRuns value.toList).1 (cons_mem_one_mul.1 hmem).2

/-- Which strings stay in their quotes: read by the rule for single-quoted literals, whatever
    comes after it, a literal ends at its own last character if and only if every maximal run
    of backslashes of the string that stands before a quote or at the end is of even length.
    The literal of any other string ends before its last character, or does not end. -/
theorem quote_closes_last_iff (value : String) :
    (∀ rest, Rule.singleQuoted.reach? ((quote value).toList ++ rest) = some (quote value).length ↔
      HasEvenRuns value.toList) ∧
    (¬ HasEvenRuns value.toList →
      Rule.singleQuoted.reach? (quote value).toList = none ∨
        ∃ n < (quote value).length, Rule.singleQuoted.reach? (quote value).toList = some n) := by
  refine ⟨fun rest => ⟨hasEvenRuns_of_reach?_quote rest, fun h => reach?_quote_append h rest⟩, ?_⟩
  intro hodd
  cases hreach : Rule.singleQuoted.reach? (quote value).toList with
  | none => exact .inl rfl
  | some n =>
    refine .inr ⟨n, ?_, rfl⟩
    obtain ⟨w, -, rest, hcut, rfl⟩ := Rule.singleQuoted.reach?_finds.sound hreach
    have hle : w.length ≤ (quote value).length := by
      rw [← String.length_toList, hcut, List.length_append]
      exact Nat.le_add_right _ _
    refine Nat.lt_of_le_of_ne hle fun hlen => hodd ?_
    apply hasEvenRuns_of_reach?_quote []
    rw [List.append_nil, hreach, hlen]

end PhpScript.Script
