import PhpScript.Proofs.Parse.Lockstep

/-!
# Where two runs meet

A parser is run up to an ending twice, as `Parse.Ending` has it. Once the runs
may read the ending, they can part: the one may go on where the other stops.
`Outcome` lists what there is, when the run with the semicolon has a result:

* it goes on behind the semicolon;
* both runs stop before the ending;
* both stop right behind it, with results that belong together;
* only the run with the semicolon does.

`Meets` says which of the results are those of the last kind. What a parser reads
last tells where it can stop (`Shortens`, `StopsBehind`), and so which of the four
there is.
-/

namespace PhpScript.Parse

variable {e : Ending}

/-! ## Outcomes -/

/-- What the two runs do, when the run with the semicolon reads `a` and stops at `after`. The
    values in `S` are those that a closing tag does not end, and `R` relates a value to the
    one that the other run reads in its place. -/
inductive Outcome (e : Ending) (S : α → Prop) (R : α → α → Prop)
    (run : EStateM.Result ParseError Cursor α) (a : α) (after : Cursor) : Prop
  /-- The run with the semicolon goes on behind it. -/
  | beyond : after.rest.length < e.rest.length → Outcome e S R run a after
  /-- Both runs stop before the ending. -/
  | before {us lastStop depth} : after = e.withSemicolon us lastStop depth →
      run = .ok a (e.withTag us lastStop depth) → Outcome e S R run a after
  /-- Both runs stop right behind the ending. -/
  | same {b after'} : after.rest = e.rest → ¬S a → run = .ok b after' → after'.rest = e.rest →
      R a b → Outcome e S R run a after
  /-- The run with the tag goes on behind it, or fails. -/
  | apart : after.rest = e.rest → S a →
      (∀ ⦃b after'⦄, run = .ok b after' → after'.rest.length < e.rest.length) →
      Outcome e S R run a after

/-- The outcome of a parser on some tokens before the ending. -/
def MeetsAt (e : Ending) (S : α → Prop) (R : α → α → Prop) (p : Parser α) (ts : List Token) :
    Prop :=
  ∀ ⦃lastStop depth a after⦄, p (e.withSemicolon ts lastStop depth) = .ok a after →
    Outcome e S R (p (e.withTag ts lastStop depth)) a after

/-- The outcome of a parser that only takes tokens away. -/
structure Meets (e : Ending) (S : α → Prop) (R : α → α → Prop) (p : Parser α) : Prop where
  advances : Advances p
  at_ : ∀ ts, MeetsAt e S R p ts

/-- The parser takes at least one token away. -/
def Shortens (p : Parser α) : Prop :=
  ∀ ⦃c a after⦄, p c = .ok a after → after.rest.length < c.rest.length

section

variable {p : Parser α} {f : α → Parser β} {S : α → Prop} {R : α → α → Prop} {S' : β → Prop}
  {R' : β → β → Prop} {ts : List Token}

theorem bind_congr_at {p' : Parser α} {c c' : Cursor} (h : p c = p' c') :
    (p >>= f) c = (p' >>= f) c' := by
  simp only [Bind.bind, EStateM.bind, h]

theorem Shortens.bind (hp : Shortens p) (hf : ∀ a, Advances (f a)) : Shortens (p >>= f) := by
  intro c b after h
  obtain ⟨a, between, hpa, hfa⟩ := exists_of_bind_eq_ok h
  exact Nat.lt_of_le_of_lt (hf a hfa).length_le (hp hpa)

theorem Shortens.andThen (hp : Advances p) (hf : ∀ a, Shortens (f a)) : Shortens (p >>= f) := by
  intro c b after h
  obtain ⟨a, between, hpa, hfa⟩ := exists_of_bind_eq_ok h
  exact Nat.lt_of_lt_of_le (hf a hfa) (hp hpa).length_le

theorem Shortens.ite {b : Prop} [Decidable b] {q : Parser α} (hp : Shortens p) (hq : Shortens q) :
    Shortens (if b then p else q) := by
  split
  · exact hp
  · exact hq

theorem Shortens.of_error (h : ∀ c, ∃ error after, p c = .error error after) : Shortens p := by
  intro c a after hp
  obtain ⟨error, after', herror⟩ := h c
  cases herror.symm.trans hp

theorem terminator_shortens : Shortens terminator := by
  intro c u after h
  obtain ⟨t, rest, -, hc, rfl⟩ := terminator_eq_ok_iff.1 h
  simp [hc]

theorem length_lt_of_suffix {xs ys : List Token} (h : xs <:+ ys) (hne : xs ≠ ys) :
    xs.length < ys.length :=
  Nat.lt_of_le_of_ne h.length_le fun hlen => hne (h.eq_of_length hlen)

/-- What is read alike before the end of a statement. Where the one run reads the semicolon
    too early, it has to read on for the end. -/
theorem Meets.after (hp : Echoes e p) (hf : ∀ a, Meets e S' R' (f a))
    (hshortens : ∀ a, Shortens (f a)) : Meets e S' R' (p >>= f) where
  advances := hp.advances.bind fun a => (hf a).advances
  at_ ts lastStop depth b after h := by
    obtain ⟨a, between, hpa, hfa⟩ := exists_of_bind_eq_ok h
    rcases hp.echo ts hpa with hgone | ⟨us, lastStop', depth', rfl, hrun⟩
    · exact .beyond (Nat.lt_of_lt_of_le (hshortens a hfa) hgone.length_le)
    · rw [bind_of_ok hrun]
      exact (hf a).at_ us hfa

/-- A value is put together at the end, and nothing more is read. -/
theorem Meets.close {w : α → Span → β} {start : Span} (hp : Meets e S R p)
    (hS : ∀ a s, S a → S' (w a s))
    (hR : ∀ a b s s', ¬S a → R a b → ¬S' (w a s) ∧ R' (w a s) (w b s')) :
    Meets e S' R' (p >>= fun a => spanFrom start >>= fun s => pure (w a s)) where
  advances := hp.advances.bind fun a => (spanned_echoes (e := e)).advances
  at_ ts lastStop depth b after h := by
    obtain ⟨a, between, hpa, hfa⟩ := exists_of_bind_eq_ok h
    cases hfa
    cases hp.at_ ts hpa with
    | beyond hlt => exact .beyond hlt
    | before hbetween hrun =>
      subst hbetween
      exact .before rfl (by rw [bind_of_ok hrun]; rfl)
    | same hrest hne hrun hrest' hab =>
      obtain ⟨hne', hab'⟩ := hR _ _ _ _ hne hab
      exact .same hrest hne' (by rw [bind_of_ok hrun]; rfl) hrest' hab'
    | apart hrest ha hrun =>
      refine .apart hrest (hS _ _ ha) fun b' after' h' => ?_
      obtain ⟨a', between', hpa', hfa'⟩ := exists_of_bind_eq_ok h'
      cases hfa'
      exact hrun hpa'

theorem Meets.within (hp : Meets e S R p) : Meets e S R (Parse.within p) where
  advances c after a h := by
    obtain ⟨inner, hinner, rfl⟩ := within_eq_ok_iff.1 h
    have hsuffix := hp.advances hinner
    exact hsuffix
  at_ ts lastStop depth a after h := by
    obtain ⟨inner, hinner, rfl⟩ := within_eq_ok_iff.1 h
    cases hp.at_ ts hinner with
    | beyond hlt => exact .beyond hlt
    | before hbefore hrun =>
      subst hbefore
      exact .before rfl (within_eq_ok_iff.2 ⟨_, hrun, rfl⟩)
    | same hrest hne hrun hrest' hab =>
      exact .same hrest hne (within_eq_ok_iff.2 ⟨_, hrun, rfl⟩) hrest' hab
    | apart hrest ha hrun =>
      refine .apart hrest ha fun b after' h' => ?_
      obtain ⟨inner', hinner', rfl⟩ := within_eq_ok_iff.1 h'
      have hlt : inner'.rest.length < e.rest.length := hrun hinner'
      exact hlt

/-! ## Parsers that stop behind a mark -/

/-- The last token that the parser reads is of a kind. -/
def StopsBehind (kind : TokenKind) (p : Parser α) : Prop :=
  ∀ ⦃c a after⦄, p c = .ok a after → ∃ done t, c.rest = done ++ t :: after.rest ∧ t.kind = kind

variable {kind : TokenKind}

/-- A parser that stops behind another mark never stops right behind the semicolon. -/
theorem StopsBehind.rest_ne {lastStop depth : Nat} {a : α} {after : Cursor}
    (h : StopsBehind kind p) (hkind : kind ≠ .symbol .semicolon)
    (hp : p (e.withSemicolon ts lastStop depth) = .ok a after) : after.rest ≠ e.rest := by
  intro hrest
  obtain ⟨done, t, hcut, ht⟩ := h hp
  rw [hrest] at hcut
  have hboth : e.semicolon :: e.rest = t :: e.rest :=
    (List.append_inj' (show ts ++ e.semicolon :: e.rest = done ++ t :: e.rest from hcut) rfl).2
  cases hboth
  exact hkind ht.symm

theorem StopsBehind.shortens (h : StopsBehind kind p) : Shortens p := by
  intro c a after hp
  obtain ⟨done, t, hcut, -⟩ := h hp
  rw [hcut, List.length_append, List.length_cons]
  omega

theorem StopsBehind.andThen (hp : Advances p) (hf : ∀ a, StopsBehind kind (f a)) :
    StopsBehind kind (p >>= f) := by
  intro c b after h
  obtain ⟨a, between, hpa, hfa⟩ := exists_of_bind_eq_ok h
  obtain ⟨skipped, hskipped⟩ := hp hpa
  obtain ⟨done, t, hcut, ht⟩ := hf a hfa
  exact ⟨skipped ++ done, t, by rw [List.append_assoc, ← hcut, hskipped], ht⟩

theorem StopsBehind.close (hp : StopsBehind kind p)
    (hf : ∀ ⦃a c b after⦄, f a c = .ok b after → after.rest = c.rest) :
    StopsBehind kind (p >>= f) := by
  intro c b after h
  obtain ⟨a, between, hpa, hfa⟩ := exists_of_bind_eq_ok h
  rw [hf hfa]
  exact hp hpa

theorem StopsBehind.guard {b : Prop} [Decidable b] {complaint : Complaint} {k : Unit → Parser α}
    (hk : StopsBehind kind (k ())) :
    StopsBehind kind (if b then complain complaint >>= k else k ()) := by
  split
  · intro c a after h
    cases h
  · exact hk

theorem expect_stopsBehind (kind : TokenKind) (hkind : kind ≠ .endOfFile) :
    StopsBehind kind (expect kind) := by
  intro c a after h
  have hat : c.current.kind = kind := by
    by_contra hne
    simp [expect, isAt, complain, Bind.bind, EStateM.bind, hne] at h
  obtain ⟨-, rfl, hne⟩ := expect_eq_ok hkind h
  cases hrest : c.rest with
  | nil => simp [Cursor.current, hrest] at hne
  | cons t rest =>
    refine ⟨[], t, ?_, ?_⟩
    · simp [Cursor.next, hrest]
    · simpa [Cursor.current, hrest] using hat

theorem accept_eq_true {c after : Cursor} (h : accept kind c = .ok true after)
    (hkind : kind ≠ .endOfFile) : ∃ t, c.rest = t :: after.rest ∧ t.kind = kind := by
  have hat : c.current.kind = kind := by
    by_contra hne
    simp [accept, isAt, Bind.bind, EStateM.bind, Pure.pure, EStateM.pure, hne] at h
  obtain ⟨-, rfl, hne⟩ | ⟨hfalse, -⟩ := accept_eq_ok hkind h
  · cases hrest : c.rest with
    | nil => simp [Cursor.current, hrest] at hne
    | cons t rest =>
      refine ⟨t, by simp [Cursor.next, hrest], ?_⟩
      simpa [Cursor.current, hrest] using hat
  · exact absurd rfl hfalse

theorem accept_eq_false {c after : Cursor} (h : accept kind c = .ok false after)
    (hkind : kind ≠ .endOfFile) : after = c := by
  obtain ⟨hfalse, -⟩ | ⟨-, rfl⟩ := accept_eq_ok hkind h
  · cases hfalse
  · rfl

theorem Meets.behind (hp : Echoes e p) (hstop : StopsBehind kind p)
    (hkind : kind ≠ .symbol .semicolon) : Meets e S R p where
  advances := hp.advances
  at_ ts lastStop depth a after h := by
    rcases hp.echo ts h with hgone | ⟨us, lastStop', depth', rfl, hrun⟩
    · exact .beyond (length_lt_of_suffix hgone (hstop.rest_ne hkind h))
    · exact .before rfl hrun

/-- What is read alike up to a mark, and what comes after it. -/
theorem Meets.andThen (hp : Echoes e p) (hstop : StopsBehind kind p)
    (hkind : kind ≠ .symbol .semicolon) (hf : ∀ a, Meets e S' R' (f a)) :
    Meets e S' R' (p >>= f) where
  advances := hp.advances.bind fun a => (hf a).advances
  at_ ts lastStop depth b after h := by
    obtain ⟨a, between, hpa, hfa⟩ := exists_of_bind_eq_ok h
    rcases hp.echo ts hpa with hgone | ⟨us, lastStop', depth', rfl, hrun⟩
    · have hlt := length_lt_of_suffix hgone (hstop.rest_ne hkind hpa)
      exact .beyond (Nat.lt_of_le_of_lt ((hf a).advances hfa).length_le hlt)
    · rw [bind_of_ok hrun]
      exact (hf a).at_ us hfa

/-! ## Looking ahead -/

theorem Meets.complain {complaint : Complaint} :
    Meets e S R (Parse.complain complaint : Parser α) :=
  ⟨(Enters.complain (e := e)).advances, fun _ _ _ _ _ h => by cases h⟩

theorem MeetsAt.peek {g : Token → Parser α} {t : Token} {ts : List Token}
    (h : MeetsAt e S R (g t) (t :: ts)) : MeetsAt e S R (current >>= g) (t :: ts) := h

/-- Looking at the token after the one at the cursor. -/
theorem MeetsAt.peekFollowing {g : TokenKind → Parser α} {t : Token} {ts : List Token}
    (hend : g (.symbol .semicolon) = g (.symbol .closeTag)) (h : ∀ kind, Meets e S R (g kind)) :
    MeetsAt e S R (following >>= g) (t :: ts) := by
  cases ts with
  | nil =>
    intro lastStop depth a after hg
    have htag : (following >>= g) (e.withTag [t] lastStop depth) =
      g (.symbol .semicolon) (e.withTag [t] lastStop depth) := congrFun hend.symm _
    rw [htag]
    exact (h (.symbol .semicolon)).at_ [t] hg
  | cons u us => exact fun lastStop depth a after hg => (h u.kind).at_ (t :: u :: us) hg

end

end PhpScript.Parse
