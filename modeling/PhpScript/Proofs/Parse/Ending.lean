import PhpScript.Proofs.Parse.Extent

/-!
# Parsing up to the end of a statement

A semicolon and a closing tag both end a statement. To compare them, a parser is
run twice, over tokens that differ in one place only: an `Ending` has a
semicolon there in the one run and a closing tag in the other. As long as the
parser has not read so far, both runs do the same. What it does at the ending
itself is told by three properties, each of which says more than the one before:

* `Watches`: the runs do the same before the ending; at the ending nothing is
  said;
* `Echoes`: they do the same at the ending too, as far as the semicolon is not
  read;
* `Enters`: the parser does not come back from the ending without reading it.

They go through the combinators of the cursor, so each parser built from them
needs one lemma about its own steps. All parsers of names, types and
expressions are taken here, and those of statements as parts of other ones.
-/

namespace PhpScript.Parse

/-! ## Endings -/

/-- A semicolon and a closing tag, and the tokens that follow the one or the other. -/
structure Ending where
  semicolonSpan : Span
  semicolonText : String
  tagSpan : Span
  tagText : String
  rest : List Token

namespace Ending

variable (e : Ending)

/-- The semicolon. -/
def semicolon : Token := ⟨.symbol .semicolon, e.semicolonSpan, e.semicolonText⟩

/-- The closing tag. -/
def tag : Token := ⟨.symbol .closeTag, e.tagSpan, e.tagText⟩

/-- A cursor before some tokens and the semicolon. -/
def withSemicolon (ts : List Token) (lastStop depth : Nat) : Cursor :=
  ⟨ts ++ e.semicolon :: e.rest, lastStop, depth⟩

/-- A cursor before some tokens and the closing tag. -/
def withTag (ts : List Token) (lastStop depth : Nat) : Cursor :=
  ⟨ts ++ e.tag :: e.rest, lastStop, depth⟩

end Ending

/-- Whether tokens of a kind end a statement. -/
def endsStatement : TokenKind → Bool
  | .symbol .semicolon | .symbol .closeTag => true
  | _ => false

theorem eq_of_endsStatement {kind : TokenKind} (h : endsStatement kind) :
    kind = .symbol .semicolon ∨ kind = .symbol .closeTag := by
  unfold endsStatement at h
  split at h
  · exact .inl rfl
  · exact .inr rfl
  · cases h

/-! ## Two runs -/

/-- The parser only takes tokens away. -/
def Advances (p : Parser α) : Prop :=
  ∀ ⦃c after : Cursor⦄ ⦃a : α⦄, p c = .ok a after → after.rest <:+ c.rest

/-- The run before the semicolon reads it, or the other run does the same up to the same
    place. -/
def Echo (e : Ending) (p : Parser α) (ts : List Token) : Prop :=
  ∀ ⦃lastStop depth : Nat⦄ ⦃a : α⦄ ⦃after : Cursor⦄,
    p (e.withSemicolon ts lastStop depth) = .ok a after →
      after.rest <:+ e.rest ∨ ∃ us lastStop' depth', after = e.withSemicolon us lastStop' depth' ∧
        p (e.withTag ts lastStop depth) = .ok a (e.withTag us lastStop' depth')

/-- Both runs do the same before the ending. -/
structure Watches (e : Ending) (p : Parser α) : Prop where
  advances : Advances p
  before : ∀ t ts, Echo e p (t :: ts)

/-- Both runs do the same before the ending and at it. -/
structure Echoes (e : Ending) (p : Parser α) : Prop extends Watches e p where
  here : Echo e p []

/-- Both runs do the same before the ending, and a token that ends a statement is read
    when it comes first. -/
structure Enters (e : Ending) (p : Parser α) : Prop extends Watches e p where
  passes : ∀ {c after : Cursor} {t : Token} {rest : List Token} {a : α}, endsStatement t.kind →
    c.rest = t :: rest → p c = .ok a after → after.rest <:+ rest

section

variable {e : Ending} {p q : Parser α} {f : α → Parser β}

theorem bind_of_ok {c between : Cursor} {a : α} (hp : p c = .ok a between) :
    (p >>= f) c = f a between := by
  simp only [Bind.bind, EStateM.bind, hp]

theorem Echoes.echo (h : Echoes e p) (ts : List Token) : Echo e p ts := by
  cases ts with
  | nil => exact h.here
  | cons t ts => exact h.before t ts

theorem Enters.echoes (h : Enters e p) : Echoes e p where
  toWatches := h.toWatches
  here _ _ _ _ hp := .inl (h.passes (t := e.semicolon) rfl rfl hp)

theorem Advances.bind (hp : Advances p) (hf : ∀ a, Advances (f a)) : Advances (p >>= f) := by
  intro c after b h
  obtain ⟨a, between, hpa, hfa⟩ := exists_of_bind_eq_ok h
  exact (hf a hfa).trans (hp hpa)

theorem Echo.bind {ts : List Token} (hp : Echo e p ts) (hf : ∀ a, Echoes e (f a)) :
    Echo e (p >>= f) ts := by
  intro lastStop depth b after h
  obtain ⟨a, between, hpa, hfa⟩ := exists_of_bind_eq_ok h
  rcases hp hpa with hgone | ⟨us, lastStop', depth', rfl, hpa'⟩
  · exact .inl (((hf a).advances hfa).trans hgone)
  · rw [bind_of_ok hpa']
    exact (hf a).echo us hfa

/-- A parser that is there in no run that goes on. -/
theorem Enters.of_error (h : ∀ c, ∃ error after, p c = .error error after) : Enters e p where
  advances c _ _ hp := by
    obtain ⟨error, after, herror⟩ := h c
    cases herror.symm.trans hp
  before _ _ _ _ _ _ hp := by
    obtain ⟨error, after, herror⟩ := h _
    cases herror.symm.trans hp
  passes _ _ hp := by
    obtain ⟨error, after, herror⟩ := h _
    cases herror.symm.trans hp

theorem Enters.complain {complaint : Complaint} : Enters e (Parse.complain complaint : Parser α) :=
  .of_error fun _ => ⟨_, _, rfl⟩

theorem Enters.throw {error : ParseError} : Enters e (throw error : Parser α) :=
  .of_error fun _ => ⟨_, _, rfl⟩

theorem Enters.tooDeep : Enters e (Parse.tooDeep : Parser α) :=
  .of_error fun _ => ⟨_, _, rfl⟩

/-! ## One after the other -/

theorem Watches.bind (hp : Watches e p) (hf : ∀ a, Echoes e (f a)) : Watches e (p >>= f) where
  advances := hp.advances.bind fun a => (hf a).advances
  before t ts := (hp.before t ts).bind hf

theorem Echoes.bind (hp : Echoes e p) (hf : ∀ a, Echoes e (f a)) : Echoes e (p >>= f) where
  toWatches := hp.toWatches.bind hf
  here := hp.here.bind hf

/-- What has entered need not enter again. -/
theorem Enters.bind (hp : Enters e p) (hf : ∀ a, Echoes e (f a)) : Enters e (p >>= f) where
  toWatches := hp.toWatches.bind hf
  passes ht hc h := by
    obtain ⟨a, between, hpa, hfa⟩ := exists_of_bind_eq_ok h
    exact ((hf a).advances hfa).trans (hp.passes ht hc hpa)

/-- What only looks at the ending leaves it to what comes after. -/
theorem Watches.andThen (hp : Watches e p) (hf : ∀ a, Enters e (f a)) : Enters e (p >>= f) where
  toWatches := hp.bind fun a => (hf a).echoes
  passes {c _ t rest _} ht hc h := by
    obtain ⟨a, between, hpa, hfa⟩ := exists_of_bind_eq_ok h
    have hsuffix := hp.advances hpa
    rw [hc] at hsuffix
    rcases List.suffix_cons_iff.1 hsuffix with hstay | hgone
    · exact (hf a).passes ht hstay hfa
    · exact ((hf a).advances hfa).trans hgone

theorem Echoes.pure {a : α} : Echoes e (Pure.pure a) where
  advances c after _ h := by
    cases h
    exact List.suffix_refl _
  before _ _ _ _ _ _ h := by
    cases h
    exact .inr ⟨_, _, _, rfl, rfl⟩
  here _ _ _ _ h := by
    cases h
    exact .inr ⟨[], _, _, rfl, rfl⟩

theorem Enters.map {g : α → β} (hp : Enters e p) : Enters e (g <$> p) := by
  rw [map_eq_pure_bind]
  exact hp.bind fun _ => .pure

theorem Echoes.ite {b : Prop} [Decidable b] (hp : Echoes e p) (hq : Echoes e q) :
    Echoes e (if b then p else q) := by
  split
  · exact hp
  · exact hq

theorem Enters.ite {b : Prop} [Decidable b] (hp : Enters e p) (hq : Enters e q) :
    Enters e (if b then p else q) := by
  split
  · exact hp
  · exact hq

theorem Echoes.guard {b : Prop} [Decidable b] {complaint : Complaint} {k : Unit → Parser α}
    (hk : Echoes e (k ())) :
    Echoes e (if b then Parse.complain complaint >>= k else k ()) :=
  .ite (Enters.complain.echoes.bind fun _ => hk) hk

theorem Enters.guard {b : Prop} [Decidable b] {complaint : Complaint} {k : Unit → Parser α}
    (hk : Enters e (k ())) :
    Enters e (if b then Parse.complain complaint >>= k else k ()) :=
  .ite (Enters.complain.bind fun _ => hk.echoes) hk

/-! ## Nesting -/

theorem within_eq_ok_iff {c after : Cursor} {a : α} :
    Parse.within p c = .ok a after ↔
      ∃ inner, p { c with depth := c.depth + 1 } = .ok a inner ∧
        after = { inner with depth := inner.depth - 1 } := by
  unfold Parse.within
  constructor
  · intro h
    split at h
    · next inner hp =>
      cases h
      exact ⟨inner, hp, rfl⟩
    · cases h
  · rintro ⟨inner, hp, rfl⟩
    simp only [hp]

theorem chain_eq_ok_iff {c after : Cursor} {a : α} :
    Parse.chain p c = .ok a after ↔
      ∃ inner, p c = .ok a inner ∧ after = { inner with depth := c.depth } := by
  unfold Parse.chain
  constructor
  · intro h
    split at h
    · next inner hp =>
      cases h
      exact ⟨inner, hp, rfl⟩
    · cases h
  · rintro ⟨inner, hp, rfl⟩
    simp only [hp]

theorem Enters.within (hp : Enters e p) : Enters e (Parse.within p) where
  advances c after a h := by
    obtain ⟨inner, hinner, rfl⟩ := within_eq_ok_iff.1 h
    have hsuffix := hp.advances hinner
    exact hsuffix
  before t ts lastStop depth a after h := by
    obtain ⟨inner, hinner, rfl⟩ := within_eq_ok_iff.1 h
    rcases hp.before t ts hinner with hgone | ⟨us, lastStop', depth', rfl, hinner'⟩
    · exact .inl hgone
    · exact .inr ⟨us, lastStop', depth' - 1, rfl, within_eq_ok_iff.2 ⟨_, hinner', rfl⟩⟩
  passes {c _ t rest _} ht hc h := by
    obtain ⟨inner, hinner, rfl⟩ := within_eq_ok_iff.1 h
    have hin : ({ c with depth := c.depth + 1 } : Cursor).rest = t :: rest := hc
    have hsuffix := hp.passes ht hin hinner
    exact hsuffix

theorem Enters.chain (hp : Enters e p) : Enters e (Parse.chain p) where
  advances c after a h := by
    obtain ⟨inner, hinner, rfl⟩ := chain_eq_ok_iff.1 h
    have hsuffix := hp.advances hinner
    exact hsuffix
  before t ts lastStop depth a after h := by
    obtain ⟨inner, hinner, rfl⟩ := chain_eq_ok_iff.1 h
    rcases hp.before t ts hinner with hgone | ⟨us, lastStop', depth', rfl, hinner'⟩
    · exact .inl hgone
    · exact .inr ⟨us, lastStop', depth, rfl, chain_eq_ok_iff.2 ⟨_, hinner', rfl⟩⟩
  passes ht hc h := by
    obtain ⟨inner, hinner, rfl⟩ := chain_eq_ok_iff.1 h
    have hsuffix := hp.passes ht hc hinner
    exact hsuffix

/-! ## Tokens -/

/-- A parser that looks around and leaves the tokens as they are. -/
theorem Advances.of_rest_eq (h : ∀ c, ∃ a after, p c = .ok a after ∧ after.rest = c.rest) :
    Advances p := by
  intro c after a hp
  obtain ⟨b, after', hb, hrest⟩ := h c
  cases hb.symm.trans hp
  rw [hrest]

theorem current_advances : Advances current := .of_rest_eq fun _ => ⟨_, _, rfl, rfl⟩

theorem following_advances : Advances following := .of_rest_eq fun _ => ⟨_, _, rfl, rfl⟩

theorem isAt_advances {kind : TokenKind} : Advances (isAt kind) :=
  .of_rest_eq fun _ => ⟨_, _, rfl, rfl⟩

theorem current_watches : Watches e current where
  advances := current_advances
  before _ _ _ _ _ _ h := by
    cases h
    exact .inr ⟨_, _, _, rfl, rfl⟩

theorem isAt_watches {kind : TokenKind} : Watches e (isAt kind) where
  advances := isAt_advances
  before _ _ _ _ _ _ h := by
    cases h
    exact .inr ⟨_, _, _, rfl, rfl⟩

/-- A mark that is looked for is at neither of the endings. -/
theorem isAt_echoes {kind : TokenKind} (hkind : endsStatement kind = false) :
    Echoes e (isAt kind) where
  toWatches := isAt_watches
  here _ _ _ _ h := by
    cases h
    have hs : (TokenKind.symbol .semicolon == kind) = false :=
      beq_false_of_ne (by rintro rfl; cases hkind)
    have ht : (TokenKind.symbol .closeTag == kind) = false :=
      beq_false_of_ne (by rintro rfl; cases hkind)
    refine .inr ⟨[], _, _, rfl, ?_⟩
    show EStateM.Result.ok (TokenKind.symbol .closeTag == kind) _ =
      .ok (TokenKind.symbol .semicolon == kind) _
    rw [hs, ht]

/-- Looking at the token at the cursor before entering. -/
theorem Enters.peek {g : Token → Parser β} (h : ∀ t, Enters e (g t)) : Enters e (current >>= g) :=
  current_watches.andThen h

/-- Looking at the token at the cursor, which is the same for the semicolon as for the tag. -/
theorem Echoes.peek {g : Token → Parser β} (hend : g e.semicolon = g e.tag)
    (h : ∀ t, Echoes e (g t)) : Echoes e (current >>= g) where
  toWatches := current_watches.bind h
  here lastStop depth b after hg := by
    have hsemicolon : g e.semicolon (e.withSemicolon [] lastStop depth) = .ok b after := hg
    have htag : (current >>= g) (e.withTag [] lastStop depth) =
      g e.semicolon (e.withTag [] lastStop depth) := congrFun hend.symm _
    rw [htag]
    exact (h _).here hsemicolon

/-- Looking at the token after the one at the cursor. -/
theorem Echoes.peekFollowing {g : TokenKind → Parser β}
    (hend : g (.symbol .semicolon) = g (.symbol .closeTag)) (h : ∀ kind, Echoes e (g kind)) :
    Echoes e (following >>= g) where
  advances := following_advances.bind fun kind => (h kind).advances
  before t ts := by
    cases ts with
    | nil =>
      intro lastStop depth b after hg
      have hsemicolon : g (.symbol .semicolon) (e.withSemicolon [t] lastStop depth) = .ok b after :=
        hg
      have htag : (following >>= g) (e.withTag [t] lastStop depth) =
        g (.symbol .semicolon) (e.withTag [t] lastStop depth) := congrFun hend.symm _
      rw [htag]
      exact (h _).before t [] hsemicolon
    | cons u us => exact fun lastStop depth b after hg => (h u.kind).before t (u :: us) hg
  here lastStop depth b after hg := by
    -- The token after the ending is the same in both runs.
    obtain ⟨kind, hsemicolon, htag⟩ : ∃ kind, following (e.withSemicolon [] lastStop depth) =
        .ok kind (e.withSemicolon [] lastStop depth) ∧
        following (e.withTag [] lastStop depth) = .ok kind (e.withTag [] lastStop depth) := by
      unfold following Ending.withSemicolon Ending.withTag
      cases e.rest <;> exact ⟨_, rfl, rfl⟩
    rw [bind_of_ok hsemicolon] at hg
    rw [bind_of_ok htag]
    exact (h kind).here hg

theorem Enters.peekFollowing {g : TokenKind → Parser β}
    (hend : g (.symbol .semicolon) = g (.symbol .closeTag)) (h : ∀ kind, Enters e (g kind)) :
    Enters e (following >>= g) where
  toWatches := (Echoes.peekFollowing hend fun kind => (h kind).echoes).toWatches
  passes ht hc hg := (h _).passes ht hc hg

theorem advance_enters : Enters e advance where
  advances c after a h := by
    cases h
    dsimp only
    split
    · exact List.suffix_refl _
    · exact List.tail_suffix _
  before t ts lastStop depth a after h := by
    cases h
    by_cases hk : t.kind = .endOfFile
    · refine .inr ⟨t :: ts, t.span.stop, depth, ?_, ?_⟩ <;>
        simp [advance, Cursor.current, Ending.withSemicolon, Ending.withTag, hk]
    · refine .inr ⟨ts, t.span.stop, depth, ?_, ?_⟩ <;>
        simp [advance, Cursor.current, Ending.withSemicolon, Ending.withTag, hk]
  passes {c after t rest a} ht hc h := by
    cases h
    have hkind : (t.kind == .endOfFile) = false := by
      rcases eq_of_endsStatement ht with ht | ht <;> rw [ht] <;> rfl
    simp [Cursor.current, hc, hkind]

theorem spanFrom_echoes {start : Span} : Echoes e (spanFrom start) where
  advances := .of_rest_eq fun _ => ⟨_, _, rfl, rfl⟩
  before _ _ _ _ _ _ h := by
    cases h
    exact .inr ⟨_, _, _, rfl, rfl⟩
  here _ _ _ _ h := by
    cases h
    exact .inr ⟨[], _, _, rfl, rfl⟩

/-- What is put together with its place. -/
theorem spanned_echoes {start : Span} {w : Span → α} :
    Echoes e (spanFrom start >>= fun s => pure (w s)) :=
  spanFrom_echoes.bind fun _ => .pure

theorem link_echoes : Echoes e link where
  advances := .of_rest_eq fun _ => ⟨_, _, rfl, rfl⟩
  before _ _ _ _ _ _ h := by
    cases h
    exact .inr ⟨_, _, _, rfl, rfl⟩
  here _ _ _ _ h := by
    cases h
    exact .inr ⟨[], _, _, rfl, rfl⟩

theorem accept_watches {kind : TokenKind} : Watches e (accept kind) :=
  isAt_watches.bind fun _ => .ite (advance_enters.echoes.bind fun _ => .pure) .pure

theorem accept_echoes {kind : TokenKind} (hkind : endsStatement kind = false) :
    Echoes e (accept kind) :=
  (isAt_echoes hkind).bind fun _ => .ite (advance_enters.echoes.bind fun _ => .pure) .pure

/-- Looking for a mark that is at neither of the endings. -/
theorem Echoes.peekAt {kind : TokenKind} (hkind : endsStatement kind = false)
    {f : Bool → Parser β} (hf : ∀ b, Echoes e (f b)) : Echoes e (isAt kind >>= f) :=
  (isAt_echoes hkind).bind hf

theorem Echoes.accept {kind : TokenKind} (hkind : endsStatement kind = false)
    {f : Bool → Parser β} (hf : ∀ b, Echoes e (f b)) : Echoes e (Parse.accept kind >>= f) :=
  (accept_echoes hkind).bind hf

theorem Enters.peekAt {kind : TokenKind} {f : Bool → Parser β} (hf : ∀ b, Enters e (f b)) :
    Enters e (isAt kind >>= f) :=
  isAt_watches.andThen hf

theorem Enters.accept {kind : TokenKind} {f : Bool → Parser β} (hf : ∀ b, Enters e (f b)) :
    Enters e (Parse.accept kind >>= f) :=
  accept_watches.andThen hf

theorem accept_semicolon_echoes : Echoes e (Parse.accept (.symbol .semicolon)) where
  toWatches := accept_watches
  here _ _ _ _ h := by
    cases h
    exact .inl (List.suffix_refl _)

/-- A closing tag that may be read. In the run with the semicolon it is not there, so
    that run goes on and reads the semicolon. -/
theorem Echoes.acceptTag {p q : Parser β} (hp : Echoes e p) (hq : Enters e q) :
    Echoes e (Parse.accept (.symbol .closeTag) >>= fun b => if b then p else q) where
  toWatches := accept_watches.bind fun _ => .ite hp hq.echoes
  here lastStop depth b after h := by
    have hrun : q (e.withSemicolon [] lastStop depth) = .ok b after := h
    exact .inl (hq.passes (t := e.semicolon) rfl rfl hrun)

/-- Whether a statement ends at the cursor. -/
theorem Echoes.peekEnd {p q : Parser β} (hp : Echoes e p) (hq : Echoes e q) :
    Echoes e (isAt (.symbol .semicolon) >>= fun b => isAt (.symbol .closeTag) >>= fun b' =>
      if b || b' then p else q) where
  advances := isAt_advances.bind fun _ => isAt_advances.bind fun _ => (Echoes.ite hp hq).advances
  before t ts _ _ _ _ h := (Echoes.ite hp hq).before t ts h
  here _ _ _ _ h := hp.here h

theorem expect_enters {kind : TokenKind} : Enters e (expect kind) :=
  isAt_watches.andThen fun _ => .ite advance_enters .complain

theorem terminator_of_endsStatement {c : Cursor} {t : Token} {rest : List Token}
    (ht : endsStatement t.kind) (hc : c.rest = t :: rest) :
    terminator c = .ok () { c with rest, lastStop := t.span.stop } := by
  obtain ⟨tokens, lastStop, depth⟩ := c
  obtain ⟨kind, span, text⟩ := t
  cases hc
  rcases eq_of_endsStatement ht with ht | ht <;> cases ht <;> rfl

/-- The end of a statement is one token of the two kinds. -/
theorem terminator_eq_ok_iff {c after : Cursor} {u : Unit} :
    terminator c = .ok u after ↔ ∃ t rest, endsStatement t.kind ∧ c.rest = t :: rest ∧
      after = { c with rest, lastStop := t.span.stop } := by
  constructor
  · intro h
    have ht : endsStatement c.current.kind := by
      by_contra ht
      have hsemicolon : c.current.kind ≠ .symbol .semicolon := fun hk => ht (by rw [hk]; rfl)
      have htag : c.current.kind ≠ .symbol .closeTag := fun hk => ht (by rw [hk]; rfl)
      simp [terminator, Parse.accept, isAt, complain, Bind.bind, EStateM.bind, Pure.pure,
        EStateM.pure, hsemicolon, htag] at h
    obtain ⟨t, rest, hc⟩ : ∃ t rest, c.rest = t :: rest := by
      refine List.exists_cons_of_ne_nil fun hnil => ?_
      rw [Cursor.current, hnil] at ht
      cases ht
    rw [Cursor.current, hc, List.headD_cons] at ht
    cases (terminator_of_endsStatement ht hc).symm.trans h
    exact ⟨t, rest, ht, hc, rfl⟩
  · rintro ⟨t, rest, ht, hc, rfl⟩
    exact terminator_of_endsStatement ht hc

theorem terminator_enters : Enters e terminator where
  advances c after u h := by
    obtain ⟨t, rest, -, hc, rfl⟩ := terminator_eq_ok_iff.1 h
    rw [hc]
    exact List.suffix_cons t rest
  before t ts lastStop depth u after h := by
    obtain ⟨t', rest, ht, hc, rfl⟩ := terminator_eq_ok_iff.1 h
    cases hc
    exact .inr ⟨ts, t.span.stop, depth, rfl, terminator_eq_ok_iff.2 ⟨t, _, ht, rfl, rfl⟩⟩
  passes ht hc h := by
    obtain ⟨t', rest, -, hc', rfl⟩ := terminator_eq_ok_iff.1 h
    cases hc.symm.trans hc'
    exact List.suffix_refl _

theorem other_echoes {kind : String} {children : List Node} {start : Span} :
    Echoes e (other kind children start) :=
  spanned_echoes

/-! ## Repetition -/

theorem gatherFor_echoes {step : Parser (Round α)} (h : Echoes e step) (bound : List Token) :
    Echoes e (gatherFor step bound) := by
  induction bound with
  | nil =>
    refine h.bind fun r => ?_
    cases r with
    | stop => exact .pure
    | last a => exact .pure
    | more a => exact .pure
  | cons t bound ih =>
    refine h.bind fun r => ?_
    cases r with
    | stop => exact .pure
    | last a => exact .pure
    | more a => exact ih.bind fun _ => .pure

/-- The bound only counts. -/
theorem gatherFor_congr {step : Parser (Round α)} {bound bound' : List Token}
    (h : bound.length = bound'.length) : gatherFor step bound = gatherFor step bound' := by
  induction bound generalizing bound' with
  | nil => rw [List.length_eq_zero_iff.1 h.symm]
  | cons t bound ih =>
    obtain ⟨u, us, rfl⟩ := List.exists_cons_of_length_eq_add_one h.symm
    rw [gatherFor, gatherFor, ih (Nat.succ.inj h)]

/-- Both runs are bounded by the same number of tokens. -/
theorem gather_withTag (e : Ending) (step : Parser (Round α)) (ts : List Token)
    (lastStop depth : Nat) :
    gather step (e.withTag ts lastStop depth) =
      gatherFor step (e.withSemicolon ts lastStop depth).rest (e.withTag ts lastStop depth) := by
  rw [gather, gatherFor_congr]
  simp [Ending.withTag, Ending.withSemicolon]

theorem gather_echo {step : Parser (Round α)} {ts : List Token}
    (h : ∀ bound, Echo e (gatherFor step bound) ts) : Echo e (gather step) ts := by
  intro lastStop depth as after hg
  rw [gather_withTag]
  exact h _ hg

theorem gather_echoes {step : Parser (Round α)} (h : Echoes e step) : Echoes e (gather step) where
  advances c _ _ hg := (gatherFor_echoes h c.rest).advances hg
  before t ts := gather_echo fun bound => (gatherFor_echoes h bound).before t ts
  here := gather_echo fun bound => (gatherFor_echoes h bound).here

theorem gatherFor_enters {step : Parser (Round α)} (h : Enters e step) (bound : List Token) :
    Enters e (gatherFor step bound) := by
  have hrest := gatherFor_echoes h.echoes
  cases bound with
  | nil =>
    refine h.bind fun r => ?_
    cases r with
    | stop => exact .pure
    | last a => exact .pure
    | more a => exact .pure
  | cons t bound =>
    refine h.bind fun r => ?_
    cases r with
    | stop => exact .pure
    | last a => exact .pure
    | more a => exact (hrest bound).bind fun _ => .pure

theorem gather_enters {step : Parser (Round α)} (h : Enters e step) : Enters e (gather step) where
  toWatches := (gather_echoes h.echoes).toWatches
  passes {c _ _ _ _} ht hc hg := (gatherFor_enters h c.rest).passes ht hc hg

theorem commaItem_enters (h : Enters e p) : Enters e (commaItem p) :=
  h.bind fun _ => .accept rfl fun _ => .ite .pure .pure

theorem commaSeparated_enters (h : Enters e p) : Enters e (commaSeparated p) :=
  gather_enters (commaItem_enters h)

theorem commaListUntil_echoes (h : Enters e p) : Echoes e (commaListUntil .closeParen p) :=
  gather_echoes <| .peekAt rfl fun _ => .ite .pure (commaItem_enters h).echoes

end

variable {e : Ending}

/-! ## Names -/

theorem identifier_enters : Enters e identifier :=
  .peek fun _ => .guard <| advance_enters.bind fun _ => .pure

theorem namePart_enters : Enters e namePart :=
  .peek fun _ => .guard <| advance_enters.bind fun _ => .peekAt rfl fun _ =>
    .peekFollowing rfl fun _ => .ite (advance_enters.echoes.bind fun _ => .pure) .pure

theorem name_enters : Enters e name :=
  .peek fun _ => .accept fun _ => (gather_enters namePart_enters).bind fun _ =>
    spanned_echoes

/-! ## Types and parameters -/

theorem typePart_echoes : Echoes e typePart := by
  refine .peek rfl fun t => ?_
  split
  · exact advance_enters.echoes.bind fun _ => .pure
  all_goals try exact .pure
  all_goals
    refine advance_enters.echoes.bind fun _ => .peek rfl fun t => ?_
    split
    · exact .pure
    · exact advance_enters.echoes.bind fun _ => .pure
    · exact .peekFollowing rfl fun _ => .ite .pure (advance_enters.echoes.bind fun _ => .pure)
    · exact .pure

theorem skipType_echoes : Echoes e skipType :=
  .accept rfl fun _ => (gather_echoes typePart_echoes).bind fun _ => .guard .pure

theorem skipReturnType_echoes : Echoes e skipReturnType :=
  .accept rfl fun _ => .ite (skipType_echoes.bind fun _ => .ite Enters.complain.echoes .pure) .pure

theorem parameter_enters : Enters e parameter :=
  .peek fun _ => .peek fun _ => .guard <| skipType_echoes.andThen fun _ => .peekAt fun _ =>
    .guard <| .peekAt fun _ => .guard <| expect_enters.bind fun _ => .peekAt rfl fun _ => .guard <|
      spanned_echoes

theorem parameterList_enters : Enters e parameterList :=
  expect_enters.bind fun _ => (commaListUntil_echoes parameter_enters).bind fun _ =>
    expect_enters.echoes.bind fun _ => .pure

theorem refuseByRefReturn_echoes : Echoes e refuseByRefReturn :=
  .peekAt rfl fun _ => .ite Enters.complain.echoes .pure

theorem closureBinding_enters : Enters e closureBinding :=
  .peekAt fun _ => .guard <| expect_enters.bind fun _ => .pure

theorem closureBindings_echoes : Echoes e closureBindings :=
  .accept rfl fun _ => .ite
    (expect_enters.echoes.bind fun _ => (commaListUntil_echoes closureBinding_enters).bind fun _ =>
      expect_enters.echoes.bind fun _ => .pure)
    .pure

end PhpScript.Parse
