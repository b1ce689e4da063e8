import PhpScript.Parse.Program
import PhpScript.Proofs.Token.Lexing

/-!
# What parsers read

`Reads p ws follow fits Q` says what a parser does with given tokens: before the
tokens `ws`, without their places, and any token after them whose kind is a
`follow`, the parser `p` reads exactly `ws` and gives a `Q`; unless they do not
fit in the levels that are left, and then it fails for that reason.

As `Yields` does, it goes through the combinators of the cursor. The words of a
parser are put together in the order in which it reads them: `Reads.bind` puts
one after the other, and the others look at the next token or read one. What a
list of them needs to fit is said for each of its items.
-/

namespace PhpScript.Parse

/-- A token without its place. -/
abbrev Sig := TokenKind × String

/-- The kind of the first token that is still to be read. -/
def kindAt (ts : List Token) : TokenKind := (ts.headD ⟨.endOfFile, .unknown, ""⟩).kind

/-- The kind of the first of `ws`, or that of the token after them. -/
def firstKind (ws : List Sig) (next : TokenKind) : TokenKind :=
  match ws with
  | [] => next
  | w :: _ => w.1

@[simp] theorem firstKind_nil (next : TokenKind) : firstKind [] next = next := rfl

@[simp] theorem firstKind_cons (w : Sig) (ws : List Sig) (next : TokenKind) :
    firstKind (w :: ws) next = w.1 := rfl

theorem firstKind_append (ws₁ ws₂ : List Sig) (next : TokenKind) :
    firstKind (ws₁ ++ ws₂) next = firstKind ws₁ (firstKind ws₂ next) := by
  cases ws₁ <;> rfl

theorem firstKind_ne {ws : List Sig} {kind next : TokenKind} (hws : ∀ w ∈ ws, w.1 ≠ kind)
    (hnext : next ≠ kind) : firstKind ws next ≠ kind := by
  cases ws with
  | nil => exact hnext
  | cons w ws => exact hws w List.mem_cons_self

theorem kindAt_append {ts rest : List Token} {ws : List Sig} (h : ts.map Token.sig = ws) :
    kindAt (ts ++ rest) = firstKind ws (kindAt rest) := by
  subst h
  cases ts <;> rfl

/-- The parser reads the tokens, before any that may follow, if they fit. -/
structure Reads (p : Parser α) (ws : List Sig) (follow : TokenKind → Prop) (fits : Prop)
    (Q : α → Prop) : Prop where
  ok : ∀ {c : Cursor} {ts rest : List Token}, c.rest = ts ++ rest → ts.map Token.sig = ws →
    follow (kindAt rest) → fits → ∃ a after, p c = .ok a after ∧ after.rest = rest ∧ Q a
  tooDeep : ∀ {c : Cursor} {ts rest : List Token}, c.rest = ts ++ rest → ts.map Token.sig = ws →
    follow (kindAt rest) → ¬fits → ∃ span after, p c = .error (.tooDeep span) after

/-- Any token may follow. -/
abbrev Any : TokenKind → Prop := fun _ => True

namespace Reads

variable {p : Parser α} {f : α → Parser β} {ws ws₁ ws₂ : List Sig}
  {follow follow₁ follow₂ : TokenKind → Prop} {fits fits₁ fits₂ : Prop} {P : α → Prop}
  {Q : β → Prop}

/-! ## One after the other -/

theorem pure {a : α} (h : P a) : Reads (Pure.pure a) [] follow True P where
  ok := by
    intro c ts rest hc hts _ _
    rw [List.map_eq_nil_iff] at hts
    subst hts
    exact ⟨a, c, rfl, hc, h⟩
  tooDeep _ _ _ h := absurd trivial h

theorem bind (hp : Reads p ws₁ follow₁ fits₁ P) (hf : ∀ a, P a → Reads (f a) ws₂ follow₂ fits₂ Q)
    (hfollow : ∀ k, follow₂ k → follow₁ (firstKind ws₂ k)) :
    Reads (p >>= f) (ws₁ ++ ws₂) follow₂ (fits₁ ∧ fits₂) Q where
  ok := by
    intro c ts rest hc hts hrest hfits
    obtain ⟨ts₁, ts₂, rfl, h₁, h₂⟩ := List.map_eq_append_iff.1 hts
    rw [List.append_assoc] at hc
    obtain ⟨a, mid, hpa, hmid, ha⟩ := hp.ok hc h₁ (kindAt_append h₂ ▸ hfollow _ hrest) hfits.1
    obtain ⟨b, after, hfb, hafter, hb⟩ := (hf a ha).ok hmid h₂ hrest hfits.2
    exact ⟨b, after, by simp [Bind.bind, EStateM.bind, hpa, hfb], hafter, hb⟩
  tooDeep := by
    intro c ts rest hc hts hrest hfits
    obtain ⟨ts₁, ts₂, rfl, h₁, h₂⟩ := List.map_eq_append_iff.1 hts
    rw [List.append_assoc] at hc
    have hnext : follow₁ (kindAt (ts₂ ++ rest)) := kindAt_append h₂ ▸ hfollow _ hrest
    -- Either the first part fails, or it is read and the second one fails.
    by_cases hfits₁ : fits₁
    · obtain ⟨a, mid, hpa, hmid, ha⟩ := hp.ok hc h₁ hnext hfits₁
      obtain ⟨span, after, hfb⟩ := (hf a ha).tooDeep hmid h₂ hrest fun h => hfits ⟨hfits₁, h⟩
      exact ⟨span, after, by simp [Bind.bind, EStateM.bind, hpa, hfb]⟩
    · obtain ⟨span, after, hpe⟩ := hp.tooDeep hc h₁ hnext hfits₁
      exact ⟨span, after, by simp [Bind.bind, EStateM.bind, hpe]⟩

/-- A parser that reads nothing more after its first part. -/
theorem bind_last (hp : Reads p ws follow fits P)
    (hf : ∀ a, P a → Reads (f a) [] follow True Q) : Reads (p >>= f) ws follow fits Q := by
  simpa using hp.bind hf fun _ hk => hk

theorem bind_pure (hp : Reads p ws follow fits P) {g : α → β} (hg : ∀ a, P a → Q (g a)) :
    Reads (p >>= fun a => Pure.pure (g a)) ws follow fits Q :=
  hp.bind_last fun a ha => pure (hg a ha)

theorem map (hp : Reads p ws follow fits P) {g : α → β} (hg : ∀ a, P a → Q (g a)) :
    Reads (g <$> p) ws follow fits Q := by
  rw [map_eq_pure_bind]
  exact hp.bind_pure hg

theorem congr (hp : Reads p ws follow fits P) (h : fits ↔ fits₁) : Reads p ws follow fits₁ P :=
  propext h ▸ hp

theorem zero_le {L : Nat} (hp : Reads p ws follow True P) : Reads p ws follow (0 ≤ L) P :=
  hp.congr (iff_of_true trivial L.zero_le)

/-- One after the other, when the second fits in any case. -/
theorem bind_left (hp : Reads p ws₁ follow₁ fits P)
    (hf : ∀ a, P a → Reads (f a) ws₂ follow₂ True Q)
    (hfollow : ∀ k, follow₂ k → follow₁ (firstKind ws₂ k)) :
    Reads (p >>= f) (ws₁ ++ ws₂) follow₂ fits Q :=
  (hp.bind hf hfollow).congr (and_iff_left trivial)

/-- One after the other, when the first fits in any case. -/
theorem bind_right (hp : Reads p ws₁ follow₁ True P)
    (hf : ∀ a, P a → Reads (f a) ws₂ follow₂ fits Q)
    (hfollow : ∀ k, follow₂ k → follow₁ (firstKind ws₂ k)) :
    Reads (p >>= f) (ws₁ ++ ws₂) follow₂ fits Q :=
  (hp.bind hf hfollow).congr (and_iff_right trivial)

theorem mono {P' : α → Prop} (hp : Reads p ws follow fits P) (h : ∀ a, P a → P' a) :
    Reads p ws follow fits P' where
  ok hc hts hrest hfits := by
    obtain ⟨a, after, hpa, hafter, ha⟩ := hp.ok hc hts hrest hfits
    exact ⟨a, after, hpa, hafter, h a ha⟩
  tooDeep := hp.tooDeep

/-- Fewer tokens may follow. -/
theorem before (hp : Reads p ws follow fits P) (h : ∀ k, follow₁ k → follow k) :
    Reads p ws follow₁ fits P where
  ok hc hts hrest := hp.ok hc hts (h _ hrest)
  tooDeep hc hts hrest := hp.tooDeep hc hts (h _ hrest)

/-! ## Looking at tokens -/

/-- A parser that looks at the token at the cursor goes on with one that is the
    first of `ws`, if there is any. -/
theorem peek {g : Token → Parser β}
    (h : ∀ t : Token, (∃ k, follow k ∧ t.kind = firstKind ws k) → (∀ w ∈ ws.head?, t.sig = w) →
      Reads (g t) ws follow fits Q) : Reads (current >>= g) ws follow fits Q := by
  have hcurrent {c : Cursor} {ts rest : List Token} (hc : c.rest = ts ++ rest)
      (hts : ts.map Token.sig = ws) (hrest : follow (kindAt rest)) :
      Reads (g c.current) ws follow fits Q := by
    refine h _ ⟨kindAt rest, hrest, ?_⟩ ?_
    · rw [← kindAt_append hts, ← hc]
      rfl
    · intro w hw
      subst hts
      cases ts with
      | nil => cases hw
      | cons t ts =>
        cases hw
        simp [Cursor.current, hc]
  exact ⟨fun hc hts hrest => (hcurrent hc hts hrest).ok hc hts hrest,
    fun hc hts hrest => (hcurrent hc hts hrest).tooDeep hc hts hrest⟩

/-- The same, when there is a first token and its kind is known. -/
theorem peek_cons {g : Token → Parser β} {w : Sig} (kind : TokenKind) (hw : w.1 = kind)
    (h : ∀ t : Token, t.kind = kind → t.text = w.2 → Reads (g t) (w :: ws) follow fits Q) :
    Reads (current >>= g) (w :: ws) follow fits Q := by
  refine peek fun t _ ht => ?_
  have hsig : t.sig = w := ht w rfl
  exact h t ((congrArg Prod.fst hsig).trans hw) (congrArg Prod.snd hsig)

theorem isAt {kind : TokenKind} {b : Bool} {g : Bool → Parser β}
    (hb : ∀ k, follow k → (firstKind ws k == kind) = b) (h : Reads (g b) ws follow fits Q) :
    Reads (isAt kind >>= g) ws follow fits Q := by
  have hat {c : Cursor} {ts rest : List Token} (hc : c.rest = ts ++ rest)
      (hts : ts.map Token.sig = ws) (hrest : follow (kindAt rest)) :
      (Parse.isAt kind >>= g) c = g b c := by
    have hkind : c.current.kind = firstKind ws (kindAt rest) := by
      rw [← kindAt_append hts, ← hc]
      rfl
    simp [Bind.bind, EStateM.bind, Parse.isAt, hkind, hb _ hrest]
  refine ⟨fun hc hts hrest => ?_, fun hc hts hrest => ?_⟩
  · rw [hat hc hts hrest]
    exact h.ok hc hts hrest
  · rw [hat hc hts hrest]
    exact h.tooDeep hc hts hrest

/-- A parser that looks at the token after the first. -/
theorem peekFollowing {g : TokenKind → Parser β} (hws : ws ≠ [])
    (h : ∀ kind, (∃ k, follow k ∧ kind = firstKind ws.tail k) → Reads (g kind) ws follow fits Q) :
    Reads (following >>= g) ws follow fits Q := by
  have hsecond {c : Cursor} {ts rest : List Token} (hc : c.rest = ts ++ rest)
      (hts : ts.map Token.sig = ws) :
      (following >>= g) c = g (firstKind ws.tail (kindAt rest)) c := by
    subst hts
    obtain ⟨t, ts, rfl⟩ := List.exists_cons_of_ne_nil (mt List.map_eq_nil_iff.2 hws)
    rw [List.map_cons, List.tail_cons, ← kindAt_append rfl]
    simp only [Bind.bind, EStateM.bind, following, hc, List.cons_append]
    cases ts ++ rest <;> rfl
  refine ⟨fun {c ts rest} hc hts hrest => ?_, fun {c ts rest} hc hts hrest => ?_⟩
  · rw [hsecond hc hts]
    exact (h _ ⟨_, hrest, rfl⟩).ok hc hts hrest
  · rw [hsecond hc hts]
    exact (h _ ⟨_, hrest, rfl⟩).tooDeep hc hts hrest

/-- A parser that goes on in any case, whatever the token after the first is. -/
theorem anyFollowing {g : TokenKind → Parser β} (h : ∀ kind, Reads (g kind) ws follow fits Q) :
    Reads (following >>= g) ws follow fits Q :=
  ⟨fun hc hts hrest => (h _).ok hc hts hrest, fun hc hts hrest => (h _).tooDeep hc hts hrest⟩

/-- A refusal that does not apply. -/
theorem guard {b : Prop} [Decidable b] {complaint : Complaint} {k : Unit → Parser α} (hb : ¬b)
    (h : Reads (k ()) ws follow fits P) :
    Reads (if b then Parse.complain complaint >>= k else k ()) ws follow fits P := by
  rwa [if_neg hb]

/-! ## Reading tokens -/

theorem advance {w : Sig} {g : Token → Parser β} (hw : w.1 ≠ .endOfFile)
    (h : ∀ t : Token, t.sig = w → Reads (g t) ws follow fits Q) :
    Reads (advance >>= g) (w :: ws) follow fits Q := by
  have hstep {c : Cursor} {ts rest : List Token} (hc : c.rest = ts ++ rest)
      (hts : ts.map Token.sig = w :: ws) :
      ∃ t ts' after, t.sig = w ∧ ts'.map Token.sig = ws ∧ after.rest = ts' ++ rest ∧
        (Parse.advance >>= g) c = g t after := by
    obtain ⟨t, ts, rfl, ht, hts⟩ := List.map_eq_cons_iff.1 hts
    have hkind : t.kind ≠ .endOfFile := by
      rw [← ht] at hw
      exact hw
    refine ⟨t, ts, ⟨ts ++ rest, t.span.stop, c.depth⟩, ht, hts, rfl, ?_⟩
    simp [Bind.bind, EStateM.bind, Parse.advance, Cursor.current, hc, hkind]
  refine ⟨fun hc hts hrest hfits => ?_, fun hc hts hrest hfits => ?_⟩
  · obtain ⟨t, ts', after, ht, hts', hafter, heq⟩ := hstep hc hts
    rw [heq]
    exact (h t ht).ok hafter hts' hrest hfits
  · obtain ⟨t, ts', after, ht, hts', hafter, heq⟩ := hstep hc hts
    rw [heq]
    exact (h t ht).tooDeep hafter hts' hrest hfits

theorem expect {w : Sig} {kind : TokenKind} {g : Token → Parser β} (hw : w.1 = kind)
    (hkind : kind ≠ .endOfFile) (h : ∀ t : Token, t.sig = w → Reads (g t) ws follow fits Q) :
    Reads (expect kind >>= g) (w :: ws) follow fits Q := by
  rw [Parse.expect, bind_assoc]
  exact isAt (b := true) (by simp [hw]) (advance (hw ▸ hkind) h)

theorem accept {w : Sig} {kind : TokenKind} {g : Bool → Parser β} (hw : w.1 = kind)
    (hkind : kind ≠ .endOfFile) (h : Reads (g true) ws follow fits Q) :
    Reads (accept kind >>= g) (w :: ws) follow fits Q := by
  rw [Parse.accept, bind_assoc]
  refine isAt (b := true) (by simp [hw]) ?_
  simp only [if_true, bind_assoc, pure_bind]
  exact advance (hw ▸ hkind) fun _ _ => h

/-- A token that is not there is not read. -/
theorem refuse {kind : TokenKind} {g : Bool → Parser β}
    (hkind : ∀ k, follow k → firstKind ws k ≠ kind) (h : Reads (g false) ws follow fits Q) :
    Reads (Parse.accept kind >>= g) ws follow fits Q := by
  rw [Parse.accept, bind_assoc]
  refine isAt (b := false) (by simpa using hkind) ?_
  simpa using h

theorem spanFrom {start : Span} {g : Span → Parser β}
    (h : ∀ span, Reads (g span) ws follow fits Q) :
    Reads (spanFrom start >>= g) ws follow fits Q :=
  ⟨fun hc hts hrest => (h _).ok hc hts hrest, fun hc hts hrest => (h _).tooDeep hc hts hrest⟩

/-! ## Nesting -/

theorem within (h : Reads p ws follow fits P) : Reads (within p) ws follow fits P where
  ok := by
    intro c ts rest hc hts hrest hfits
    obtain ⟨a, after, hp, hafter, ha⟩ := h.ok (c := { c with depth := c.depth + 1 }) hc hts hrest
      hfits
    exact ⟨a, { after with depth := after.depth - 1 }, by simp [Parse.within, hp], hafter, ha⟩
  tooDeep := by
    intro c ts rest hc hts hrest hfits
    obtain ⟨span, after, hp⟩ := h.tooDeep (c := { c with depth := c.depth + 1 }) hc hts hrest hfits
    exact ⟨span, { after with depth := after.depth - 1 }, by simp [Parse.within, hp]⟩

theorem chain (h : Reads p ws follow fits P) : Reads (chain p) ws follow fits P where
  ok := by
    intro c ts rest hc hts hrest hfits
    obtain ⟨a, after, hp, hafter, ha⟩ := h.ok hc hts hrest hfits
    exact ⟨a, { after with depth := c.depth }, by simp [Parse.chain, hp], hafter, ha⟩
  tooDeep := by
    intro c ts rest hc hts hrest hfits
    obtain ⟨span, after, hp⟩ := h.tooDeep hc hts hrest hfits
    exact ⟨span, { after with depth := c.depth }, by simp [Parse.chain, hp]⟩

theorem link {g : Unit → Parser β} (h : Reads (g ()) ws follow fits Q) :
    Reads (link >>= g) ws follow fits Q :=
  ⟨fun {c _ _} hc hts hrest => h.ok (c := { c with depth := c.depth + 1 }) hc hts hrest,
    fun {c _ _} hc hts hrest => h.tooDeep (c := { c with depth := c.depth + 1 }) hc hts hrest⟩

/-- With no level left nothing fits. -/
theorem nothing (hfits : ¬fits) : Reads Parse.tooDeep ws follow fits P where
  ok _ _ _ h := absurd h hfits
  tooDeep _ _ _ _ := ⟨_, _, rfl⟩

/-! ## Repetition -/

section

variable {step : Parser (Round α)}

theorem gather {R : List α → Prop}
    (h : ∀ bound : List Token, ws.length ≤ bound.length →
      Reads (gatherFor step bound) ws follow fits R) : Reads (gather step) ws follow fits R := by
  have hbound {c : Cursor} {ts rest : List Token} (hc : c.rest = ts ++ rest)
      (hts : ts.map Token.sig = ws) : ws.length ≤ c.rest.length := by
    rw [hc, ← hts, List.length_append, List.length_map]
    omega
  exact ⟨fun hc hts hrest => (h _ (hbound hc hts)).ok hc hts hrest,
    fun hc hts hrest => (h _ (hbound hc hts)).tooDeep hc hts hrest⟩

theorem gatherFor_stop (h : Reads step ws follow fits (· = .stop)) (bound : List Token) :
    Reads (gatherFor step bound) ws follow fits (· = []) := by
  cases bound <;> exact h.bind_last fun r hr => hr ▸ pure rfl

theorem gatherFor_last (h : Reads step ws follow fits fun r => ∃ a, r = .last a ∧ P a)
    (bound : List Token) :
    Reads (gatherFor step bound) ws follow fits fun as => ∃ a, as = [a] ∧ P a := by
  cases bound <;> exact h.bind_last fun r ⟨a, hr, ha⟩ => hr ▸ pure ⟨a, rfl, ha⟩

/-- A round that goes on reads a token, so the bound allows for the others. -/
theorem gatherFor_more {R : List α → Prop} {bound : List Token}
    (h : Reads step ws₁ Any fits₁ fun r => ∃ a, r = .more a ∧ P a) (hws : ws₁ ≠ [])
    (hbound : (ws₁ ++ ws₂).length ≤ bound.length)
    (hrest : ∀ bound : List Token, ws₂.length ≤ bound.length →
      Reads (gatherFor step bound) ws₂ follow fits₂ R) :
    Reads (gatherFor step bound) (ws₁ ++ ws₂) follow (fits₁ ∧ fits₂) fun as =>
      ∃ a as', as = a :: as' ∧ P a ∧ R as' := by
  have hpos := List.length_pos_iff.2 hws
  rw [List.length_append] at hbound
  cases bound with
  -- There are no more tokens than the bound has, so it is not used up.
  | nil => exact absurd hbound (by simp only [List.length_nil]; omega)
  | cons t bound =>
    refine h.bind (fun r ⟨a, hr, ha⟩ => ?_) fun _ _ => trivial
    subst hr
    exact (hrest bound (by simp only [List.length_cons] at hbound; omega)).bind_pure
      fun as has => ⟨a, as, rfl, ha, has⟩

/-- Rounds that go on, each for an item, and then one that stops. -/
theorem gather_more {xs : List ι} {w : ι → List Sig} {fit : ι → Prop} {f : α → γ} {g : ι → γ}
    (hmore : ∀ x ∈ xs, Reads step (w x) Any (fit x) fun r => ∃ a, r = .more a ∧ f a = g x)
    (hw : ∀ x ∈ xs, w x ≠ []) (hstop : Reads step ws follow True (· = .stop)) :
    Reads (Parse.gather step) (xs.flatMap w ++ ws) follow (∀ x ∈ xs, fit x)
      fun as => as.map f = xs.map g := by
  refine gather fun bound hbound => ?_
  induction xs generalizing bound with
  | nil =>
    refine ((gatherFor_stop hstop bound).mono ?_).congr (by simp)
    rintro _ rfl
    rfl
  | cons x xs ih =>
    simp only [List.forall_mem_cons, List.flatMap_cons, List.append_assoc] at hmore hw hbound ⊢
    refine (gatherFor_more hmore.1 hw.1 hbound (ih hmore.2 hw.2)).mono ?_
    rintro _ ⟨a, as, rfl, ha, has⟩
    simp [ha, has]

/-- The comma between two items. -/
abbrev comma : Sig := (.symbol .comma, Symbol.comma.text)

/-- The tokens of items with commas between them. -/
def commas (w : ι → List Sig) : List ι → List Sig
  | [] => []
  | x :: xs => w x ++ xs.flatMap fun y => comma :: w y

section

variable {item : Parser α} {close : Symbol}

/-- One round of a list that goes on to a closing mark. -/
abbrev roundUntil (close : Symbol) (item : Parser α) : Parser (Round α) := do
  if ← Parse.isAt (.symbol close) then return .stop else commaItem item

theorem roundUntil_stop : Reads (roundUntil close item) [] (· = .symbol close) True (· = .stop) :=
  isAt (b := true) (by simp) (pure rfl)

theorem roundUntil_last (hclose : close ≠ .comma)
    (hitem : Reads item ws (fun k => k = .symbol .comma ∨ k = .symbol close) fits P)
    (hws : ∀ k, firstKind ws k ≠ .symbol close) :
    Reads (roundUntil close item) ws (· = .symbol close) fits fun r => ∃ a, r = .last a ∧ P a := by
  refine isAt (b := false) (fun k _ => by simpa using hws k) ?_
  refine (hitem.before fun _ => .inr).bind_last fun a ha => refuse ?_ (pure ⟨a, rfl, ha⟩)
  rintro _ rfl
  simpa using hclose

theorem roundUntil_more
    (hitem : Reads item ws (fun k => k = .symbol .comma ∨ k = .symbol close) fits P)
    (hws : ∀ k, firstKind ws k ≠ .symbol close) :
    Reads (roundUntil close item) (ws ++ [comma]) Any fits fun r => ∃ a, r = .more a ∧ P a := by
  refine isAt (b := false) (fun k _ => by simpa [firstKind_append] using hws _) ?_
  refine hitem.bind_left (fun a ha => ?_) fun _ _ => .inl rfl
  exact accept rfl (by simp) (pure ⟨a, rfl, ha⟩)

theorem commaListUntil {xs : List ι} {w : ι → List Sig} {fit : ι → Prop} {f : α → γ} {g : ι → γ}
    (hclose : close ≠ .comma)
    (hitem : ∀ x ∈ xs, Reads item (w x) (fun k => k = .symbol .comma ∨ k = .symbol close) (fit x)
      fun a => f a = g x)
    (hw : ∀ x ∈ xs, ∀ k, firstKind (w x) k ≠ .symbol close) :
    Reads (commaListUntil close item) (commas w xs) (· = .symbol close) (∀ x ∈ xs, fit x)
      fun as => as.map f = xs.map g := by
  refine gather fun bound hbound => ?_
  cases xs with
  | nil =>
    refine ((gatherFor_stop roundUntil_stop bound).mono ?_).congr (by simp)
    rintro _ rfl
    rfl
  | cons x xs =>
    -- An item is read before its comma is seen, so the induction is on the items
    -- after the first.
    induction xs generalizing x bound with
    | nil =>
      rw [List.forall_mem_singleton] at hitem hw
      have hwords : commas w [x] = w x := by simp [commas]
      rw [hwords]
      refine ((gatherFor_last (roundUntil_last hclose hitem hw) bound).mono ?_).congr (by simp)
      rintro _ ⟨a, rfl, ha⟩
      simpa using ha
    | cons y ys ih =>
      rw [List.forall_mem_cons] at hitem hw
      have hwords : commas w (x :: y :: ys) = w x ++ [comma] ++ commas w (y :: ys) := by
        simp [commas]
      rw [hwords] at hbound ⊢
      refine ((gatherFor_more (roundUntil_more hitem.1 hw.1) (by simp) hbound
        fun bound => ih bound y hitem.2 hw.2).mono ?_).congr List.forall_mem_cons.symm
      rintro _ ⟨a, as, rfl, ha, has⟩
      simp [ha, has]

end

end

end Reads

end PhpScript.Parse
