import Mathlib.Data.List.TakeWhile
import Mathlib.Order.MinMax
import PhpScript.Json.Reader

/-!
# How deep values are nested

The reader has a number of levels left, and each array and each object takes one of
them. So a text that is read opens at most `Json.maxDepth` arrays and objects at once,
and its value is nested no deeper (`Json.bounded_of_ofText`).

* `Nest` counts the arrays and objects that are open at a place of a text. It knows
  strings, and nothing else of what a text may be.
* `Reader.Takes` is about one reader: what it gives, and where the bytes that it takes
  lead. It goes through the combinators, and each reader has one lemma.
* Of the arrays and objects around a place, `Json.objectDepth` counts the objects alone.
-/

namespace PhpScript.Json

/-! ## Objects in each other -/

mutual

/-- How deep objects are nested, whatever arrays are between them. -/
def objectDepth : Json → Nat
  | array items => objectDepthItems items
  | object members => objectDepthMembers members + 1
  | _ => 0

/-- The largest nesting of objects among the items of an array. -/
def objectDepthItems : List Json → Nat
  | [] => 0
  | item :: rest => max item.objectDepth (objectDepthItems rest)

/-- The largest nesting of objects among the members of an object. -/
def objectDepthMembers : List (String × Json) → Nat
  | [] => 0
  | (_, value) :: rest => max value.objectDepth (objectDepthMembers rest)

end

theorem objectDepth_le_of_find? {name : String} {members : List (String × Json)} {json : Json}
    (h : find? name members = some json) : json.objectDepth ≤ objectDepthMembers members := by
  induction members with
  | nil => cases h
  | cons member members ih =>
    rw [find?] at h
    rw [objectDepthMembers]
    split at h
    · cases h
      exact Nat.le_max_left _ _
    · exact Nat.le_trans (ih h) (Nat.le_max_right _ _)

theorem objectDepth_le_of_mem {json : Json} {items : List Json} (h : json ∈ items) :
    json.objectDepth ≤ (array items).objectDepth := by
  rw [objectDepth]
  induction items with
  | nil => cases h
  | cons item items ih =>
    rw [objectDepthItems]
    rcases List.mem_cons.1 h with rfl | h
    · exact Nat.le_max_left _ _
    · exact Nat.le_trans (ih h) (Nat.le_max_right _ _)

mutual

theorem objectDepth_le_depth : (json : Json) → json.objectDepth ≤ json.depth
  | array items => Nat.le_succ_of_le (objectDepthItems_le_depthItems items)
  | object members => Nat.succ_le_succ (objectDepthMembers_le_depthMembers members)
  | null | bool _ | integer _ | real _ | string _ => Nat.le_refl _

theorem objectDepthItems_le_depthItems : (items : List Json) →
    objectDepthItems items ≤ depthItems items
  | [] => Nat.le_refl _
  | item :: rest => max_le_max (objectDepth_le_depth item) (objectDepthItems_le_depthItems rest)

theorem objectDepthMembers_le_depthMembers : (members : List (String × Json)) →
    objectDepthMembers members ≤ depthMembers members
  | [] => Nat.le_refl _
  | (_, value) :: rest =>
    max_le_max (objectDepth_le_depth value) (objectDepthMembers_le_depthMembers rest)

end

/-! ## Arrays and objects that are open -/

/-- Whether a place of a text is in a string, or right after a backslash of one. -/
inductive Spot
  | plain
  | quoted
  | escaped
deriving DecidableEq

/-- How many arrays and objects are open at a place of a text. -/
structure Nest where
  opened : Nat := 0
  spot : Spot := .plain
deriving DecidableEq

namespace Nest

/-- What a byte opens and closes. -/
def step (s : Nest) (b : UInt8) : Nest :=
  match s.spot with
  | .plain =>
    if b == 0x22 then { s with spot := .quoted }
    else if b == 0x5B || b == 0x7B then { s with opened := s.opened + 1 }
    else if b == 0x5D || b == 0x7D then { s with opened := s.opened - 1 }
    else s
  | .quoted =>
    if b == 0x22 then { s with spot := .plain }
    else if b == 0x5C then { s with spot := .escaped }
    else s
  | .escaped => { s with spot := .quoted }

/-- What bytes open and close one after the other. -/
def after (s : Nest) (bytes : List UInt8) : Nest := bytes.foldl step s

/-- The bytes lead from one place to another, and no more than `limit` arrays and
    objects are open on the way. -/
inductive Walks (limit : Nat) : Nest → List UInt8 → Nest → Prop
  | done {s} : s.opened ≤ limit → Walks limit s [] s
  | next {s t b bytes} : s.opened ≤ limit → Walks limit (s.step b) bytes t →
    Walks limit s (b :: bytes) t

variable {limit : Nat} {s t u : Nest} {bytes bytes' : List UInt8}

theorem Walks.append (h : Walks limit s bytes t) (h' : Walks limit t bytes' u) :
    Walks limit s (bytes ++ bytes') u := by
  induction h with
  | done => exact h'
  | next hs _ ih => exact .next hs (ih h')

theorem Walks.opened_le (h : Walks limit s bytes t) {part : List UInt8} (hpart : part <+: bytes) :
    (s.after part).opened ≤ limit := by
  induction h generalizing part with
  | done hs =>
    rw [List.prefix_nil.1 hpart]
    exact hs
  | @next s t b bytes hs _ ih =>
    cases part with
    | nil => exact hs
    | cons b' part =>
      obtain ⟨rfl, hrest⟩ := List.cons_prefix_cons.1 hpart
      exact ih hrest

/-- Bytes that open and close nothing. -/
theorem Walks.still (hs : s.opened ≤ limit) (h : ∀ b ∈ bytes, s.step b = s) :
    Walks limit s bytes s := by
  induction bytes with
  | nil => exact .done hs
  | cons b bytes ih =>
    rw [List.forall_mem_cons] at h
    refine .next hs ?_
    rw [h.1]
    exact ih h.2

/-- The bytes that open or close something outside a string. -/
def marks : List UInt8 := [0x22, 0x5B, 0x7B, 0x5D, 0x7D]

theorem step_plain {opened : Nat} {b : UInt8} (hb : b ∉ marks) :
    step ⟨opened, .plain⟩ b = ⟨opened, .plain⟩ := by
  simp only [marks, List.mem_cons, List.not_mem_nil, or_false, not_or] at hb
  simp [step, hb]

theorem step_of_class {p : UInt8 → Bool} (hp : marks.all (!p ·)) {opened : Nat} {b : UInt8}
    (hb : p b) : step ⟨opened, .plain⟩ b = ⟨opened, .plain⟩ := by
  refine step_plain fun hmem => ?_
  simpa [hb] using List.all_eq_true.1 hp b hmem

end Nest

/-! ## What readers take -/

namespace Reader

variable {limit : Nat} {s t u : Nest} {bytes : List UInt8}

/-- A reader after another one starts where that one stops. -/
theorem exists_of_bind_ok {r : Reader α} {f : α → Reader β} {b : β} {after : List UInt8}
    (h : (r >>= f) bytes = .ok (b, after)) :
    ∃ a rest, r bytes = .ok (a, rest) ∧ f a rest = .ok (b, after) := by
  simp only [Bind.bind, StateT.bind, Except.bind] at h
  split at h
  · cases h
  · next a hra => exact ⟨a.1, a.2, hra, h⟩

/-- Whatever the reader gives for the bytes is `P`, with the bytes that are left, and
    the bytes that it takes lead from `s` to `t`. -/
def Takes (limit : Nat) (s t : Nest) (bytes : List UInt8) (r : Reader α)
    (P : α → List UInt8 → Prop) : Prop :=
  ∀ ⦃a rest⦄, r bytes = .ok (a, rest) →
    P a rest ∧ ∃ taken, bytes = taken ++ rest ∧ Nest.Walks limit s taken t

/-- The reader takes bytes that leave as many arrays and objects open as there were. -/
abbrev Keeps (limit opened : Nat) (bytes : List UInt8) (r : Reader α)
    (P : α → List UInt8 → Prop) : Prop :=
  Takes limit ⟨opened, .plain⟩ ⟨opened, .plain⟩ bytes r P

namespace Takes

variable {r : Reader α} {f : α → Reader β} {P P' : α → List UInt8 → Prop}
  {Q : β → List UInt8 → Prop}

theorem pure {a : α} (hs : s.opened ≤ limit) (h : P a bytes) :
    Takes limit s s bytes (Pure.pure a) P := by
  intro b rest hb
  cases hb
  exact ⟨h, [], rfl, .done hs⟩

theorem bind (hr : Takes limit s t bytes r P)
    (hf : ∀ a rest, P a rest → Takes limit t u rest (f a) Q) :
    Takes limit s u bytes (r >>= f) Q := by
  intro b rest h
  obtain ⟨a, middle, hra, hrest⟩ := exists_of_bind_ok h
  obtain ⟨ha, taken, rfl, hwalks⟩ := hr hra
  obtain ⟨hb, taken', heq, hwalks'⟩ := hf a middle ha hrest
  exact ⟨hb, taken ++ taken', by rw [List.append_assoc, ← heq], hwalks.append hwalks'⟩

theorem mono (hr : Takes limit s t bytes r P) (h : ∀ a rest, P a rest → P' a rest) :
    Takes limit s t bytes r P' :=
  fun _ _ ha => (hr ha).imp_left (h _ _)

/-- What is left is no more than there was. -/
theorem shrinks (hr : Takes limit s t bytes r P) :
    Takes limit s t bytes r fun a rest => P a rest ∧ rest.length ≤ bytes.length := by
  intro a rest h
  obtain ⟨ha, taken, rfl, hwalks⟩ := hr h
  exact ⟨⟨ha, by simp⟩, taken, rfl, hwalks⟩

theorem ite {b : Prop} [Decidable b] {r' : Reader α} (hr : b → Takes limit s t bytes r P)
    (hr' : ¬b → Takes limit s t bytes r' P) : Takes limit s t bytes (if b then r else r') P := by
  split
  · next h => exact hr h
  · next h => exact hr' h

theorem fail {fault : Fault} : Takes limit s t bytes (Reader.fail fault : Reader α) P := by
  intro a rest h
  cases h

theorem failAtNext {fault : Fault} :
    Takes limit s t bytes (Reader.failAtNext fault : Reader α) P := by
  intro a rest h
  cases h

theorem peek {g : Option UInt8 → Reader β} (h : Takes limit s t bytes (g bytes.head?) Q) :
    Takes limit s t bytes (Reader.peek >>= g) Q :=
  h

theorem get {g : List UInt8 → Reader β} (h : Takes limit s t bytes (g bytes) Q) :
    Takes limit s t bytes (MonadState.get >>= g) Q :=
  h

theorem atExponent {g : Bool → Reader β}
    (h : Takes limit s t bytes (g (bytes.head? == some 0x65 || bytes.head? == some 0x45)) Q) :
    Takes limit s t bytes (Reader.atExponent >>= g) Q :=
  h

theorem skip {g : Unit → Reader β} {b : UInt8} (hs : s.opened ≤ limit)
    (h : Takes limit (s.step b) t bytes (g ()) Q) :
    Takes limit s t (b :: bytes) (Reader.skip >>= g) Q := by
  intro a rest ha
  obtain ⟨hQ, taken, rfl, hwalks⟩ := h ha
  exact ⟨hQ, b :: taken, rfl, .next hs hwalks⟩

theorem next {g : Option UInt8 → Reader β} {b : UInt8} (hs : s.opened ≤ limit)
    (h : Takes limit (s.step b) t bytes (g (some b)) Q) :
    Takes limit s t (b :: bytes) (Reader.next >>= g) Q := by
  intro a rest ha
  obtain ⟨hQ, taken, rfl, hwalks⟩ := h ha
  exact ⟨hQ, b :: taken, rfl, .next hs hwalks⟩

/-- A run of bytes that open and close nothing. -/
theorem takeRun {opened : Nat} {p : UInt8 → Bool} {g : List UInt8 → Reader β}
    (hs : opened ≤ limit) (hp : Nest.marks.all (!p ·))
    (h : Takes limit ⟨opened, .plain⟩ t (bytes.dropWhile p) (g (bytes.takeWhile p)) Q) :
    Takes limit ⟨opened, .plain⟩ t bytes (Reader.takeRun p >>= g) Q := by
  intro a rest ha
  obtain ⟨hQ, taken, heq, hwalks⟩ := h ha
  have hrun : Nest.Walks limit ⟨opened, .plain⟩ (bytes.takeWhile p) ⟨opened, .plain⟩ :=
    .still hs fun b hb => Nest.step_of_class hp (List.mem_takeWhile_imp hb)
  refine ⟨hQ, bytes.takeWhile p ++ taken, ?_, hrun.append hwalks⟩
  rw [List.append_assoc, ← heq, List.takeWhile_append_dropWhile]

end Takes

/-! ## Scalars -/

/-- The value is nested at most `bound` deep, and some of the bytes are taken for it. -/
def IsRead (bound : Nat) (bytes : List UInt8) (json : Json) (rest : List UInt8) : Prop :=
  json.depth ≤ bound ∧ rest.length < bytes.length

theorem depth_wholeNumber (negative : Bool) (n : Nat) : (wholeNumber negative n).depth = 0 := by
  unfold wholeNumber
  split
  · rfl
  · split <;> rfl

section

variable {opened : Nat} (hs : opened ≤ limit)

include hs

theorem peekAfterBlanks_takes :
    Keeps limit opened bytes peekAfterBlanks fun b? rest =>
      rest.head? = b? ∧ rest.length ≤ bytes.length := by
  refine .takeRun hs (by decide) fun b? rest h => ?_
  cases h
  exact ⟨⟨rfl, (List.dropWhile_suffix _).length_le⟩, [], rfl, .done hs⟩

theorem word_takes {json : Json} (hjson : json.depth = 0) {letters : List UInt8}
    (hletters : letters.all (· ∉ Nest.marks)) :
    Keeps limit opened bytes (word json letters) fun json _ => json.depth = 0 := by
  induction letters generalizing bytes with
  | nil => exact .pure hs hjson
  | cons b letters ih =>
    rw [List.all_cons, Bool.and_eq_true, decide_eq_true_eq] at hletters
    cases bytes with
    | nil => intro json rest h; cases h
    | cons c bytes =>
      refine .next hs (.ite (fun hc => ?_) fun _ => .fail)
      rw [eq_of_beq hc, Nest.step_plain hletters.1]
      exact ih hletters.2

theorem real_takes {negative : Bool} {n : Nat} {scale : Int} :
    Keeps limit opened bytes (real negative n scale) fun json _ => json.depth = 0 :=
  .ite (fun _ => .pure hs rfl) fun _ =>
    .ite (fun _ => .ite (fun _ => .fail) fun _ => .pure hs rfl)
      fun _ => .ite (fun _ => .pure hs rfl) fun _ => .fail

/-- A byte that opens and closes nothing. -/
theorem Takes.skipPlain {g : Unit → Reader β} {Q : β → List UInt8 → Prop} {b : UInt8}
    (hhead : bytes.head? = some b) (hb : b ∉ Nest.marks)
    (h : ∀ rest, Takes limit ⟨opened, .plain⟩ t rest (g ()) Q) :
    Takes limit ⟨opened, .plain⟩ t bytes (Reader.skip >>= g) Q := by
  obtain ⟨rest, rfl⟩ := List.head?_eq_some_iff.1 hhead
  refine .skip hs ?_
  rw [Nest.step_plain hb]
  exact h rest

theorem Takes.maybeSkip {b : Prop} [Decidable b] {g : Unit → Reader β}
    {Q : β → List UInt8 → Prop} (hhead : b → ∃ c, bytes.head? = some c ∧ c ∉ Nest.marks)
    (h : ∀ rest, Takes limit ⟨opened, .plain⟩ t rest (g ()) Q) :
    Takes limit ⟨opened, .plain⟩ t bytes (if b then Reader.skip >>= g else g ()) Q := by
  refine .ite (fun hb => ?_) fun _ => h bytes
  obtain ⟨c, hc, hmark⟩ := hhead hb
  exact .skipPlain hs hc hmark h

theorem exponent_takes {negative : Bool} {n : Nat} {scale : Int} {b : UInt8}
    (hhead : bytes.head? = some b) (hb : b ∉ Nest.marks) :
    Keeps limit opened bytes (exponent negative n scale) fun json _ => json.depth = 0 := by
  refine .skipPlain hs hhead hb fun bytes => .peek <|
    .maybeSkip hs (fun hsign => ?_) fun bytes => ?_
  · rw [Bool.or_eq_true, beq_iff_eq, beq_iff_eq] at hsign
    obtain hsign | hsign := hsign <;> exact ⟨_, hsign, by decide⟩
  · cases bytes with
    | nil => intro json rest h; cases h
    | cons d bytes =>
      refine .next hs (.ite (fun _ => .fail) fun hd => ?_)
      rw [Nest.step_of_class (p := isDigit) (by decide) (by simpa using hd)]
      refine .takeRun hs (by decide) ?_
      split
      · exact real_takes hs
      · exact .ite (fun _ _ _ h => by cases h) fun _ => .pure hs rfl

/-- An exponent, or what stands there otherwise. -/
theorem orExponent_takes {negative : Bool} {n : Nat} {scale : Int} {r : Reader Json}
    (hr : Keeps limit opened bytes r fun json _ => json.depth = 0) :
    Keeps limit opened bytes
      (do if ← atExponent then exponent negative n scale else r)
      fun json _ => json.depth = 0 := by
  refine .atExponent <| .ite (fun hmark => ?_) fun _ => hr
  rw [Bool.or_eq_true, beq_iff_eq, beq_iff_eq] at hmark
  obtain hmark | hmark := hmark <;> exact exponent_takes hs hmark (by decide)

theorem fraction_takes {negative : Bool} {n scale : Nat} {b : UInt8}
    (hhead : bytes.head? = some b) (hb : b ∉ Nest.marks) :
    Keeps limit opened bytes (fraction negative n scale) fun json _ => json.depth = 0 :=
  .skipPlain hs hhead hb fun _ => .takeRun hs (by decide) <|
    .ite (fun _ => .peek .failAtNext) fun _ => orExponent_takes hs (real_takes hs)

theorem number_takes {negative : Bool} {bound : Nat} :
    Keeps limit opened bytes (number negative) (IsRead bound bytes) := by
  cases bytes with
  | nil => intro json rest h; cases h
  | cons d bytes =>
    refine .next hs (.ite (fun _ => .fail) fun hd => ?_)
    rw [Nest.step_of_class (p := isDigit) (by decide) (by simpa using hd)]
    refine (Takes.shrinks ?_).mono fun json rest h =>
      ⟨Nat.le_trans (Nat.le_of_eq h.1) (Nat.zero_le _), Nat.lt_succ_of_le h.2⟩
    refine .takeRun hs (by decide) <| .ite (fun _ _ _ h => by cases h) fun _ => .peek <|
      .ite (fun hpoint => ?_) fun _ => orExponent_takes hs <|
        .ite (fun _ => .pure hs (depth_wholeNumber _ _)) fun _ => real_takes hs
    exact fraction_takes hs (eq_of_beq hpoint) (by decide)

end

/-! ## Strings -/

theorem exists_of_bind_eq_ok {x : Except Failure α} {f : α → Except Failure β} {b : β}
    (h : x >>= f = .ok b) : ∃ a, x = .ok a ∧ f a = .ok b := by
  cases x with
  | error e => cases h
  | ok a => exact ⟨a, rfl, h⟩

/-- A byte of a string that neither ends it nor begins an escape. -/
theorem step_quoted {opened : Nat} {b : UInt8} (hquote : b ≠ 0x22) (hbackslash : b ≠ 0x5C) :
    Nest.step ⟨opened, .quoted⟩ b = ⟨opened, .quoted⟩ := by
  simp [Nest.step, hquote, hbackslash]

section

variable {opened : Nat} (hs : opened ≤ limit)

include hs

theorem fourHex_walks {n : Nat} (h : fourHex bytes = .ok n) :
    Nest.Walks limit ⟨opened, .quoted⟩ (bytes.take 4) ⟨opened, .quoted⟩ := by
  unfold fourHex at h
  split at h
  · next a b c d rest =>
    split at h
    · next digits hdigits =>
      refine .still hs fun b hb => ?_
      obtain ⟨n, hn⟩ : ∃ n, hexValue? b = some n := by
        simp only [List.mapM_cons, Option.bind_eq_bind, Option.bind_eq_some_iff] at hdigits
        obtain ⟨_, ha, _, ⟨_, hb', _, ⟨_, hc, _, ⟨_, hd, -⟩, -⟩, -⟩, -⟩ := hdigits
        simp only [List.take_succ_cons, List.take_zero, List.mem_cons, List.not_mem_nil,
          or_false] at hb
        rcases hb with rfl | rfl | rfl | rfl <;> exact ⟨_, by assumption⟩
      refine step_quoted ?_ ?_ <;> rintro rfl <;> cases hn
    · cases h
  · cases h

theorem lowSurrogate_walks {high n : Nat} (h : lowSurrogate high bytes = .ok n) :
    Nest.Walks limit ⟨opened, .quoted⟩ (bytes.take 6) ⟨opened, .quoted⟩ := by
  unfold lowSurrogate at h
  split at h
  · cases h
  · cases h
  · next b u rest =>
    split at h
    · cases h
    · next hbackslash =>
      split at h
      · cases h
      · obtain ⟨low, hlow, -⟩ := exists_of_bind_eq_ok h
        have hb : b = 0x5C := by simpa using hbackslash
        rw [hb]
        exact .next hs (.next hs (fourHex_walks hs hlow))

theorem escape_walks {out : List UInt8} {n : Nat} (h : escape bytes = .ok (out, n)) :
    Nest.Walks limit ⟨opened, .escaped⟩ (bytes.take n) ⟨opened, .quoted⟩ := by
  cases bytes with
  | nil => cases h
  | cons b rest =>
    rw [escape] at h
    split at h
    · cases h
      exact .next hs (.done hs)
    · split at h
      · cases h
      · obtain ⟨high, hhigh, h⟩ := exists_of_bind_eq_ok h
        split at h
        · cases h
        split at h
        · obtain ⟨point, hlow, h⟩ := exists_of_bind_eq_ok h
          cases h
          have hsplit : (b :: rest).take 11 = b :: (rest.take 4 ++ (rest.drop 4).take 6) := by
            rw [List.take_succ_cons, ← List.take_add]
          rw [hsplit]
          exact .next hs ((fourHex_walks hs hhigh).append (lowSurrogate_walks hs hlow))
        · cases h
          exact .next hs (fourHex_walks hs hhigh)

theorem stringBody_walks {body after : List UInt8} (h : stringBody bytes = .ok (body, after)) :
    ∃ taken, bytes = taken ++ after ∧
      Nest.Walks limit ⟨opened, .quoted⟩ taken ⟨opened, .plain⟩ := by
  fun_induction stringBody bytes generalizing body with
  | case1 => cases h
  | case2 b rest hquote =>
    cases h
    rw [eq_of_beq hquote]
    exact ⟨[0x22], rfl, .next hs (.done hs)⟩
  | case3 b rest hquote hbackslash ih =>
    obtain ⟨⟨out, n⟩, hescape, h⟩ := exists_of_bind_eq_ok h
    obtain ⟨⟨body, after⟩, hrest, h⟩ := exists_of_bind_eq_ok h
    cases h
    obtain ⟨taken, heq, hwalks⟩ := ih n hrest
    rw [eq_of_beq hbackslash]
    refine ⟨0x5C :: (rest.take n ++ taken), ?_, .next hs ((escape_walks hs hescape).append hwalks)⟩
    rw [List.cons_append, List.append_assoc, ← heq, List.take_append_drop]
  | case4 => cases h
  | case5 b rest hquote hbackslash hcontrol ih =>
    obtain ⟨⟨body, after⟩, hrest, h⟩ := exists_of_bind_eq_ok h
    cases h
    obtain ⟨taken, rfl, hwalks⟩ := ih hrest
    refine ⟨b :: taken, rfl, .next hs ?_⟩
    rw [step_quoted (by simpa using hquote) (by simpa using hbackslash)]
    exact hwalks

theorem string_takes :
    Takes limit ⟨opened, .quoted⟩ ⟨opened, .plain⟩ bytes string fun _ _ => True := by
  intro text rest h
  obtain ⟨⟨body, after⟩, hbody, h⟩ := exists_of_bind_eq_ok h
  cases h
  exact ⟨trivial, stringBody_walks hs hbody⟩

end

/-! ## Arrays and objects -/

section

variable {opened : Nat} (hs : opened ≤ limit)

include hs

theorem atItem_takes {first : Bool} :
    Keeps limit opened bytes (atItem first) fun more rest =>
      more = false → rest.head? = some 0x5D := by
  refine (peekAfterBlanks_takes hs).bind fun b? rest hrest => ?_
  cases b? with
  | none => exact .failAtNext
  | some b =>
    refine .ite (fun hclose => .pure hs fun _ => by rw [hrest.1, eq_of_beq hclose]) fun _ =>
      .ite (fun _ => .pure hs (by simp)) fun _ => .ite (fun hcomma => ?_) fun _ => .failAtNext
    refine .skipPlain hs (b := b) hrest.1 (eq_of_beq hcomma ▸ by decide) fun rest =>
      (peekAfterBlanks_takes hs).bind fun b? rest _ => ?_
    cases b? with
    | none => exact .failAtNext
    | some b => exact .ite (fun _ => .failAtNext) fun _ => .pure hs (by simp)

theorem atMember_takes {first : Bool} :
    Keeps limit opened bytes (atMember first) fun more rest =>
      rest.head? = some (if more then 0x22 else 0x7D) := by
  refine (peekAfterBlanks_takes hs).bind fun b? rest hrest => ?_
  cases b? with
  | none => exact .failAtNext
  | some b =>
    refine .ite (fun hclose => .pure hs (by rw [hrest.1, eq_of_beq hclose]; rfl)) fun _ =>
      .ite (fun _ => .ite (fun hquote => .pure hs (by rw [hrest.1, eq_of_beq hquote]; rfl)) fun _ =>
        .failAtNext) fun _ => .ite (fun hcomma => ?_) fun _ => .failAtNext
    refine .skipPlain hs (b := b) hrest.1 (eq_of_beq hcomma ▸ by decide) fun rest =>
      (peekAfterBlanks_takes hs).bind fun b? rest hrest => ?_
    cases b? with
    | none => exact .failAtNext
    | some b =>
      exact .ite (fun hquote => .pure hs (by rw [hrest.1, eq_of_beq hquote]; rfl)) fun _ =>
        .failAtNext

theorem colon_takes :
    Keeps limit opened bytes colon fun _ _ => True := by
  refine (peekAfterBlanks_takes hs).bind fun b? rest hrest => ?_
  cases b? with
  | none => exact .failAtNext
  | some b =>
    refine .ite (fun hcolon => ?_) fun _ => .failAtNext
    rw [← bind_pure skip]
    exact .skipPlain hs (b := b) hrest.1 (eq_of_beq hcolon ▸ by decide) fun _ => .pure hs trivial

end

section

variable {value : Reader Json} {opened bound : Nat} (hs : opened + 1 ≤ limit)
  (hvalue : ∀ bytes, Keeps limit (opened + 1) bytes value
    (IsRead bound bytes))

include hs hvalue

/-- The rounds do not run out, since each item takes a byte. -/
theorem items_takes (rounds : List UInt8) (first : Bool) (hrounds : bytes.length ≤ rounds.length) :
    Takes limit ⟨opened + 1, .plain⟩ ⟨opened, .plain⟩ bytes (items value rounds first)
      fun items _ => depthItems items ≤ bound := by
  induction rounds generalizing bytes first with
  | nil =>
    rw [List.length_eq_zero_iff.1 (Nat.le_zero.1 hrounds)]
    intro items rest h
    cases h
  | cons _ rounds ih =>
    rw [List.length_cons] at hrounds
    refine (atItem_takes hs).shrinks.bind fun more rest hrest => .ite (fun _ => ?_) fun hmore => ?_
    · refine (hvalue rest).bind fun item rest' hitem => ?_
      have hlt := hitem.2
      have hle := hrest.2
      exact (ih false (by omega)).bind fun items _ hitems =>
        .pure (Nat.le_of_succ_le hs) (Nat.max_le.2 ⟨hitem.1, hitems⟩)
    · obtain ⟨rest', rfl⟩ := List.head?_eq_some_iff.1 (hrest.1 (by simpa using hmore))
      exact .skip hs (.pure (Nat.le_of_succ_le hs) (Nat.zero_le _))

omit hs hvalue in
theorem depthMembers_insert_le {name : String} {json : Json} {members : List (String × Json)}
    (hjson : json.depth ≤ bound) (hmembers : depthMembers members ≤ bound) :
    depthMembers (Json.insert name json members) ≤ bound := by
  induction members with
  | nil => exact Nat.max_le.2 ⟨hjson, Nat.zero_le _⟩
  | cons member members ih =>
    rw [depthMembers, Nat.max_le] at hmembers
    rw [Json.insert]
    split
    · exact Nat.max_le.2 ⟨hjson, hmembers.2⟩
    · exact Nat.max_le.2 ⟨hmembers.1, ih hmembers.2⟩

theorem members_takes (rounds : List UInt8) {before : List (String × Json)}
    (hbefore : depthMembers before ≤ bound) (hrounds : bytes.length ≤ rounds.length) :
    Takes limit ⟨opened + 1, .plain⟩ ⟨opened, .plain⟩ bytes (members value rounds before)
      fun members _ => depthMembers members ≤ bound := by
  induction rounds generalizing bytes before with
  | nil =>
    rw [List.length_eq_zero_iff.1 (Nat.le_zero.1 hrounds)]
    intro members rest h
    cases h
  | cons _ rounds ih =>
    rw [List.length_cons] at hrounds
    refine (atMember_takes hs).shrinks.bind fun more rest hrest =>
      .ite (fun hmore => ?_) fun hmore => ?_
    · obtain ⟨rest, rfl⟩ := List.head?_eq_some_iff.1 hrest.1
      rw [hmore]
      refine .skip hs <| (string_takes hs).shrinks.bind fun name _ hname =>
        (colon_takes hs).shrinks.bind fun _ _ hcolon => (hvalue _).bind fun item _ hitem => ?_
      have hlt := Nat.lt_of_lt_of_le hitem.2 (Nat.le_trans hcolon.2 hname.2)
      have hle := hrest.2
      rw [List.length_cons] at hle
      exact ih (depthMembers_insert_le hitem.1 hbefore) (by omega)
    · obtain ⟨rest, rfl⟩ := List.head?_eq_some_iff.1 hrest.1
      rw [if_neg hmore]
      exact .skip hs (.pure (Nat.le_of_succ_le hs) hbefore)

end

/-! ## Values -/

section

variable {opened : Nat} (hs : opened ≤ limit)

include hs

/-- A value that begins with a mark. -/
theorem Takes.skipRead {g : Unit → Reader Json} {b : UInt8} {bound : Nat}
    (hhead : bytes.head? = some b)
    (h : ∀ rest, Takes limit (Nest.step ⟨opened, .plain⟩ b) ⟨opened, .plain⟩ rest (g ())
      fun json _ => json.depth ≤ bound) :
    Keeps limit opened bytes (Reader.skip >>= g) (IsRead bound bytes) := by
  obtain ⟨rest, rfl⟩ := List.head?_eq_some_iff.1 hhead
  exact .skip hs ((h rest).shrinks.mono fun json rest' h => ⟨h.1, Nat.lt_succ_of_le h.2⟩)

theorem valueWith_takes {array object : Reader Json} {bound : Nat}
    (harray : ∀ bytes, bytes.head? = some 0x5B →
      Keeps limit opened bytes array (IsRead bound bytes))
    (hobject : ∀ bytes, bytes.head? = some 0x7B →
      Keeps limit opened bytes object (IsRead bound bytes)) :
    Keeps limit opened bytes (valueWith array object)
      (IsRead bound bytes) := by
  have hflat {rest : List UInt8} {r : Reader Json}
      (h : Keeps limit opened rest r fun json _ => json.depth = 0) :
      Keeps limit opened rest r fun json _ => json.depth ≤ bound :=
    h.mono fun json _ h => h ▸ Nat.zero_le _
  refine (peekAfterBlanks_takes hs).bind fun b? rest ⟨hhead, hle⟩ => ?_
  suffices h : Keeps limit opened rest _ (IsRead bound rest) from
    h.mono fun json rest' h => ⟨h.1, Nat.lt_of_lt_of_le h.2 hle⟩
  cases b? with
  | none => exact .failAtNext
  | some b =>
    refine .ite (fun hb => ?_) fun _ => .ite (fun hb => ?_) fun _ => .ite (fun hb => ?_) fun _ =>
      .ite (fun hb => ?_) fun _ => .ite (fun _ => number_takes hs) fun _ => .ite (fun hb => ?_)
        fun _ => .ite (fun hb => ?_) fun _ => .ite (fun hb => ?_) fun _ => .failAtNext
    all_goals cases eq_of_beq hb
    iterate 3
      exact .skipRead hs hhead fun _ => hflat (word_takes hs rfl (by decide))
    · exact .skipRead hs hhead fun _ => (number_takes hs).mono fun _ _ h => h.1
    · exact .skipRead hs hhead fun _ => (string_takes hs).bind fun _ _ _ =>
        .pure hs (Nat.zero_le _)
    · exact harray rest hhead
    · exact hobject rest hhead

end

/-- A reader with some levels left gives values that are nested no deeper, and does not
    open more. -/
theorem value_takes (levels : Nat) {opened : Nat} (hlimit : opened + levels ≤ limit) :
    Keeps limit opened bytes (value levels) (IsRead levels bytes) := by
  have hs : opened ≤ limit := by omega
  induction levels generalizing opened bytes with
  | zero => exact valueWith_takes hs (fun _ _ => .failAtNext) fun _ _ => .failAtNext
  | succ levels ih =>
    have hs' : opened + 1 ≤ limit := by omega
    have hvalue (bytes : List UInt8) : Keeps limit (opened + 1) bytes
        (value levels) (IsRead levels bytes) := ih (by omega) hs'
    refine valueWith_takes hs (fun _ hhead => .skipRead hs hhead fun rest => .get ?_)
      fun _ hhead => .skipRead hs hhead fun rest => .get ?_
    · exact (items_takes hs' hvalue rest true (Nat.le_refl _)).bind fun _ _ hitems =>
        .pure hs (Nat.succ_le_succ hitems)
    · exact (members_takes hs' hvalue rest (Nat.zero_le _) (Nat.le_refl _)).bind
        fun _ _ hmembers => .pure hs (Nat.succ_le_succ hmembers)

end Reader

/-- A text that is read is a value, and blanks. -/
theorem exists_of_ofText {text : String} {json : Json} (h : ofText text = .ok json) :
    ∃ rest after, Reader.value maxDepth (Utf8.encode text.toList) = .ok (json, rest) ∧
      Reader.peekAfterBlanks rest = .ok (none, after) := by
  unfold ofText at h
  dsimp only at h
  split at h
  · next hrun =>
    cases h
    obtain ⟨value, rest, hvalue, hrun⟩ := Reader.exists_of_bind_ok hrun
    obtain ⟨b?, after, hpeek, hrun⟩ := Reader.exists_of_bind_ok hrun
    cases b? with
    | none =>
      cases hrun
      exact ⟨rest, _, hvalue, hpeek⟩
    | some b => cases hrun
  · cases h

/-- A text that is read opens no more than `maxDepth` arrays and objects at once, and its
    value is nested no deeper. -/
theorem bounded_of_ofText {text : String} {json : Json} (h : ofText text = .ok json) :
    json.depth ≤ maxDepth ∧ ∀ read, read <+: Utf8.encode text.toList →
      (Nest.after {} read).opened ≤ maxDepth := by
  obtain ⟨rest, after, hvalue, hpeek⟩ := exists_of_ofText h
  obtain ⟨⟨hdepth, -⟩, taken, heq, hwalks⟩ :=
    Reader.value_takes maxDepth (Nat.le_of_eq (Nat.zero_add _)) hvalue
  obtain ⟨⟨hend, -⟩, blanks, rfl, hwalks'⟩ :=
    Reader.peekAfterBlanks_takes (Nat.zero_le maxDepth) hpeek
  rw [List.head?_eq_none_iff.1 hend, List.append_nil] at heq
  exact ⟨hdepth, fun read hread => (hwalks.append hwalks').opened_le (heq ▸ hread)⟩

end PhpScript.Json
