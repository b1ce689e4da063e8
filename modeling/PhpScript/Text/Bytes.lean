/-!
# Byte offsets into text

Positions in a source text are counted in bytes of its UTF-8 form, while the
text itself is handled as a list of characters. This module relates the two:

* `Text.byteLength` is the number of bytes that a run of characters takes;
* `Text.dropBytes?` and `Text.takeBytes?` cut at a byte offset, and refuse an
  offset that lies inside a character or past the end;
* `Text.slice?` is the text between two offsets.
-/

namespace PhpScript.Text

/-- The number of bytes in the UTF-8 form of `cs`. -/
def byteLength : List Char → Nat
  | [] => 0
  | c :: cs => c.utf8Size + byteLength cs

/-- What is left of `cs` after its first `n` bytes, when a character ends there. -/
def dropBytes? : Nat → List Char → Option (List Char)
  | 0, cs => some cs
  | _ + 1, [] => none
  | n + 1, c :: cs =>
    if c.utf8Size ≤ n + 1 then dropBytes? (n + 1 - c.utf8Size) cs else none

/-- The first `n` bytes of `cs`, when a character ends there. -/
def takeBytes? : Nat → List Char → Option (List Char)
  | 0, _ => some []
  | _ + 1, [] => none
  | n + 1, c :: cs =>
    if c.utf8Size ≤ n + 1 then (takeBytes? (n + 1 - c.utf8Size) cs).map (c :: ·) else none

/-- The text between the byte offsets `start` and `stop`, when both are
    character boundaries of `text` and in order. -/
def slice? (text : String) (start stop : Nat) : Option String :=
  if start ≤ stop then
    ((dropBytes? start text.toList).bind (takeBytes? (stop - start))).map String.ofList
  else
    none

@[simp] theorem byteLength_nil : byteLength [] = 0 := rfl

@[simp] theorem byteLength_cons (c : Char) (cs : List Char) :
    byteLength (c :: cs) = c.utf8Size + byteLength cs := rfl

@[simp] theorem byteLength_append (as bs : List Char) :
    byteLength (as ++ bs) = byteLength as + byteLength bs := by
  induction as with
  | nil => simp
  | cons c as ih => simp [ih, Nat.add_assoc]

theorem utf8ByteSize_ofList (cs : List Char) : (String.ofList cs).utf8ByteSize = byteLength cs := by
  induction cs with
  | nil => rfl
  | cons c cs ih =>
    have h : String.ofList (c :: cs) = String.ofList [c] ++ String.ofList cs := by simp
    rw [h, String.utf8ByteSize_append, ih, byteLength_cons]
    simp

theorem utf8ByteSize_eq (text : String) : text.utf8ByteSize = byteLength text.toList := by
  rw [← utf8ByteSize_ofList, String.ofList_toList]

/-- A boundary reached after `as` is found again by its offset. -/
theorem dropBytes?_append (as bs : List Char) :
    dropBytes? (byteLength as) (as ++ bs) = some bs := by
  induction as with
  | nil => simp [dropBytes?]
  | cons c as ih =>
    obtain ⟨k, hk⟩ : ∃ k, c.utf8Size + byteLength as = k + 1 :=
      ⟨c.utf8Size + byteLength as - 1, by have := c.utf8Size_pos; omega⟩
    have h : k + 1 - c.utf8Size = byteLength as := by omega
    simp [byteLength, hk, dropBytes?, h, ih]
    omega

/-- The bytes up to such a boundary are exactly `as`. -/
theorem takeBytes?_append (as bs : List Char) :
    takeBytes? (byteLength as) (as ++ bs) = some as := by
  induction as with
  | nil => simp [takeBytes?]
  | cons c as ih =>
    obtain ⟨k, hk⟩ : ∃ k, c.utf8Size + byteLength as = k + 1 :=
      ⟨c.utf8Size + byteLength as - 1, by have := c.utf8Size_pos; omega⟩
    have h : k + 1 - c.utf8Size = byteLength as := by omega
    simp [byteLength, hk, takeBytes?, h, ih]
    omega

/-- The text between two boundaries is what stands between them. -/
theorem slice?_append {text : String} {left mid right : List Char}
    (h : text.toList = left ++ (mid ++ right)) :
    slice? text (byteLength left) (byteLength left + byteLength mid) =
      some (String.ofList mid) := by
  rw [slice?, if_pos (Nat.le_add_right _ _), h, dropBytes?_append, Option.bind_some,
    Nat.add_sub_cancel_left, takeBytes?_append, Option.map_some]

/-- What is left after a number of bytes stands behind a text of this many bytes. -/
theorem exists_of_dropBytes? {n : Nat} {cs rest : List Char} (h : dropBytes? n cs = some rest) :
    ∃ left, cs = left ++ rest ∧ byteLength left = n := by
  fun_induction dropBytes? n cs with
  | case1 cs =>
    cases h
    exact ⟨[], rfl, rfl⟩
  | case2 => cases h
  | case3 n c cs hfits ih =>
    obtain ⟨left, rfl, hleft⟩ := ih h
    exact ⟨c :: left, rfl, by rw [byteLength_cons]; omega⟩
  | case4 => cases h

/-- A character of one byte, repeated. -/
theorem byteLength_replicate (n : Nat) {c : Char} (hc : c.utf8Size = 1) :
    byteLength (List.replicate n c) = n := by
  induction n with
  | zero => rfl
  | succ n ih => rw [List.replicate_succ, byteLength_cons, ih, hc, Nat.add_comm]

theorem length_le_byteLength (cs : List Char) : cs.length ≤ byteLength cs := by
  induction cs with
  | nil => exact Nat.le_refl _
  | cons c cs ih =>
    have hc := c.utf8Size_pos
    rw [List.length_cons, byteLength_cons]
    omega

theorem byteLength_le (cs : List Char) : byteLength cs ≤ 4 * cs.length := by
  induction cs with
  | nil => exact Nat.le_refl _
  | cons c cs ih =>
    have hc := c.utf8Size_le_four
    rw [byteLength_cons, List.length_cons]
    omega

theorem byteLength_pos {cs : List Char} (h : cs ≠ []) : 0 < byteLength cs := by
  cases cs with
  | nil => exact absurd rfl h
  | cons c cs => exact Nat.lt_of_lt_of_le c.utf8Size_pos (Nat.le_add_right _ _)

end PhpScript.Text
