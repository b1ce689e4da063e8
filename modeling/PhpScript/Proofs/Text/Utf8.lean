import PhpScript.Text.Utf8

/-!
# Reading encoded characters back

The bytes of a character begin with one that announces how many follow, and each of
these holds six bits of the code point. So reading goes byte by byte, and gives the
character back whatever comes after it (`Utf8.parts_encodeChar`): what is encoded is read
as it was (`Utf8.decodeLossy_encode`). Of the bytes of a character, those below 128 are
the ASCII characters themselves (`Utf8.mem_encodeChar`).
-/

namespace PhpScript.Utf8

/-! ## The bytes of a character -/

/-- The byte that holds the last six bits of a number. -/
def trailing (n : Nat) : UInt8 := UInt8.ofNat (n % 64 + 128)

theorem toNat_ofNat {n : Nat} (h : n < 256) : (UInt8.ofNat n).toNat = n := by
  rw [UInt8.toNat_ofNat']
  exact Nat.mod_eq_of_lt h

theorem toNat_trailing (n : Nat) : (trailing n).toNat = n % 64 + 128 :=
  toNat_ofNat (by omega)

theorem isValidChar_toNat (c : Char) :
    c.toNat < 0xD800 ∨ 0xDFFF < c.toNat ∧ c.toNat < 0x110000 :=
  c.valid

/-- The bytes of a character, by the size of its code point. -/
theorem encodeChar_eq (c : Char) :
    (c.toNat < 0x80 ∧ String.utf8EncodeChar c = [UInt8.ofNat c.toNat]) ∨
    (0x80 ≤ c.toNat ∧ c.toNat < 0x800 ∧
      String.utf8EncodeChar c = [UInt8.ofNat (c.toNat / 64 + 192), trailing c.toNat]) ∨
    (0x800 ≤ c.toNat ∧ c.toNat < 0x10000 ∧
      String.utf8EncodeChar c =
        [UInt8.ofNat (c.toNat / 4096 + 224), trailing (c.toNat / 64), trailing c.toNat]) ∨
    (0x10000 ≤ c.toNat ∧
      String.utf8EncodeChar c =
        [UInt8.ofNat (c.toNat / 262144 + 240), trailing (c.toNat / 4096),
          trailing (c.toNat / 64), trailing c.toNat]) := by
  have hvalid := isValidChar_toNat c
  have hval : c.val.toNat = c.toNat := rfl
  unfold String.utf8EncodeChar
  rw [hval]
  dsimp only
  split
  · exact .inl ⟨by omega, rfl⟩
  split
  · rw [Nat.mod_eq_of_lt (by omega : c.toNat / 64 < 32)]
    exact .inr (.inl ⟨by omega, by omega, rfl⟩)
  split
  · rw [Nat.mod_eq_of_lt (by omega : c.toNat / 4096 < 16)]
    exact .inr (.inr (.inl ⟨by omega, by omega, rfl⟩))
  · rw [Nat.mod_eq_of_lt (by omega : c.toNat / 262144 < 8)]
    exact .inr (.inr (.inr ⟨by omega, rfl⟩))

/-- A byte of a character is the character itself, or lies above the ASCII characters. -/
theorem mem_encodeChar {c : Char} {b : UInt8} (h : b ∈ String.utf8EncodeChar c) :
    b = UInt8.ofNat c.toNat ∧ c.toNat < 0x80 ∨ 0x80 ≤ b.toNat := by
  have hvalid := isValidChar_toNat c
  rcases encodeChar_eq c with ⟨hlt, heq⟩ | ⟨hle, hlt, heq⟩ | ⟨hle, hlt, heq⟩ | ⟨hle, heq⟩
  all_goals
    rw [heq] at h
    simp only [List.mem_cons, List.not_mem_nil, or_false] at h
  · exact .inl ⟨h, hlt⟩
  · rcases h with rfl | rfl
    · rw [toNat_ofNat (by omega)]
      omega
    · rw [toNat_trailing]
      omega
  · rcases h with rfl | rfl | rfl
    · rw [toNat_ofNat (by omega)]
      omega
    all_goals
      rw [toNat_trailing]
      omega
  · rcases h with rfl | rfl | rfl | rfl
    · rw [toNat_ofNat (by omega)]
      omega
    all_goals
      rw [toNat_trailing]
      omega

/-- The byte of an ASCII character is in no other character. -/
theorem ne_of_mem_encodeChar {c d : Char} {b : UInt8} (h : b ∈ String.utf8EncodeChar c)
    (hd : d.toNat < 0x80) (hne : c ≠ d) : b ≠ UInt8.ofNat d.toNat := by
  have hbyte : (UInt8.ofNat d.toNat).toNat = d.toNat := toNat_ofNat (by omega)
  rintro rfl
  rcases mem_encodeChar h with ⟨heq, hc⟩ | hle
  · have hcode := congrArg UInt8.toNat heq
    rw [hbyte, toNat_ofNat (by omega)] at hcode
    exact hne (Char.toNat_inj.1 hcode.symm)
  · omega

/-! ## Reading a character -/

namespace Lead

theorem ofByte?_one {b : UInt8} (hlt : b.toNat < 0x80) :
    ofByte? b = some ⟨0, 0x80, 0xBF, b.toNat⟩ := by
  simp only [ofByte?, UInt8.lt_iff_toNat_lt, UInt8.reduceToNat]
  rw [if_pos hlt]

theorem ofByte?_two {b : UInt8} (hle : 0xC2 ≤ b.toNat) (hlt : b.toNat < 0xE0) :
    ofByte? b = some ⟨1, 0x80, 0xBF, b.toNat % 32⟩ := by
  simp only [ofByte?, UInt8.lt_iff_toNat_lt, ← UInt8.toNat_inj, UInt8.reduceToNat]
  rw [if_neg (by omega), if_neg (by omega), if_pos (by omega)]

/-- The first of two more bytes is bounded where an overlong form or a surrogate would begin. -/
theorem ofByte?_three {b : UInt8} (hle : 0xE0 ≤ b.toNat) (hlt : b.toNat < 0xF0) :
    ∃ low high : UInt8, ofByte? b = some ⟨2, low, high, b.toNat % 16⟩ ∧
      (low.toNat = if b.toNat = 0xE0 then 0xA0 else 0x80) ∧
      high.toNat = if b.toNat = 0xED then 0x9F else 0xBF := by
  simp only [ofByte?, UInt8.lt_iff_toNat_lt, ← UInt8.toNat_inj, UInt8.reduceToNat]
  rw [if_neg (by omega), if_neg (by omega), if_neg (by omega)]
  split
  · exact ⟨_, _, rfl, rfl, by rw [if_neg (by omega)]; rfl⟩
  split
  · exact ⟨_, _, rfl, rfl, rfl⟩
  · exact ⟨_, _, rfl, rfl, rfl⟩

/-- The first of three more bytes is bounded where an overlong form would begin, and where
    the code points end. -/
theorem ofByte?_four {b : UInt8} (hle : 0xF0 ≤ b.toNat) (hlt : b.toNat < 0xF5) :
    ∃ low high : UInt8, ofByte? b = some ⟨3, low, high, b.toNat % 8⟩ ∧
      (low.toNat = if b.toNat = 0xF0 then 0x90 else 0x80) ∧
      high.toNat = if b.toNat = 0xF4 then 0x8F else 0xBF := by
  simp only [ofByte?, UInt8.lt_iff_toNat_lt, ← UInt8.toNat_inj, UInt8.reduceToNat]
  rw [if_neg (by omega), if_neg (by omega), if_neg (by omega), if_neg (by omega),
    if_neg (by omega), if_neg (by omega)]
  split
  · exact ⟨_, _, rfl, rfl, by rw [if_neg (by omega)]; rfl⟩
  split
  · exact ⟨_, _, rfl, rfl, by rw [if_neg (by omega)]; rfl⟩
  · rw [if_pos (by omega)]
    exact ⟨_, _, rfl, rfl, by rw [if_pos (by omega)]; rfl⟩

end Lead

theorem continueChar_trailing {low high : UInt8} {n : Nat} (hlow : low.toNat ≤ n % 64 + 128)
    (hhigh : n % 64 + 128 ≤ high.toNat) (more bits : Nat) (rest : List UInt8) :
    continueChar (more + 1) low high bits (trailing n :: rest) =
      continueChar more 0x80 0xBF (bits * 64 + n % 64) rest := by
  have hbounds : low ≤ trailing n ∧ trailing n ≤ high := by
    rw [UInt8.le_iff_toNat_le, UInt8.le_iff_toNat_le, toNat_trailing]
    exact ⟨hlow, hhigh⟩
  rw [continueChar, if_pos hbounds, toNat_trailing, show (n % 64 + 128) % 64 = n % 64 by omega]

/-- After the first continuation byte the others have no bounds of their own. -/
theorem continueChar_trailing_free (n more bits : Nat) (rest : List UInt8) :
    continueChar (more + 1) 0x80 0xBF bits (trailing n :: rest) =
      continueChar more 0x80 0xBF (bits * 64 + n % 64) rest :=
  continueChar_trailing (by simp) (by simp; omega) more bits rest

theorem parts_of_lead {b : UInt8} {bs rest : List UInt8} {lead : Lead} {c : Char}
    (hlead : Lead.ofByte? b = some lead)
    (hnext : continueChar lead.more lead.low lead.high lead.bits bs = (some c, rest)) :
    parts (b :: bs) = some c :: parts rest := by
  rw [parts]
  simp only [hlead, hnext]

/-- A character is read back from its bytes, whatever follows. -/
theorem parts_encodeChar (c : Char) (rest : List UInt8) :
    parts (String.utf8EncodeChar c ++ rest) = some c :: parts rest := by
  have hvalid := isValidChar_toNat c
  have hchar {n : Nat} (h : n = c.toNat) : Char.ofNat n = c := by rw [h, Char.ofNat_toNat]
  -- In each case the bits of the bytes together are the code point.
  rcases encodeChar_eq c with ⟨hlt, heq⟩ | ⟨hle, hlt, heq⟩ | ⟨hle, hlt, heq⟩ | ⟨hle, heq⟩
  all_goals
    rw [heq]
    simp only [List.cons_append, List.nil_append]
  · have hb : (UInt8.ofNat c.toNat).toNat = c.toNat := toNat_ofNat (by omega)
    refine parts_of_lead (Lead.ofByte?_one (by omega)) ?_
    dsimp only
    rw [continueChar, hchar hb]
  · have hb := toNat_ofNat (by omega : c.toNat / 64 + 192 < 256)
    refine parts_of_lead (Lead.ofByte?_two (by omega) (by omega)) ?_
    dsimp only
    rw [continueChar_trailing_free, continueChar, hchar (by omega)]
  · have hb := toNat_ofNat (by omega : c.toNat / 4096 + 224 < 256)
    obtain ⟨low, high, hlead, hlow, hhigh⟩ :=
      Lead.ofByte?_three (b := .ofNat (c.toNat / 4096 + 224)) (by omega) (by omega)
    refine parts_of_lead hlead ?_
    dsimp only
    rw [continueChar_trailing, continueChar_trailing_free, continueChar, hchar (by omega)]
    · rw [hlow]
      split <;> omega
    · rw [hhigh]
      split <;> omega
  · have hb := toNat_ofNat (by omega : c.toNat / 262144 + 240 < 256)
    obtain ⟨low, high, hlead, hlow, hhigh⟩ :=
      Lead.ofByte?_four (b := .ofNat (c.toNat / 262144 + 240)) (by omega) (by omega)
    refine parts_of_lead hlead ?_
    dsimp only
    rw [continueChar_trailing, continueChar_trailing_free, continueChar_trailing_free,
      continueChar, hchar (by omega)]
    · rw [hlow]
      split <;> omega
    · rw [hhigh]
      split <;> omega

theorem parts_encode (cs : List Char) : parts (encode cs) = cs.map some := by
  induction cs with
  | nil => rw [encode, List.flatMap_nil, parts, List.map_nil]
  | cons c cs ih =>
    rw [encode, List.flatMap_cons, parts_encodeChar, ← encode, ih, List.map_cons]

/-- Encoded characters are read as they were. -/
theorem decodeLossy_encode (cs : List Char) : decodeLossy (encode cs) = String.ofList cs := by
  rw [decodeLossy, parts_encode, List.map_map]
  congr 1
  exact List.map_id cs

theorem decode?_encode (cs : List Char) : decode? (encode cs) = some (String.ofList cs) := by
  have hall : (cs.map some).mapM id = some cs := by
    induction cs with
    | nil => rfl
    | cons c cs ih =>
      rw [List.map_cons, List.mapM_cons, ih]
      rfl
  rw [decode?, parts_encode, hall, Option.map_some]

/-! ## Valid bytes -/

/-- The bytes are those of a run of characters. -/
def IsValid (bs : List UInt8) : Prop := ∃ cs, bs = encode cs

namespace IsValid

variable {left right : List UInt8} {b : UInt8}

theorem nil : IsValid [] := ⟨[], rfl⟩

theorem char (c : Char) : IsValid (String.utf8EncodeChar c) := ⟨[c], by simp [encode]⟩

theorem append (hleft : IsValid left) (hright : IsValid right) : IsValid (left ++ right) := by
  obtain ⟨cs, rfl⟩ := hleft
  obtain ⟨ds, rfl⟩ := hright
  exact ⟨cs ++ ds, by rw [encode, encode, encode, List.flatMap_append]⟩

theorem ascii (hb : b < 0x80) : IsValid [b] := by
  have hlt : b.toNat < 0x80 := by simpa [UInt8.lt_iff_toNat_lt] using hb
  have hcode : (Char.ofNat b.toNat).toNat = b.toNat := by
    rw [Char.ofNat, dif_pos (.inl (by omega))]
    rfl
  rcases encodeChar_eq (Char.ofNat b.toNat) with ⟨-, heq⟩ | ⟨hle, -⟩ | ⟨hle, -⟩ | ⟨hle, -⟩
  · refine ⟨[Char.ofNat b.toNat], ?_⟩
    rw [encode, List.flatMap_singleton, heq, hcode, UInt8.ofNat_toNat]
  all_goals omega

/-- An ASCII byte is a character of its own, so what stands before it and what stands after it
    are whole characters too. -/
theorem cut (h : IsValid (left ++ b :: right)) (hb : b < 0x80) :
    IsValid left ∧ IsValid right := by
  obtain ⟨cs, hcs⟩ := h
  induction cs generalizing left with
  | nil => simp [encode] at hcs
  | cons c cs ih =>
    rw [encode, List.flatMap_cons, ← encode, List.append_eq_append_iff] at hcs
    rcases hcs with ⟨_ | ⟨b', bs⟩, hchar, hcs⟩ | ⟨bs, rfl, hcs⟩
    · obtain ⟨-, hright⟩ := ih (show [] ++ b :: right = encode cs from hcs)
      rw [List.append_nil] at hchar
      exact ⟨hchar ▸ char c, hright⟩
    · -- The byte is in the first character, which is no more than this byte.
      obtain ⟨rfl, rfl⟩ := List.cons.inj hcs
      have hlt : b.toNat < 0x80 := by simpa [UInt8.lt_iff_toNat_lt] using hb
      rcases mem_encodeChar (c := c) (b := b) (by simp [hchar]) with ⟨-, hc⟩ | hle
      · have hone : (String.utf8EncodeChar c).length = 1 := by
          rcases encodeChar_eq c with ⟨-, heq⟩ | ⟨hle, -⟩ | ⟨hle, -⟩ | ⟨hle, -⟩
          · rw [heq, List.length_singleton]
          all_goals omega
        rw [hchar, List.length_append, List.length_cons] at hone
        obtain ⟨hleft, hbs⟩ : left = [] ∧ bs = [] := by
          rw [← List.length_eq_zero_iff, ← List.length_eq_zero_iff]
          omega
        exact ⟨hleft ▸ nil, cs, hbs ▸ rfl⟩
      · omega
    · obtain ⟨hbs, hright⟩ := ih hcs.symm
      exact ⟨(char c).append hbs, hright⟩

theorem tail (h : IsValid (b :: right)) (hb : b < 0x80) : IsValid right := by
  rw [← List.nil_append (b :: right)] at h
  exact (h.cut hb).2

end IsValid

end PhpScript.Utf8
