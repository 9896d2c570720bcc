import ClassCode.Text.ModifiedUtf8

/-! Units as bytes. A unit that was written is read back from its one, two or three bytes, and so every text
that is written from a string is well-formed, whatever characters are in it. -/
namespace ClassCode.ModifiedUtf8

theorem continued?_continuation (bits : Nat) : continued? (continuation bits) = some (bits % 0x40) := by
  have hbyte : (continuation bits).toNat = 0x80 + bits % 0x40 :=
    UInt8.toNat_ofNat_of_lt' (by change 0x80 + bits % 0x40 < 256; omega)
  have hfrom : 0x80 ≤ continuation bits := by
    rw [UInt8.le_iff_toNat_le, hbyte]
    exact Nat.le_add_right ..
  have hto : continuation bits < 0xC0 := by
    rw [UInt8.lt_iff_toNat_lt, hbyte]
    change _ < 0xC0
    omega
  simp [continued?, hfrom, hto, hbyte]

section Forms

variable {bits : Nat} (acc : List UInt16) (rest : List UInt8)

theorem unitsOnto_one (h : 0 < bits ∧ bits < 0x80) :
    unitsOnto acc (bits.toUInt8 :: rest) = unitsOnto (bits.toUInt16 :: acc) rest := by
  have hbyte : bits.toUInt8.toNat = bits := UInt8.toNat_ofNat_of_lt' (by change bits < 256; omega)
  have hform : 0x01 ≤ bits.toUInt8 ∧ bits.toUInt8 < 0x80 := by
    rw [UInt8.le_iff_toNat_le, UInt8.lt_iff_toNat_lt, hbyte]
    exact h
  have hunit : bits.toUInt8.toUInt16 = bits.toUInt16 := by
    rw [← UInt16.toNat_inj, UInt8.toNat_toUInt16, hbyte, UInt16.toNat_ofNat_of_lt']
    change bits < 65536
    omega
  rw [unitsOnto.eq_def]
  simp only [hform.1, hform.2, hunit, decide_true, Bool.and_self, if_true]

theorem unitsOnto_two (h : bits < 0x20) (n : Nat) :
    unitsOnto acc ((0xC0 + bits).toUInt8 :: continuation n :: rest) =
      unitsOnto ((bits * 0x40 + n % 0x40).toUInt16 :: acc) rest := by
  have hbyte : (0xC0 + bits).toUInt8.toNat = 0xC0 + bits :=
    UInt8.toNat_ofNat_of_lt' (by change 0xC0 + bits < 256; omega)
  generalize (0xC0 + bits).toUInt8 = b at hbyte
  have hform : 0xC0 ≤ b ∧ b < 0xE0 ∧ ¬ b < 0x80 := by
    simp only [UInt8.le_iff_toNat_le, UInt8.lt_iff_toNat_lt, hbyte]
    change 0xC0 ≤ 0xC0 + bits ∧ 0xC0 + bits < 0xE0 ∧ ¬ 0xC0 + bits < 0x80
    omega
  rw [unitsOnto.eq_def]
  simp [hform, hbyte, continued?_continuation]

theorem unitsOnto_three (h : bits < 0x10) (m n : Nat) :
    unitsOnto acc ((0xE0 + bits).toUInt8 :: continuation m :: continuation n :: rest) =
      unitsOnto ((bits * 0x1000 + m % 0x40 * 0x40 + n % 0x40).toUInt16 :: acc) rest := by
  have hbyte : (0xE0 + bits).toUInt8.toNat = 0xE0 + bits :=
    UInt8.toNat_ofNat_of_lt' (by change 0xE0 + bits < 256; omega)
  generalize (0xE0 + bits).toUInt8 = b at hbyte
  have hform : 0xE0 ≤ b ∧ b < 0xF0 ∧ ¬ b < 0xE0 ∧ ¬ b < 0x80 := by
    simp only [UInt8.le_iff_toNat_le, UInt8.lt_iff_toNat_lt, hbyte]
    change 0xE0 ≤ 0xE0 + bits ∧ 0xE0 + bits < 0xF0 ∧ ¬ 0xE0 + bits < 0xE0 ∧ ¬ 0xE0 + bits < 0x80
    omega
  rw [unitsOnto.eq_def]
  simp [hform, hbyte, continued?_continuation]

end Forms

theorem unitsOnto_ofUnit (u : UInt16) (acc : List UInt16) (rest : List UInt8) :
    unitsOnto acc (ofUnit u ++ rest) = unitsOnto (u :: acc) rest := by
  have hunit : u.toNat.toUInt16 = u := UInt16.ofNat_toNat
  have hmax : u.toNat < 0x10000 := u.toNat_lt
  rw [ofUnit]
  split
  · rename_i hone
    rw [List.singleton_append, unitsOnto_one acc rest hone, hunit]
  split
  · rename_i htwo
    have hjoin : u.toNat / 0x40 * 0x40 + u.toNat % 0x40 = u.toNat := Nat.div_add_mod' ..
    refine (unitsOnto_two acc rest (Nat.div_lt_of_lt_mul htwo) u.toNat).trans ?_
    rw [hjoin, hunit]
  · have hjoin : u.toNat / 0x1000 * 0x1000 + u.toNat / 0x40 % 0x40 * 0x40 + u.toNat % 0x40 = u.toNat := by
      omega
    refine (unitsOnto_three acc rest (Nat.div_lt_of_lt_mul hmax) (u.toNat / 0x40) u.toNat).trans ?_
    rw [hjoin, hunit]

theorem unitsOnto_flatMap_ofUnit (us acc : List UInt16) :
    unitsOnto acc (us.flatMap ofUnit) = some (acc.reverse ++ us) := by
  induction us generalizing acc with
  | nil => simp [unitsOnto]
  | cons u us ih => simp [unitsOnto_ofUnit, ih]

theorem units?_ofString (s : String) : units? (ofString s) = some (Utf16.encode s.toList) :=
  unitsOnto_flatMap_ofUnit _ []

theorem isWellFormed_ofString (s : String) : isWellFormed (ofString s) := by
  rw [isWellFormed, units?_ofString]
  rfl

end ClassCode.ModifiedUtf8
