import ClassCode.Text.ModifiedUtf8

/-! Characters as units. A character is one unit that is no surrogate, or a high surrogate and a low one,
and it is read back from them. So some units are those of a text just when every surrogate among them is
part of a pair, and then they are those of one text only. -/
namespace ClassCode.Utf16

theorem isHigh_iff {u : UInt16} : isHigh u ↔ 0xD800 ≤ u.toNat ∧ u.toNat < 0xDC00 := by
  simp only [isHigh, Bool.and_eq_true, decide_eq_true_eq, UInt16.le_iff_toNat_le, UInt16.lt_iff_toNat_lt]
  rfl

theorem isLow_iff {u : UInt16} : isLow u ↔ 0xDC00 ≤ u.toNat ∧ u.toNat < 0xE000 := by
  simp only [isLow, Bool.and_eq_true, decide_eq_true_eq, UInt16.le_iff_toNat_le, UInt16.lt_iff_toNat_lt]
  rfl

theorem not_isLow_of_isHigh {u : UInt16} (h : isHigh u) : ¬ isLow u := by
  rw [isHigh_iff] at h
  rw [isLow_iff]
  omega

theorem toNat_ofNat {n : Nat} (h : n.isValidChar) : (Char.ofNat n).toNat = n := by
  rw [Char.ofNat, dif_pos h]
  rfl

section Characters

variable {u v : UInt16}

theorem ofChar_plain (hhigh : ¬ isHigh u) (hlow : ¬ isLow u) : ofChar (Char.ofNat u.toNat) = [u] := by
  have hmax : u.toNat < 0x10000 := u.toNat_lt
  have hvalid : u.toNat.isValidChar := by
    rw [isHigh_iff] at hhigh
    rw [isLow_iff] at hlow
    unfold Nat.isValidChar
    omega
  have hunit : u.toNat.toUInt16 = u := UInt16.ofNat_toNat
  rw [ofChar, toNat_ofNat hvalid, if_pos hmax, hunit]

theorem ofChar_joined (hhigh : isHigh u) (hlow : isLow v) : ofChar (joined u v) = [u, v] := by
  rw [isHigh_iff] at hhigh
  rw [isLow_iff] at hlow
  have hvalid : (0x10000 + (u.toNat - 0xD800) * 0x400 + (v.toNat - 0xDC00)).isValidChar := by
    unfold Nat.isValidChar
    omega
  have hcode : (joined u v).toNat = 0x10000 + (u.toNat - 0xD800) * 0x400 + (v.toNat - 0xDC00) :=
    toNat_ofNat hvalid
  have htop : 0xD800 + ((joined u v).toNat - 0x10000) / 0x400 = u.toNat := by omega
  have hbottom : 0xDC00 + ((joined u v).toNat - 0x10000) % 0x400 = v.toNat := by omega
  have hunit (w : UInt16) : w.toNat.toUInt16 = w := UInt16.ofNat_toNat
  rw [ofChar, if_neg (by omega), htop, hbottom, hunit, hunit]

theorem exists_units (c : Char) :
    (∃ u : UInt16, ¬ isHigh u ∧ ¬ isLow u ∧ Char.ofNat u.toNat = c) ∨
      ∃ u v : UInt16, isHigh u ∧ isLow v ∧ joined u v = c := by
  have hvalid : c.toNat < 0xD800 ∨ 0xDFFF < c.toNat ∧ c.toNat < 0x110000 := c.valid
  by_cases hbasic : c.toNat < 0x10000
  · have hunit : c.toNat.toUInt16.toNat = c.toNat := UInt16.toNat_ofNat_of_lt' hbasic
    refine .inl ⟨c.toNat.toUInt16, ?_, ?_, ?_⟩
    · rw [isHigh_iff, hunit]
      omega
    · rw [isLow_iff, hunit]
      omega
    · rw [hunit, Char.ofNat_toNat]
  · have hunit {n : Nat} (hn : n < 0x10000) : n.toUInt16.toNat = n := UInt16.toNat_ofNat_of_lt' hn
    have htop := hunit (n := 0xD800 + (c.toNat - 0x10000) / 0x400) (by omega)
    have hbottom := hunit (n := 0xDC00 + (c.toNat - 0x10000) % 0x400) (by omega)
    have hcode : 0x10000 + (c.toNat - 0x10000) / 0x400 * 0x400 + (c.toNat - 0x10000) % 0x400 = c.toNat := by
      omega
    refine .inr ⟨(0xD800 + (c.toNat - 0x10000) / 0x400).toUInt16,
      (0xDC00 + (c.toNat - 0x10000) % 0x400).toUInt16, ?_, ?_, ?_⟩
    · rw [isHigh_iff, htop]
      omega
    · rw [isLow_iff, hbottom]
      omega
    · rw [joined, htop, hbottom, Nat.add_sub_cancel_left, Nat.add_sub_cancel_left, hcode, Char.ofNat_toNat]

end Characters

section Steps

variable {u v : UInt16} (acc : List Char) (rest : List UInt16)

theorem decodeOnto_plain (hhigh : ¬ isHigh u) (hlow : ¬ isLow u) :
    decodeOnto acc (u :: rest) = decodeOnto (Char.ofNat u.toNat :: acc) rest := by
  cases rest with
  | nil => simp [decodeOnto, hhigh, hlow]
  | cons v rest => simp [decodeOnto, hhigh, hlow]

theorem decodeOnto_joined (hhigh : isHigh u) (hlow : isLow v) :
    decodeOnto acc (u :: v :: rest) = decodeOnto (joined u v :: acc) rest := by
  simp [decodeOnto, hhigh, hlow]

theorem decodeOnto_ofChar (c : Char) :
    decodeOnto acc (ofChar c ++ rest) = decodeOnto (c :: acc) rest := by
  rcases exists_units c with ⟨u, hhigh, hlow, rfl⟩ | ⟨u, v, hhigh, hlow, rfl⟩
  · rw [ofChar_plain hhigh hlow]
    exact decodeOnto_plain acc rest hhigh hlow
  · rw [ofChar_joined hhigh hlow]
    exact decodeOnto_joined acc rest hhigh hlow

end Steps

theorem decodeOnto_encode (s acc : List Char) : decodeOnto acc (encode s) = some (acc.reverse ++ s) := by
  induction s generalizing acc with
  | nil => simp [encode, decodeOnto]
  | cons c s ih =>
    have hrest := ih (c :: acc)
    rw [encode] at hrest ⊢
    rw [List.flatMap_cons, decodeOnto_ofChar, hrest]
    simp

theorem encode_of_decodeOnto {acc : List Char} {us : List UInt16} {t : List Char}
    (h : decodeOnto acc us = some t) : ∃ s, t = acc.reverse ++ s ∧ encode s = us := by
  fun_induction decodeOnto acc us with
  | case1 acc => exact ⟨[], by simpa using h.symm, rfl⟩
  | case2 acc u hsurrogate => cases h
  | case3 acc u hplain =>
    simp only [Bool.or_eq_true, not_or] at hplain
    refine ⟨[Char.ofNat u.toNat], by simpa using h.symm, ?_⟩
    rw [encode, List.flatMap_cons, ofChar_plain hplain.1 hplain.2]
    rfl
  | case4 acc u v rest hhigh hlow ih =>
    obtain ⟨s, rfl, rfl⟩ := ih h
    refine ⟨joined u v :: s, by simp, ?_⟩
    rw [encode, List.flatMap_cons, ofChar_joined hhigh hlow]
    rfl
  | case5 acc u v rest hhigh hlow => cases h
  | case6 acc u v rest hhigh hlow => cases h
  | case7 acc u v rest hhigh hlow ih =>
    obtain ⟨s, rfl, hs⟩ := ih h
    refine ⟨Char.ofNat u.toNat :: s, by simp, ?_⟩
    rw [encode, List.flatMap_cons, ofChar_plain hhigh hlow, ← encode, hs]
    rfl

theorem decode?_eq_some_iff {us : List UInt16} {s : List Char} : decode? us = some s ↔ encode s = us := by
  constructor
  · intro h
    obtain ⟨t, rfl, ht⟩ := encode_of_decodeOnto h
    exact ht
  · rintro rfl
    exact decodeOnto_encode s []

/-- Units among which each high surrogate is followed by a low one, and each low one comes after a high one. -/
def Paired (us : List UInt16) : Prop :=
  ∀ (i : Nat) (u : UInt16), us[i]? = some u →
    (isHigh u → ∃ v, us[i + 1]? = some v ∧ isLow v) ∧
    (isLow u → ∃ j v, j + 1 = i ∧ us[j]? = some v ∧ isHigh v)

section Paired

variable {u v : UInt16} {us : List UInt16}

theorem paired_nil : Paired [] := fun i u h => by simp at h

theorem paired_cons_plain (hhigh : ¬ isHigh u) (hlow : ¬ isLow u) : Paired (u :: us) ↔ Paired us := by
  constructor
  · intro h i w hw
    obtain ⟨hnext, hbefore⟩ := h (i + 1) w hw
    refine ⟨hnext, fun hwlow => ?_⟩
    obtain ⟨j, x, hj, hx, hxhigh⟩ := hbefore hwlow
    cases j with
    | zero =>
      obtain rfl : u = x := by simpa using hx
      exact absurd hxhigh hhigh
    | succ j => exact ⟨j, x, Nat.succ.inj hj, hx, hxhigh⟩
  · intro h i w hw
    cases i with
    | zero =>
      obtain rfl : u = w := by simpa using hw
      exact ⟨fun hw => absurd hw hhigh, fun hw => absurd hw hlow⟩
    | succ i =>
      obtain ⟨hnext, hbefore⟩ := h i w hw
      refine ⟨hnext, fun hwlow => ?_⟩
      obtain ⟨j, x, rfl, hx, hxhigh⟩ := hbefore hwlow
      exact ⟨j + 1, x, rfl, hx, hxhigh⟩

theorem paired_cons_joined (hhigh : isHigh u) (hlow : isLow v) : Paired (u :: v :: us) ↔ Paired us := by
  have hvhigh : ¬ isHigh v := fun h => not_isLow_of_isHigh h hlow
  constructor
  · intro h i w hw
    obtain ⟨hnext, hbefore⟩ := h (i + 2) w hw
    refine ⟨hnext, fun hwlow => ?_⟩
    obtain ⟨j, x, hj, hx, hxhigh⟩ := hbefore hwlow
    obtain rfl : j = i + 1 := Nat.succ.inj hj
    cases i with
    | zero =>
      obtain rfl : v = x := by simpa using hx
      exact absurd hxhigh hvhigh
    | succ i => exact ⟨i, x, rfl, hx, hxhigh⟩
  · intro h i w hw
    match i with
    | 0 =>
      obtain rfl : u = w := by simpa using hw
      exact ⟨fun _ => ⟨v, rfl, hlow⟩, fun hw => absurd hw (not_isLow_of_isHigh hhigh)⟩
    | 1 =>
      obtain rfl : v = w := by simpa using hw
      exact ⟨fun hw => absurd hw hvhigh, fun _ => ⟨0, u, rfl, rfl, hhigh⟩⟩
    | i + 2 =>
      obtain ⟨hnext, hbefore⟩ := h i w hw
      refine ⟨hnext, fun hwlow => ?_⟩
      obtain ⟨j, x, rfl, hx, hxhigh⟩ := hbefore hwlow
      exact ⟨j + 2, x, rfl, hx, hxhigh⟩

theorem not_paired_of_low (hlow : isLow u) : ¬ Paired (u :: us) := by
  intro h
  obtain ⟨j, v, hj, -⟩ := (h 0 u rfl).2 hlow
  exact Nat.succ_ne_zero j hj

theorem not_paired_of_high (hhigh : isHigh u) (hnext : ∀ v ∈ us.head?, ¬ isLow v) : ¬ Paired (u :: us) := by
  intro h
  obtain ⟨v, hv, hlow⟩ := (h 0 u rfl).1 hhigh
  rw [List.getElem?_cons_succ, ← List.head?_eq_getElem?] at hv
  exact hnext v hv hlow

/-- Units are those of a text when every surrogate among them is part of a pair. -/
theorem isSome_decodeOnto_iff (acc : List Char) (us : List UInt16) :
    (decodeOnto acc us).isSome ↔ Paired us := by
  fun_induction decodeOnto acc us with
  | case1 acc => simp [paired_nil]
  | case2 acc u hsurrogate =>
    simp only [Option.isSome_none, Bool.false_eq_true, false_iff]
    rcases Bool.or_eq_true _ _ ▸ hsurrogate with hhigh | hlow
    · exact not_paired_of_high hhigh (by simp)
    · exact not_paired_of_low hlow
  | case3 acc u hplain =>
    simp only [Bool.or_eq_true, not_or] at hplain
    simp [paired_cons_plain hplain.1 hplain.2, paired_nil]
  | case4 acc u v rest hhigh hlow ih => rw [ih, paired_cons_joined hhigh hlow]
  | case5 acc u v rest hhigh hlow => simpa using not_paired_of_high hhigh (by simpa using hlow)
  | case6 acc u v rest hhigh hlow => simpa using not_paired_of_low hlow
  | case7 acc u v rest hhigh hlow ih => rw [ih, paired_cons_plain hhigh hlow]

theorem isSome_decode?_iff : (decode? us).isSome ↔ Paired us := isSome_decodeOnto_iff [] us

end Paired

end ClassCode.Utf16
