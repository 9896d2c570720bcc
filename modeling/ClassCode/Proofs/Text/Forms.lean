import ClassCode.Proofs.Text.Strings
import Mathlib.Algebra.Order.BigOperators.Group.List
import Mathlib.Algebra.Order.Group.Nat

/-! The forms that a reader of modified UTF-8 accepts. Bytes are a sequence of units when they are a sequence of
forms, which then are the only ones; a unit can have a form that is longer than needed, and it is these
forms that are not what is written for the text that was read. -/
namespace ClassCode.ModifiedUtf8

def Continues (b : UInt8) : Prop := 0x80 ≤ b ∧ b ≤ 0xBF

instance (b : UInt8) : Decidable (Continues b) := inferInstanceAs (Decidable (0x80 ≤ b ∧ b ≤ 0xBF))

def payload (first : Nat) (b : UInt8) : Nat := b.toNat - first

theorem add_payload {first : Nat} {b : UInt8} (h : first ≤ b.toNat) : first + payload first b = b.toNat :=
  Nat.add_sub_cancel' h

theorem payload_le {first last : Nat} {b : UInt8} (h : b.toNat ≤ last) : payload first b ≤ last - first :=
  Nat.sub_le_sub_right h first

theorem Continues.payload_lt {b : UInt8} (h : Continues b) : payload 0x80 b < 0x40 := by
  have hle : payload 0x80 b ≤ 0xBF - 0x80 := payload_le h.2
  omega

/-- A form of one unit: a byte by itself, or one that leads, with one or two that continue it. -/
inductive Form where
  | one (byte : UInt8) (alone : 0x01 ≤ byte ∧ byte ≤ 0x7F)
  | two (lead low : UInt8) (leads : 0xC0 ≤ lead ∧ lead ≤ 0xDF) (continues : Continues low)
  | three (lead mid low : UInt8) (leads : 0xE0 ≤ lead ∧ lead ≤ 0xEF) (continues : Continues mid ∧ Continues low)

namespace Form

def bytes : Form → List UInt8
  | one byte _ => [byte]
  | two lead low _ _ => [lead, low]
  | three lead mid low _ _ => [lead, mid, low]

def lead : Form → UInt8
  | one byte _ => byte
  | two lead _ _ _ | three lead _ _ _ _ => lead

def value : Form → Nat
  | one byte _ => byte.toNat
  | two lead low _ _ => payload 0xC0 lead * 0x40 + payload 0x80 low
  | three lead mid low _ _ => payload 0xE0 lead * 0x1000 + payload 0x80 mid * 0x40 + payload 0x80 low

def unit (f : Form) : UInt16 := f.value.toUInt16

theorem value_lt (f : Form) : f.value < 0x10000 := by
  cases f with
  | one byte _ => exact Nat.lt_trans byte.toNat_lt (by decide)
  | two lead low leads continues =>
    have hlead : payload 0xC0 lead ≤ 0xDF - 0xC0 := payload_le leads.2
    have hlow := continues.payload_lt
    rw [value]
    omega
  | three lead mid low leads continues =>
    have hlead : payload 0xE0 lead ≤ 0xEF - 0xE0 := payload_le leads.2
    have hmid := continues.1.payload_lt
    have hlow := continues.2.payload_lt
    rw [value]
    omega

theorem toNat_unit (f : Form) : f.unit.toNat = f.value := UInt16.toNat_ofNat_of_lt' f.value_lt

theorem unit_one (byte : UInt8) (alone : 0x01 ≤ byte ∧ byte ≤ 0x7F) : (one byte alone).unit = byte.toUInt16 := by
  rw [← UInt16.toNat_inj, UInt8.toNat_toUInt16]
  exact toNat_unit _

/-- Would fewer bytes do? Zero has no form of one byte. -/
def IsOverlong : Form → Prop
  | one _ _ => False
  | f@(two _ _ _ _) => 0x01 ≤ f.value ∧ f.value ≤ 0x7F
  | f@(three _ _ _ _ _) => f.value < 0x800

end Form

theorem lt_iff_le {b last past : UInt8} (h : past.toNat = last.toNat + 1) : b < past ↔ b ≤ last := by
  rw [UInt8.lt_iff_toNat_lt, UInt8.le_iff_toNat_le, h, Nat.lt_succ_iff]

theorem continued?_eq_some_iff {b : UInt8} {bits : Nat} :
    continued? b = some bits ↔ Continues b ∧ b.toNat - 0x80 = bits := by
  have hlast : b < 0xC0 ↔ b ≤ 0xBF := lt_iff_le (by decide)
  simp [continued?, Continues, hlast, and_assoc]

theorem add_payload_toUInt8 {first : Nat} {b : UInt8} (h : first ≤ b.toNat) :
    (first + payload first b).toUInt8 = b := by
  rw [add_payload h]
  exact UInt8.ofNat_toNat

theorem continuation_payload {b : UInt8} (h : Continues b) {n : Nat} (hn : n % 0x40 = payload 0x80 b) :
    continuation n = b := by
  rw [continuation, hn]
  exact add_payload_toUInt8 h.1

section Reading

variable (acc : List UInt16) (rest : List UInt8)

theorem unitsOnto_bytes (f : Form) : unitsOnto acc (f.bytes ++ rest) = unitsOnto (f.unit :: acc) rest := by
  cases f with
  | one byte alone =>
    have hrange : 0x01 ≤ byte.toNat ∧ byte.toNat ≤ 0x7F := alone
    have hbyte : byte.toNat.toUInt8 = byte := UInt8.ofNat_toNat
    have hread := unitsOnto_one acc rest ⟨hrange.1, Nat.lt_succ_of_le hrange.2⟩
    rw [hbyte] at hread
    exact hread
  | two lead low leads continues =>
    have hleadmax : payload 0xC0 lead ≤ 0xDF - 0xC0 := payload_le leads.2
    have hlow : payload 0x80 low % 0x40 = payload 0x80 low := Nat.mod_eq_of_lt continues.payload_lt
    have hlead : (0xC0 + payload 0xC0 lead).toUInt8 = lead := add_payload_toUInt8 leads.1
    have hread := unitsOnto_two acc rest (Nat.lt_succ_of_le hleadmax) (payload 0x80 low)
    rw [hlead, continuation_payload continues hlow, hlow] at hread
    exact hread
  | three lead mid low leads continues =>
    have hleadmax : payload 0xE0 lead ≤ 0xEF - 0xE0 := payload_le leads.2
    have hmid : payload 0x80 mid % 0x40 = payload 0x80 mid := Nat.mod_eq_of_lt continues.1.payload_lt
    have hlow : payload 0x80 low % 0x40 = payload 0x80 low := Nat.mod_eq_of_lt continues.2.payload_lt
    have hlead : (0xE0 + payload 0xE0 lead).toUInt8 = lead := add_payload_toUInt8 leads.1
    have hread := unitsOnto_three acc rest (Nat.lt_succ_of_le hleadmax) (payload 0x80 mid) (payload 0x80 low)
    rw [hlead, continuation_payload continues.1 hmid, continuation_payload continues.2 hlow,
      hmid, hlow] at hread
    exact hread

theorem unitsOnto_written (fs : List Form) :
    unitsOnto acc (fs.flatMap Form.bytes) = some (acc.reverse ++ fs.map Form.unit) := by
  induction fs generalizing acc with
  | nil => simp [unitsOnto]
  | cons f fs ih => simp [unitsOnto_bytes, ih]

end Reading

theorem exists_forms_cons {acc us : List UInt16} {rest : List UInt8} (f : Form)
    (h : ∃ fs : List Form, fs.flatMap Form.bytes = rest ∧ us = (f.unit :: acc).reverse ++ fs.map Form.unit) :
    ∃ fs : List Form, fs.flatMap Form.bytes = f.bytes ++ rest ∧ us = acc.reverse ++ fs.map Form.unit := by
  obtain ⟨fs, rfl, rfl⟩ := h
  exact ⟨f :: fs, rfl, by simp⟩

theorem forms_of_unitsOnto {acc us : List UInt16} {bytes : List UInt8} (h : unitsOnto acc bytes = some us) :
    ∃ fs : List Form, fs.flatMap Form.bytes = bytes ∧ us = acc.reverse ++ fs.map Form.unit := by
  fun_induction unitsOnto acc bytes with
  | case1 acc => exact ⟨[], rfl, by simpa using h.symm⟩
  | case2 acc b rest hone ih =>
    simp only [Bool.and_eq_true, decide_eq_true_eq] at hone
    have halone : 0x01 ≤ b ∧ b ≤ 0x7F := ⟨hone.1, (lt_iff_le (by decide)).mp hone.2⟩
    rw [← Form.unit_one b halone] at ih h
    exact exists_forms_cons (.one b halone) (ih h)
  | case3 acc b hone htwo c rest ih =>
    obtain ⟨low, hlow, hrest⟩ := Option.bind_eq_some_iff.mp h
    obtain ⟨hc, rfl⟩ := continued?_eq_some_iff.mp hlow
    simp only [Bool.and_eq_true, decide_eq_true_eq] at htwo
    have hleads : 0xC0 ≤ b ∧ b ≤ 0xDF := ⟨htwo.1, (lt_iff_le (by decide)).mp htwo.2⟩
    exact exists_forms_cons (.two b c hleads hc) (ih _ hrest)
  | case4 acc b hone htwo => cases h
  | case5 acc b hone htwo hthree c d rest ih =>
    obtain ⟨mid, hmid, hmore⟩ := Option.bind_eq_some_iff.mp h
    obtain ⟨low, hlow, hrest⟩ := Option.bind_eq_some_iff.mp hmore
    obtain ⟨hc, rfl⟩ := continued?_eq_some_iff.mp hmid
    obtain ⟨hd, rfl⟩ := continued?_eq_some_iff.mp hlow
    simp only [Bool.and_eq_true, decide_eq_true_eq] at hthree
    have hleads : 0xE0 ≤ b ∧ b ≤ 0xEF := ⟨hthree.1, (lt_iff_le (by decide)).mp hthree.2⟩
    exact exists_forms_cons (.three b c d hleads ⟨hc, hd⟩) (ih _ _ hrest)
  | case6 acc b rest hone htwo hthree hnot => cases h
  | case7 acc b rest hone htwo hthree => cases h

/-- Bytes are read as units when they are forms of these. -/
theorem units?_eq_some_iff {bytes : List UInt8} {us : List UInt16} :
    units? bytes = some us ↔ ∃ fs : List Form, fs.flatMap Form.bytes = bytes ∧ fs.map Form.unit = us := by
  constructor
  · intro h
    obtain ⟨fs, hfs, rfl⟩ := forms_of_unitsOnto h
    exact ⟨fs, hfs, rfl⟩
  · rintro ⟨fs, rfl, rfl⟩
    exact unitsOnto_written [] fs

section Unique

theorem Form.length_bytes (f : Form) :
    f.bytes.length = if f.lead < 0x80 then 1 else if f.lead < 0xE0 then 2 else 3 := by
  cases f with
  | one byte alone => rw [lead, if_pos ((lt_iff_le (by decide)).mpr alone.2), bytes, List.length_singleton]
  | two lead low leads _ =>
    have hone : ¬ lead < 0x80 := UInt8.not_lt.mpr (UInt8.le_trans (by decide) leads.1)
    rw [Form.lead, if_neg hone, if_pos ((lt_iff_le (by decide)).mpr leads.2)]
    rfl
  | three lead mid low leads _ =>
    have hone : ¬ lead < 0x80 := UInt8.not_lt.mpr (UInt8.le_trans (by decide) leads.1)
    rw [Form.lead, if_neg hone, if_neg (UInt8.not_lt.mpr leads.1)]
    rfl

theorem Form.bytes_inj {f g : Form} (h : f.bytes = g.bytes) : f = g := by
  cases f <;> cases g <;> simp_all [bytes]

/-- No form is the beginning of another one. -/
theorem Form.eq_of_bytes_append {f g : Form} {xs ys : List UInt8} (h : f.bytes ++ xs = g.bytes ++ ys) :
    f = g ∧ xs = ys := by
  have hlead : f.lead = g.lead := by
    have hhead := congrArg List.head? h
    cases f <;> cases g <;> exact Option.some.inj hhead
  have hlength : f.bytes.length = g.bytes.length := by rw [f.length_bytes, g.length_bytes, hlead]
  obtain ⟨hbytes, hrest⟩ := List.append_inj h hlength
  exact ⟨bytes_inj hbytes, hrest⟩

theorem Form.flatMap_bytes_inj {fs gs : List Form} (h : fs.flatMap bytes = gs.flatMap bytes) : fs = gs := by
  induction fs generalizing gs with
  | nil =>
    cases gs with
    | nil => rfl
    | cons g gs => cases g <;> cases h
  | cons f fs ih =>
    cases gs with
    | nil => cases f <;> cases h
    | cons g gs =>
      obtain ⟨rfl, hrest⟩ := eq_of_bytes_append h
      rw [ih hrest]

end Unique

section Overlong

/-- A unit is written in the one of its forms that is not too long. -/
theorem Form.ofUnit_unit {f : Form} (h : ¬ f.IsOverlong) : ofUnit f.unit = f.bytes := by
  have hbyte (b : UInt8) : b.toNat.toUInt8 = b := UInt8.ofNat_toNat
  rw [ofUnit, f.toNat_unit]
  cases f with
  | one byte alone =>
    have hfrom : 0x01 ≤ byte.toNat := alone.1
    have hto : byte.toNat ≤ 0x7F := alone.2
    rw [value, if_pos ⟨hfrom, Nat.lt_succ_of_le hto⟩, hbyte, bytes]
  | two lead low leads continues =>
    have hlead : 0xC0 + payload 0xC0 lead = lead.toNat := add_payload leads.1
    have hleadmax : payload 0xC0 lead ≤ 0xDF - 0xC0 := payload_le leads.2
    have hlowmax := continues.payload_lt
    have hone : ¬ (0 < (two lead low leads continues).value ∧ (two lead low leads continues).value < 0x80) :=
      fun hv => h ⟨hv.1, Nat.le_of_lt_succ hv.2⟩
    rw [if_neg hone, value, if_pos (by omega), continuation_payload continues (by omega)]
    have hfirst : 0xC0 + (payload 0xC0 lead * 0x40 + payload 0x80 low) / 0x40 = lead.toNat := by omega
    rw [hfirst, hbyte, bytes]
  | three lead mid low leads continues =>
    have hlead : 0xE0 + payload 0xE0 lead = lead.toNat := add_payload leads.1
    have hleadmax : payload 0xE0 lead ≤ 0xEF - 0xE0 := payload_le leads.2
    have hmidmax := continues.1.payload_lt
    have hlowmax := continues.2.payload_lt
    have htwo : 0x800 ≤ (three lead mid low leads continues).value := Nat.le_of_not_lt h
    rw [value] at htwo ⊢
    rw [if_neg (by omega), if_neg (Nat.not_lt.mpr htwo), continuation_payload continues.1 (by omega),
      continuation_payload continues.2 (by omega)]
    have hfirst : 0xE0 + (payload 0xE0 lead * 0x1000 + payload 0x80 mid * 0x40 + payload 0x80 low) / 0x1000 =
        lead.toNat := by omega
    rw [hfirst, hbyte, bytes]

theorem Form.length_ofUnit_lt {f : Form} (h : f.IsOverlong) : (ofUnit f.unit).length < f.bytes.length := by
  rw [ofUnit, f.toNat_unit]
  cases f with
  | one byte alone => cases h
  | two lead low leads continues =>
    rw [if_pos ⟨h.1, Nat.lt_succ_of_le h.2⟩]
    exact Nat.lt_succ_self 1
  | three lead mid low leads continues =>
    have htwo : (three lead mid low leads continues).value < 0x800 := h
    rw [if_pos htwo]
    split
    · exact Nat.lt_of_succ_lt (Nat.lt_succ_self 2)
    · exact Nat.lt_succ_self 2

section Lists

variable {fs : List Form}

theorem flatMap_ofUnit_of_not_isOverlong (h : ∀ f ∈ fs, ¬ f.IsOverlong) :
    (fs.map Form.unit).flatMap ofUnit = fs.flatMap Form.bytes := by
  rw [List.flatMap_map]
  exact List.flatMap_congr fun f hf => Form.ofUnit_unit (h f hf)

theorem length_flatMap_ofUnit_lt (h : ∃ f ∈ fs, f.IsOverlong) :
    ((fs.map Form.unit).flatMap ofUnit).length < (fs.flatMap Form.bytes).length := by
  rw [List.flatMap_map, List.length_flatMap, List.length_flatMap]
  refine List.sum_lt_sum _ _ (fun f _ => ?_) ?_
  · by_cases hlong : f.IsOverlong
    · exact Nat.le_of_lt (Form.length_ofUnit_lt hlong)
    · exact Nat.le_of_eq (congrArg List.length (Form.ofUnit_unit hlong))
  · obtain ⟨f, hf, hlong⟩ := h
    exact ⟨f, hf, Form.length_ofUnit_lt hlong⟩

end Lists

end Overlong

/-- Bytes are read as units when they are a sequence of forms, which is then the only one, and the units are
those of the forms. They are read as a text when moreover each surrogate among the units is part of a pair.
The text is written as the same bytes if none of the forms is too long, and as fewer bytes if one is. -/
theorem forms_accepted (bytes : List UInt8) :
    (∀ us, units? bytes = some us ↔ ∃ fs : List Form, fs.flatMap Form.bytes = bytes ∧ fs.map Form.unit = us) ∧
    (∀ fs gs : List Form, fs.flatMap Form.bytes = bytes → gs.flatMap Form.bytes = bytes → fs = gs) ∧
    ((string? bytes).isSome ↔
      ∃ fs : List Form, fs.flatMap Form.bytes = bytes ∧ Utf16.Paired (fs.map Form.unit)) ∧
    ∀ (s : String) (fs : List Form), string? bytes = some s → fs.flatMap Form.bytes = bytes →
      (ofString s = bytes ↔ ∀ f ∈ fs, ¬ f.IsOverlong) ∧
      ((∃ f ∈ fs, f.IsOverlong) → (ofString s).length < bytes.length) := by
  refine ⟨fun us => units?_eq_some_iff, fun fs gs hfs hgs => Form.flatMap_bytes_inj (hfs.trans hgs.symm), ?_,
    fun s fs hs hfs => ?_⟩
  · rw [isSome_string?_iff]
    constructor
    · rintro ⟨us, hus, hpaired⟩
      obtain ⟨fs, hfs, rfl⟩ := units?_eq_some_iff.mp hus
      exact ⟨fs, hfs, hpaired⟩
    · rintro ⟨fs, hfs, hpaired⟩
      exact ⟨_, units?_eq_some_iff.mpr ⟨fs, hfs, rfl⟩, hpaired⟩
  · have hunits : fs.map Form.unit = Utf16.encode s.toList := by
      have hread := units?_eq_some_iff.mpr ⟨fs, hfs, rfl⟩
      exact Option.some.inj (hread.symm.trans (string?_eq_some_iff.mp hs))
    have hwritten : ofString s = (fs.map Form.unit).flatMap ofUnit := by rw [hunits, ofString, encode]
    have hshorter (h : ∃ f ∈ fs, f.IsOverlong) : (ofString s).length < bytes.length := by
      rw [hwritten, ← hfs]
      exact length_flatMap_ofUnit_lt h
    refine ⟨⟨fun heq f hf hlong => ?_, fun h => ?_⟩, hshorter⟩
    · exact Nat.ne_of_lt (hshorter ⟨f, hf, hlong⟩) (congrArg List.length heq)
    · rw [hwritten, flatMap_ofUnit_of_not_isOverlong h, hfs]

/-- A letter in a form that is too long, then a pair of surrogates: this is a text, and it is written in a byte
less. Half of the pair is units, but no text. -/
theorem forms_accepted_of_overlong_letter_and_pair :
    let bytes : List UInt8 := [0xC1, 0x81, 0xED, 0xA0, 0x80, 0xED, 0xB0, 0x80]
    let s := String.ofList ['A', Char.ofNat 0x10000]
    string? bytes = some s ∧ ofString s ≠ bytes ∧ (ofString s).length < bytes.length ∧
      units? [0xED, 0xA0, 0x80] = some [0xD800] ∧ string? [0xED, 0xA0, 0x80] = none := by
  intro bytes s
  have hstring : string? bytes = some s := by decide
  let long : Form := .two 0xC1 0x81 (by decide) (by decide)
  let high : Form := .three 0xED 0xA0 0x80 (by decide) (by decide)
  let low : Form := .three 0xED 0xB0 0x80 (by decide) (by decide)
  have hlong : long.IsOverlong := ⟨by decide, by decide⟩
  have hhigh : ¬ Utf16.Paired [0xD800] := Utf16.not_paired_of_high (by decide) (by simp)
  obtain ⟨-, -, -, hwritten⟩ := forms_accepted bytes
  obtain ⟨hsame, hshorter⟩ := hwritten s [long, high, low] hstring rfl
  obtain ⟨hunits, hunique, htext, -⟩ := forms_accepted [0xED, 0xA0, 0x80]
  refine ⟨hstring, fun heq => hsame.mp heq long (by simp) hlong, hshorter ⟨long, by simp, hlong⟩,
    (hunits _).mpr ⟨[high], rfl, by decide⟩, ?_⟩
  rw [← Option.not_isSome_iff_eq_none, htext]
  rintro ⟨fs, hfs, hpaired⟩
  obtain rfl := hunique fs [high] hfs rfl
  exact hhigh hpaired

end ClassCode.ModifiedUtf8
