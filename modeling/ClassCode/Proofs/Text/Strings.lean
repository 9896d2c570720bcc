import ClassCode.Proofs.Constant.Image
import ClassCode.Proofs.Text.Pairs
import ClassCode.Proofs.Text.Units

/-! Strings as bytes. A string is read back from its bytes, whatever characters are in it: the zero character,
which takes two bytes, and characters outside the basic plane, which take two forms of three bytes that
only together are a character. -/
namespace ClassCode.ModifiedUtf8

open BigEndian

theorem string?_eq_some_iff {bytes : List UInt8} {s : String} :
    string? bytes = some s ↔ units? bytes = some (Utf16.encode s.toList) := by
  have hlist (cs : List Char) : String.ofList cs = s ↔ cs = s.toList := by
    constructor
    · rintro rfl
      exact String.toList_ofList.symm
    · rintro rfl
      exact String.ofList_toList
  rw [string?, decode?, Option.map_eq_some_iff]
  simp only [hlist, exists_eq_right, Option.bind_eq_bind, Option.bind_eq_some_iff, Utf16.decode?_eq_some_iff]
  constructor
  · rintro ⟨us, hus, rfl⟩
    exact hus
  · intro hus
    exact ⟨_, hus, rfl⟩

theorem string?_ofString (s : String) : string? (ofString s) = some s :=
  string?_eq_some_iff.mpr (units?_ofString s)

theorem isSome_string?_iff {bytes : List UInt8} :
    (string? bytes).isSome ↔ ∃ us, units? bytes = some us ∧ Utf16.Paired us := by
  rw [string?, decode?, Option.isSome_map]
  cases units? bytes with
  | none => simp
  | some us => simp [Utf16.isSome_decode?_iff]

theorem toNat_continuation (bits : Nat) : (continuation bits).toNat = 0x80 + bits % 0x40 :=
  UInt8.toNat_ofNat_of_lt' (by change 0x80 + bits % 0x40 < 256; omega)

theorem bounds_of_mem_ofUnit {u : UInt16} {b : UInt8} (hb : b ∈ ofUnit u) : 0 < b.toNat ∧ b.toNat < 0xF0 := by
  have hmax : u.toNat < 0x10000 := u.toNat_lt
  have hbyte {n : Nat} (hn : n < 256) : n.toUInt8.toNat = n := UInt8.toNat_ofNat_of_lt' hn
  rw [ofUnit] at hb
  split at hb
  · rename_i hone
    obtain rfl := List.mem_singleton.mp hb
    rw [hbyte (by omega)]
    omega
  split at hb
  · simp only [List.mem_cons, List.not_mem_nil, or_false] at hb
    rcases hb with rfl | rfl
    · rw [hbyte (by omega)]
      omega
    · rw [toNat_continuation]
      omega
  · simp only [List.mem_cons, List.not_mem_nil, or_false] at hb
    rcases hb with rfl | rfl | rfl
    · rw [hbyte (by omega)]
      omega
    · rw [toNat_continuation]
      omega
    · rw [toNat_continuation]
      omega

theorem bounds_of_mem_ofString {s : String} {b : UInt8} (hb : b ∈ ofString s) :
    0 < b.toNat ∧ b.toNat < 0xF0 := by
  obtain ⟨u, -, hu⟩ := List.mem_flatMap.mp hb
  exact bounds_of_mem_ofUnit hu

theorem ofUnit_of_le {u : UInt16} (h : 0x800 ≤ u.toNat) :
    ofUnit u = [(0xE0 + u.toNat / 0x1000).toUInt8, continuation (u.toNat / 0x40), continuation u.toNat] := by
  rw [ofUnit, if_neg (by omega), if_neg (by omega)]

/-- A character outside the basic plane takes two forms of three bytes. Its bits above the last sixteen are in
the second byte, less one, for a surrogate counts from the first character outside the plane. -/
theorem encode_supplementary {c : Char} (h : 0x10000 ≤ c.toNat) :
    encode [c] =
      [0xED, (0xA0 + (c.toNat / 0x10000 - 1)).toUInt8, continuation (c.toNat / 0x400),
        0xED, (0xB0 + c.toNat / 0x40 % 0x10).toUInt8, continuation c.toNat] := by
  have hmax : c.toNat < 0x110000 := by
    have hvalid : c.toNat < 0xD800 ∨ 0xDFFF < c.toNat ∧ c.toNat < 0x110000 := c.valid
    omega
  have hunit {n : Nat} (hn : n < 0x10000) : n.toUInt16.toNat = n := UInt16.toNat_ofNat_of_lt' hn
  have hhigh := hunit (n := 0xD800 + (c.toNat - 0x10000) / 0x400) (by omega)
  have hlow := hunit (n := 0xDC00 + (c.toNat - 0x10000) % 0x400) (by omega)
  have hlead : 0xE0 + (0xD800 + (c.toNat - 0x10000) / 0x400) / 0x1000 = 0xED := by omega
  have htop : (0xD800 + (c.toNat - 0x10000) / 0x400) / 0x40 % 0x40 = 0x20 + (c.toNat / 0x10000 - 1) := by omega
  have hmid : (0xD800 + (c.toNat - 0x10000) / 0x400) % 0x40 = c.toNat / 0x400 % 0x40 := by omega
  have hlead' : 0xE0 + (0xDC00 + (c.toNat - 0x10000) % 0x400) / 0x1000 = 0xED := by omega
  have hmid' : (0xDC00 + (c.toNat - 0x10000) % 0x400) / 0x40 % 0x40 = 0x30 + c.toNat / 0x40 % 0x10 := by omega
  have hend : (0xDC00 + (c.toNat - 0x10000) % 0x400) % 0x40 = c.toNat % 0x40 := by omega
  have hunits : Utf16.ofChar c = [(0xD800 + (c.toNat - 0x10000) / 0x400).toUInt16,
      (0xDC00 + (c.toNat - 0x10000) % 0x400).toUInt16] := if_neg (Nat.not_lt.mpr h)
  rw [encode, Utf16.encode, List.flatMap_singleton, hunits, List.flatMap_cons, List.flatMap_singleton,
    ofUnit_of_le (by omega), ofUnit_of_le (by omega), hhigh, hlow]
  simp only [continuation, hlead, htop, hmid, hlead', hmid', hend, ← Nat.add_assoc]
  rfl

/-- A string is read back from its bytes, so different strings have different ones. None of the bytes is zero
or leads a form of more than three. They are well-formed, and a constant of them is read if its length fits
into its field. -/
theorem strings_read_back (s : String) :
    string? (ofString s) = some s ∧
    (∀ b ∈ ofString s, 0 < b.toNat ∧ b.toNat < 0xF0) ∧
    isWellFormed (ofString s) ∧
    (∀ (i : PoolIndex) (rest : List UInt8), (ofString s).length ≤ maxTextLength →
      Constant.read i (Tag.utf8.byte :: octets 2 (ofString s).length ++ ofString s ++ rest) =
        .ok (.utf8 (ofString s), rest)) ∧
    ∀ t, ofString t = ofString s → t = s := by
  have hformed := isWellFormed_ofString s
  refine ⟨string?_ofString s, fun b hb => bounds_of_mem_ofString hb, hformed, fun i rest hshort => ?_, fun t ht => ?_⟩
  · have hlegible : (Constant.utf8 (ofString s)).Legible := ⟨decide_eq_true hshort, hformed⟩
    have hlength : (ofString s).length.toUInt16.toNat = (ofString s).length :=
      UInt16.toNat_ofNat_of_lt' (Nat.lt_succ_of_le hshort)
    have himage : (Constant.utf8 (ofString s)).image =
        Tag.utf8.byte :: octets 2 (ofString s).length ++ ofString s := by
      have htag : LawfulWire.image Tag.utf8.byte = [Tag.utf8.byte] := by decide
      rw [Constant.image, Constant.tag, htag, ← hlength]
      rfl
    rw [← himage]
    exact (Constant.recognizes_read i _ _ _).mpr ⟨hlegible, rfl⟩
  · have hsame := string?_ofString t
    rw [ht, string?_ofString s] at hsame
    exact (Option.some.inj hsame).symm

/-- A zero character, and the first and the last character outside the basic plane. -/
theorem strings_read_back_of_zero_and_pairs :
    let s := String.ofList ['a', Char.ofNat 0, Char.ofNat 0x10000, Char.ofNat 0x10FFFF]
    let bytes : List UInt8 :=
      [0x61, 0xC0, 0x80, 0xED, 0xA0, 0x80, 0xED, 0xB0, 0x80, 0xED, 0xAF, 0xBF, 0xED, 0xBF, 0xBF]
    ofString s = bytes ∧ string? bytes = some s ∧
      Constant.read ⟨1⟩ ([1, 0, 15] ++ bytes ++ [0xFF]) = .ok (.utf8 bytes, [0xFF]) := by
  intro s bytes
  have hbytes : ofString s = bytes := by decide
  obtain ⟨hback, -, -, hread, -⟩ := strings_read_back s
  have hshort : (ofString s).length ≤ maxTextLength := by
    rw [hbytes]
    decide
  have hconstant := hread ⟨1⟩ [0xFF] hshort
  have hhead : Tag.utf8.byte :: octets 2 bytes.length = [1, 0, 15] := by decide
  rw [hbytes] at hback hconstant
  rw [hhead] at hconstant
  exact ⟨hbytes, hback, hconstant⟩

end ClassCode.ModifiedUtf8
