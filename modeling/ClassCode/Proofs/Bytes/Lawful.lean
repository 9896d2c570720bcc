import ClassCode.Bytes
import ClassCode.Proofs.Bytes.Reading
import ClassCode.Proofs.Bytes.Writing

/-! Wire forms without exceptions. Every value has an image of a fixed length, which is what is written and
what is read back. -/
namespace ClassCode

open BigEndian

/-- A type each of whose values is written as its image and read from it, and from nothing else. -/
class LawfulWire (α : Type) [Wire α] where
  image : α → List UInt8
  write_eq_put : ∀ x : α, Wire.write x = Writer.put (image x)
  recognizes : (Wire.read : Reader α).Recognizes (fun _ => True) image

export LawfulWire (image)

namespace LawfulWire

variable {α : Type} [Wire α] [LawfulWire α]

theorem read_eq_ok_iff {bytes rest : List UInt8} {x : α} :
    Wire.read bytes = .ok (x, rest) ↔ bytes = image x ++ rest := by
  rw [recognizes bytes x rest, true_and]

/-- The value in front of some bytes is known from them, and so is where it ends. -/
theorem image_append_inj {x y : α} {r s : List UInt8} (h : image x ++ r = image y ++ s) : x = y ∧ r = s := by
  have hx : Wire.read (image x ++ r) = .ok (x, r) := read_eq_ok_iff.mpr rfl
  have hy : Wire.read (image x ++ r) = .ok (y, s) := read_eq_ok_iff.mpr h
  exact Prod.mk.inj (Except.ok.inj (hx.symm.trans hy))

theorem image_inj {x y : α} (h : image x = image y) : x = y :=
  (image_append_inj (congrArg (· ++ []) h)).1

theorem emits_write (x : α) : (Wire.write x).Emits (pure ()) (image x) := by
  rw [write_eq_put]
  exact Writer.emits_put (image x)

theorem uniform_write (x : α) : Writer.Uniform (Wire.write x) := (emits_write x).uniform

/-- A value that is written once a check has granted it. -/
theorem emits_checked {c : Prop} [Decidable c] (x : α) (f : Fault) :
    (ofExcept (if c then pure x else throw f) >>= Wire.write : Writer Unit).Emits
      (discard (if c then pure x else throw f)) (image x) where
  uniform := Writer.uniform_bind (Writer.uniform_ofExcept _) uniform_write
  bytes_eq := by
    rw [Writer.bytes_ofExcept_bind]
    by_cases hc : c
    · simp only [hc, if_true]
      exact (emits_write x).bytes_eq
    · simp only [hc, if_false]
      rfl

end LawfulWire

namespace Reader

theorem recognizes_number {α : Type} (n : Nat) (ofNat : Nat → α) (toNat : α → Nat)
    (hlt : ∀ x, toNat x < bound n) (hof : ∀ x, ofNat (toNat x) = x)
    (hto : ∀ v, v < bound n → toNat (ofNat v) = v) :
    Recognizes (return ofNat (← number n)) (fun _ => True) fun x => octets n (toNat x) := by
  intro bytes x rest
  simp only [bind_eq_ok_iff, pure_eq_ok_iff, number_eq_ok_iff, true_and]
  constructor
  · rintro ⟨v, _, ⟨hv, rfl⟩, rfl, rfl⟩
    rw [hto v hv]
  · rintro rfl
    exact ⟨toNat x, rest, ⟨hlt x, rfl⟩, hof x, rfl⟩

theorem recognizes_map {α β : Type} {r : Reader α} {image : α → List UInt8}
    (h : r.Recognizes (fun _ => True) image) {f : α → β} {g : β → α} (hfg : ∀ y, f (g y) = y)
    (hgf : ∀ x, g (f x) = x) :
    Recognizes (return f (← r)) (fun _ => True) fun y => image (g y) := by
  intro bytes y rest
  simp only [bind_eq_ok_iff, pure_eq_ok_iff, h _ _ _, true_and]
  constructor
  · rintro ⟨x, _, rfl, rfl, rfl⟩
    rw [hgf]
  · rintro rfl
    exact ⟨g y, rest, rfl, hfg y, rfl⟩

end Reader

open Reader LawfulWire

instance : LawfulWire UInt8 where
  image v := octets 1 v.toNat
  write_eq_put _ := rfl
  recognizes := recognizes_number 1 Nat.toUInt8 UInt8.toNat (fun x => x.toNat_lt) (fun _ => UInt8.ofNat_toNat)
    fun _ hv => UInt8.toNat_ofNat_of_lt' hv

instance : LawfulWire UInt16 where
  image v := octets 2 v.toNat
  write_eq_put _ := rfl
  recognizes := recognizes_number 2 Nat.toUInt16 UInt16.toNat (fun x => x.toNat_lt)
    (fun _ => UInt16.ofNat_toNat) fun _ hv => UInt16.toNat_ofNat_of_lt' hv

instance : LawfulWire UInt32 where
  image v := octets 4 v.toNat
  write_eq_put _ := rfl
  recognizes := recognizes_number 4 Nat.toUInt32 UInt32.toNat (fun x => x.toNat_lt)
    (fun _ => UInt32.ofNat_toNat) fun _ hv => UInt32.toNat_ofNat_of_lt' hv

instance : LawfulWire UInt64 where
  image v := octets 8 v.toNat
  write_eq_put _ := rfl
  recognizes := recognizes_number 8 Nat.toUInt64 UInt64.toNat (fun x => x.toNat_lt)
    (fun _ => UInt64.ofNat_toNat) fun _ hv => UInt64.toNat_ofNat_of_lt' hv

instance : LawfulWire Int8 where
  image v := image v.toUInt8
  write_eq_put v := write_eq_put v.toUInt8
  recognizes := recognizes_map recognizes (fun _ => rfl) fun _ => rfl

instance : LawfulWire Int16 where
  image v := image v.toUInt16
  write_eq_put v := write_eq_put v.toUInt16
  recognizes := recognizes_map recognizes (fun _ => rfl) fun _ => rfl

instance : LawfulWire Int32 where
  image v := image v.toUInt32
  write_eq_put v := write_eq_put v.toUInt32
  recognizes := recognizes_map recognizes (fun _ => rfl) fun _ => rfl

instance : LawfulWire Int64 where
  image v := image v.toUInt64
  write_eq_put v := write_eq_put v.toUInt64
  recognizes := recognizes_map recognizes (fun _ => rfl) fun _ => rfl

instance : LawfulWire PoolIndex where
  image i := image i.slot
  write_eq_put i := write_eq_put i.slot
  recognizes := recognizes_map recognizes (fun _ => rfl) fun _ => rfl

section Length

@[simp] theorem length_image_uint16 (v : UInt16) : (image v).length = 2 := length_octets 2 v.toNat

@[simp] theorem length_image_int8 (v : Int8) : (image v).length = 1 := length_octets 1 _

@[simp] theorem length_image_int16 (v : Int16) : (image v).length = 2 := length_octets 2 _

@[simp] theorem length_image_int32 (v : Int32) : (image v).length = 4 := length_octets 4 _

@[simp] theorem length_image_poolIndex (i : PoolIndex) : (image i).length = 2 := length_octets 2 _

@[simp] theorem image_uint8 (v : UInt8) : image v = [v] := by
  simp [image, octets, bound]

end Length

section Counted

variable {α : Type} [Wire α] {fits : α → Prop} (elementImage : α → List UInt8)

def countedImage (xs : List α) : List UInt8 := image xs.length.toUInt16 ++ xs.flatMap elementImage

theorem write_counted (h : ∀ x : α, Wire.write x = Writer.put (elementImage x)) (xs : List α) :
    Wire.write xs = Writer.put (countedImage elementImage xs) := by
  have hall : forM xs Wire.write = Writer.put (xs.flatMap elementImage) := Writer.forM_put fun x _ => h x
  rw [countedImage, Writer.put_append, ← write_eq_put, ← hall]
  rfl

theorem recognizes_counted (h : (Wire.read : Reader α).Recognizes fits elementImage) :
    (Wire.read : Reader (List α)).Recognizes (fun xs => xs.length < 65536 ∧ ∀ x ∈ xs, fits x)
      (countedImage elementImage) := by
  intro bytes xs rest
  have hread : (Wire.read : Reader (List α)) =
      (Wire.read : Reader UInt16) >>= fun n => times Wire.read n.toNat := rfl
  rw [hread]
  simp only [bind_eq_ok_iff, read_eq_ok_iff, times_eq_ok_iff h, countedImage]
  constructor
  · rintro ⟨n, _, rfl, hlen, hfits, rfl⟩
    have hn : xs.length.toUInt16 = n := by
      rw [hlen]
      exact UInt16.ofNat_toNat
    exact ⟨⟨hlen ▸ n.toNat_lt, hfits⟩, by rw [hn, List.append_assoc]⟩
  · rintro ⟨⟨hlen, hfits⟩, rfl⟩
    exact ⟨xs.length.toUInt16, _, List.append_assoc .., (UInt16.toNat_ofNat_of_lt' hlen).symm, hfits, rfl⟩

end Counted

end ClassCode
