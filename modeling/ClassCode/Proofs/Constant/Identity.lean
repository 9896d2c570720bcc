import ClassCode.Constant.Basic
import ClassCode.Proofs.Constant.Image

/-! What makes a constant the one it is. Its kind and its fields do, and nothing of them is lost when they are put
into a key of a fixed shape or written as bytes. -/
namespace ClassCode.Constant

/-- A key of a fixed shape, with zeros for numbers and no bytes for a text that a constant does not have. -/
structure Packed where
  tag : Tag
  first : UInt64 := 0
  second : UInt64 := 0
  text : List UInt8 := []
deriving DecidableEq

def packed : Constant → Packed
  | utf8 bytes => { tag := .utf8, text := bytes }
  | integer v => { tag := .integer, first := v.toUInt32.toUInt64 }
  | float b => { tag := .float, first := b.toUInt64 }
  | long v => { tag := .long, first := v.toUInt64 }
  | double b => { tag := .double, first := b }
  | methodHandle k i => { tag := .methodHandle, first := k.byte.toUInt64, second := i.slot.toUInt64 }
  | dynamic n i => { tag := .dynamic, first := n.toUInt64, second := i.slot.toUInt64 }
  | invokeDynamic n i => { tag := .invokeDynamic, first := n.toUInt64, second := i.slot.toUInt64 }
  | c =>
    let number (k : Nat) : UInt64 := (c.references[k]?.map fun i => i.slot.toUInt64).getD 0
    { tag := c.tag, first := number 0, second := number 1 }

variable {a b : Constant}

theorem slot_toUInt64_inj {i j : PoolIndex} (h : i.slot.toUInt64 = j.slot.toUInt64) : i = j :=
  PoolIndex.slot_toNat_inj (congrArg UInt16.toNat (UInt16.toUInt64_inj.mp h))

theorem byte_toUInt64_inj {k l : HandleKind} (h : k.byte.toUInt64 = l.byte.toUInt64) : k = l :=
  HandleKind.byte_toNat_inj (congrArg UInt8.toNat (UInt8.toUInt64_inj.mp h))

@[simp] theorem tag_packed (c : Constant) : c.packed.tag = c.tag := by
  cases c <;> rfl

theorem packed_inj (h : a.packed = b.packed) : a = b := by
  have ht : a.tag = b.tag := by rw [← tag_packed, h, tag_packed]
  cases a <;> cases b <;> simp only [tag, reduceCtorEq] at ht <;>
    injection h with _ hfirst hsecond htext
  case utf8 => rw [htext]
  case integer => rw [int32_toNat_inj (congrArg UInt32.toNat (UInt32.toUInt64_inj.mp hfirst))]
  case float => rw [UInt32.toUInt64_inj.mp hfirst]
  case long => rw [int64_toNat_inj (congrArg UInt64.toNat hfirst)]
  case double => rw [hfirst]
  case fieldRef | methodRef | interfaceMethodRef | nameAndType =>
    rw [slot_toUInt64_inj hfirst, slot_toUInt64_inj hsecond]
  case methodHandle => rw [byte_toUInt64_inj hfirst, slot_toUInt64_inj hsecond]
  case dynamic | invokeDynamic => rw [UInt16.toUInt64_inj.mp hfirst, slot_toUInt64_inj hsecond]
  all_goals rw [slot_toUInt64_inj hfirst]

theorem fieldsImage_inj (ht : a.tag = b.tag) (h : a.fieldsImage = b.fieldsImage) : a = b := by
  cases a <;> cases b <;> simp only [tag, reduceCtorEq] at ht <;> simp only [fieldsImage] at h
  case utf8 => rw [(LawfulWire.image_append_inj h).2]
  case fieldRef | methodRef | interfaceMethodRef | nameAndType | dynamic | invokeDynamic =>
    obtain ⟨rfl, hback⟩ := LawfulWire.image_append_inj h
    rw [LawfulWire.image_inj hback]
  case methodHandle =>
    obtain ⟨hkind, hback⟩ := LawfulWire.image_append_inj h
    rw [HandleKind.byte_toNat_inj (congrArg UInt8.toNat hkind), LawfulWire.image_inj hback]
  all_goals rw [LawfulWire.image_inj h]

theorem image_inj (h : a.image = b.image) : a = b := by
  obtain ⟨htag, hfields⟩ := LawfulWire.image_append_inj h
  exact fieldsImage_inj (Tag.byte_toNat_inj (congrArg UInt8.toNat htag)) hfields

end ClassCode.Constant
