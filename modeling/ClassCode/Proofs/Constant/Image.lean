import ClassCode.Constant.Wire
import ClassCode.Proofs.Bytes.Lawful

/-! The bytes of a constant. A constant has an image, which is what is written unless it is a text that is
too long; it is read where its image is, and nothing else is, but for texts that are not well-formed. -/
namespace ClassCode

namespace Constant

open Reader LawfulWire

def fieldsImage : Constant → List UInt8
  | utf8 bytes => LawfulWire.image bytes.length.toUInt16 ++ bytes
  | integer v => LawfulWire.image v
  | float b => LawfulWire.image b
  | long v => LawfulWire.image v
  | double b => LawfulWire.image b
  | classInfo i | string i | methodType i | moduleInfo i | packageInfo i => LawfulWire.image i
  | fieldRef a b | methodRef a b | interfaceMethodRef a b | nameAndType a b =>
    LawfulWire.image a ++ LawfulWire.image b
  | methodHandle k i => LawfulWire.image k.byte ++ LawfulWire.image i
  | dynamic n i | invokeDynamic n i => LawfulWire.image n ++ LawfulWire.image i

def image (c : Constant) : List UInt8 := LawfulWire.image c.tag.byte ++ c.fieldsImage

def isShort : Constant → Bool
  | utf8 bytes => bytes.length ≤ maxTextLength
  | _ => true

theorem exists_long_of_not_isShort {c : Constant} (h : ¬ c.isShort) :
    ∃ bytes, c = .utf8 bytes ∧ maxTextLength < bytes.length := by
  cases c with
  | utf8 bytes => exact ⟨bytes, rfl, Nat.not_le.mp fun hle => h (decide_eq_true hle)⟩
  | _ => exact absurd rfl h

def isFormed : Constant → Bool
  | utf8 bytes => ModifiedUtf8.isWellFormed bytes
  | _ => true

/-- What can be read: a text has to be well-formed, and its length has to fit. -/
def Legible (c : Constant) : Prop := c.isShort ∧ c.isFormed

instance (c : Constant) : Decidable c.Legible := inferInstanceAs (Decidable (c.isShort ∧ c.isFormed))

section Shifted

variable (f : PoolIndex → PoolIndex) (c : Constant)

@[simp] theorem isShort_mapReferences : (c.mapReferences f).isShort = c.isShort := by
  cases c <;> rfl

@[simp] theorem isFormed_mapReferences : (c.mapReferences f).isFormed = c.isFormed := by
  cases c <;> rfl

end Shifted

section Writing

theorem writeText_eq_put {bytes : List UInt8} (h : bytes.length ≤ maxTextLength) :
    writeText bytes = Writer.put (LawfulWire.image bytes.length.toUInt16 ++ bytes) := by
  rw [writeText, if_neg (Nat.not_lt.mpr h), Writer.put_append, ← write_eq_put]

theorem write_pair_eq_put {α β : Type} [Wire α] [LawfulWire α] [Wire β] [LawfulWire β] (x : α) (y : β) :
    (do Wire.write x; Wire.write y) = Writer.put (LawfulWire.image x ++ LawfulWire.image y) := by
  rw [Writer.put_append, ← write_eq_put, ← write_eq_put]

theorem writeFields_eq_put {c : Constant} (h : c.isShort) : c.writeFields = Writer.put c.fieldsImage := by
  cases c with
  | utf8 bytes => exact writeText_eq_put (of_decide_eq_true h)
  | integer v => exact write_eq_put v
  | float b => exact write_eq_put b
  | long v => exact write_eq_put v
  | double b => exact write_eq_put b
  | classInfo i => exact write_eq_put i
  | string i => exact write_eq_put i
  | methodType i => exact write_eq_put i
  | moduleInfo i => exact write_eq_put i
  | packageInfo i => exact write_eq_put i
  | fieldRef a b => exact write_pair_eq_put a b
  | methodRef a b => exact write_pair_eq_put a b
  | interfaceMethodRef a b => exact write_pair_eq_put a b
  | nameAndType a b => exact write_pair_eq_put a b
  | methodHandle k i => exact write_pair_eq_put k.byte i
  | dynamic n i => exact write_pair_eq_put n i
  | invokeDynamic n i => exact write_pair_eq_put n i

theorem write_eq_put {c : Constant} (h : c.isShort) : c.write = Writer.put c.image := by
  rw [image, Writer.put_append, ← LawfulWire.write_eq_put, ← writeFields_eq_put h]
  rfl

end Writing

section Reading

variable {bytes rest : List UInt8} {i : PoolIndex}

theorem readText_eq_ok_iff {text : List UInt8} :
    readText i bytes = .ok (text, rest) ↔ (utf8 text).Legible ∧ bytes = (utf8 text).fieldsImage ++ rest := by
  simp only [readText, bind_eq_ok_iff, read_eq_ok_iff, take_eq_ok_iff, fieldsImage, Legible, isShort,
    isFormed, decide_eq_true_eq]
  constructor
  · rintro ⟨n, _, rfl, text', _, ⟨hlen, rfl⟩, hend⟩
    split at hend
    · rename_i hformed
      obtain ⟨rfl, rfl⟩ := pure_eq_ok_iff.mp hend
      have hn : text'.length.toUInt16 = n := by
        rw [hlen]
        exact UInt16.ofNat_toNat
      exact ⟨⟨hlen ▸ Nat.le_of_lt_succ n.toNat_lt, hformed⟩, by rw [hn, List.append_assoc]⟩
    · exact absurd hend (by simp [malformed_eq_ok_iff])
  · rintro ⟨⟨hlen, hformed⟩, rfl⟩
    refine ⟨text.length.toUInt16, _, List.append_assoc .., text, rest, ⟨?_, rfl⟩, ?_⟩
    · exact (UInt16.toNat_ofNat_of_lt' (Nat.lt_succ_of_le hlen)).symm
    · rw [if_pos hformed]
      exact pure_eq_ok_iff.mpr ⟨rfl, rfl⟩

theorem readKind_eq_ok_iff {k : HandleKind} :
    HandleKind.read i bytes = .ok (k, rest) ↔ bytes = LawfulWire.image k.byte ++ rest := by
  simp only [HandleKind.read, bind_eq_ok_iff, read_eq_ok_iff]
  constructor
  · rintro ⟨b, _, rfl, h⟩
    cases hk : HandleKind.ofByte? b with
    | none =>
      rw [hk] at h
      exact absurd h (by simp [malformed_eq_ok_iff])
    | some l =>
      rw [hk] at h
      obtain ⟨rfl, rfl⟩ := pure_eq_ok_iff.mp h
      rw [HandleKind.byte_of_ofByte? hk]
  · rintro rfl
    refine ⟨k.byte, rest, rfl, ?_⟩
    rw [HandleKind.ofByte?_byte]
    exact pure_eq_ok_iff.mpr ⟨rfl, rfl⟩

theorem readFields_eq_ok_iff {t : Tag} {c : Constant} :
    readFields i t bytes = .ok (c, rest) ↔ c.tag = t ∧ c.Legible ∧ bytes = c.fieldsImage ++ rest := by
  constructor
  · intro h
    cases t <;>
      simp only [readFields, bind_eq_ok_iff, read_eq_ok_iff, readText_eq_ok_iff, readKind_eq_ok_iff,
        pure_eq_ok_iff] at h
    case utf8 =>
      obtain ⟨text, _, ⟨hlegible, rfl⟩, rfl, rfl⟩ := h
      exact ⟨rfl, hlegible, rfl⟩
    case fieldRef | methodRef | interfaceMethodRef | nameAndType | methodHandle | dynamic | invokeDynamic =>
      obtain ⟨a, _, rfl, b, _, rfl, rfl, rfl⟩ := h
      exact ⟨rfl, ⟨rfl, rfl⟩, (List.append_assoc ..).symm⟩
    all_goals
      obtain ⟨v, _, rfl, rfl, rfl⟩ := h
      exact ⟨rfl, ⟨rfl, rfl⟩, rfl⟩
  · rintro ⟨rfl, hlegible, rfl⟩
    cases c <;>
      simp only [readFields, tag, fieldsImage, bind_eq_ok_iff, read_eq_ok_iff, readText_eq_ok_iff,
        readKind_eq_ok_iff, pure_eq_ok_iff, List.append_assoc]
    case utf8 text => exact ⟨text, rest, ⟨hlegible, by simp⟩, rfl, rfl⟩
    case fieldRef | methodRef | interfaceMethodRef | nameAndType | methodHandle | dynamic | invokeDynamic =>
      exact ⟨_, _, rfl, _, _, rfl, rfl, rfl⟩
    all_goals exact ⟨_, _, rfl, rfl, rfl⟩

theorem recognizes_read (i : PoolIndex) : (read i).Recognizes Legible image := by
  intro bytes c rest
  simp only [read, bind_eq_ok_iff, read_eq_ok_iff, image]
  constructor
  · rintro ⟨b, _, rfl, h⟩
    cases ht : Tag.ofByte? b with
    | none =>
      rw [ht] at h
      exact absurd h (by simp [malformed_eq_ok_iff])
    | some t =>
      rw [ht] at h
      obtain ⟨rfl, hlegible, rfl⟩ := readFields_eq_ok_iff.mp h
      rw [Tag.byte_of_ofByte? ht, List.append_assoc]
      exact ⟨hlegible, rfl⟩
  · rintro ⟨hlegible, rfl⟩
    refine ⟨c.tag.byte, _, List.append_assoc .., ?_⟩
    rw [Tag.ofByte?_byte]
    exact readFields_eq_ok_iff.mpr ⟨rfl, hlegible, rfl⟩

theorem read_of_not_isFormed {c : Constant} (hshort : c.isShort) (hformed : c.isFormed = false) :
    read i (c.image ++ rest) = .error (.malformed (.text i)) := by
  cases c with
  | utf8 text =>
    have hlen : text.length.toUInt16.toNat = text.length :=
      UInt16.toNat_ofNat_of_lt' (Nat.lt_succ_of_le (of_decide_eq_true hshort))
    have htake : take text.length.toUInt16.toNat (text ++ rest) = .ok (text, rest) :=
      take_eq_ok_iff.mpr ⟨hlen.symm, rfl⟩
    have hbad : ¬ ModifiedUtf8.isWellFormed text := ne_true_of_eq_false hformed
    have htext : readText i ((utf8 text).fieldsImage ++ rest) = .error (.malformed (.text i)) := by
      rw [readText, fieldsImage, List.append_assoc, bind_of_ok (read_eq_ok_iff.mpr rfl), bind_of_ok htake,
        if_neg hbad]
      rfl
    rw [read, image, List.append_assoc, bind_of_ok (read_eq_ok_iff.mpr rfl), Tag.ofByte?_byte]
    exact bind_of_error htext _
  | _ => exact absurd hformed (by simp [isFormed])

end Reading

end Constant

end ClassCode
