import ClassCode.Proofs.Body.Writing
import ClassCode.Proofs.Body.Run

/-! Counts. What is counted is written after a number of a fixed width. A number of bytes of code and the
keys of a table switch are refused where they do not fit; any other count is cut down to its width, and
then a reader takes it for another one. -/
namespace ClassCode

open LawfulWire Outcome Writer

/-- `field` is read as a number, whatever comes after it. As the count of something it says `n`, unless that
is more than `most`. -/
def Announces {α : Type} [Wire α] (toNat : α → Nat) (most : Nat) (field : List UInt8) (n : Nat) : Prop :=
  ∃ x : α, (∀ rest, Wire.read (field ++ rest) = .ok (x, rest)) ∧ (toNat x = n ↔ n ≤ most)

theorem announces_image {α : Type} [Wire α] [LawfulWire α] {toNat : α → Nat} {most n : Nat} {x : α}
    (hx : n ≤ most → toNat x = n) (hlt : toNat x ≤ most) : Announces toNat most (image x) n :=
  ⟨x, fun _ => read_eq_ok_iff.mpr rfl, fun h => h ▸ hlt, hx⟩

theorem announces_uint16 (n : Nat) : Announces UInt16.toNat 65535 (image n.toUInt16) n :=
  announces_image (fun h => UInt16.toNat_ofNat_of_lt' (Nat.lt_succ_of_le h))
    (Nat.le_of_lt_succ n.toUInt16.toNat_lt)

theorem announces_uint32 (n : Nat) : Announces UInt32.toNat 4294967295 (image n.toUInt32) n :=
  announces_image (fun h => UInt32.toNat_ofNat_of_lt' (Nat.lt_succ_of_le h))
    (Nat.le_of_lt_succ n.toUInt32.toNat_lt)

theorem announces_int32 (n : Nat) :
    Announces (fun x : Int32 => x.toInt.toNat) 2147483647 (image (Int32.ofNat n)) n := by
  refine announces_image (fun h => ?_) ?_
  · rw [Int32.toInt_ofNat_of_lt (by omega)]
    rfl
  · have hlt := (Int32.ofNat n).toInt_lt
    omega

theorem bytes_write_list {α : Type} [Wire α] (hα : ∀ x : α, (Wire.write x).Uniform) (xs : List α) :
    ∃ field, Announces UInt16.toNat 65535 field xs.length ∧ ∀ out, (Wire.write xs).bytes = .ok out ↔
      ∃ parts, xs.mapM (fun x => (Wire.write x).bytes) = .ok parts ∧ out = field ++ parts.flatten := by
  refine ⟨image xs.length.toUInt16, announces_uint16 xs.length, fun out => ?_⟩
  have hcount := LawfulWire.emits_write xs.length.toUInt16
  change bytes (Wire.write xs.length.toUInt16 >>= fun _ => forM xs Wire.write) = _ ↔ _
  rw [bytes_bind hcount.uniform (uniform_forM hα xs)]
  simp only [bind_eq_ok_iff, pure_eq_ok_iff, hcount.bytes_eq_ok_iff, bytes_forM_eq_ok_iff hα]
  constructor
  · rintro ⟨_, ⟨-, rfl⟩, _, ⟨parts, hparts, rfl⟩, rfl⟩
    exact ⟨parts, hparts, rfl⟩
  · rintro ⟨parts, hparts, rfl⟩
    exact ⟨_, ⟨trivial, rfl⟩, _, ⟨parts, hparts, rfl⟩, rfl⟩

theorem Attribute.bytes_write (a : Attribute) :
    ∃ name field, name.length = 2 ∧ Announces UInt32.toNat 4294967295 field a.info.length ∧
      (Wire.write a).bytes = .ok (name ++ (field ++ a.info)) := by
  refine ⟨LawfulWire.image a.name, _, length_image_poolIndex a.name, announces_uint32 a.info.length, ?_⟩
  rw [write_eq_put, bytes_put, image]

namespace Instruction

section Switches

variable {o d : Nat} {out : List UInt8}

theorem bytes_write_lookupSwitch {ps : List (Int32 × Nat)}
    (h : ((lookupSwitch d ps).write o).bytes = .ok out) :
    ∃ front field, front.length = 1 + switchPadding o + 4 ∧
      Announces (fun x : Int32 => x.toInt.toNat) 2147483647 field ps.length ∧
      out = front ++ (field ++ ps.flatMap (pairImage o)) := by
  obtain ⟨-, -, rfl⟩ := bytes_write_eq_ok_iff.mp h
  refine ⟨[Opcode.lookupswitch.byte] ++ (paddingImage o ++ farImage o d), _, ?_, announces_int32 ps.length, ?_⟩
  · simp [paddingImage]
    omega
  · simp [Instruction.image, prefixImage, operandsImage, isWidened, opcode]

theorem bytes_write_tableSwitch {low : Int32} {ts : List Nat}
    (h : ((tableSwitch d low ts).write o).bytes = .ok out) :
    ∃ front lowField highField high, front.length = 1 + switchPadding o + 4 ∧
      (∀ rest, Wire.read (lowField ++ rest) = .ok (low, rest)) ∧
      (∀ rest, Wire.read (highField ++ rest) = .ok (high, rest)) ∧
      (high : Int32).toInt - low.toInt + 1 = ts.length ∧
      out = front ++ (lowField ++ (highField ++ ts.flatMap (farImage o))) := by
  obtain ⟨hfit, -, rfl⟩ := bytes_write_eq_ok_iff.mp h
  refine ⟨[Opcode.tableswitch.byte] ++ (paddingImage o ++ farImage o d), LawfulWire.image low,
    LawfulWire.image (Int32.ofInt (highKey low ts.length)), _, ?_, fun _ => read_eq_ok_iff.mpr rfl,
    fun _ => read_eq_ok_iff.mpr rfl, ?_, ?_⟩
  · simp [paddingImage]
    omega
  · rw [(toInt_highKey_of_fitting hfit).2, highKey]
    omega
  · simp [Instruction.image, prefixImage, operandsImage, isWidened, opcode]

end Switches

end Instruction

namespace Body

theorem counts_of_bytes_write {b : Body} {out : List UInt8} (h : b.write.bytes = .ok out) :
    ∃ code sizes lengthField guardField attributeField guards attributes,
      b.code.encode = .ok code ∧ code.length ≤ 65535 ∧ sizes.length = 4 ∧
      Announces UInt32.toNat 4294967295 lengthField code.length ∧
      Announces UInt16.toNat 65535 guardField b.guards.size ∧
      b.guards.toList.mapM (fun g => (writeGuard b.code code.length g).bytes) = .ok guards ∧
      Announces UInt16.toNat 65535 attributeField b.attributes.length ∧
      b.attributes.mapM (fun a => (Wire.write a).bytes) = .ok attributes ∧
      out = sizes ++ (lengthField ++ (code ++ (guardField ++ (guards.flatten ++
        (attributeField ++ attributes.flatten))))) := by
  obtain ⟨code, hcode, -, hmax, hknown, rfl⟩ := bytes_write_eq_ok_iff.mp h
  refine ⟨code, LawfulWire.image b.maxStack ++ LawfulWire.image b.maxLocals, _, _, _,
    b.guards.toList.map (guardImage b.code.offset? code.length), b.attributes.map Attribute.image,
    hcode, hmax, by simp, announces_uint32 code.length, announces_uint16 b.guards.size, ?_,
    announces_uint16 b.attributes.length, ?_, ?_⟩
  · rw [mapM_eq_ok_iff, List.map_map]
    exact List.map_congr_left fun g hg => bytes_writeGuard_eq_ok_iff.mpr ⟨hknown g hg, rfl⟩
  · rw [mapM_eq_ok_iff, List.map_map]
    refine List.map_congr_left fun a _ => ?_
    rw [Attribute.write_eq_put, bytes_put]
    rfl
  · rw [image, countedImage, List.append_assoc, List.flatMap_def, List.flatMap_def]

end Body

/-- Counts are written, and the elements after them, whether the counts fit or not. The count of a list, of
the guards and of the attributes of a body is exact up to 65535, that of the bytes of an attribute up to
4294967295 and that of the pairs of a lookup switch up to 2147483647; what is read in its place past
that is another number. The number of targets of a table switch and that of the bytes of code
are always exact: what does not fit is refused. -/
theorem counts_exact_up_to_width {α : Type} [Wire α] (hα : ∀ x : α, (Wire.write x).Uniform) :
    (∀ xs : List α, ∃ field, Announces UInt16.toNat 65535 field xs.length ∧
      ∀ out, (Wire.write xs).bytes = .ok out ↔
        ∃ parts, xs.mapM (fun x => (Wire.write x).bytes) = .ok parts ∧ out = field ++ parts.flatten) ∧
    (∀ a : Attribute, ∃ name field, name.length = 2 ∧ Announces UInt32.toNat 4294967295 field a.info.length ∧
      (Wire.write a).bytes = .ok (name ++ (field ++ a.info))) ∧
    (∀ (o d : Nat) (ps : List (Int32 × Nat)) (out : List UInt8),
      ((Instruction.lookupSwitch d ps).write o).bytes = .ok out →
        ∃ front field, front.length = 1 + switchPadding o + 4 ∧
          Announces (fun x : Int32 => x.toInt.toNat) 2147483647 field ps.length ∧
          out = front ++ (field ++ ps.flatMap (Instruction.pairImage o))) ∧
    (∀ (o d : Nat) (low : Int32) (ts : List Nat) (out : List UInt8),
      ((Instruction.tableSwitch d low ts).write o).bytes = .ok out →
        ∃ front lowField highField high, front.length = 1 + switchPadding o + 4 ∧
          (∀ rest, Wire.read (lowField ++ rest) = .ok (low, rest)) ∧
          (∀ rest, Wire.read (highField ++ rest) = .ok (high, rest)) ∧
          (high : Int32).toInt - low.toInt + 1 = ts.length ∧
          out = front ++ (lowField ++ (highField ++ ts.flatMap (Instruction.farImage o)))) ∧
    ∀ (b : Body) (out : List UInt8), b.write.bytes = .ok out →
      ∃ code sizes lengthField guardField attributeField guards attributes,
        b.code.encode = .ok code ∧ code.length ≤ 65535 ∧ sizes.length = 4 ∧
        Announces UInt32.toNat 4294967295 lengthField code.length ∧
        Announces UInt16.toNat 65535 guardField b.guards.size ∧
        b.guards.toList.mapM (fun g => (Body.writeGuard b.code code.length g).bytes) = .ok guards ∧
        Announces UInt16.toNat 65535 attributeField b.attributes.length ∧
        b.attributes.mapM (fun a => (Wire.write a).bytes) = .ok attributes ∧
        out = sizes ++ (lengthField ++ (code ++ (guardField ++ (guards.flatten ++
          (attributeField ++ attributes.flatten))))) :=
  ⟨bytes_write_list hα, Attribute.bytes_write, fun _ _ _ _ => Instruction.bytes_write_lookupSwitch,
    fun _ _ _ _ _ => Instruction.bytes_write_tableSwitch, fun _ _ => Body.counts_of_bytes_write⟩

/-- An attribute of one byte in a list of its own, and a switch with one pair. -/
theorem counts_exact_of_attribute_and_pair :
    (∃ field, Announces UInt16.toNat 65535 field 1 ∧
      (Wire.write [(⟨⟨7⟩, [42]⟩ : Attribute)]).bytes = .ok (field ++ [0, 7, 0, 0, 0, 1, 42])) ∧
    ∃ field, Announces (fun x : Int32 => x.toInt.toNat) 2147483647 field 1 ∧
      ((Instruction.lookupSwitch 3 [(5, 3)]).write 3).bytes =
        .ok ([0xab, 0, 0, 0, 0] ++ (field ++ [0, 0, 0, 5, 0, 0, 0, 0])) := by
  have huniform (a : Attribute) : (Wire.write a).Uniform := a.write_eq_put ▸ uniform_put _
  have hpart : [(⟨⟨7⟩, [42]⟩ : Attribute)].mapM (fun a => (Wire.write a).bytes) =
      .ok [[0, 7, 0, 0, 0, 1, 42]] := by decide +kernel
  have hswitch : ((Instruction.lookupSwitch 3 [(5, 3)]).write 3).bytes =
      .ok ([0xab, 0, 0, 0, 0] ++ ([0, 0, 0, 1] ++ [0, 0, 0, 5, 0, 0, 0, 0])) := by decide +kernel
  obtain ⟨hlist, -, hpairs, -⟩ := counts_exact_up_to_width huniform
  obtain ⟨field, hfield, hwrite⟩ := hlist [⟨⟨7⟩, [42]⟩]
  refine ⟨⟨field, hfield, (hwrite _).mpr ⟨_, hpart, rfl⟩⟩, ?_⟩
  obtain ⟨front, count, hfront, hcount, hout⟩ := hpairs 3 3 [(5, 3)] _ hswitch
  have hback : [(5, 3)].flatMap (Instruction.pairImage 3) = [0, 0, 0, 5, 0, 0, 0, 0] := by decide +kernel
  rw [hback] at hout
  obtain ⟨rfl, hrest⟩ := List.append_inj hout hfront.symm
  exact ⟨count, hcount, by rw [hswitch, hrest]⟩

theorem bytes_write_replicate {n : Nat} (hn : n.toUInt16 = 0) :
    (Wire.write (List.replicate n (0 : UInt8))).bytes = .ok ([0, 0] ++ List.replicate n 0) := by
  have hzero : image (0 : UInt16) = [0, 0] := by decide
  rw [write_counted LawfulWire.image LawfulWire.write_eq_put, bytes_put, countedImage, List.length_replicate, hn,
    hzero]
  simp [List.flatMap_replicate]

theorem Body.bytes_write_attributes {b : Body} {out : List UInt8} (hb : b.attributes = [])
    (hout : b.write.bytes = .ok out) {as : List Attribute} (has : as.length.toUInt16 = 0) :
    { b with attributes := as }.write.bytes = .ok (out ++ as.flatMap Attribute.image) := by
  obtain ⟨code, hcode, hne, hmax, hknown, rfl⟩ := bytes_write_eq_ok_iff.mp hout
  refine bytes_write_eq_ok_iff.mpr ⟨code, hcode, hne, hmax, hknown, ?_⟩
  have hnone : ([] : List Attribute).length.toUInt16 = 0 := rfl
  simp only [Body.image, countedImage, hb, has, hnone, List.flatMap_nil, List.append_nil, List.append_assoc]

/-- A list of 65536 bytes is written, after a count that is read as zero. So is a body with as many
attributes: what is written begins as if it had none, and the attributes come after that. -/
theorem count_of_65536_is_zero :
    (∃ out, (Wire.write (List.replicate 65536 (0 : UInt8))).bytes = .ok out ∧
      (Wire.read : Reader UInt16) out = .ok (0, List.replicate 65536 0)) ∧
    let b := (Body.Request.push (.plain ⟨0xb1⟩)).apply (Body.ofCode 0 0 Code.empty)
    let d := (Body.Request.setAttributes (List.replicate 65536 ⟨⟨1⟩, []⟩)).apply b
    Body.Reachable d ∧ ∃ out rest, b.write.bytes = .ok out ∧ d.write.bytes = .ok (out ++ rest) ∧
      rest.length = 65536 * 6 := by
  have hcut : (65536 : Nat).toUInt16 = 0 := by decide
  refine ⟨⟨_, bytes_write_replicate hcut, ?_⟩, ?_⟩
  · exact read_eq_ok_iff.mpr (congrArg (· ++ _) (by decide : [0, 0] = image (0 : UInt16)))
  · intro b d
    have hb : Body.Reachable b := (Body.reachable_empty 0 0).edited _
    have hwrite : b.write.bytes = .ok [0, 0, 0, 0, 0, 0, 0, 1, 0xb1, 0, 0, 0, 0] := by decide +kernel
    have hnone : b.attributes = [] := by decide +kernel
    have hlength : (Attribute.image ⟨⟨1⟩, []⟩).length = 6 := by decide
    refine ⟨hb.edited _, _, _, hwrite, Body.bytes_write_attributes hnone hwrite ?_, ?_⟩
    · rw [List.length_replicate]
      exact hcut
    · rw [List.length_flatMap, List.map_replicate, List.sum_replicate_nat, hlength]

end ClassCode
