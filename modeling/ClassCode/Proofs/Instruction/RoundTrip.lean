import ClassCode.Proofs.Instruction.Codec

/-! One instruction at a position of some bytes. What is found there is the instruction whose image the bytes
go on with, and this image is what is written for it at the same offset; so reading and writing undo each
other. -/
namespace ClassCode.Instruction

open LawfulWire

variable {bytes : List UInt8} {cursor o n : Nat} {i : Instruction Nat}

theorem decodeAt_eq_ok_iff_read :
    decodeAt bytes cursor o = .ok (i, n) ↔
      ∃ rest, read o (bytes.drop cursor) = .ok (i, rest) ∧ (bytes.drop cursor).length - rest.length = n := by
  change (fun r : Instruction Nat × List UInt8 => (r.1, (bytes.drop cursor).length - r.2.length)) <$>
    read o (bytes.drop cursor) = .ok (i, n) ↔ _
  rw [Outcome.map_eq_ok_iff]
  simp only [Prod.exists, Prod.mk.injEq]
  constructor
  · rintro ⟨_, rest, hread, rfl, hn⟩
    exact ⟨rest, hread, hn⟩
  · rintro ⟨rest, hread, hn⟩
    exact ⟨i, rest, hread, rfl, hn⟩

theorem decodeAt_eq_ok_iff :
    decodeAt bytes cursor o = .ok (i, n) ↔
      i.Readable o ∧ n = i.width o ∧ i.image o <+: bytes.drop cursor := by
  simp only [decodeAt_eq_ok_iff_read, recognizes_read _ _ _]
  constructor
  · rintro ⟨rest, ⟨hi, hbytes⟩, rfl⟩
    refine ⟨hi, ?_, rest, hbytes.symm⟩
    rw [hbytes, List.length_append, Nat.add_sub_cancel, length_image]
  · rintro ⟨hi, rfl, rest, hbytes⟩
    refine ⟨rest, ⟨hi, hbytes.symm⟩, ?_⟩
    rw [← hbytes, List.length_append, Nat.add_sub_cancel, length_image]

/-- What was read at an offset takes as many bytes as its width says, at least one, its operands go with its
opcode, and at the same offset it is written as the bytes that it was read from. -/
theorem encodeAt_decodeAt (h : decodeAt bytes cursor o = .ok (i, n)) :
    1 ≤ n ∧ n = i.width o ∧ cursor + n ≤ bytes.length ∧ i.check = .ok () ∧
      i.encodeAt o = .ok ((bytes.drop cursor).take n) := by
  obtain ⟨hi, rfl, hfront⟩ := decodeAt_eq_ok_iff.mp h
  have hlength := i.length_image o
  have hpos := i.width_pos o
  have hle := hfront.length_le
  rw [hlength, List.length_drop] at hle
  have htake : (bytes.drop cursor).take (i.width o) = i.image o := by
    rw [← hlength]
    exact (List.prefix_iff_eq_take.mp hfront).symm
  refine ⟨hpos, rfl, by omega, check_eq_ok_iff.mpr hi.fitting, ?_⟩
  rw [htake]
  exact bytes_write_eq_ok_iff.mpr ⟨hi.fitting, hi.near, rfl⟩

/-- A lookup switch that is neither at the start nor at the end of the bytes, with two bytes of padding, a
jump back by default and one pair. -/
theorem encodeAt_decodeAt_of_padded_lookup :
    decodeAt [0xff, 0xab, 0, 0, 0xff, 0xff, 0xff, 0xfe, 0, 0, 0, 1, 0, 0, 0, 7, 0, 0, 0, 9, 0] 1 9 =
        .ok (.lookupSwitch 7 [(7, 18)], 19) ∧
      (Instruction.lookupSwitch 7 [(7, 18)]).encodeAt 9 =
        .ok [0xab, 0, 0, 0xff, 0xff, 0xff, 0xfe, 0, 0, 0, 1, 0, 0, 0, 7, 0, 0, 0, 9] := by
  have hread : decodeAt [0xff, 0xab, 0, 0, 0xff, 0xff, 0xff, 0xfe, 0, 0, 0, 1, 0, 0, 0, 7, 0, 0, 0, 9, 0] 1 9 =
      .ok (.lookupSwitch 7 [(7, 18)], 19) := rfl
  obtain ⟨-, -, -, -, hwritten⟩ := encodeAt_decodeAt hread
  exact ⟨hread, hwritten⟩

theorem decodeAt_image (hi : i.Readable o) (before after : List UInt8) :
    decodeAt (before ++ i.image o ++ after) before.length o = .ok (i, i.width o) := by
  refine decodeAt_eq_ok_iff.mpr ⟨hi, rfl, after, ?_⟩
  rw [List.append_assoc, List.drop_left]

/-- What is written at an offset takes as many bytes as its width says, and among any others it is read back from
them at that offset. Nothing is written when the operands do not go with the opcode, which is said then, and
otherwise when some label is too far away, and then the first of these is named. -/
theorem decodeAt_encodeAt (hi : i.FewPairs) (o : Nat) :
    (∀ b, i.encodeAt o = .ok b → b.length = i.width o ∧
      ∀ before after, decodeAt (before ++ b ++ after) before.length o = .ok (i, b.length)) ∧
    (∀ f, i.check = .error f → ∃ m, f = .misfit i.opcode m) ∧
    (∀ p m, i.encodeAt o = .error (.misfit p m) ↔ i.check = .error (.misfit p m)) ∧
    (∀ a t, i.encodeAt o = .error (.branchOverflow a t) ↔
      i.check = .ok () ∧ i.firstFar? o = some t ∧ a = o) ∧
    ((∃ b, i.encodeAt o = .ok b) ↔ i.check = .ok () ∧ ∀ l ∈ i.labels, i.Reaches o l) := by
  have hmisfit (f : Fault) (hf : i.check = .error f) : ∃ m, f = .misfit i.opcode m := by
    obtain ⟨m, -, rfl⟩ := check_eq_error_iff.mp hf
    exact ⟨m, rfl⟩
  refine ⟨fun b hb => ?_, hmisfit, fun p m => ?_, fun a t => ?_, ?_⟩
  · obtain ⟨hfit, hnear, rfl⟩ := bytes_write_eq_ok_iff.mp hb
    rw [i.length_image o]
    exact ⟨rfl, decodeAt_image ⟨hfit, hnear, hi⟩⟩
  · rw [encodeAt, bytes_write_eq_error_iff]
    simp
  · rw [encodeAt, bytes_write_eq_error_iff]
    constructor
    · rintro (hf | ⟨hcheck, _, ht, heq⟩)
      · obtain ⟨m, hm⟩ := hmisfit _ hf
        cases hm
      · cases heq
        exact ⟨hcheck, ht, rfl⟩
    · rintro ⟨hcheck, ht, rfl⟩
      exact .inr ⟨hcheck, t, ht, rfl⟩
  · simp only [encodeAt, bytes_write_eq_ok_iff, exists_and_left, exists_eq, and_true, check_eq_ok_iff,
      inReach_iff]

/-- A table whose keys end with the greatest one there is, with two bytes of padding and a default in front of the
instruction, between other bytes; and a jump back that is one byte too far. -/
theorem decodeAt_encodeAt_of_last_keys :
    let i : Instruction Nat := .tableSwitch 0 2147483646 [5, 9]
    let b : List UInt8 := [0xaa, 0, 0, 0xff, 0xff, 0xff, 0xff, 0x7f, 0xff, 0xff, 0xfe, 0x7f, 0xff, 0xff, 0xff,
      0, 0, 0, 4, 0, 0, 0, 8]
    i.FewPairs ∧ i.encodeAt 1 = .ok b ∧ decodeAt ([0xff] ++ b ++ [7]) 1 1 = .ok (i, 23) ∧
      (Instruction.jump ⟨0xa7⟩ 0).encodeAt 32769 = .error (.branchOverflow 32769 0) := by
  intro i b
  have hwritten : i.encodeAt 1 = .ok b :=
    bytes_write_eq_ok_iff.mpr ⟨by decide, inReach_iff.mpr (by decide), by decide +kernel⟩
  obtain ⟨hread, -⟩ := decodeAt_encodeAt (i := i) trivial 1
  obtain ⟨-, -, -, hfar, -⟩ := decodeAt_encodeAt (i := .jump ⟨0xa7⟩ 0) trivial 32769
  exact ⟨trivial, hwritten, (hread b hwritten).2 [0xff] [7], (hfar _ _).mpr ⟨rfl, by decide, rfl⟩⟩

end ClassCode.Instruction
