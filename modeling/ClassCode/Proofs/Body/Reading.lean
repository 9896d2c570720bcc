import ClassCode.Body.Wire
import ClassCode.Proofs.Bytes.Lawful
import ClassCode.Proofs.Run

/-! What is read as a body: the bytes of its parts, guards with the offsets of instructions that are there. -/
namespace ClassCode.Body

open LawfulWire

variable {b d : Body} {length : UInt32} {bytes rest : List UInt8}

theorem readGuard_eq_ok_iff :
    b.readGuard length bytes = .ok (d, rest) ↔
      ∃ (startPc stopPc handlerPc : UInt16) (catches : PoolIndex),
        bytes = image startPc ++ (image stopPc ++ (image handlerPc ++ (image catches ++ rest))) ∧
        ∃ start stop handler id, b.handleAt startPc = .ok start ∧
          (if stopPc.toNat = length.toNat then pure none else some <$> b.handleAt stopPc) = .ok stop ∧
          b.handleAt handlerPc = .ok handler ∧ addGuard start stop handler catches b = .ok id d := by
  simp only [readGuard, Reader.bind_eq_ok_iff, read_eq_ok_iff, Reader.ofExcept_eq_ok_iff]
  constructor
  · rintro ⟨startPc, _, rfl, stopPc, _, rfl, handlerPc, _, rfl, catches, _, rfl, start, _, ⟨hstart, rfl⟩,
      stop, _, ⟨hstop, rfl⟩, handler, _, ⟨hhandler, rfl⟩, h⟩
    cases hadd : addGuard start stop handler catches b with
    | error f e => simp [hadd, Reader.throw_eq_ok_iff] at h
    | ok id e =>
      simp only [hadd, Reader.pure_eq_ok_iff] at h
      obtain ⟨rfl, rfl⟩ := h
      exact ⟨startPc, stopPc, handlerPc, catches, rfl, start, stop, handler, id, hstart, hstop, hhandler,
        hadd⟩
  · rintro ⟨startPc, stopPc, handlerPc, catches, rfl, start, stop, handler, id, hstart, hstop, hhandler, hadd⟩
    refine ⟨startPc, _, rfl, stopPc, _, rfl, handlerPc, _, rfl, catches, _, rfl, start, _, ⟨hstart, rfl⟩,
      stop, _, ⟨hstop, rfl⟩, handler, _, ⟨hhandler, rfl⟩, ?_⟩
    simp [hadd, Reader.pure_eq_ok_iff]

theorem read_body_eq_ok_iff :
    read bytes = .ok (b, rest) ↔
      ∃ (maxStack maxLocals : UInt16) (code : List UInt8) (c : Code) (d : Body) (count : UInt16)
        (entries mid : List UInt8) (attributes : List Attribute),
        bytes = image maxStack ++ (image maxLocals ++ (image code.length.toUInt32 ++ (code ++
          (image count ++ entries)))) ∧
        code ≠ [] ∧ code.length ≤ maxCodeLength ∧ Code.decode code = .ok c ∧
        readGuards code.length.toUInt32 count.toNat (ofCode maxStack maxLocals c) entries = .ok (d, mid) ∧
        (Wire.read : Reader (List Attribute)) mid = .ok (attributes, rest) ∧ { d with attributes } = b := by
  simp only [read, Reader.bind_eq_ok_iff, read_eq_ok_iff, Reader.ofExcept_eq_ok_iff,
    Reader.refuse_eq_ok_iff, Reader.take_eq_ok_iff, Reader.pure_eq_ok_iff]
  constructor
  · rintro ⟨maxStack, _, rfl, maxLocals, _, rfl, length, _, rfl, hrange, code, _, ⟨hcode, rfl⟩, c, _,
      ⟨hdecode, rfl⟩, count, entries, rfl, d, mid, hguards, attributes, _, hattributes, rfl, rfl⟩
    have hlength : code.length.toUInt32 = length := by
      rw [hcode]
      exact UInt32.ofNat_toNat
    rw [not_or, Nat.not_lt, ← hcode] at hrange
    refine ⟨maxStack, maxLocals, code, c, d, count, entries, mid, attributes, by rw [hlength], ?_, hrange.2,
      hdecode, by rwa [hlength], hattributes, rfl⟩
    rintro rfl
    exact hrange.1 (UInt32.toNat_inj.mp hcode.symm)
  · rintro ⟨maxStack, maxLocals, code, c, d, count, entries, mid, attributes, rfl, hne, hmax, hdecode,
      hguards, hattributes, rfl⟩
    have hlength : code.length.toUInt32.toNat = code.length :=
      UInt32.toNat_ofNat_of_lt' (Nat.lt_of_le_of_lt hmax (by decide))
    refine ⟨maxStack, _, rfl, maxLocals, _, rfl, _, _, rfl, ?_, code, _, ⟨hlength.symm, rfl⟩, c, _,
      ⟨hdecode, rfl⟩, count, entries, rfl, d, mid, hguards, attributes, _, hattributes, rfl, rfl⟩
    rw [not_or, Nat.not_lt, hlength]
    refine ⟨fun hzero => hne (List.eq_nil_of_length_eq_zero ?_), hmax⟩
    rw [← hlength, hzero]
    rfl

/-- Every guard that is read is added: a property that depends on how many are left to be read holds after the last
one if adding one leads from it to the same with one less. -/
theorem readGuards_run {I : Nat → Body → Prop}
    (hadd : ∀ n b start stop handler catches, I (n + 1) b → I n (Run.leaves (addGuard start stop handler catches) b))
    {n : Nat} (hb : I n b) (h : readGuards length n b bytes = .ok (d, rest)) : I 0 d := by
  induction n generalizing b bytes with
  | zero =>
    obtain ⟨rfl, -⟩ := Reader.pure_eq_ok_iff.mp h
    exact hb
  | succ n ih =>
    obtain ⟨e, mid, hfirst, hrest⟩ := Reader.bind_eq_ok_iff.mp h
    obtain ⟨_, _, _, catches, -, start, stop, handler, id, -, -, -, hadded⟩ := readGuard_eq_ok_iff.mp hfirst
    have he := hadd n b start stop handler catches hb
    rw [Run.leaves, hadded] at he
    exact ih he hrest

end ClassCode.Body
