import ClassCode.Body.Wire
import ClassCode.Proofs.Body.Guards
import ClassCode.Proofs.Code.RoundTrip

/-! The bytes of the parts of a body: attributes, and guards with the offsets of their instructions. -/
namespace ClassCode

open LawfulWire

namespace Attribute

open Reader

/-- The bytes of an attribute, with the number of its bytes cut down to four bytes. -/
def image (a : Attribute) : List UInt8 :=
  LawfulWire.image a.name ++ (LawfulWire.image a.info.length.toUInt32 ++ a.info)

theorem write_eq_put (a : Attribute) : Wire.write a = Writer.put a.image := by
  rw [image, Writer.put_append, Writer.put_append, ← LawfulWire.write_eq_put, ← LawfulWire.write_eq_put]
  rfl

theorem recognizes_read :
    (Wire.read : Reader Attribute).Recognizes (fun a => a.info.length < UInt32.size) image := by
  intro bytes a rest
  have hread : (Wire.read : Reader Attribute) = do
      let name ← Wire.read
      let length : UInt32 ← Wire.read
      let info ← take length.toNat
      return { name, info } := rfl
  rw [hread]
  simp only [bind_eq_ok_iff, read_eq_ok_iff, take_eq_ok_iff, pure_eq_ok_iff, image]
  constructor
  · rintro ⟨name, _, rfl, n, _, rfl, info, _, ⟨hlen, rfl⟩, rfl, rfl⟩
    have hn : info.length.toUInt32 = n := by
      rw [hlen]
      exact UInt32.ofNat_toNat
    exact ⟨hlen ▸ n.toNat_lt, by simp [hn]⟩
  · rintro ⟨hlen, rfl⟩
    refine ⟨a.name, _, List.append_assoc .., a.info.length.toUInt32, _, List.append_assoc .., a.info, rest,
      ⟨?_, rfl⟩, rfl, rfl⟩
    exact (UInt32.toNat_ofNat_of_lt' hlen).symm

end Attribute

namespace Body

variable (offset? : Handle → Option Nat)

def pcImage (h : Handle) : List UInt8 := LawfulWire.image ((offset? h).getD 0).toUInt16

def guardImage (length : Nat) (g : Guard) : List UInt8 :=
  pcImage offset? g.start ++ (g.stop.elim (LawfulWire.image length.toUInt16) (pcImage offset?) ++
    (pcImage offset? g.handler ++ LawfulWire.image g.catches))

theorem pcOf_of_isSome {c : Code} {h : Handle} (hh : (c.offset? h).isSome) :
    pcOf c h = .ok ((c.offset? h).getD 0).toUInt16 := by
  obtain ⟨o, ho⟩ := Option.isSome_iff_exists.mp hh
  rw [pcOf, Code.offsetOf, ho]
  rfl

theorem writeGuard_eq_put {c : Code} {length : Nat} {g : Guard}
    (hg : ∀ t ∈ g.targets, (c.offset? t).isSome) :
    writeGuard c length g = Writer.put (guardImage c.offset? length g) := by
  have hstart := pcOf_of_isSome (hg g.start (by simp [Guard.targets]))
  have hhandler := pcOf_of_isSome (hg g.handler (by simp [Guard.targets]))
  simp only [guardImage, pcImage, Writer.put_append]
  cases hs : g.stop with
  | none =>
    simp only [writeGuard, hstart, hhandler, hs, Option.elim, ← LawfulWire.write_eq_put]
    rfl
  | some t =>
    have hstop := pcOf_of_isSome (hg t (by simp [Guard.targets, hs]))
    simp only [writeGuard, hstart, hhandler, hstop, hs, Option.elim, ← LawfulWire.write_eq_put]
    rfl

/-- The bytes of a body whose code has the bytes `code`. -/
def image (b : Body) (code : List UInt8) : List UInt8 :=
  LawfulWire.image b.maxStack ++ (LawfulWire.image b.maxLocals ++
    (LawfulWire.image code.length.toUInt32 ++ (code ++ (LawfulWire.image b.guards.size.toUInt16 ++
      (b.guards.toList.flatMap (guardImage b.code.offset? code.length) ++
        countedImage Attribute.image b.attributes)))))

theorem write_eq_put {b : Body} {code : List UInt8} (hcode : b.code.encode = .ok code)
    (hne : code ≠ []) (hmax : code.length ≤ maxCodeLength)
    (hg : ∀ g ∈ b.guards.toList, ∀ t ∈ g.targets, (b.code.offset? t).isSome) :
    b.write = Writer.put (b.image code) := by
  have hlength : ¬ (code.isEmpty ∨ maxCodeLength < code.length) := by
    simp [hne, hmax]
  have hguards : forM b.guards.toList (writeGuard b.code code.length) = Writer.put _ :=
    Writer.forM_put fun g hmem => writeGuard_eq_put (hg g hmem)
  have hattributes := write_counted Attribute.image Attribute.write_eq_put b.attributes
  simp only [image, Writer.put_append, ← LawfulWire.write_eq_put, ← hguards, ← hattributes]
  rw [write, hcode]
  refine (pure_bind code _).trans ?_
  rw [if_neg hlength]
  rfl

/-! What is written as a body. It is the image of the body, and it is written just when the code can be
encoded to bytes that fit and every instruction that a guard refers to is there. -/

open Outcome Writer

section Guards

variable {c : Code} {length : Nat} {g : Guard}

theorem writeGuard_eq : writeGuard c length g = (do
    let start ← ofExcept (pcOf c g.start)
    let stop ← ofExcept (g.stop.elim (.ok length.toUInt16) (pcOf c))
    let handler ← ofExcept (pcOf c g.handler)
    Wire.write start
    Wire.write stop
    Wire.write handler
    Wire.write g.catches) := by
  rw [writeGuard]
  cases g.stop <;> rfl

theorem uniform_writeGuard (c : Code) (length : Nat) (g : Guard) : Uniform (writeGuard c length g) := by
  rw [writeGuard_eq]
  refine uniform_bind (uniform_ofExcept _) fun start => uniform_bind (uniform_ofExcept _) fun stop =>
    uniform_bind (uniform_ofExcept _) fun handler => ?_
  exact uniform_bind (uniform_write start) fun _ => uniform_bind (uniform_write stop) fun _ =>
    uniform_bind (uniform_write handler) fun _ => uniform_write g.catches

theorem isSome_offset?_of_pcOf {h : Handle} {pc : UInt16} (hpc : pcOf c h = .ok pc) :
    (c.offset? h).isSome := by
  rw [pcOf, Code.offsetOf] at hpc
  cases ho : c.offset? h with
  | none => simp [ho, Code.unknown] at hpc
  | some o => rfl

theorem isSome_offset?_of_writeGuard {out : List UInt8} (h : (writeGuard c length g).bytes = .ok out) :
    ∀ t ∈ g.targets, (c.offset? t).isSome := by
  simp only [writeGuard_eq, bytes_ofExcept_bind, bind_eq_ok_iff] at h
  obtain ⟨start, hstart, stop, hstop, handler, hhandler, -⟩ := h
  intro t ht
  rcases Guard.mem_targets.mp ht with rfl | hs | rfl
  · exact isSome_offset?_of_pcOf hstart
  · rw [hs] at hstop
    exact isSome_offset?_of_pcOf hstop
  · exact isSome_offset?_of_pcOf hhandler

theorem bytes_writeGuard_eq_ok_iff {out : List UInt8} :
    (writeGuard c length g).bytes = .ok out ↔
      (∀ t ∈ g.targets, (c.offset? t).isSome) ∧ out = guardImage c.offset? length g := by
  constructor
  · intro h
    have hg := isSome_offset?_of_writeGuard h
    rw [writeGuard_eq_put hg, bytes_put, Except.ok.injEq] at h
    exact ⟨hg, h.symm⟩
  · rintro ⟨hg, rfl⟩
    rw [writeGuard_eq_put hg, bytes_put]

end Guards

theorem bytes_write_eq_ok_iff {b : Body} {out : List UInt8} :
    b.write.bytes = .ok out ↔ ∃ code, b.code.encode = .ok code ∧ code ≠ [] ∧ code.length ≤ maxCodeLength ∧
      (∀ g ∈ b.guards.toList, ∀ t ∈ g.targets, (b.code.offset? t).isSome) ∧ out = b.image code := by
  constructor
  · intro h
    simp only [write, bytes_ofExcept_bind, bind_eq_ok_iff] at h
    obtain ⟨code, hcode, h⟩ := h
    by_cases hlength : code.isEmpty ∨ maxCodeLength < code.length
    · rw [if_pos hlength] at h
      cases h
    · rw [if_neg hlength] at h
      have hguards := Emits.forM (fun g => (uniform_writeGuard b.code code.length g).emits
        fun out hout => (bytes_writeGuard_eq_ok_iff.mp hout).2) b.guards.toList
      have hattributes : (Wire.write b.attributes).Emits (pure ()) _ :=
        write_counted Attribute.image Attribute.write_eq_put b.attributes ▸ emits_put _
      have hall := (emits_write b.maxStack).bind ((emits_write b.maxLocals).bind
        ((emits_write code.length.toUInt32).bind ((emits_put code).bind
          ((emits_write b.guards.size.toUInt16).bind (hguards.bind hattributes)))))
      obtain ⟨hcheck, rfl⟩ := hall.bytes_eq_ok_iff.mp h
      simp only [pure_bind, bind_pure_unit] at hcheck
      rw [not_or, Nat.not_lt] at hlength
      refine ⟨code, hcode, by simpa using hlength.1, hlength.2, fun g hg => ?_, rfl⟩
      obtain ⟨_, hout, -⟩ := bind_eq_ok_iff.mp (forM_eq_ok_iff.mp hcheck g hg)
      exact (bytes_writeGuard_eq_ok_iff.mp hout).1
  · rintro ⟨code, hcode, hne, hmax, hg, rfl⟩
    rw [write_eq_put hcode hne hmax hg, bytes_put]

end Body

end ClassCode
