import ClassCode.Instruction.Wire
import ClassCode.Proofs.Bytes.Lawful

/-! The bytes of an instruction. An instruction has an image at every offset; it is written when its
operands go with its opcode and all its labels are near enough for their distances to fit. -/
namespace ClassCode

namespace Instruction

open Writer

def InFarReach (offset target : Nat) : Prop :=
  -maxInt32 - 1 ≤ Layout.distance target offset ∧ Layout.distance target offset ≤ maxInt32

def InNearReach (offset target : Nat) : Prop :=
  -32768 ≤ Layout.distance target offset ∧ Layout.distance target offset ≤ 32767

/-- The labels are near enough for their distances to be written. -/
def InReach (offset : Nat) : Instruction Nat → Prop
  | jump _ l => InNearReach offset l
  | i => ∀ l ∈ i.labels, InFarReach offset l

instance (offset target : Nat) : Decidable (InFarReach offset target) :=
  inferInstanceAs (Decidable (_ ∧ _))

instance (offset target : Nat) : Decidable (InNearReach offset target) :=
  inferInstanceAs (Decidable (_ ∧ _))

/-- The greatest distance that fits into the bytes that a label gets: two in a short jump, four elsewhere. -/
def reach {L : Type} : Instruction L → Int
  | jump _ _ => 32767
  | _ => maxInt32

def Reaches (offset : Nat) (i : Instruction Nat) (target : Nat) : Prop :=
  -i.reach - 1 ≤ Layout.distance target offset ∧ Layout.distance target offset ≤ i.reach

instance (offset : Nat) (i : Instruction Nat) (target : Nat) : Decidable (i.Reaches offset target) :=
  inferInstanceAs (Decidable (_ ∧ _))

def firstFar? (offset : Nat) (i : Instruction Nat) : Option Nat :=
  i.labels.find? fun t => ¬ i.Reaches offset t

def checkReach (offset : Nat) : Instruction Nat → Except Fault Unit
  | jump _ l => discard (nearDistance offset l)
  | i => i.labels.forM fun l => discard (farDistance offset l)

def farImage (offset target : Nat) : List UInt8 :=
  LawfulWire.image (Int32.ofInt (Layout.distance target offset))

def nearImage (offset target : Nat) : List UInt8 :=
  LawfulWire.image (Int16.ofInt (Layout.distance target offset))

def paddingImage (offset : Nat) : List UInt8 := List.replicate (switchPadding offset) 0

def pairImage (offset : Nat) (p : Int32 × Nat) : List UInt8 :=
  LawfulWire.image p.1 ++ farImage offset p.2

def operandsImage (offset : Nat) : Instruction Nat → List UInt8
  | plain _ => []
  | byteArgument _ v => LawfulWire.image v
  | pushByte v => LawfulWire.image v
  | pushShort v => LawfulWire.image v
  | constant _ i => LawfulWire.image i
  | increment x d => LawfulWire.image x ++ LawfulWire.image d
  | multiArray i n => LawfulWire.image i ++ LawfulWire.image n
  | callInterface i n => LawfulWire.image i ++ (LawfulWire.image n ++ LawfulWire.image (0 : UInt8))
  | callDynamic i => LawfulWire.image i ++ LawfulWire.image (0 : UInt16)
  | jump _ l => nearImage offset l
  | farJump _ l => farImage offset l
  | tableSwitch d low ts =>
    paddingImage offset ++ (farImage offset d ++ (LawfulWire.image low ++
      (LawfulWire.image (Int32.ofInt (highKey low ts.length)) ++ ts.flatMap (farImage offset))))
  | lookupSwitch d ps =>
    paddingImage offset ++ (farImage offset d ++
      (LawfulWire.image (Int32.ofNat ps.length) ++ ps.flatMap (pairImage offset)))
  | wideLocal _ x => LawfulWire.image x
  | wideIncrement x d => LawfulWire.image x ++ LawfulWire.image d

def prefixImage (i : Instruction Nat) : List UInt8 :=
  (if i.isWidened then [Opcode.wide.byte] else []) ++ [i.opcode.byte]

def image (i : Instruction Nat) (offset : Nat) : List UInt8 := i.prefixImage ++ i.operandsImage offset

theorem discard_farDistance (o t : Nat) : (discard (farDistance o t) : Except Fault Unit) =
    if InFarReach o t then .ok () else .error (.branchOverflow o t) :=
  Outcome.discard_ite _ _

theorem discard_nearDistance (o t : Nat) : (discard (nearDistance o t) : Except Fault Unit) =
    if InNearReach o t then .ok () else .error (.branchOverflow o t) :=
  Outcome.discard_ite _ _

theorem checkReach_eq (i : Instruction Nat) (o : Nat) :
    i.checkReach o = (i.firstFar? o).elim (.ok ()) fun t => .error (.branchOverflow o t) := by
  have hall (h : i.reach = maxInt32) : (i.labels.forM fun l => discard (farDistance o l)) =
      (i.firstFar? o).elim (.ok ()) fun t => .error (.branchOverflow o t) := by
    rw [List.forM_eq_forM]
    refine Outcome.forM_eq_find? fun t _ => ?_
    have hfar : i.Reaches o t ↔ InFarReach o t := by
      rw [Reaches, h]
      exact Iff.rfl
    by_cases ht : InFarReach o t <;> simp [discard_farDistance, hfar, ht]
  cases i with
  | jump p l =>
    have hnear : (jump p l).Reaches o l ↔ InNearReach o l := Iff.rfl
    by_cases hl : InNearReach o l <;> simp [checkReach, discard_nearDistance, firstFar?, labels, hnear, hl]
  | _ => exact hall rfl

theorem inReach_iff {i : Instruction Nat} {o : Nat} : i.InReach o ↔ ∀ l ∈ i.labels, i.Reaches o l := by
  cases i with
  | jump p l => simp [labels, InReach, Reaches, InNearReach, reach]
  | _ => exact Iff.rfl

theorem firstFar?_eq_none_iff {i : Instruction Nat} {o : Nat} : i.firstFar? o = none ↔ i.InReach o := by
  rw [inReach_iff, firstFar?, List.find?_eq_none]
  simp

theorem checkReach_eq_ok_iff {i : Instruction Nat} {o : Nat} : i.checkReach o = .ok () ↔ i.InReach o := by
  rw [checkReach_eq, ← firstFar?_eq_none_iff]
  cases i.firstFar? o <;> simp

theorem checkReach_eq_error_iff {i : Instruction Nat} {o : Nat} {f : Fault} :
    i.checkReach o = .error f ↔ ∃ t, i.firstFar? o = some t ∧ .branchOverflow o t = f := by
  rw [checkReach_eq]
  cases i.firstFar? o <;> simp

theorem check_eq_ok_iff {L : Type} {i : Instruction L} {u : Unit} :
    i.check = .ok u ↔ i.misfit? = none := by
  rw [check]
  cases i.misfit? <;> simp

section Emits

variable (o : Nat)

theorem emits_writeFarTarget (t : Nat) :
    (writeFarTarget o t).Emits (discard (farDistance o t)) (farImage o t) :=
  LawfulWire.emits_checked _ _

theorem emits_writeNearTarget (t : Nat) :
    (writeNearTarget o t).Emits (discard (nearDistance o t)) (nearImage o t) :=
  LawfulWire.emits_checked _ _

theorem emits_writeOperands (i : Instruction Nat) :
    (i.writeOperands o).Emits (i.checkReach o) (i.operandsImage o) := by
  have hfar := emits_writeFarTarget o
  cases i with
  | plain p => exact emits_pure
  | byteArgument p v => exact LawfulWire.emits_write v
  | pushByte v => exact LawfulWire.emits_write v
  | pushShort v => exact LawfulWire.emits_write v
  | constant p i => exact LawfulWire.emits_write i
  | increment x d => exact (LawfulWire.emits_write x).bind (LawfulWire.emits_write d)
  | multiArray i n => exact (LawfulWire.emits_write i).bind (LawfulWire.emits_write n)
  | callInterface i n =>
    exact (LawfulWire.emits_write i).bind ((LawfulWire.emits_write n).bind (LawfulWire.emits_write _))
  | callDynamic i => exact (LawfulWire.emits_write i).bind (LawfulWire.emits_write _)
  | jump p l => exact emits_writeNearTarget o l
  | farJump p l => simpa [checkReach, labels, writeOperands, operandsImage] using hfar l
  | tableSwitch d low ts =>
    exact (emits_put _).bind ((hfar d).bind ((LawfulWire.emits_write low).bind
      ((LawfulWire.emits_write _).bind (Emits.forM hfar ts))))
  | lookupSwitch d ps =>
    have hpair (p : Int32 × Nat) := (LawfulWire.emits_write p.1).bind (hfar p.2)
    have hpairs := (emits_put (paddingImage o)).bind ((hfar d).bind
      ((LawfulWire.emits_write (Int32.ofNat ps.length)).bind (Emits.forM hpair ps)))
    simp only [checkReach, labels, List.forM_eq_forM, List.forM_cons, List.forM_map]
    exact hpairs
  | wideLocal p x => exact LawfulWire.emits_write x
  | wideIncrement x d => exact (LawfulWire.emits_write x).bind (LawfulWire.emits_write d)

theorem emits_write (i : Instruction Nat) :
    (i.write o).Emits (do i.check; i.checkReach o) (i.image o) := by
  have hcode : (do if i.isWidened then Wire.write Opcode.wide.byte
                   Wire.write i.opcode.byte
                   i.writeOperands o : Writer Unit).Emits (i.checkReach o) (i.image o) := by
    have hbyte := (LawfulWire.emits_write i.opcode.byte).bind (emits_writeOperands o i)
    rw [image, prefixImage]
    by_cases hw : i.isWidened
    · simpa [hw] using (LawfulWire.emits_write Opcode.wide.byte).bind hbyte
    · simpa [hw] using hbyte
  exact (emits_ofExcept i.check).bind hcode

end Emits

/-- An instruction is written as its image when its operands are right and its labels near enough, and
not at all otherwise. -/
theorem bytes_write_eq_ok_iff {i : Instruction Nat} {o : Nat} {b : List UInt8} :
    (i.write o).bytes = .ok b ↔ i.misfit? = none ∧ i.InReach o ∧ b = i.image o := by
  rw [(emits_write o i).bytes_eq_ok_iff, Outcome.bind_eq_ok_iff]
  simp only [check_eq_ok_iff, checkReach_eq_ok_iff]
  simp [and_assoc]

theorem check_eq_error_iff {L : Type} {i : Instruction L} {f : Fault} :
    i.check = .error f ↔ ∃ m, i.misfit? = some m ∧ .misfit i.opcode m = f := by
  rw [check]
  cases i.misfit? <;> simp

theorem bytes_write_eq_error_iff {i : Instruction Nat} {o : Nat} {f : Fault} :
    (i.write o).bytes = .error f ↔
      i.check = .error f ∨ i.check = .ok () ∧ ∃ t, i.firstFar? o = some t ∧ .branchOverflow o t = f := by
  rw [(emits_write o i).bytes_eq, Outcome.map_eq_error_iff, Outcome.bind_eq_error_iff]
  refine or_congr_right ⟨fun ⟨_, hcheck, hfar⟩ => ⟨hcheck, checkReach_eq_error_iff.mp hfar⟩, ?_⟩
  exact fun ⟨hcheck, hfar⟩ => ⟨(), hcheck, checkReach_eq_error_iff.mpr hfar⟩

theorem bytes_write_eq_error {i : Instruction Nat} {o : Nat} {f : Fault} (hfit : i.misfit? = none)
    (h : (i.write o).bytes = .error f) : ∃ t, f = .branchOverflow o t := by
  rcases bytes_write_eq_error_iff.mp h with hcheck | ⟨-, t, -, rfl⟩
  · obtain ⟨m, hm, -⟩ := check_eq_error_iff.mp hcheck
    simp [hfit] at hm
  · exact ⟨t, rfl⟩

@[simp] theorem length_farImage (o t : Nat) : (farImage o t).length = 4 := length_image_int32 _

@[simp] theorem length_nearImage (o t : Nat) : (nearImage o t).length = 2 := length_image_int16 _

@[simp] theorem length_pairImage (o : Nat) (p : Int32 × Nat) : (pairImage o p).length = 8 := by
  simp [pairImage]

theorem length_flatMap_of_length {α : Type} {f : α → List UInt8} {n : Nat}
    (h : ∀ x, (f x).length = n) (xs : List α) : (xs.flatMap f).length = n * xs.length := by
  rw [List.length_flatMap]
  simp only [h, List.map_const', List.sum_replicate_nat, Nat.mul_comm]

theorem length_image (i : Instruction Nat) (o : Nat) : (i.image o).length = i.width o := by
  have hts (ts : List Nat) := length_flatMap_of_length (length_farImage o) ts
  have hps (ps : List (Int32 × Nat)) := length_flatMap_of_length (length_pairImage o) ps
  cases i <;>
    simp [image, prefixImage, operandsImage, isWidened, width, paddingImage, hts, hps] <;> omega

theorem width_pos {L : Type} (i : Instruction L) (o : Nat) : 0 < i.width o := by
  cases i <;> simp only [width] <;> omega

end Instruction

end ClassCode
