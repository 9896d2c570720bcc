import ClassCode.Proofs.Instruction.RoundTrip
import ClassCode.Proofs.Instruction.Traversal

/-! Moving instructions. Where an instruction is matters to its bytes only through the distances to its labels,
and, for a switch, through the padding up to the next multiple of four. So an instruction that moves together
with its labels keeps its bytes: a switch wherever the padding is the same, and any other everywhere. -/
namespace ClassCode

theorem switchPadding_add {k : Nat} (h : 4 ∣ k) (o : Nat) : switchPadding (o + k) = switchPadding o := by
  simp only [switchPadding]
  omega

theorem Layout.distance_add_add (a b d : Nat) : distance (a + d) (b + d) = distance a b := by
  simp only [distance]
  omega

/-- The complaint about something that is `d` offsets further on, and leads to something as much further on. -/
def Fault.ahead (d : Nat) : Fault → Fault
  | branchOverflow offset target => branchOverflow (offset + d) (target + d)
  | f => f

namespace Instruction

variable {L : Type} {i : Instruction L}

def isSwitch : Instruction L → Bool
  | tableSwitch _ _ _ | lookupSwitch _ _ => true
  | _ => false

theorem width_of_not_isSwitch (h : ¬ i.isSwitch) (o p : Nat) : i.width o = i.width p := by
  cases i <;> first | rfl | exact absurd rfl h

theorem width_of_isSwitch (h : i.isSwitch) (o p : Nat) :
    i.width o + switchPadding p = i.width p + switchPadding o := by
  cases i with
  | tableSwitch _ _ ts =>
    simp only [width]
    omega
  | lookupSwitch _ ps =>
    simp only [width]
    omega
  | _ => exact absurd h Bool.false_ne_true

theorem width_add {k : Nat} (h : 4 ∣ k) (i : Instruction L) (o : Nat) : i.width (o + k) = i.width o := by
  by_cases hi : i.isSwitch
  · have hwidth := width_of_isSwitch hi (o + k) o
    rw [switchPadding_add h] at hwidth
    exact Nat.add_right_cancel hwidth
  · exact width_of_not_isSwitch hi _ _

def ahead (d : Nat) (i : Instruction Nat) : Instruction Nat := i.map (· + d)

variable {d o : Nat} {i : Instruction Nat}

theorem width_ahead (h : i.isSwitch → 4 ∣ d) (o : Nat) : (i.ahead d).width (o + d) = i.width o := by
  rw [ahead, width_map]
  by_cases hi : i.isSwitch
  · exact width_add (h hi) i o
  · exact width_of_not_isSwitch hi _ _

theorem reaches_ahead (t : Nat) : (i.ahead d).Reaches (o + d) (t + d) ↔ i.Reaches o t := by
  rw [Reaches, Reaches, ahead, reach_map, Layout.distance_add_add]

theorem labels_ahead : (i.ahead d).labels = i.labels.map (· + d) := labels_map _ i

theorem inReach_ahead : (i.ahead d).InReach (o + d) ↔ i.InReach o := by
  simp [inReach_iff, labels_ahead, reaches_ahead]

theorem firstFar?_ahead : (i.ahead d).firstFar? (o + d) = (i.firstFar? o).map (· + d) := by
  rw [firstFar?, labels_ahead, List.find?_map]
  simp only [Function.comp_def, reaches_ahead]
  rfl

theorem farImage_ahead (t : Nat) : farImage (o + d) (t + d) = farImage o t := by
  rw [farImage, farImage, Layout.distance_add_add]

theorem nearImage_ahead (t : Nat) : nearImage (o + d) (t + d) = nearImage o t := by
  rw [nearImage, nearImage, Layout.distance_add_add]

theorem pairImage_ahead (p : Int32 × Nat) : pairImage (o + d) (p.1, p.2 + d) = pairImage o p := by
  rw [pairImage, pairImage, farImage_ahead]

theorem operandsImage_ahead (h : i.isSwitch → 4 ∣ d) :
    (i.ahead d).operandsImage (o + d) = i.operandsImage o := by
  cases i with
  | jump p l => exact nearImage_ahead l
  | farJump p l => exact farImage_ahead l
  | tableSwitch e low ts =>
    have hpadding : paddingImage (o + d) = paddingImage o := by
      rw [paddingImage, paddingImage, switchPadding_add (h rfl)]
    simp [ahead, map, traverse, operandsImage, hpadding, farImage_ahead, List.flatMap_map]
  | lookupSwitch e ps =>
    have hpadding : paddingImage (o + d) = paddingImage o := by
      rw [paddingImage, paddingImage, switchPadding_add (h rfl)]
    simp [ahead, map, traverse, operandsImage, hpadding, farImage_ahead, pairImage_ahead, List.flatMap_map]
  | _ => rfl

theorem image_ahead (h : i.isSwitch → 4 ∣ d) : (i.ahead d).image (o + d) = i.image o := by
  have hprefix : (i.ahead d).prefixImage = i.prefixImage := by cases i <;> rfl
  rw [image, image, hprefix, operandsImage_ahead h]

theorem readable_ahead : (i.ahead d).Readable (o + d) ↔ i.Readable o := by
  constructor
  · rintro ⟨hfit, hnear, hfew⟩
    exact ⟨(misfit?_map _ i).symm.trans hfit, inReach_ahead.mp hnear, (fewPairs_map _ i).mp hfew⟩
  · rintro ⟨hfit, hnear, hfew⟩
    exact ⟨(misfit?_map _ i).trans hfit, inReach_ahead.mpr hnear, (fewPairs_map _ i).mpr hfew⟩

theorem checkReach_ahead : (i.ahead d).checkReach (o + d) = (i.checkReach o).mapError (Fault.ahead d) := by
  rw [checkReach_eq, checkReach_eq, firstFar?_ahead]
  cases i.firstFar? o <;> rfl

theorem decodeAt_ahead (h : i.isSwitch → 4 ∣ d) {bytes : List UInt8} {cursor n : Nat} :
    decodeAt bytes cursor (o + d) = .ok (i.ahead d, n) ↔ decodeAt bytes cursor o = .ok (i, n) := by
  rw [decodeAt_eq_ok_iff, decodeAt_eq_ok_iff, readable_ahead, width_ahead h, image_ahead h]

theorem encodeAt_ahead (h : i.isSwitch → 4 ∣ d) :
    (i.ahead d).encodeAt (o + d) = (i.encodeAt o).mapError (Fault.ahead d) := by
  have hcheck : (i.ahead d).check = i.check := (sameApart_map (· + d) i).check
  rw [encodeAt, encodeAt, (emits_write _ _).bytes_eq, (emits_write _ _).bytes_eq, image_ahead h, hcheck,
    checkReach_ahead]
  cases hi : i.check with
  | error f =>
    obtain ⟨m, -, rfl⟩ := check_eq_error_iff.mp hi
    rfl
  | ok u => cases i.checkReach o <;> rfl

/-- An instruction that moves together with its labels, by a multiple of four if it is a switch, is read from the
bytes that it was read from and takes as many of them. It is written as the same bytes; and if it could not be
written where it was, it cannot be where it is, for the same cause with the offsets moved along. -/
theorem relocatable (h : i.isSwitch → 4 ∣ d) (o : Nat) :
    (∀ (bytes : List UInt8) (cursor n : Nat),
      decodeAt bytes cursor (o + d) = .ok (i.ahead d, n) ↔ decodeAt bytes cursor o = .ok (i, n)) ∧
    (i.ahead d).encodeAt (o + d) = (i.encodeAt o).mapError (Fault.ahead d) :=
  ⟨fun _ _ _ => decodeAt_ahead h, encodeAt_ahead h⟩

/-- A switch with two bytes of padding that moves by eight, a jump back that moves by three, and one that is a byte
too far wherever it is. -/
theorem relocatable_of_padded_switch_and_jumps :
    decodeAt [0xab, 0, 0, 0xff, 0xff, 0xff, 0xfe, 0, 0, 0, 1, 0, 0, 0, 7, 0, 0, 0, 9] 0 9 =
        .ok (.lookupSwitch 7 [(7, 18)], 19) ∧
      decodeAt [0xab, 0, 0, 0xff, 0xff, 0xff, 0xfe, 0, 0, 0, 1, 0, 0, 0, 7, 0, 0, 0, 9] 0 17 =
        .ok (.lookupSwitch 15 [(7, 26)], 19) ∧
      decodeAt [0xa7, 0xff, 0xfe] 0 5 = .ok (.jump ⟨0xa7⟩ 3, 3) ∧
      decodeAt [0xa7, 0xff, 0xfe] 0 8 = .ok (.jump ⟨0xa7⟩ 6, 3) ∧
      (Instruction.jump ⟨0xa7⟩ 0).encodeAt 32769 = .error (.branchOverflow 32769 0) ∧
      (Instruction.jump ⟨0xa7⟩ 3).encodeAt 32772 = .error (.branchOverflow 32772 3) := by
  have hswitch : decodeAt [0xab, 0, 0, 0xff, 0xff, 0xff, 0xfe, 0, 0, 0, 1, 0, 0, 0, 7, 0, 0, 0, 9] 0 9 =
      .ok (.lookupSwitch 7 [(7, 18)], 19) := rfl
  have hjump : decodeAt [0xa7, 0xff, 0xfe] 0 5 = .ok (.jump ⟨0xa7⟩ 3, 3) := rfl
  have hfar : (Instruction.jump ⟨0xa7⟩ 0).encodeAt 32769 = .error (.branchOverflow 32769 0) := rfl
  obtain ⟨hread, -⟩ := relocatable (i := .lookupSwitch 7 [(7, 18)]) (d := 8) (fun _ => by decide) 9
  obtain ⟨hjumped, -⟩ := relocatable (i := .jump ⟨0xa7⟩ 3) (d := 3) nofun 5
  obtain ⟨-, hrefused⟩ := relocatable (i := .jump ⟨0xa7⟩ 0) (d := 3) nofun 32769
  rw [hfar] at hrefused
  exact ⟨hswitch, (hread _ _ _).mpr hswitch, hjump, (hjumped _ _ _).mpr hjump, hfar, hrefused⟩

end Instruction

end ClassCode
