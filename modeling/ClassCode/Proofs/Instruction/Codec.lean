import ClassCode.Proofs.Instruction.Image
import ClassCode.Proofs.Instruction.Labels

/-! Reading instructions. An instruction is read where its image is, and nothing else is: its operands have
to go with its opcode, its labels have to be near enough, and a lookup switch may not have more pairs than
its count can say. -/
namespace ClassCode

/-- The one opcode that some layouts of operands belong to. -/
def Mode.owner? : Mode → Option Opcode
  | .pushByte => some .bipush
  | .pushShort => some .sipush
  | .increment => some .iinc
  | .multiArray => some .multianewarray
  | .callInterface => some .invokeinterface
  | .callDynamic => some .invokedynamic
  | .tableSwitch => some .tableswitch
  | .lookupSwitch => some .lookupswitch
  | .widened => some .wide
  | _ => none

theorem Opcode.mode?_eq_some_of_owner? {m : Mode} {o : Opcode} (h : m.owner? = some o) :
    o.mode? = some m := by
  cases m <;> simp only [Mode.owner?, Option.some.injEq, reduceCtorEq] at h <;> subst h <;> rfl

theorem Opcode.eq_of_owner? {m : Mode} {o p : Opcode} (ho : o.mode? = some m)
    (hp : m.owner? = some p) : o = p := by
  have hall : ∀ n : Fin 256, ∀ m ∈ (⟨n.val.toUInt8⟩ : Opcode).mode?, ∀ p ∈ m.owner?,
      (⟨n.val.toUInt8⟩ : Opcode) = p := by
    decide +kernel
  have hbyte : (⟨o.byte.toNat.toUInt8⟩ : Opcode) = o := by simp
  have hself := hall ⟨o.byte.toNat, o.byte.toNat_lt⟩ m (by simpa [hbyte] using ho) p hp
  rwa [hbyte] at hself

namespace Instruction

open Reader LawfulWire

variable {bytes rest : List UInt8} {o : Nat}

def FewPairs {L : Type} : Instruction L → Prop
  | lookupSwitch _ ps => (ps.length : Int) ≤ maxInt32
  | _ => True

theorem fewPairs_of_width_le {L : Type} {i : Instruction L} (h : (i.width o : Int) ≤ maxInt32) :
    i.FewPairs := by
  cases i <;> simp only [FewPairs, width] at h ⊢
  omega

theorem fewPairs_map {L M : Type} (f : L → M) (i : Instruction L) : (i.map f).FewPairs ↔ i.FewPairs := by
  cases i <;> simp [map, traverse, FewPairs]

theorem fewPairs_of_traverse {ε L M : Type} {f : L → Except ε M} {i : Instruction L} {j : Instruction M}
    (h : i.traverse f = .ok j) (hi : i.FewPairs) : j.FewPairs := by
  rwa [← fewPairs_map (fun _ => ()) j, blank_of_traverse h, fewPairs_map]

theorem reach_map {L M : Type} (f : L → M) (i : Instruction L) : (i.map f).reach = i.reach := by
  cases i <;> rfl

/-- What can be read at `offset`. -/
structure Readable (offset : Nat) (i : Instruction Nat) : Prop where
  fitting : i.misfit? = none
  near : i.InReach offset
  few : i.FewPairs

theorem readTarget_eq_ok_iff {d : Int} {t : Nat} :
    readTarget o d bytes = .ok (t, rest) ↔ d = Layout.distance t o ∧ bytes = rest := by
  rw [readTarget]
  simp only [Layout.distance]
  split
  · simp only [malformed_eq_ok_iff, false_iff]
    omega
  · rw [pure_eq_ok_iff]
    refine and_congr_left fun _ => ?_
    omega

/-- A distance that is read as a number of some type, which has those from `least` to `greatest`. -/
theorem recognizes_distance {δ : Type} [Wire δ] [LawfulWire δ] {toInt : δ → Int} {ofInt : Int → δ}
    {least greatest : Int} (hof : ∀ d, ofInt (toInt d) = d) (hle : ∀ d, least ≤ toInt d ∧ toInt d ≤ greatest)
    (hto : ∀ v, least ≤ v → v ≤ greatest → toInt (ofInt v) = v) :
    Recognizes (do let d : δ ← Wire.read; readTarget o (toInt d))
      (fun t => least ≤ Layout.distance t o ∧ Layout.distance t o ≤ greatest)
      fun t => LawfulWire.image (ofInt (Layout.distance t o)) := by
  intro bytes t rest
  simp only [bind_eq_ok_iff, read_eq_ok_iff, readTarget_eq_ok_iff]
  constructor
  · rintro ⟨d, _, rfl, hd, rfl⟩
    rw [← hd, hof]
    exact ⟨hle d, rfl⟩
  · rintro ⟨hreach, rfl⟩
    exact ⟨_, _, rfl, hto _ hreach.1 hreach.2, rfl⟩

theorem recognizes_farTarget : (readFarTarget o).Recognizes (InFarReach o) (farImage o) := by
  refine recognizes_distance Int32.ofInt_toInt (fun d => ?_) fun v hleast hgreatest => ?_
  · exact ⟨d.le_toInt, Int.le_of_lt_add_one d.toInt_lt⟩
  · exact Int32.toInt_ofInt_of_le hleast (Int.lt_add_one_of_le hgreatest)

theorem recognizes_nearTarget :
    Recognizes (do let d : Int16 ← Wire.read; readTarget o d.toInt) (InNearReach o) (nearImage o) := by
  refine recognizes_distance Int16.ofInt_toInt (fun d => ?_) fun v hleast hgreatest => ?_
  · exact ⟨d.le_toInt, Int.le_of_lt_add_one d.toInt_lt⟩
  · exact Int16.toInt_ofInt_of_le hleast (Int.lt_add_one_of_le hgreatest)

theorem recognizes_pair :
    (readPair o).Recognizes (fun p => InFarReach o p.2) (pairImage o) := by
  intro bytes p rest
  simp only [readPair, bind_eq_ok_iff, read_eq_ok_iff, recognizes_farTarget _ _ _, pure_eq_ok_iff,
    pairImage]
  constructor
  · rintro ⟨k, _, rfl, t, _, ⟨ht, rfl⟩, rfl, rfl⟩
    exact ⟨ht, by simp⟩
  · rintro ⟨ht, rfl⟩
    exact ⟨p.1, farImage o p.2 ++ rest, by simp, p.2, rest, ⟨ht, rfl⟩, rfl, rfl⟩

theorem skipPadding_eq_ok_iff {p : Opcode} {n : Nat} {u : Unit} :
    skipPadding p o n bytes = .ok (u, rest) ↔ bytes = List.replicate n 0 ++ rest := by
  induction n generalizing bytes with
  | zero => simp [skipPadding, pure_eq_ok_iff]
  | succ n ih =>
    simp only [skipPadding, bind_eq_ok_iff, read_eq_ok_iff, image_uint8, refuse_eq_ok_iff, ih]
    constructor
    · rintro ⟨b, _, rfl, hb, rfl⟩
      obtain rfl : b = 0 := Decidable.not_not.mp hb
      rfl
    · rintro rfl
      exact ⟨0, List.replicate n 0 ++ rest, rfl, by simp, rfl⟩

theorem toInt_highKey_of_fitting {L : Type} {d : L} {low : Int32} {ts : List L}
    (h : (tableSwitch d low ts).misfit? = none) :
    0 < ts.length ∧ (Int32.ofInt (highKey low ts.length)).toInt = highKey low ts.length := by
  obtain ⟨hne, hmax⟩ : ts ≠ [] ∧ highKey low ts.length ≤ maxInt32 := by simpa [misfit?] using h
  have hpos := List.length_pos_iff.mpr hne
  have hmin := low.le_toInt
  simp only [highKey, maxInt32] at hmax
  refine ⟨hpos, ?_⟩
  apply Int32.toInt_ofInt_of_le <;> rw [highKey] <;> omega

/-- A table that is read has its keys from `low` to the greatest one, which is read too. -/
theorem readTableSwitch_eq_ok_iff {p : Opcode} {i : Instruction Nat} :
    readTableSwitch p o bytes = .ok (i, rest) ↔
      ∃ d low ts, tableSwitch d low ts = i ∧ i.Readable o ∧ bytes = i.operandsImage o ++ rest := by
  simp only [readTableSwitch, bind_eq_ok_iff, skipPadding_eq_ok_iff, recognizes_farTarget _ _ _,
    read_eq_ok_iff, refuse_eq_ok_iff, times_eq_ok_iff recognizes_farTarget, pure_eq_ok_iff]
  constructor
  · rintro ⟨_, _, rfl, d, _, ⟨hd, rfl⟩, low, _, rfl, high, _, rfl, hle, ts, _, ⟨hlen, hts, rfl⟩, rfl, rfl⟩
    rw [Int32.lt_iff_toInt_lt] at hle
    have hmax := high.toInt_lt
    have hkey : highKey low ts.length = high.toInt := by
      rw [highKey]
      omega
    refine ⟨d, low, ts, rfl, ⟨?_, ?_, trivial⟩, ?_⟩
    · have hne : ts ≠ [] := by
        rintro rfl
        simp at hlen
        omega
      simp [misfit?, hne, hkey, maxInt32]
      omega
    · simpa [InReach, labels] using ⟨hd, hts⟩
    · simp [operandsImage, hkey, paddingImage]
  · rintro ⟨d, low, ts, rfl, ⟨hfit, hnear, -⟩, rfl⟩
    have himage : (tableSwitch d low ts).operandsImage o ++ rest =
        paddingImage o ++ (farImage o d ++ (LawfulWire.image low ++
          (LawfulWire.image (Int32.ofInt (highKey low ts.length)) ++ (ts.flatMap (farImage o) ++ rest)))) := by
      simp [operandsImage]
    obtain ⟨hd, hts⟩ : InFarReach o d ∧ ∀ t ∈ ts, InFarReach o t := by
      simpa [InReach, labels] using hnear
    obtain ⟨hpos, hkey⟩ := toInt_highKey_of_fitting hfit
    rw [himage]
    refine ⟨(), _, rfl, d, _, ⟨hd, rfl⟩, low, _, rfl, _, _, rfl, ?_, ts, rest, ⟨?_, hts, rfl⟩, rfl, rfl⟩
    · rw [Int32.lt_iff_toInt_lt, hkey, highKey]
      omega
    · rw [hkey, highKey]
      omega

theorem readLookupSwitch_eq_ok_iff {p : Opcode} {i : Instruction Nat} :
    readLookupSwitch p o bytes = .ok (i, rest) ↔
      ∃ d ps, lookupSwitch d ps = i ∧ i.Readable o ∧ bytes = i.operandsImage o ++ rest := by
  simp only [readLookupSwitch, bind_eq_ok_iff, skipPadding_eq_ok_iff, recognizes_farTarget _ _ _,
    read_eq_ok_iff, refuse_eq_ok_iff, times_eq_ok_iff recognizes_pair, pure_eq_ok_iff]
  constructor
  · rintro ⟨_, _, rfl, d, _, ⟨hd, rfl⟩, n, _, rfl, hle, ps, _, ⟨hlen, hps, rfl⟩, rfl, rfl⟩
    rw [Int32.lt_iff_toInt_lt, Int32.toInt_zero] at hle
    have hmax := n.toInt_lt
    have hcount : Int32.ofNat ps.length = n := by
      rw [← Int32.ofInt_eq_ofNat, hlen, Int.toNat_of_nonneg (by omega), Int32.ofInt_toInt]
    refine ⟨d, ps, rfl, ⟨rfl, ?_, ?_⟩, ?_⟩
    · simp only [InReach, labels, List.mem_cons, List.mem_map, forall_eq_or_imp]
      refine ⟨hd, ?_⟩
      rintro _ ⟨q, hq, rfl⟩
      exact hps q hq
    · simp only [FewPairs, maxInt32]
      omega
    · simp [operandsImage, hcount, paddingImage]
  · rintro ⟨d, ps, rfl, ⟨-, hnear, hfew⟩, rfl⟩
    have himage : (lookupSwitch d ps).operandsImage o ++ rest =
        paddingImage o ++ (farImage o d ++
          (LawfulWire.image (Int32.ofNat ps.length) ++ (ps.flatMap (pairImage o) ++ rest))) := by
      simp [operandsImage]
    have hreach : InFarReach o d ∧ ∀ q ∈ ps, InFarReach o q.2 := by
      refine ⟨hnear d (by simp [labels]), fun q hq => hnear q.2 ?_⟩
      simp only [labels, List.mem_cons]
      exact .inr (List.mem_map_of_mem hq)
    simp only [FewPairs, maxInt32] at hfew
    have hcount : (Int32.ofNat ps.length).toInt = ps.length := Int32.toInt_ofNat_of_lt (by omega)
    rw [himage]
    refine ⟨(), _, rfl, d, _, ⟨hreach.1, rfl⟩, _, _, rfl, ?_, ps, rest, ⟨?_, hreach.2, rfl⟩, rfl, rfl⟩
    · rw [Int32.lt_iff_toInt_lt, hcount, Int32.toInt_zero]
      omega
    · rw [hcount]
      rfl

theorem readWidened_eq_ok_iff {i : Instruction Nat} :
    readWidened o bytes = .ok (i, rest) ↔
      i.isWidened ∧ i.Readable o ∧ bytes = i.opcode.byte :: i.operandsImage o ++ rest := by
  simp only [readWidened, bind_eq_ok_iff, read_eq_ok_iff, image_uint8, refuse_eq_ok_iff]
  constructor
  · rintro ⟨b, mid, rfl, hwide, h⟩
    split at h
    · rename_i hiinc
      simp only [bind_eq_ok_iff, read_eq_ok_iff, pure_eq_ok_iff] at h
      obtain ⟨x, _, rfl, d, _, rfl, rfl, rfl⟩ := h
      exact ⟨rfl, ⟨rfl, by simp [InReach, labels], trivial⟩, by
        simp [operandsImage, opcode, ← hiinc]⟩
    · rename_i hiinc
      simp only [bind_eq_ok_iff, read_eq_ok_iff, pure_eq_ok_iff] at h
      obtain ⟨x, _, rfl, rfl, rfl⟩ := h
      refine ⟨rfl, ⟨?_, by simp [InReach, labels], trivial⟩, rfl⟩
      simpa [misfit?, hiinc] using hwide
  · rintro ⟨hw, ⟨hfit, -, -⟩, rfl⟩
    cases i with
    | wideLocal p x =>
      obtain ⟨hwide, hiinc⟩ : p.isWidenable ∧ p ≠ .iinc := by
        simpa [misfit?] using hfit
      refine ⟨p.byte, _, rfl, by simp [hwide], ?_⟩
      rw [if_neg hiinc]
      simp only [bind_eq_ok_iff, read_eq_ok_iff, pure_eq_ok_iff]
      exact ⟨x, rest, rfl, rfl, rfl⟩
    | wideIncrement x d =>
      refine ⟨Opcode.iinc.byte, LawfulWire.image x ++ (LawfulWire.image d ++ rest),
        by simp [operandsImage, opcode], by decide, ?_⟩
      rw [if_pos rfl]
      simp only [bind_eq_ok_iff, read_eq_ok_iff, pure_eq_ok_iff]
      exact ⟨x, _, rfl, d, rest, rfl, rfl, rfl⟩
    | _ => simp [isWidened] at hw

theorem read_eq_ok_iff_readOperands {i : Instruction Nat} :
    read o bytes = .ok (i, rest) ↔ ∃ (p : Opcode) (m : Mode) (operands : List UInt8),
      p.mode? = some m ∧ bytes = p.byte :: operands ∧ readOperands p o m operands = .ok (i, rest) := by
  simp only [read, bind_eq_ok_iff, LawfulWire.read_eq_ok_iff, image_uint8]
  constructor
  · rintro ⟨b, mid, rfl, h⟩
    cases hm : (⟨b⟩ : Opcode).mode? with
    | some m =>
      rw [hm] at h
      exact ⟨⟨b⟩, m, mid, hm, rfl, h⟩
    | none =>
      rw [hm] at h
      exact (throw_eq_ok_iff.mp h).elim
  · rintro ⟨p, m, mid, hm, rfl, h⟩
    refine ⟨p.byte, mid, rfl, ?_⟩
    rw [hm]
    exact h

theorem readable_of_labels_nil {i : Instruction Nat} (hfit : i.misfit? = none) (hl : i.labels = []) :
    i.Readable o := by
  cases i with
  | jump | farJump | tableSwitch | lookupSwitch => simp [labels] at hl
  | _ => exact ⟨hfit, by simp [InReach, labels], trivial⟩

theorem readable_of_read {i : Instruction Nat} (h : read o bytes = .ok (i, rest)) :
    i.Readable o ∧ bytes = i.image o ++ rest := by
  obtain ⟨p, m, mid, hm, rfl, h⟩ := read_eq_ok_iff_readOperands.mp h
  have howner {q : Opcode} (hq : m.owner? = some q) : p = q := Opcode.eq_of_owner? hm hq
  cases m <;> simp only [readOperands, bind_eq_ok_iff, LawfulWire.read_eq_ok_iff, refuse_eq_ok_iff,
    pure_eq_ok_iff, recognizes_farTarget _ _ _, readTableSwitch_eq_ok_iff, readLookupSwitch_eq_ok_iff,
    readWidened_eq_ok_iff] at h
  case plain =>
    obtain ⟨rfl, rfl⟩ := h
    exact ⟨readable_of_labels_nil (by simp [misfit?, hm]) rfl, rfl⟩
  case byteArgument =>
    obtain ⟨v, _, rfl, rfl, rfl⟩ := h
    exact ⟨readable_of_labels_nil (by simp [misfit?, hm]) rfl, rfl⟩
  case pushByte =>
    obtain ⟨v, _, rfl, rfl, rfl⟩ := h
    obtain rfl := howner rfl
    exact ⟨readable_of_labels_nil rfl rfl, rfl⟩
  case pushShort =>
    obtain ⟨v, _, rfl, rfl, rfl⟩ := h
    obtain rfl := howner rfl
    exact ⟨readable_of_labels_nil rfl rfl, rfl⟩
  case constant =>
    obtain ⟨v, _, rfl, rfl, rfl⟩ := h
    exact ⟨readable_of_labels_nil (by simp [misfit?, hm]) rfl, rfl⟩
  case increment | multiArray =>
    obtain ⟨x, _, rfl, d, _, rfl, rfl, rfl⟩ := h
    obtain rfl := howner rfl
    exact ⟨readable_of_labels_nil rfl rfl, by simp [image, prefixImage, operandsImage, isWidened, opcode]⟩
  case callInterface =>
    obtain ⟨x, _, rfl, n, _, rfl, z, _, rfl, hz, rfl, rfl⟩ := h
    obtain rfl := howner rfl
    obtain rfl := Decidable.not_not.mp hz
    exact ⟨readable_of_labels_nil rfl rfl, by simp [image, prefixImage, operandsImage, isWidened, opcode]⟩
  case callDynamic =>
    obtain ⟨x, _, rfl, z, _, rfl, hz, rfl, rfl⟩ := h
    obtain rfl := howner rfl
    obtain rfl := Decidable.not_not.mp hz
    exact ⟨readable_of_labels_nil rfl rfl, by simp [image, prefixImage, operandsImage, isWidened, opcode]⟩
  case jump =>
    obtain ⟨d, _, rfl, t, _, ht, rfl, rfl⟩ := h
    have hnear := (recognizes_nearTarget _ t _).mp
      (bind_eq_ok_iff.mpr ⟨d, _, LawfulWire.read_eq_ok_iff.mpr rfl, ht⟩)
    exact ⟨⟨by simp [misfit?, hm], hnear.1, trivial⟩, by rw [hnear.2]; rfl⟩
  case farJump =>
    obtain ⟨t, _, ⟨ht, rfl⟩, rfl, rfl⟩ := h
    exact ⟨⟨by simp [misfit?, hm], by simpa [InReach, labels] using ht, trivial⟩, rfl⟩
  case tableSwitch =>
    obtain ⟨d, low, ts, rfl, hread, rfl⟩ := h
    obtain rfl := howner rfl
    exact ⟨hread, rfl⟩
  case lookupSwitch =>
    obtain ⟨d, ps, rfl, hread, rfl⟩ := h
    obtain rfl := howner rfl
    exact ⟨hread, rfl⟩
  case widened =>
    obtain ⟨hwide, hread, rfl⟩ := h
    obtain rfl := howner rfl
    exact ⟨hread, by simp [image, prefixImage, hwide]⟩

theorem Readable.readOperands {i : Instruction Nat} (h : i.Readable o) (hw : i.isWidened = false)
    (rest : List UInt8) : ∃ m, i.opcode.mode? = some m ∧
      readOperands i.opcode o m (i.operandsImage o ++ rest) = .ok (i, rest) := by
  have howned {m : Mode} {p : Opcode} (hm : m.owner? = some p) : p.mode? = some m :=
    Opcode.mode?_eq_some_of_owner? hm
  obtain ⟨hfit, hnear, -⟩ := id h
  cases i with
  | plain p => exact ⟨.plain, by simpa [misfit?, opcode] using hfit, rfl⟩
  | byteArgument p v =>
    refine ⟨.byteArgument, by simpa [misfit?, opcode] using hfit, ?_⟩
    exact bind_eq_ok_iff.mpr ⟨v, rest, LawfulWire.read_eq_ok_iff.mpr rfl, rfl⟩
  | constant p x =>
    refine ⟨.constant, by simpa [misfit?, opcode] using hfit, ?_⟩
    exact bind_eq_ok_iff.mpr ⟨x, rest, LawfulWire.read_eq_ok_iff.mpr rfl, rfl⟩
  | pushByte v =>
    refine ⟨.pushByte, howned rfl, ?_⟩
    exact bind_eq_ok_iff.mpr ⟨v, rest, LawfulWire.read_eq_ok_iff.mpr rfl, rfl⟩
  | pushShort v =>
    refine ⟨.pushShort, howned rfl, ?_⟩
    exact bind_eq_ok_iff.mpr ⟨v, rest, LawfulWire.read_eq_ok_iff.mpr rfl, rfl⟩
  | increment x d =>
    refine ⟨.increment, howned rfl, ?_⟩
    simp only [Instruction.readOperands, bind_eq_ok_iff, LawfulWire.read_eq_ok_iff, pure_eq_ok_iff]
    exact ⟨x, _, List.append_assoc .., d, rest, rfl, rfl, rfl⟩
  | multiArray x n =>
    refine ⟨.multiArray, howned rfl, ?_⟩
    simp only [Instruction.readOperands, bind_eq_ok_iff, LawfulWire.read_eq_ok_iff, pure_eq_ok_iff]
    exact ⟨x, _, List.append_assoc .., n, rest, rfl, rfl, rfl⟩
  | callInterface x n =>
    refine ⟨.callInterface, howned rfl, ?_⟩
    simp only [Instruction.readOperands, bind_eq_ok_iff, LawfulWire.read_eq_ok_iff, refuse_eq_ok_iff,
      pure_eq_ok_iff]
    exact ⟨x, _, List.append_assoc .., n, _, List.append_assoc .., 0, rest, rfl, by simp, rfl, rfl⟩
  | callDynamic x =>
    refine ⟨.callDynamic, howned rfl, ?_⟩
    simp only [Instruction.readOperands, bind_eq_ok_iff, LawfulWire.read_eq_ok_iff, refuse_eq_ok_iff,
      pure_eq_ok_iff]
    exact ⟨x, _, List.append_assoc .., 0, rest, rfl, by simp, rfl, rfl⟩
  | jump p l =>
    refine ⟨.jump, by simpa [misfit?, opcode] using hfit, ?_⟩
    obtain ⟨d, mid, hd, hl⟩ := bind_eq_ok_iff.mp ((recognizes_nearTarget _ l rest).mpr ⟨hnear, rfl⟩)
    exact bind_eq_ok_iff.mpr ⟨d, mid, hd, bind_eq_ok_iff.mpr ⟨l, rest, hl, rfl⟩⟩
  | farJump p l =>
    refine ⟨.farJump, by simpa [misfit?, opcode] using hfit, ?_⟩
    have hl : InFarReach o l := hnear l (by simp [labels])
    exact bind_eq_ok_iff.mpr ⟨l, rest, (recognizes_farTarget _ l rest).mpr ⟨hl, rfl⟩, rfl⟩
  | tableSwitch d low ts =>
    exact ⟨.tableSwitch, howned rfl, readTableSwitch_eq_ok_iff.mpr ⟨d, low, ts, rfl, h, rfl⟩⟩
  | lookupSwitch d ps =>
    exact ⟨.lookupSwitch, howned rfl, readLookupSwitch_eq_ok_iff.mpr ⟨d, ps, rfl, h, rfl⟩⟩
  | wideLocal | wideIncrement => simp [isWidened] at hw

theorem Readable.read {i : Instruction Nat} (h : i.Readable o) (rest : List UInt8) :
    read o (i.image o ++ rest) = .ok (i, rest) := by
  rw [read_eq_ok_iff_readOperands]
  cases hw : i.isWidened with
  | false =>
    obtain ⟨m, hm, hread⟩ := h.readOperands hw rest
    exact ⟨i.opcode, m, _, hm, by simp [image, prefixImage, hw], hread⟩
  | true =>
    refine ⟨.wide, .widened, i.opcode.byte :: i.operandsImage o ++ rest, rfl, ?_, ?_⟩
    · simp [image, prefixImage, hw]
    · exact readWidened_eq_ok_iff.mpr ⟨hw, h, rfl⟩

/-- Just what can be read is read, and all of it. -/
theorem recognizes_read : (read o).Recognizes (Readable o) fun i => i.image o := by
  intro bytes i rest
  constructor
  · exact readable_of_read
  · rintro ⟨h, rfl⟩
    exact h.read rest

end Instruction

end ClassCode
