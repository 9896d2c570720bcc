import ClassCode.Instruction.Wire
import ClassCode.Proofs.Instruction.Labels
import ClassCode.Proofs.Stateful

/-! Passes over the labels. There are three ways to the labels of an instruction: to list them, to send each of
them through a function that may refuse it, and to put others in their place. They go over the same labels in
the same order, and leave everything else about the instruction alone. -/
namespace ClassCode.Instruction

open Stateful

variable {ε σ L M N : Type}

def operands : Instruction L → List Int
  | byteArgument _ v => [v.toNat]
  | pushByte v => [v.toInt]
  | pushShort v => [v.toInt]
  | constant _ i | callDynamic i => [i.slot.toNat]
  | increment x d => [x.toNat, d.toInt]
  | multiArray i n | callInterface i n => [i.slot.toNat, n.toNat]
  | tableSwitch _ low _ => [low.toInt]
  | wideLocal _ x => [x.toNat]
  | wideIncrement x d => [x.toNat, d.toInt]
  | plain _ | jump _ _ | farJump _ _ | lookupSwitch _ _ => []

def keys : Instruction L → List Int
  | tableSwitch _ low ts => (List.range ts.length).map fun (n : Nat) => low.toInt + n
  | lookupSwitch _ ps => ps.map fun p => p.1.toInt
  | _ => []

/-- Two instructions are the same, their labels apart. -/
structure SameApart (i : Instruction L) (j : Instruction M) : Prop where
  opcode : j.opcode = i.opcode
  isWidened : j.isWidened = i.isWidened
  operands : j.operands = i.operands
  keys : j.keys = i.keys
  check : j.check = i.check
  constants : j.constants = i.constants
  width : ∀ o, j.width o = i.width o

/-- What a pass with `f` over the labels of `i` does that starts in the state `s`. It succeeds if `f` accepts all
labels, called in their order, and keeps everything else; and it fails if one is refused after those before it
were accepted, as this one is refused, and without another call. -/
structure PassesInOrder (f : L → ExceptT ε (StateM σ) M) (i : Instruction L) (s : σ) : Prop where
  accepted : ∀ ms t, AcceptsAll f i.labels s ms t ↔ ∃ j, taken (i.traverse f) s = (.ok j, t) ∧ j.labels = ms
  kept : ∀ j t, taken (i.traverse f) s = (.ok j, t) → i.SameApart j
  refused : ∀ e t, taken (i.traverse f) s = (.error e, t) ↔
    ∃ before l after ms u, i.labels = before ++ l :: after ∧ AcceptsAll f before s ms u ∧
      taken (f l) u = (.error e, t)

section Rest

variable {f : L → ExceptT ε (StateM σ) M} {i : Instruction L} {j : Instruction M} {s t : σ}

theorem sameApart_tableSwitch (d : L) (e : M) (low : Int32) {ts : List L} {us : List M}
    (h : us.length = ts.length) : (tableSwitch d low ts).SameApart (tableSwitch e low us) := by
  have hempty : us.isEmpty = ts.isEmpty := by
    rw [Bool.eq_iff_iff, List.isEmpty_iff_length_eq_zero, List.isEmpty_iff_length_eq_zero, h]
  refine ⟨rfl, rfl, rfl, ?_, ?_, rfl, fun o => ?_⟩
  · rw [keys, keys, h]
  · simp only [check, misfit?, hempty, h, opcode]
  · rw [width, width, h]

theorem sameApart_lookupSwitch (d : L) (e : M) {ps : List (Int32 × L)} {qs : List (Int32 × M)}
    (h : qs.map Prod.fst = ps.map Prod.fst) : (lookupSwitch d ps).SameApart (lookupSwitch e qs) := by
  refine ⟨rfl, rfl, rfl, ?_, rfl, rfl, fun o => ?_⟩
  · have hkeys := congrArg (List.map Int32.toInt) h
    simpa only [keys, List.map_map, Function.comp_def] using hkeys
  · have hlength := congrArg List.length h
    simp only [List.length_map] at hlength
    rw [width, width, hlength]

theorem fst_of_acceptsAll {K : Type} {ps : List (K × L)} {qs : List (K × M)}
    (h : AcceptsAll (fun p => return (p.1, ← f p.2)) ps s qs t) : qs.map Prod.fst = ps.map Prod.fst := by
  induction h with
  | nil => rfl
  | cons head _ ih =>
    simp only [taken_bind_eq_ok_iff, taken_pure, Prod.mk.injEq, Except.ok.injEq] at head
    obtain ⟨m, u, -, rfl, rfl⟩ := head
    rw [List.map_cons, List.map_cons, ih]

theorem sameApart_of_taken (h : taken (i.traverse f) s = (.ok j, t)) : i.SameApart j := by
  cases i <;> simp only [traverse, taken_bind_eq_ok_iff, taken_pure, Prod.mk.injEq, Except.ok.injEq] at h
  case jump | farJump =>
    obtain ⟨m, u, -, rfl, rfl⟩ := h
    exact ⟨rfl, rfl, rfl, rfl, rfl, rfl, fun _ => rfl⟩
  case tableSwitch d low ts =>
    obtain ⟨e, u, -, us, v, hus, rfl, rfl⟩ := h
    exact sameApart_tableSwitch d e low (taken_mapM_eq_ok_iff.mp hus).length_eq
  case lookupSwitch d ps =>
    obtain ⟨e, u, -, qs, v, hqs, rfl, rfl⟩ := h
    exact sameApart_lookupSwitch d e (fst_of_acceptsAll (taken_mapM_eq_ok_iff.mp hqs))
  all_goals
    obtain ⟨rfl, -⟩ := h
    exact ⟨rfl, rfl, rfl, rfl, rfl, rfl, fun _ => rfl⟩

theorem sameApart_map (g : L → M) (i : Instruction L) : i.SameApart (i.map g) := by
  refine sameApart_of_taken (ε := Empty) (σ := Unit) (f := fun l => pure (g l)) (s := ()) (t := ()) ?_
  rw [traverse_map, taken_pure]

theorem passesInOrder (f : L → ExceptT ε (StateM σ) M) (i : Instruction L) (s : σ) : i.PassesInOrder f s where
  accepted ms t := by rw [← taken_mapM_eq_ok_iff, ← labels_traverse, taken_map_eq_ok_iff]
  kept j t := sameApart_of_taken
  refused e t := by rw [← taken_mapM_eq_error_iff, ← labels_traverse, taken_map_eq_error_iff]

/-! Labels in the place of others. -/

variable {ls : List L}

theorem labels_withLabels (h : ls.length = i.labels.length) : (i.withLabels ls).labels = ls := by
  cases i with
  | jump p l | farJump p l =>
    obtain ⟨m, rfl⟩ := List.length_eq_one_iff.mp h
    rfl
  | tableSwitch d low ts =>
    obtain ⟨e, us, rfl⟩ := List.exists_cons_of_length_eq_add_one h
    rfl
  | lookupSwitch d ps =>
    obtain ⟨e, us, rfl⟩ := List.exists_cons_of_length_eq_add_one h
    have hlength : us.length = (ps.map Prod.fst).length := by simpa [labels] using h
    rw [withLabels, labels, List.map_snd_zip (Nat.le_of_eq hlength)]
  | _ => exact (List.length_eq_zero_iff.mp h).symm

theorem sameApart_withLabels (h : ls.length = i.labels.length) : i.SameApart (i.withLabels ls) := by
  cases i with
  | jump p l | farJump p l =>
    obtain ⟨m, rfl⟩ := List.length_eq_one_iff.mp h
    exact ⟨rfl, rfl, rfl, rfl, rfl, rfl, fun _ => rfl⟩
  | tableSwitch d low ts =>
    obtain ⟨e, us, rfl⟩ := List.exists_cons_of_length_eq_add_one h
    exact sameApart_tableSwitch d e low (Nat.succ.inj h)
  | lookupSwitch d ps =>
    obtain ⟨e, us, rfl⟩ := List.exists_cons_of_length_eq_add_one h
    have hlength : us.length = (ps.map Prod.fst).length := by simpa [labels] using h
    exact sameApart_lookupSwitch d e (List.map_fst_zip (Nat.le_of_eq hlength.symm))
  | _ => exact ⟨rfl, rfl, rfl, rfl, rfl, rfl, fun _ => rfl⟩

theorem withLabels_map (g : L → L) (i : Instruction L) : i.withLabels (i.labels.map g) = i.map g := by
  cases i with
  | lookupSwitch d ps => simp [withLabels, labels, map, traverse, List.zip_map', Function.comp_def]
  | tableSwitch d low ts => simp [withLabels, labels, map, traverse]
  | _ => rfl

end Rest

/-- All ways to the labels go over the same ones in the same order. A pass with a function that may refuse labels
calls it with one after the other and stops at the first refusal; one that refuses nothing gives what `map`
gives. Labels that are put in the place of as many are the labels from then on, and putting there what a
function makes of the labels is `map` again. None of this changes anything else about the instruction, and two
passes are one with both functions. -/
theorem label_passes_agree (i : Instruction L) :
    (∀ (f : L → ExceptT ε (StateM σ) M) (s : σ), i.PassesInOrder f s) ∧
    (∀ g : L → M, i.traverse (fun l => Except.ok (ε := ε) (g l)) = .ok (i.map g) ∧
      (i.map g).labels = i.labels.map g ∧ i.SameApart (i.map g)) ∧
    (∀ ls : List L, ls.length = i.labels.length →
      (i.withLabels ls).labels = ls ∧ i.SameApart (i.withLabels ls)) ∧
    (∀ g : L → L, i.withLabels (i.labels.map g) = i.map g) ∧
    (∀ (g : L → M) (k : M → N), (i.map g).map k = i.map fun l => k (g l)) ∧
    ∀ (f : L → Except ε M) (j : Instruction M), i.traverse f = .ok j →
      ∀ k : M → Except ε N, j.traverse k = i.traverse fun l => f l >>= k := by
  refine ⟨fun f s => passesInOrder f i s, fun g => ⟨traverse_ok g i, labels_map g i, sameApart_map g i⟩,
    fun ls h => ⟨labels_withLabels h, sameApart_withLabels h⟩, fun g => withLabels_map g i,
    fun g k => map_map g k i, fun f j h k => ?_⟩
  refine traverse_of_traverse h fun l _ m hm => ?_
  rw [hm, Outcome.ok_bind]

/-- A switch with a label that occurs twice. The function takes note of its calls: it is called with the default
and the first case, refuses the second case, and is not called with the third. -/
theorem label_passes_agree_of_refused_case :
    let i : Instruction Nat := .lookupSwitch 7 [(1, 3), (5, 9), (6, 3)]
    let f : Nat → ExceptT Nat (StateM (List Nat)) Nat := fun l => do
      modify (l :: ·)
      if 9 ≤ l then throw l
      return l + 1
    let g : Nat → Except Nat Nat := fun l => if 9 < l then throw l else return l + 1
    taken (i.traverse f) [] = (.error 9, [9, 3, 7]) ∧
      (i.withLabels [1, 2, 3, 4]).labels = [1, 2, 3, 4] ∧ i.SameApart (i.withLabels [1, 2, 3, 4]) ∧
      i.traverse g = .ok (.lookupSwitch 8 [(1, 4), (5, 10), (6, 4)]) ∧
      (Instruction.lookupSwitch 8 [(1, 4), (5, 10), (6, 4)]).traverse g = i.traverse fun l => g l >>= g := by
  intro i f g
  obtain ⟨hpass, -, hput, -, -, htwice⟩ := label_passes_agree (ε := Nat) (σ := List Nat) (M := Nat) (N := Nat) i
  have hrefused : taken (i.traverse f) [] = (.error 9, [9, 3, 7]) :=
    ((hpass f []).refused 9 [9, 3, 7]).mpr
      ⟨[7, 3], 9, [3], [8, 4], [3, 7], rfl, .cons rfl (.cons rfl .nil), rfl⟩
  obtain ⟨hlabels, hsame⟩ := hput [1, 2, 3, 4] rfl
  have hg : i.traverse g = .ok (.lookupSwitch 8 [(1, 4), (5, 10), (6, 4)]) := rfl
  exact ⟨hrefused, hlabels, hsame, hg, htwice g _ hg g⟩

end ClassCode.Instruction
