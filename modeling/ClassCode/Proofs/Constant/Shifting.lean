import ClassCode.Constant.Basic

/-! Shifting references. They are shifted one index after the other, but no index is shifted twice, so all
of them shift at once. -/
namespace ClassCode

namespace PoolIndex

theorem shift_of_le {i r : PoolIndex} (w : UInt16) (h : r.slot.toNat ≤ i.slot.toNat) : shift i w r = r := by
  rw [shift, if_neg]
  rw [UInt16.lt_iff_toNat_lt]
  omega

theorem toNat_shift {i r : PoolIndex} {w : UInt16} (hw : w.toNat ≤ i.slot.toNat + 1)
    (h : i.slot.toNat < r.slot.toNat) : (shift i w r).slot.toNat = r.slot.toNat - w.toNat := by
  rw [shift, if_pos (UInt16.lt_iff_toNat_lt.mpr h)]
  exact UInt16.toNat_sub_of_le _ _ (UInt16.le_iff_toNat_le.mpr (by omega))

/-- Indices that are replaced one after the other, none of them by one that is replaced later. -/
theorem foldl_replace {f : PoolIndex → PoolIndex} {stale : List PoolIndex}
    (h : stale.Pairwise fun o k => f o ≠ k) (r : PoolIndex) :
    stale.foldl (fun r old => if r = old then f old else r) r = if r ∈ stale then f r else r := by
  induction stale generalizing r with
  | nil => simp
  | cons old stale ih =>
    obtain ⟨hfirst, hrest⟩ := List.pairwise_cons.mp h
    rw [List.foldl_cons, ih hrest]
    by_cases hr : r = old
    · subst hr
      have hnot : f r ∉ stale := fun hmem => hfirst _ hmem rfl
      simp [hnot]
    · simp [hr]

end PoolIndex

namespace Constant

theorem slots_pos (c : Constant) : 0 < c.slots := by
  rw [slots]
  split <;> decide

theorem slots_le_two (c : Constant) : c.slots ≤ 2 := by
  rw [slots]
  split <;> decide

theorem toNat_slots (c : Constant) : c.slots.toUInt16.toNat = c.slots :=
  UInt16.toNat_ofNat_of_lt' (Nat.lt_of_le_of_lt c.slots_le_two (by decide))

@[simp] theorem slots_mapReferences (f : PoolIndex → PoolIndex) (c : Constant) :
    (c.mapReferences f).slots = c.slots := by
  cases c <;> rfl

variable (c : Constant)

theorem mapReferences_mapReferences (f g : PoolIndex → PoolIndex) :
    (c.mapReferences f).mapReferences g = c.mapReferences fun r => g (f r) := by
  cases c <;> rfl

theorem mapReferences_id : (c.mapReferences fun r => r) = c := by
  cases c <;> rfl

variable {c} in
theorem mapReferences_congr {f g : PoolIndex → PoolIndex} (h : ∀ r ∈ c.references, f r = g r) :
    c.mapReferences f = c.mapReferences g := by
  cases c <;> simp_all [mapReferences, references]

/-- References are replaced one after the other, each on its own. -/
theorem foldl_renumber (f : PoolIndex → PoolIndex) (stale : List PoolIndex) :
    stale.foldl (fun c old => c.renumber old (f old)) c =
      c.mapReferences fun r => stale.foldl (fun r old => if r = old then f old else r) r := by
  induction stale generalizing c with
  | nil => exact c.mapReferences_id.symm
  | cons old stale ih =>
    rw [List.foldl_cons, ih, renumber, mapReferences_mapReferences]
    rfl

theorem shiftReferences_eq {i : PoolIndex} {w : UInt16} (hpos : 0 < w.toNat)
    (hw : w.toNat ≤ i.slot.toNat + 1) :
    c.shiftReferences i w = c.mapReferences (PoolIndex.shift i w) := by
  let past := c.references.filter fun r => i.slot < r.slot
  let stale := past.eraseDups.mergeSort fun r k => r.slot ≤ k.slot
  have hmem (r : PoolIndex) : r ∈ stale ↔ r ∈ c.references ∧ i.slot.toNat < r.slot.toNat := by
    simp [stale, past, UInt16.lt_iff_toNat_lt]
  have hsorted : stale.Pairwise fun r k => decide (r.slot ≤ k.slot) = true := by
    refine List.pairwise_mergeSort (fun a b d hab hbd => ?_) (fun a b => ?_) past.eraseDups
    · simp only [decide_eq_true_eq, UInt16.le_iff_toNat_le] at hab hbd ⊢
      exact Nat.le_trans hab hbd
    · simp only [Bool.or_eq_true, decide_eq_true_eq, UInt16.le_iff_toNat_le]
      exact Nat.le_total _ _
  have hapart : stale.Pairwise fun r k => PoolIndex.shift i w r ≠ k := by
    refine hsorted.imp_of_mem fun {r k} hr _ hle heq => ?_
    have hpast := ((hmem r).mp hr).2
    have hshift := PoolIndex.toNat_shift hw hpast
    simp only [decide_eq_true_eq, UInt16.le_iff_toNat_le] at hle
    rw [heq] at hshift
    omega
  refine (c.foldl_renumber _ stale).trans (mapReferences_congr fun r hr => ?_)
  rw [PoolIndex.foldl_replace hapart]
  split
  · rfl
  · rename_i hnot
    rw [hmem] at hnot
    exact (PoolIndex.shift_of_le w (Nat.le_of_not_lt fun hlt => hnot ⟨hr, hlt⟩)).symm

end Constant

end ClassCode
