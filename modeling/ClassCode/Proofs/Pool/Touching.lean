import ClassCode.Proofs.Holders.Count
import ClassCode.Proofs.Pool.Indices

/-! Registering on constants. To register a holder on the constant at an index, or to release it, is to
change the holders of this one constant; over a list of indices, the holders of each constant change as
often as its index is there. -/
namespace ClassCode.Pool

open Holders

/-- Change the holders of the constant at an index, if there is one. -/
def touch (f : Holders (Holder PoolIndex) → Holders (Holder PoolIndex)) (p : Pool) (target : PoolIndex) :
    Pool :=
  match p.find target with
  | .ok (position, _) => { p with inbound := p.inbound.modify position f }
  | .error _ => p

theorem register_eq_touch (h : Holder PoolIndex) : register h = touch fun s => s.register h := rfl

theorem release_eq_touch (h : Holder PoolIndex) : release h = touch fun s => s.release h := rfl

theorem repeat_apply {α : Type} (f : α → α) (n : Nat) (a : α) :
    Nat.repeat f n (f a) = Nat.repeat f (n + 1) a := by
  induction n with
  | zero => rfl
  | succ n ih => exact congrArg f ih

section Lists

variable {p : Pool} {cs : List Constant} (hp : p.Lists cs)
  (f : Holders (Holder PoolIndex) → Holders (Holder PoolIndex)) (target : PoolIndex)
include hp

theorem Lists.touch : (p.touch f target).Lists cs := by
  rw [Pool.touch]
  cases p.find target with
  | error e => exact hp
  | ok found => exact ⟨hp.laid, (Array.size_modify).trans hp.sized⟩

theorem Lists.foldl_touch (targets : List PoolIndex) : (targets.foldl (Pool.touch f) p).Lists cs := by
  induction targets generalizing p with
  | nil => exact hp
  | cons target targets ih => exact ih (hp.touch f target)

variable (hroom : Roomy cs)
include hroom

theorem Lists.holdersAt_touch {k : Nat} {r : PoolIndex} (hk : (indices cs)[k]? = some r) :
    (p.touch f target).holdersAt k = if target = r then f (p.holdersAt k) else p.holdersAt k := by
  obtain ⟨c, hc⟩ := getElem?_indices.mp hk
  have hlt : k < p.inbound.size := by
    rw [hp.sized]
    exact (List.getElem?_eq_some_iff.mp (getElem?_listed.mp hc).1).1
  rw [Pool.touch]
  cases hfind : p.find target with
  | error e =>
    have hne : target ≠ r := by
      rintro rfl
      rw [(hp.find_eq_ok_iff hroom).mpr hc] at hfind
      exact absurd hfind (by simp)
    rw [if_neg hne]
  | ok found =>
    obtain ⟨j, d⟩ := found
    have hj : (indices cs)[j]? = some target :=
      getElem?_indices.mpr ⟨d, (hp.find_eq_ok_iff hroom).mp hfind⟩
    have hsame : j = k ↔ target = r := by
      constructor
      · rintro rfl
        exact Option.some.inj (hj.symm.trans hk)
      · rintro rfl
        have hjlt := (List.getElem?_eq_some_iff.mp hj).1
        exact (List.getElem?_inj hjlt hroom.nodup_indices).mp (hj.trans hk.symm)
    simp only [holdersAt, Array.getD_eq_getD_getElem?, Array.getElem?_modify, hsame]
    split <;> simp [hlt]

theorem Lists.holdersAt_foldl_touch (targets : List PoolIndex) {k : Nat} {r : PoolIndex}
    (hk : (indices cs)[k]? = some r) :
    (targets.foldl (Pool.touch f) p).holdersAt k = Nat.repeat f (targets.count r) (p.holdersAt k) := by
  induction targets generalizing p with
  | nil => rfl
  | cons target targets ih =>
    rw [List.foldl_cons, ih (hp.touch f target), hp.holdersAt_touch f target hroom hk, List.count_cons]
    by_cases h : target = r
    · simp [h, repeat_apply]
    · simp [h]

end Lists

end ClassCode.Pool
