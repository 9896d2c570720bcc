import Std.Data.ExtTreeMap

/-! Maps that are filled from a list, one entry after the other. With `insertIfNew` the first entry of a key
stays, with `insert` the last one does; where every key has one entry this is the same. -/
namespace ClassCode.Table

open Std

variable {κ ν ξ : Type} [Ord κ] [TransOrd κ] [LawfulEqOrd κ] [DecidableEq κ] (key : ξ → κ) (val : ξ → ν)

theorem getElem?_fillIfNew (xs : List ξ) (m : ExtTreeMap κ ν) (a : κ) :
    (xs.foldl (fun m x => m.insertIfNew (key x) (val x)) m)[a]? =
      m[a]?.or ((xs.find? fun x => key x = a).map val) := by
  induction xs generalizing m with
  | nil => simp
  | cons x xs ih =>
    rw [List.foldl_cons, ih, ExtTreeMap.getElem?_insertIfNew]
    by_cases hx : key x = a
    · subst hx
      by_cases hm : key x ∈ m
      · simp [hm]
      · simp [hm]
    · simp [hx]

theorem of_getElem?_fill {xs : List ξ} {m : ExtTreeMap κ ν} {a : κ} {v : ν}
    (h : (xs.foldl (fun m x => m.insert (key x) (val x)) m)[a]? = some v) :
    (∃ x ∈ xs, key x = a ∧ val x = v) ∨ m[a]? = some v := by
  induction xs generalizing m with
  | nil => exact .inr h
  | cons x xs ih =>
    rcases ih h with ⟨y, hy, hkey, hval⟩ | hm
    · exact .inl ⟨y, by simp [hy], hkey, hval⟩
    · by_cases hx : key x = a
      · subst hx
        simp only [ExtTreeMap.getElem?_insert_self, Option.some.injEq] at hm
        exact .inl ⟨x, by simp, rfl, hm⟩
      · simp [ExtTreeMap.getElem?_insert, hx] at hm
        exact .inr hm

omit [DecidableEq κ] in
theorem getElem?_fill_of_not_mem {xs : List ξ} {m : ExtTreeMap κ ν} {a : κ}
    (h : ∀ x ∈ xs, key x ≠ a) :
    (xs.foldl (fun m x => m.insert (key x) (val x)) m)[a]? = m[a]? := by
  induction xs generalizing m with
  | nil => rfl
  | cons x xs ih =>
    rw [List.foldl_cons, ih fun y hy => h y (by simp [hy])]
    simp [ExtTreeMap.getElem?_insert, h x (by simp)]

omit [DecidableEq κ] in
theorem getElem?_fill_of_mem {xs : List ξ} {m : ExtTreeMap κ ν} (hd : (xs.map key).Nodup) {x : ξ}
    (hx : x ∈ xs) : (xs.foldl (fun m x => m.insert (key x) (val x)) m)[key x]? = some (val x) := by
  induction xs generalizing m with
  | nil => simp at hx
  | cons y xs ih =>
    simp only [List.map_cons, List.nodup_cons, List.mem_map, not_exists, not_and] at hd
    rcases List.mem_cons.mp hx with rfl | hx
    · rw [List.foldl_cons, getElem?_fill_of_not_mem key val hd.1]
      simp
    · exact ih hd.2 hx

theorem getElem?_fillPositions {xs : List ξ} {k : Nat} {m : ExtTreeMap κ Nat} (hd : (xs.map key).Nodup)
    {a : κ} {q : Nat} :
    ((xs.zipIdx k).foldl (fun m e => m.insert (key e.1) e.2) m)[a]? = some q ↔
      (k ≤ q ∧ (xs.map key)[q - k]? = some a) ∨ (a ∉ xs.map key ∧ m[a]? = some q) := by
  let keyAt (e : ξ × Nat) : κ := key e.1
  have hkeys : (xs.zipIdx k).map keyAt = xs.map key := by
    rw [show keyAt = key ∘ Prod.fst from rfl, ← List.map_map, List.zipIdx_map_fst]
  by_cases ha : a ∈ xs.map key
  · obtain ⟨j, hj⟩ := List.mem_iff_getElem?.mp ha
    have hlt := (List.getElem?_eq_some_iff.mp hj).1
    obtain ⟨x, hx, rfl⟩ := Option.map_eq_some_iff.mp (List.getElem?_map ▸ hj)
    have hmem : (x, k + j) ∈ xs.zipIdx k := List.mk_add_mem_zipIdx_iff_getElem?.mpr hx
    have hfill : ((xs.zipIdx k).foldl (fun m e => m.insert (keyAt e) e.2) m)[key x]? = some (k + j) :=
      getElem?_fill_of_mem keyAt Prod.snd (hkeys ▸ hd) hmem
    simp only [keyAt] at hfill
    have hunique (i : Nat) : (xs.map key)[i]? = some (key x) ↔ j = i := by
      rw [← hj, eq_comm]
      exact List.getElem?_inj hlt hd
    rw [hfill, hunique]
    simp only [Option.some.injEq, ha, not_true_eq_false, false_and, or_false]
    omega
  · have hnone (i : Nat) : (xs.map key)[i]? ≠ some a := fun h => ha (List.mem_of_getElem? h)
    have hnot : ∀ e ∈ xs.zipIdx k, keyAt e ≠ a := by
      intro e he heq
      exact ha (hkeys ▸ heq ▸ List.mem_map_of_mem he)
    have hfill := getElem?_fill_of_not_mem keyAt Prod.snd (m := m) hnot
    simp only [keyAt] at hfill
    rw [hfill]
    simp only [hnone, ha, and_false, false_or, not_false_eq_true, true_and]

end ClassCode.Table
