import Mathlib.Data.List.Perm.Basic

/-! Lists that are taken apart at a position, put together there or changed there. -/
namespace ClassCode

theorem forall_mem_spliced {α : Type} {P : α → Prop} {xs : List α} (h : ∀ y ∈ xs, P y) {x : α} (hx : P x)
    (p q : Nat) : ∀ y ∈ xs.take p ++ x :: xs.drop q, P y := by
  intro y hy
  rcases List.mem_append.mp hy with hy | hy
  · exact h y (List.mem_of_mem_take hy)
  · rcases List.mem_cons.mp hy with rfl | hy
    · exact hx
    · exact h y (List.mem_of_mem_drop hy)

theorem exists_append_of_le {α : Type} {xs : List α} {p : Nat} (h : p ≤ xs.length) :
    ∃ ys zs, xs = ys ++ zs ∧ ys.length = p :=
  ⟨xs.take p, xs.drop p, (List.take_append_drop p xs).symm, List.length_take_of_le h⟩

theorem map_modify_of_comp {α β : Type} {f : α → α} {g : α → β} (h : ∀ x, g (f x) = g x) (xs : List α)
    (i : Nat) : (xs.modify i f).map g = xs.map g := by
  induction xs generalizing i with
  | nil => simp
  | cons x xs ih => cases i <;> simp [h, ih]

theorem modify_eq_map_of_nodup {α κ : Type} [DecidableEq κ] {key : α → κ} {xs : List α}
    (hd : (xs.map key).Nodup) {i : Nat} {x : α} (hi : xs[i]? = some x) (f : α → α) :
    xs.modify i f = xs.map fun y => if key y = key x then f y else y := by
  have hkey : (xs.map key)[i]? = some (key x) := by rw [List.getElem?_map, hi]; rfl
  obtain ⟨hlt, -⟩ := List.getElem?_eq_some_iff.mp hkey
  apply List.ext_getElem?
  intro j
  rw [List.getElem?_modify, List.getElem?_map]
  cases hj : xs[j]? with
  | none => simp
  | some y =>
    have hsame : key y = key x ↔ i = j := by
      have hkeys : (xs.map key)[j]? = some (key y) := by rw [List.getElem?_map, hj]; rfl
      rw [← List.getElem?_inj hlt hd, hkey, hkeys, Option.some.injEq, eq_comm]
    by_cases hij : i = j <;> simp [hsame, hij]

theorem eraseIdx_eraseIdx_comm {α : Type} (xs : List α) {k m : Nat} (h : k < m) :
    (xs.eraseIdx k).eraseIdx (m - 1) = (xs.eraseIdx m).eraseIdx k := by
  apply List.ext_getElem?
  intro l
  simp only [List.getElem?_eraseIdx]
  split_ifs <;> first | rfl | omega

variable {α : Type} {xs : List α} {k : Nat} {x : α} (h : xs[k]? = some x)
include h

theorem exists_eq_append : ∃ ys zs, xs = ys ++ x :: zs ∧ ys.length = k := by
  obtain ⟨hlt, rfl⟩ := List.getElem?_eq_some_iff.mp h
  refine ⟨xs.take k, xs.drop (k + 1), ?_, ?_⟩
  · rw [List.getElem_cons_drop, List.take_append_drop]
  · rw [List.length_take, Nat.min_eq_left (Nat.le_of_lt hlt)]

theorem perm_cons_eraseIdx : xs.Perm (x :: xs.eraseIdx k) := by
  obtain ⟨hlt, rfl⟩ := List.getElem?_eq_some_iff.mp h
  exact (List.getElem_cons_eraseIdx_perm hlt).symm

theorem mem_drop_of_getElem? {j : Nat} (hle : j ≤ k) : x ∈ xs.drop j := by
  refine List.mem_of_getElem? (i := k - j) ?_
  rw [List.getElem?_drop, Nat.add_sub_cancel' hle]
  exact h

end ClassCode
