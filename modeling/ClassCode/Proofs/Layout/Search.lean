import ClassCode.Proofs.Layout.Laid

/-! Searching a layout. Where every element ends past its start, offsets ascend and halving finds the element
that starts at an offset. That is so for numbers wherever an element covers an offset or more, and for words as
long as no sum starts over. -/
namespace ClassCode

namespace Layout

open Std

variable {ω α : Type} [LE ω] [LT ω] [Std.IsLinearOrder ω] [LawfulOrderLT ω]

def Ascending (l : Layout ω α) : Prop := l.toList.Pairwise fun d e => d.1 < e.1

section Placed

variable [Add ω] [Spans α ω] {o : ω} {xs : List α}

/-- Put down from `o` on, every element ends past its start. -/
def Rising (o : ω) (xs : List α) : Prop := ∀ e ∈ placed o xs, e.1 < e.1 + span e.2 e.1

omit [LE ω] [Std.IsLinearOrder ω] [LawfulOrderLT ω] in
theorem rising_cons {x : α} : Rising o (x :: xs) ↔ o < o + span x o ∧ Rising (o + span x o) xs :=
  List.forall_mem_cons

omit [LE ω] [Std.IsLinearOrder ω] [LawfulOrderLT ω] in
theorem Rising.take (h : Rising o xs) (i : Nat) : Rising o (xs.take i) := by
  intro e he
  rw [← take_placed] at he
  exact h e (List.mem_of_mem_take he)

theorem rising_of_pos {β : Type} [Spans β Nat] {o : Nat} {ys : List β}
    (h : ∀ e ∈ placed o ys, 0 < span e.2 e.1) : Rising o ys := fun e he => Nat.lt_add_of_pos_right (h e he)

theorem Rising.le_past (h : Rising o xs) : o ≤ past o xs := by
  induction xs generalizing o with
  | nil => exact le_refl o
  | cons x xs ih =>
    rw [rising_cons] at h
    exact le_trans (le_of_lt h.1) (ih h.2)

theorem Rising.le_of_mem_placed (h : Rising o xs) {e : ω × α} (he : e ∈ placed o xs) : o ≤ e.1 := by
  induction xs generalizing o with
  | nil => simp [placed] at he
  | cons x xs ih =>
    rw [rising_cons] at h
    rcases List.mem_cons.mp he with rfl | he
    · exact le_refl o
    · exact le_trans (le_of_lt h.1) (ih h.2 he)

theorem Rising.add_span_le_past (h : Rising o xs) {e : ω × α} (he : e ∈ placed o xs) :
    e.1 + span e.2 e.1 ≤ past o xs := by
  induction xs generalizing o with
  | nil => simp [placed] at he
  | cons x xs ih =>
    rw [rising_cons] at h
    rcases List.mem_cons.mp he with rfl | he
    · exact h.2.le_past
    · exact ih h.2 he

theorem Rising.add_span_le_of_lt (h : Rising o xs) {k m : Nat} {d e : ω × α}
    (hk : (placed o xs)[k]? = some d) (hm : (placed o xs)[m]? = some e) (hlt : k < m) :
    d.1 + span d.2 d.1 ≤ e.1 := by
  rw [getElem?_placed, Option.map_eq_some_iff] at hk hm
  obtain ⟨x, hx, rfl⟩ := hk
  obtain ⟨y, -, rfl⟩ := hm
  have hmem : (past o (xs.take k), x) ∈ placed o (xs.take m) := by
    refine List.mem_of_getElem? (i := k) ?_
    rw [getElem?_placed, List.getElem?_take_of_lt hlt, hx, List.take_take, Nat.min_eq_left (Nat.le_of_lt hlt)]
    rfl
  exact (h.take m).add_span_le_past hmem

theorem Rising.pairwise (h : Rising o xs) : (placed o xs).Pairwise fun d e => d.1 < e.1 := by
  induction xs generalizing o with
  | nil => exact .nil
  | cons x xs ih =>
    rw [rising_cons] at h
    exact .cons (fun e he => lt_of_lt_of_le h.1 (h.2.le_of_mem_placed he)) (ih h.2)

theorem Rising.ascending (h : Rising o xs) : (laid o xs).Ascending := by
  rw [Ascending, toList_laid]
  exact h.pairwise

end Placed

/-- The elements before `lo` start at or before `o`, those from `hi` on after it. -/
structure Brackets (entries : Array (ω × α)) (o : ω) (lo hi : Nat) : Prop where
  le : lo ≤ hi
  inside : hi ≤ entries.size
  below : ∀ i e, entries[i]? = some e → i < lo → e.1 ≤ o
  above : ∀ i e, entries[i]? = some e → hi ≤ i → o < e.1

section Halving

variable {l : Layout ω α} (hl : l.Ascending)
include hl

omit [LE ω] [Std.IsLinearOrder ω] [LawfulOrderLT ω] in
theorem Ascending.lt {i j : Nat} {d e : ω × α} (hi : l.entries[i]? = some d)
    (hj : l.entries[j]? = some e) (hij : i < j) : d.1 < e.1 := by
  obtain ⟨hjlt, rfl⟩ := Array.getElem?_eq_some_iff.mp hj
  obtain ⟨hilt, rfl⟩ := Array.getElem?_eq_some_iff.mp hi
  exact List.pairwise_iff_getElem.mp hl i j (by simpa [toList] using hilt)
    (by simpa [toList] using hjlt) hij

theorem Ascending.le {i j : Nat} {d e : ω × α} (hi : l.entries[i]? = some d)
    (hj : l.entries[j]? = some e) (hij : i ≤ j) : d.1 ≤ e.1 := by
  rcases Nat.lt_or_eq_of_le hij with hlt | rfl
  · exact le_of_lt (hl.lt hi hj hlt)
  · exact le_of_eq (congrArg Prod.fst (Option.some.inj (hi.symm.trans hj)))

variable [DecidableLE ω]

theorem Ascending.brackets_rankIn {o : ω} {fuel lo hi : Nat} (h : Brackets l.entries o lo hi)
    (hfuel : hi - lo ≤ fuel) :
    Brackets l.entries o (rankIn l.entries o fuel lo hi) (rankIn l.entries o fuel lo hi) := by
  induction fuel generalizing lo hi with
  | zero =>
    obtain rfl : lo = hi := by
      have hle := h.le
      omega
    exact h
  | succ fuel ih =>
    rw [rankIn]
    split
    · rename_i hlt
      have hinside := h.inside
      have hmid : (lo + hi) / 2 < l.entries.size := by omega
      have hget : l.entries[(lo + hi) / 2]? = some l.entries[(lo + hi) / 2] :=
        Array.getElem?_eq_getElem hmid
      simp only [hget]
      split
      · rename_i hle
        refine ih ⟨by omega, hinside, fun i e hi hlt' => ?_, h.above⟩ (by omega)
        exact le_trans (hl.le hi hget (by omega)) hle
      · rename_i hgt
        refine ih ⟨by omega, by omega, h.below, fun i e hi hle' => ?_⟩ (by omega)
        exact lt_of_lt_of_le (not_le.mp hgt) (hl.le hget hi hle')
    · rename_i hge
      obtain rfl : lo = hi := Nat.le_antisymm h.le (Nat.le_of_not_lt hge)
      exact h

theorem Ascending.brackets_rank (o : ω) : Brackets l.entries o (l.rank o) (l.rank o) := by
  refine hl.brackets_rankIn ⟨Nat.zero_le _, Nat.le_refl _, ?_, ?_⟩ (Nat.le_refl _)
  · intro i e _ hlt
    exact absurd hlt (Nat.not_lt_zero i)
  · intro i e hi hle
    have hlt := (Array.getElem?_eq_some_iff.mp hi).1
    exact absurd hlt (Nat.not_lt_of_le hle)

theorem Ascending.rank_eq {o : ω} {i : Nat} {x : α} (hi : l.entries[i]? = some (o, x)) :
    l.rank o = i + 1 := by
  have hb := hl.brackets_rank o
  apply Nat.le_antisymm
  · refine Nat.le_of_not_lt fun hlt => ?_
    have hget := Array.getElem?_eq_getElem (Nat.lt_of_lt_of_le hlt hb.inside)
    exact not_le.mpr (hl.lt hi hget (Nat.lt_succ_self i)) (hb.below _ _ hget hlt)
  · refine Nat.le_of_not_lt fun hlt => ?_
    exact lt_irrefl (hb.above i _ hi (Nat.le_of_lt_succ hlt))

theorem Ascending.locate_eq_starts_iff [DecidableLT ω] [DecidableEq ω] {o : ω} {i : Nat} {x : α} :
    l.locate o = .starts i x ↔ l.entries[i]? = some (o, x) := by
  constructor
  · intro h
    rw [locate] at h
    split at h
    · exact absurd h (by simp)
    · rename_i e he
      split at h
      · rename_i hstart
        simp only [Spot.starts.injEq] at h
        obtain ⟨rfl, rfl⟩ := h
        rw [he, ← hstart]
      · split at h
        · exact absurd h (by simp)
        · split at h <;> exact absurd h (by simp)
  · intro h
    rw [locate, hl.rank_eq h]
    simp [h]

end Halving

end Layout

end ClassCode
