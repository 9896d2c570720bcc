import ClassCode.Proofs.Holders.Count

/-! Renaming holders. The registrations of a new name are those of all the old names that are sent to it;
where only one is, the count moves along with the name. -/
namespace ClassCode.Holders

open Std

variable {η : Type} [Ord η] [TransOrd η] [LawfulEqOrd η] [DecidableEq η]

/-- The registrations in a list of holders and their counts that are sent to `k`. -/
def countIn (f : η → η) (k : η) : List (η × Nat) → Nat
  | [] => 0
  | e :: es => (if f e.1 = k then e.2 else 0) + countIn f k es

theorem count_foldl_add (f : η → η) (es : List (η × Nat)) (r : Holders η) (k : η) :
    (es.foldl (fun r e => r.add (f e.1) e.2) r).count k = r.count k + countIn f k es := by
  induction es generalizing r with
  | nil => simp [countIn]
  | cons e es ih =>
    rw [List.foldl_cons, ih, count_add]
    simp [countIn, Nat.add_assoc]

theorem count_rename (f : η → η) (s : Holders η) (k : η) :
    (s.rename f).count k = countIn f k s.counts.toList := by
  rw [rename, ExtTreeMap.foldl_eq_foldl_toList, count_foldl_add, count_empty, Nat.zero_add]

omit [Ord η] [TransOrd η] [LawfulEqOrd η] in
theorem countIn_eq_zero {f : η → η} {k : η} {es : List (η × Nat)} (h : ∀ e ∈ es, f e.1 ≠ k) :
    countIn f k es = 0 := by
  induction es with
  | nil => rfl
  | cons e es ih =>
    have hrest := ih fun d hd => h d (by simp [hd])
    simpa [countIn, h e (by simp)] using hrest

omit [Ord η] [TransOrd η] [LawfulEqOrd η] in
theorem countIn_of_mem {f : η → η} {k h : η} {n : Nat} {es : List (η × Nat)}
    (hd : es.Pairwise fun d e => d.1 ≠ e.1) (hmem : (h, n) ∈ es)
    (hf : ∀ e ∈ es, f e.1 = k ↔ e.1 = h) : countIn f k es = n := by
  induction es with
  | nil => simp at hmem
  | cons e es ih =>
    obtain ⟨hfirst, hrest⟩ := List.pairwise_cons.mp hd
    rcases List.mem_cons.mp hmem with rfl | hmem
    · have hnone : countIn f k es = 0 := countIn_eq_zero fun d hd he =>
        hfirst d hd ((hf d (by simp [hd])).mp he).symm
      rw [countIn, if_pos ((hf _ (by simp)).mpr rfl), hnone]
      rfl
    · have hne : f e.1 ≠ k := fun he => hfirst _ hmem ((hf e (by simp)).mp he)
      rw [countIn, if_neg hne, ih hrest hmem fun d hd => hf d (by simp [hd]), Nat.zero_add]

omit [DecidableEq η] in
theorem contains_of_mem_toList {s : Holders η} {e : η × Nat} (he : e ∈ s.counts.toList) :
    s.contains e.1 := by
  have hget := ExtTreeMap.mem_toList_iff_getElem?_eq_some.mp he
  rw [contains, ExtTreeMap.contains_eq_isSome_getElem?, hget]
  rfl

theorem count_rename_eq_zero {f : η → η} {s : Holders η} {k : η} (h : ∀ m, s.contains m → f m ≠ k) :
    (s.rename f).count k = 0 := by
  rw [count_rename]
  exact countIn_eq_zero fun e he => h e.1 (contains_of_mem_toList he)

theorem count_rename_of_iff {f : η → η} {s : Holders η} {k h : η}
    (hf : ∀ m, s.contains m → (f m = k ↔ m = h)) : (s.rename f).count k = s.count h := by
  cases hn : s.counts[h]? with
  | none =>
    have hnot : s.contains h = false := by
      rw [contains, ExtTreeMap.contains_eq_isSome_getElem?, hn]
      rfl
    rw [count_eq_zero_of_not_contains hnot]
    refine count_rename_eq_zero fun m hm he => ?_
    rw [(hf m hm).mp he, hnot] at hm
    exact absurd hm (by simp)
  | some n =>
    have hdistinct : s.counts.toList.Pairwise fun d e => d.1 ≠ e.1 :=
      ExtTreeMap.distinct_keys_toList.imp fun hne he => hne (by rw [he]; exact compare_self_eq _)
    rw [count_rename, count_eq, hn]
    exact countIn_of_mem hdistinct (ExtTreeMap.mem_toList_iff_getElem?_eq_some.mpr hn) fun e he =>
      hf e.1 (contains_of_mem_toList he)

theorem positive_rename {f : η → η} {s : Holders η} (hs : s.Positive) : (s.rename f).Positive := by
  have hfold (es : List (η × Nat)) (hes : ∀ e ∈ es, 0 < e.2) (r : Holders η) (hr : r.Positive) :
      (es.foldl (fun r e => r.add (f e.1) e.2) r).Positive := by
    induction es generalizing r with
    | nil => exact hr
    | cons e es ih =>
      exact ih (fun d hd => hes d (by simp [hd])) _ (positive_add hr _ (hes e (by simp)))
  rw [rename, ExtTreeMap.foldl_eq_foldl_toList]
  refine hfold _ (fun e he => ?_) _ positive_empty
  exact hs e.1 e.2 (ExtTreeMap.mem_toList_iff_getElem?_eq_some.mp he)

/-! Registrations as a list, in which a holder shows up once for each of its registrations. -/

omit [Ord η] [TransOrd η] [LawfulEqOrd η] in
theorem count_map_flatMap_replicate (f : η → η) (k : η) (es : List (η × Nat)) :
    ((es.flatMap fun e => List.replicate e.2 e.1).map f).count k = countIn f k es := by
  induction es with
  | nil => rfl
  | cons e es ih =>
    rw [List.flatMap_cons, List.map_append, List.count_append, ih, List.map_replicate,
      List.count_replicate]
    simp [countIn]

theorem count_toList (s : Holders η) (k : η) : s.toList.count k = s.count k := by
  have hid : (s.rename id).count k = s.count k := count_rename_of_iff fun m _ => Iff.rfl
  rw [count_rename, ← count_map_flatMap_replicate, List.map_id] at hid
  exact hid

/-- No registration is lost or made up by renaming, not even where two holders get one name. -/
theorem perm_toList_rename (f : η → η) (s : Holders η) :
    (s.rename f).toList.Perm (s.toList.map f) := by
  rw [List.perm_iff_count]
  intro k
  rw [count_toList, count_rename, ← count_map_flatMap_replicate]
  rfl

end ClassCode.Holders
