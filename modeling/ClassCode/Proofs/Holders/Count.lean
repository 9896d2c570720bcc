import ClassCode.Holders

/-! Counting holders. A multiset of holders that never stores a count of zero is known by its counts: it
contains what it counts, and it is empty when it counts nothing. -/
namespace ClassCode.Holders

open Std

variable {η : Type} [Ord η] [TransOrd η]

/-- Every holder that is stored has a registration. -/
def Positive (s : Holders η) : Prop := ∀ (h : η) (n : Nat), s.counts[h]? = some n → 0 < n

theorem positive_empty : (empty : Holders η).Positive := by
  intro h n hn
  simp [empty] at hn

theorem count_eq (s : Holders η) (h : η) : s.count h = s.counts[h]?.getD 0 :=
  ExtTreeMap.getD_eq_getD_getElem?

theorem contains_iff {s : Holders η} (hs : s.Positive) {h : η} : s.contains h ↔ 0 < s.count h := by
  rw [contains, ExtTreeMap.contains_eq_isSome_getElem?, count_eq]
  cases hn : s.counts[h]? with
  | none => simp
  | some n => simpa using hs h n hn

theorem isEmpty_iff {s : Holders η} (hs : s.Positive) : s.isEmpty ↔ ∀ h, s.count h = 0 := by
  rw [isEmpty, ExtTreeMap.isEmpty_iff]
  constructor
  · intro he h
    simp [count_eq, he]
  · intro hzero
    rw [ExtTreeMap.eq_empty_iff_forall_not_mem]
    intro h hmem
    have hpos : 0 < s.count h := (contains_iff hs).mp hmem
    have hz := hzero h
    omega

theorem count_eq_zero_of_not_contains {s : Holders η} {h : η} (hc : s.contains h = false) :
    s.count h = 0 :=
  ExtTreeMap.getD_eq_fallback_of_contains_eq_false hc

theorem count_eq_zero_of_isEmpty {s : Holders η} (hs : s.isEmpty) (h : η) : s.count h = 0 := by
  rw [isEmpty, ExtTreeMap.isEmpty_iff] at hs
  simp [count_eq, hs]

variable [LawfulEqOrd η]

/-- Multisets of holders are the same when they count the same. -/
theorem ext_count {s t : Holders η} (hs : s.Positive) (ht : t.Positive) (h : ∀ k, s.count k = t.count k) :
    s = t := by
  obtain ⟨cs⟩ := s
  obtain ⟨ct⟩ := t
  refine congrArg mk (ExtTreeMap.ext_getElem? fun k => ?_)
  have hk := h k
  simp only [count_eq] at hk
  cases hcs : cs[k]? with
  | none =>
    cases hct : ct[k]? with
    | none => rfl
    | some n =>
      have hpos := ht k n hct
      simp only [hcs, hct, Option.getD_none, Option.getD_some] at hk
      omega
  | some m =>
    have hpos := hs k m hcs
    cases hct : ct[k]? with
    | none =>
      simp only [hcs, hct, Option.getD_none, Option.getD_some] at hk
      omega
    | some n =>
      simp only [hcs, hct, Option.getD_some] at hk
      rw [hk]

variable [DecidableEq η]

theorem positive_add {s : Holders η} (hs : s.Positive) (h : η) {n : Nat} (hn : 0 < n) :
    (s.add h n).Positive := by
  intro k m hm
  by_cases hk : h = k
  · subst hk
    simp only [add, ExtTreeMap.getElem?_insert_self, Option.some.injEq] at hm
    omega
  · simp [add, ExtTreeMap.getElem?_insert, hk] at hm
    exact hs k m hm

theorem positive_register {s : Holders η} (hs : s.Positive) (h : η) : (s.register h).Positive :=
  positive_add hs h Nat.one_pos

omit [LawfulEqOrd η] [DecidableEq η] in
theorem release?_eq_some {s : Holders η} {h : η} (hc : s.contains h) :
    s.release? h = some (s.release h) := by
  have hne : s.release? h ≠ none := by
    rw [Ne, release?_eq_none_iff]
    simp [hc]
  obtain ⟨t, ht⟩ := Option.ne_none_iff_exists'.mp hne
  simp [release, ht]

theorem count_release (s : Holders η) (h k : η) :
    (s.release h).count k = s.count k - if h = k then 1 else 0 := by
  simp only [release, release?, count_eq]
  cases hn : s.counts[h]? with
  | none =>
    by_cases hk : h = k
    · subst hk
      simp [hn]
    · simp [hk]
  | some n =>
    by_cases hk : h = k
    · subst hk
      by_cases h1 : 1 < n
      · simp [h1, hn]
      · simp only [h1, if_false, Option.getD_some, ExtTreeMap.getElem?_erase_self, hn,
          Option.getD_none, if_true]
        omega
    · by_cases h1 : 1 < n <;>
        simp [h1, hk, ExtTreeMap.getElem?_insert, ExtTreeMap.getElem?_erase]

theorem positive_release {s : Holders η} (hs : s.Positive) (h : η) : (s.release h).Positive := by
  intro k m hm
  simp only [release, release?] at hm
  cases hn : s.counts[h]? with
  | none =>
    rw [hn] at hm
    exact hs k m hm
  | some n =>
    rw [hn] at hm
    by_cases h1 : 1 < n
    · simp only [h1, if_true, Option.getD_some] at hm
      by_cases hk : h = k
      · subst hk
        simp only [ExtTreeMap.getElem?_insert_self, Option.some.injEq] at hm
        omega
      · simp [ExtTreeMap.getElem?_insert, hk] at hm
        exact hs k m hm
    · simp only [h1, if_false, Option.getD_some, ExtTreeMap.getElem?_erase] at hm
      split at hm
      · simp at hm
      · exact hs k m hm

omit [DecidableEq η] in
theorem mem_members_iff {s : Holders η} (hs : s.Positive) {h : η} : h ∈ s.members ↔ 0 < s.count h := by
  rw [← contains_iff hs]
  exact ExtTreeMap.mem_keys.trans ExtTreeMap.contains_iff_mem.symm

omit [DecidableEq η] in
theorem members_eq {s : Holders η} (hs : s.Positive) {ks : List η}
    (hordered : ks.Pairwise fun a b => compare a b = .lt) (hmem : ∀ h, h ∈ ks ↔ 0 < s.count h) :
    s.members = ks := by
  have hkeys : s.members.Pairwise fun a b => compare a b = .lt := ExtTreeMap.ordered_keys
  have hnodup : ks.Nodup := hordered.imp fun {a b} hab heq => by
    subst heq
    rw [compare_self_eq] at hab
    cases hab
  refine List.Perm.eq_of_pairwise (fun a b _ _ hab hba => ?_) hkeys hordered ?_
  · exact absurd hba (OrientedCmp.not_lt_of_lt hab)
  · refine (List.perm_ext_iff_of_nodup ExtTreeMap.nodup_keys hnodup).mpr fun h => ?_
    exact (mem_members_iff hs).trans (hmem h).symm

section Repeat

variable (h : η) (n : Nat) (s : Holders η)

theorem count_repeat_register (k : η) :
    (Nat.repeat (fun s => s.register h) n s).count k = s.count k + if h = k then n else 0 := by
  induction n with
  | zero => simp [Nat.repeat]
  | succ n ih =>
    rw [Nat.repeat, count_register, ih]
    split <;> omega

theorem count_repeat_release (k : η) :
    (Nat.repeat (fun s => s.release h) n s).count k = s.count k - if h = k then n else 0 := by
  induction n with
  | zero => simp [Nat.repeat]
  | succ n ih =>
    rw [Nat.repeat, count_release, ih]
    split <;> omega

omit [LawfulEqOrd η] [DecidableEq η] in
theorem positive_repeat {f : Holders η → Holders η} (hf : ∀ s, s.Positive → (f s).Positive)
    (hs : s.Positive) : (Nat.repeat f n s).Positive := by
  induction n with
  | zero => exact hs
  | succ n ih => exact hf _ ih

end Repeat

end ClassCode.Holders
