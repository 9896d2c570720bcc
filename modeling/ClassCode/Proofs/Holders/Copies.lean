import ClassCode.Proofs.Holders.Rename
import Mathlib.Algebra.GroupWithZero.Nat
import Mathlib.Data.Multiset.Filter

/-! Holders as a multiset. Whatever is registered, released and renamed, the counts are those of the copies that are
left, and none of them is zero; so who is listed, who is contained and whether anything is left at all can be
told from them. -/
namespace ClassCode.Holders

open Std

variable {η : Type} [Ord η] [TransOrd η] [LawfulEqOrd η] [DecidableEq η]

inductive Request (η : Type) where
  | register (h : η)
  | release (h : η)
  | rename (f : η → η)

namespace Request

def apply : Request η → Holders η → Holders η
  | register h, s => s.register h
  | release h, s => s.release h
  | rename f, s => s.rename f

/-- The copies that a request leaves: one more, one less if there is any, or every one sent through a function. -/
def applyToCopies : Request η → Multiset η → Multiset η
  | register h, m => h ::ₘ m
  | release h, m => m.erase h
  | rename f, m => m.map f

end Request

def run (rs : List (Request η)) : Holders η := rs.foldl (fun s r => r.apply s) empty

def copies (rs : List (Request η)) : Multiset η := rs.foldl (fun m r => r.applyToCopies m) 0

/-- The counts are those of the copies, and what there is no copy of is not stored. -/
structure Represents (s : Holders η) (m : Multiset η) : Prop where
  positive : s.Positive
  count : ∀ h, s.count h = m.count h

variable {s : Holders η} {m : Multiset η}

theorem Represents.eq_toList (h : s.Represents m) : m = s.toList := by
  ext k
  rw [← h.count k, Multiset.coe_count, count_toList]

omit [LawfulEqOrd η] in
theorem represents_empty : (empty : Holders η).Represents 0 := ⟨positive_empty, by simp⟩

theorem Represents.apply (h : s.Represents m) (r : Request η) : (r.apply s).Represents (r.applyToCopies m) := by
  cases r with
  | register k =>
    refine ⟨positive_register h.positive k, fun l => ?_⟩
    simp only [Request.apply, Request.applyToCopies, count_register, Multiset.count_cons, h.count, eq_comm]
  | release k =>
    refine ⟨positive_release h.positive k, fun l => ?_⟩
    rw [Request.apply, Request.applyToCopies, count_release, h.count]
    by_cases hk : k = l
    · subst hk
      rw [if_pos rfl, Multiset.count_erase_self]
    · rw [if_neg hk, Multiset.count_erase_of_ne (Ne.symm hk), Nat.sub_zero]
  | rename f =>
    refine ⟨positive_rename h.positive, fun l => ?_⟩
    have hperm := (perm_toList_rename f s).count_eq l
    rw [count_toList] at hperm
    rw [Request.apply, Request.applyToCopies, h.eq_toList, Multiset.map_coe, Multiset.coe_count, hperm]

theorem represents_run (rs : List (Request η)) : (run rs).Represents (copies rs) := by
  -- The requests before have changed both sides, so the induction is from any two that agree.
  have hrest (s : Holders η) (m : Multiset η) (h : s.Represents m) :
      (rs.foldl (fun s r => r.apply s) s).Represents (rs.foldl (fun m r => r.applyToCopies m) m) := by
    induction rs generalizing s m with
    | nil => exact h
    | cons r rs ih => exact ih _ _ (h.apply r)
  exact hrest _ _ represents_empty

omit [LawfulEqOrd η] in
theorem Represents.contains_iff (h : s.Represents m) (k : η) : s.contains k ↔ k ∈ m := by
  rw [Holders.contains_iff h.positive, h.count, Multiset.count_pos]

omit [LawfulEqOrd η] in
theorem Represents.isSome_release?_iff (h : s.Represents m) (k : η) : (s.release? k).isSome ↔ k ∈ m := by
  rw [← h.contains_iff, Option.isSome_iff_ne_none, Ne, release?_eq_none_iff, Bool.not_eq_false]

omit [LawfulEqOrd η] in
theorem Represents.isEmpty_iff (h : s.Represents m) : s.isEmpty ↔ m = 0 := by
  simp only [Holders.isEmpty_iff h.positive, h.count, Multiset.count_eq_zero, Multiset.eq_zero_iff_forall_notMem]

omit [LawfulEqOrd η] [TransOrd η] [Ord η] in
theorem countIn_eq_sum (f : η → η) (k : η) (es : List (η × Nat)) :
    countIn f k es = ((es.filter fun e => f e.1 = k).map Prod.snd).sum := by
  induction es with
  | nil => rfl
  | cons e es ih =>
    by_cases he : f e.1 = k <;> simp [countIn, he, ih]

theorem count_rename_eq_sum (f : η → η) (s : Holders η) (k : η) :
    (s.rename f).count k = ((s.members.filter fun h => f h = k).map s.count).sum := by
  have hcount : ∀ e ∈ s.counts.toList, s.count e.1 = e.2 := fun e he => by
    rw [count_eq, ExtTreeMap.mem_toList_iff_getElem?_eq_some.mp he, Option.getD_some]
  have hmembers : s.members = s.counts.toList.map Prod.fst := ExtTreeMap.map_fst_toList_eq_keys.symm
  rw [count_rename, countIn_eq_sum, hmembers, List.filter_map, List.map_map]
  refine congrArg List.sum (List.map_congr_left fun e he => ?_)
  exact (hcount e (List.mem_of_mem_filter he)).symm

/-- After any run of requests no count of zero is stored, and the counts are those of the copies that are left, so that
the listing with repetitions has just these. A release is granted if there is a copy of its holder, and only then.
Renaming gives a name the counts of all that get it. The holders are listed in strictly ascending order, each that
there is a copy of and no other; these are the ones contained, and without a copy there is nothing left. -/
theorem runs_count_copies (rs : List (Request η)) :
    (∀ (h : η) (n : Nat), (run rs).counts[h]? = some n → 0 < n) ∧
    (∀ h, (run rs).count h = (copies rs).count h) ∧ ((run rs).toList : Multiset η) = copies rs ∧
    (∀ h, ((run rs).release? h).isSome ↔ h ∈ copies rs) ∧
    (∀ (f : η → η) (k : η), ((run rs).rename f).count k =
      (((run rs).members.filter fun h => f h = k).map (run rs).count).sum) ∧
    (run rs).members.Pairwise (fun a b => compare a b = .lt) ∧ (∀ h, h ∈ (run rs).members ↔ h ∈ copies rs) ∧
    (∀ h, (run rs).contains h ↔ h ∈ copies rs) ∧ ((run rs).isEmpty ↔ copies rs = 0) := by
  have hrun := represents_run rs
  refine ⟨hrun.positive, hrun.count, hrun.eq_toList.symm, hrun.isSome_release?_iff,
    fun f k => count_rename_eq_sum f _ k, ExtTreeMap.ordered_keys, fun h => ?_, hrun.contains_iff, hrun.isEmpty_iff⟩
  rw [mem_members_iff hrun.positive, hrun.count, Multiset.count_pos]

/-- Two holders get one name, and of the three registrations that it then has one is released. The other name, which
nothing is left of, cannot be released. -/
theorem runs_count_copies_of_merged :
    let rs : List (Request ExternalId) := [.register ⟨4⟩, .register ⟨5⟩, .register ⟨5⟩,
      .rename fun e => if 4 < e.number then ⟨e.number - 1⟩ else e, .release ⟨4⟩, .release ⟨5⟩]
    (run rs).count ⟨4⟩ = 2 ∧ ((run rs).release? ⟨4⟩).isSome ∧ ¬ ((run rs).release? ⟨5⟩).isSome ∧
      (∀ h, h ∈ (run rs).members ↔ h = ⟨4⟩) ∧ ¬ (run rs).isEmpty := by
  intro rs
  obtain ⟨-, hcount, -, hrelease, -, -, hmembers, -, hempty⟩ := runs_count_copies rs
  have hcopies : copies rs = {⟨4⟩, ⟨4⟩} := by decide
  rw [hcopies] at hcount hrelease hmembers hempty
  refine ⟨(hcount _).trans (by decide), (hrelease _).mpr (by decide), ?_, fun h => ?_, ?_⟩
  · rw [hrelease]
    decide
  · rw [hmembers]
    simp
  · rw [hempty]
    decide

end ClassCode.Holders
