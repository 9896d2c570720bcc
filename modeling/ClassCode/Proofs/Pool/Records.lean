import ClassCode.Pool.Edit
import ClassCode.Proofs.Holders.Rename
import ClassCode.Proofs.Positions
import Mathlib.Data.List.Nodup

/-! What the holders of a constant say. They record a list of constants when each of these is counted as
often as it refers to the held one, and when no index without a constant is counted. -/
namespace ClassCode.Pool

open Holders

/-- `s` counts the references to `r` of the constants in `es`, each under its index. -/
structure Records (s : Holders (Holder PoolIndex)) (es : List (PoolIndex × Constant)) (r : PoolIndex) :
    Prop where
  positive : s.Positive
  held : ∀ e ∈ es, s.count (.entry e.1) = e.2.references.count r
  unheld : ∀ h, h ∉ es.map Prod.fst → s.count (.entry h) = 0

theorem records_empty {es : List (PoolIndex × Constant)} {r : PoolIndex}
    (h : ∀ e ∈ es, r ∉ e.2.references) : Records .empty es r where
  positive := positive_empty
  held e he := by rw [count_empty, List.count_eq_zero.mpr (h e he)]
  unheld _ _ := count_empty _

section Steps

variable {s t : Holders (Holder PoolIndex)} {es : List (PoolIndex × Constant)} {r : PoolIndex}
  (hs : Records s es r) (ht : t.Positive)
include hs

theorem Records.not_mem_references (hempty : s.isEmpty) {e : PoolIndex × Constant} (he : e ∈ es) :
    r ∉ e.2.references := by
  rw [← List.count_eq_zero, ← hs.held e he]
  exact count_eq_zero_of_isEmpty hempty _

theorem Records.mem_of_contains {h : PoolIndex} (hh : s.contains (.entry h)) :
    h ∈ es.map Prod.fst := by
  by_contra hnot
  have hpos := (contains_iff hs.positive).mp hh
  rw [hs.unheld h hnot] at hpos
  exact Nat.lt_irrefl 0 hpos

theorem Records.count_eq (ht : Records t es r) (h : PoolIndex) : s.count (.entry h) = t.count (.entry h) := by
  by_cases hh : h ∈ es.map Prod.fst
  · obtain ⟨e, he, rfl⟩ := List.mem_map.mp hh
    rw [hs.held e he, ht.held e he]
  · rw [hs.unheld h hh, ht.unheld h hh]

theorem Records.perm {ds : List (PoolIndex × Constant)} (hperm : ds.Perm es) : Records s ds r where
  positive := hs.positive
  held e he := hs.held e (hperm.mem_iff.mp he)
  unheld h hh := hs.unheld h fun hmem => hh ((hperm.map Prod.fst).mem_iff.mpr hmem)

include ht

theorem Records.of_count_eq (hcount : ∀ h, t.count (.entry h) = s.count (.entry h)) : Records t es r where
  positive := ht
  held e he := (hcount e.1).trans (hs.held e he)
  unheld h hh := (hcount h).trans (hs.unheld h hh)

theorem Records.append {i : PoolIndex} {c : Constant} (hi : i ∉ es.map Prod.fst)
    (hcount : ∀ h, t.count (.entry h) = s.count (.entry h) + if i = h then c.references.count r else 0) :
    Records t (es ++ [(i, c)]) r where
  positive := ht
  held e he := by
    rw [hcount]
    rcases List.mem_append.mp he with hold | hnew
    · have hne : i ≠ e.1 := fun heq => hi (heq ▸ List.mem_map_of_mem hold)
      rw [if_neg hne, hs.held e hold, Nat.add_zero]
    · obtain rfl := List.mem_singleton.mp hnew
      rw [if_pos rfl, hs.unheld _ hi, Nat.zero_add]
  unheld h hh := by
    simp only [List.map_append, List.mem_append, List.map_cons, List.map_nil, List.mem_singleton,
      not_or] at hh
    rw [hcount, if_neg (Ne.symm hh.2), hs.unheld h hh.1]

theorem Records.eraseIdx (hd : (es.map Prod.fst).Nodup) {k : Nat} {i : PoolIndex} {c : Constant}
    (hk : es[k]? = some (i, c))
    (hcount : ∀ h, t.count (.entry h) = s.count (.entry h) - if i = h then c.references.count r else 0) :
    Records t (es.eraseIdx k) r := by
  have hperm := (perm_cons_eraseIdx hk).map Prod.fst
  rw [List.map_cons] at hperm
  have hi : i ∉ (es.eraseIdx k).map Prod.fst := (List.nodup_cons.mp (hperm.nodup_iff.mp hd)).1
  refine ⟨ht, fun e he => ?_, fun h hh => ?_⟩
  · have hne : i ≠ e.1 := fun heq => hi (heq ▸ List.mem_map_of_mem he)
    rw [hcount, if_neg hne, Nat.sub_zero]
    exact hs.held e (List.mem_of_mem_eraseIdx he)
  · rw [hcount]
    by_cases heq : i = h
    · subst heq
      rw [if_pos rfl, hs.held _ (List.mem_of_getElem? hk), Nat.sub_self]
    · have hnot : h ∉ es.map Prod.fst := by
        rw [hperm.mem_iff, List.mem_cons, not_or]
        exact ⟨Ne.symm heq, hh⟩
      rw [if_neg heq, hs.unheld h hnot]

end Steps

theorem count_map_of_injOn {f : PoolIndex → PoolIndex} {r : PoolIndex} {as : List PoolIndex}
    (h : ∀ a ∈ as, f a = f r → a = r) : (as.map f).count (f r) = as.count r := by
  induction as with
  | nil => rfl
  | cons a as ih =>
    have hrest := ih fun b hb => h b (List.mem_cons_of_mem a hb)
    have hfirst : f a = f r ↔ a = r := ⟨h a List.mem_cons_self, congrArg f⟩
    rw [List.map_cons, List.count_cons, List.count_cons, hrest]
    simp [hfirst]

/-- Indices that stay apart are recorded under their new names. -/
theorem Records.rename {s : Holders (Holder PoolIndex)} {es : List (PoolIndex × Constant)} {r : PoolIndex}
    (hs : Records s es r) {f : PoolIndex → PoolIndex} (hd : (es.map fun e => f e.1).Nodup)
    (hclosed : ∀ e ∈ es, ∀ a ∈ e.2.references, a ∈ es.map Prod.fst) (hr : r ∈ es.map Prod.fst) :
    Records (s.rename (moveHolder f)) (es.map fun e => (f e.1, e.2.mapReferences f)) (f r) := by
  have hinj {a b : PoolIndex} (ha : a ∈ es.map Prod.fst) (hb : b ∈ es.map Prod.fst) (hab : f a = f b) :
      a = b := by
    have hkeys : ((es.map Prod.fst).map f).Nodup := by
      rw [List.map_map]
      exact hd
    exact List.inj_on_of_nodup_map hkeys ha hb hab
  refine ⟨positive_rename hs.positive, fun e he => ?_, fun h hh => ?_⟩
  · obtain ⟨d, hmem, rfl⟩ := List.mem_map.mp he
    have hmoved : (s.rename (moveHolder f)).count (.entry (f d.1)) = s.count (.entry d.1) := by
      refine count_rename_of_iff fun m hm => ?_
      cases m with
      | external x => simp [moveHolder]
      | entry a =>
        simp only [moveHolder, Holder.entry.injEq]
        exact ⟨hinj (hs.mem_of_contains hm) (List.mem_map_of_mem hmem), congrArg f⟩
    rw [hmoved, hs.held d hmem, Constant.references_mapReferences]
    exact (count_map_of_injOn fun a ha => hinj (hclosed d hmem a ha) hr).symm
  · refine count_rename_eq_zero fun m hm heq => hh ?_
    cases m with
    | external x => simp [moveHolder] at heq
    | entry a =>
      obtain ⟨d, hmem, rfl⟩ := List.mem_map.mp (hs.mem_of_contains hm)
      simp only [moveHolder, Holder.entry.injEq] at heq
      rw [← heq, List.map_map]
      exact List.mem_map_of_mem hmem

end ClassCode.Pool
