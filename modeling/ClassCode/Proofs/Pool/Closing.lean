import ClassCode.Proofs.Pool.Tracking

/-! Removing a constant. It lets go of what it refers to; if something else still holds it then, it takes
hold again, and otherwise the gap is closed, all indices past it shift, and so does whatever was kept
under these indices. -/
namespace ClassCode.Pool

open Holders

/-- The constants of a list without `c`, which is at position `k` and index `i`, with their references
shifted. -/
def without (cs : List Constant) (k : Nat) (i : PoolIndex) (c : Constant) : List Constant :=
  (cs.eraseIdx k).map (Constant.mapReferences (PoolIndex.shift i c.slots.toUInt16))

section Without

variable {cs : List Constant} (hroom : Roomy cs) {k : Nat} {i : PoolIndex} {c : Constant}
  (hk : (listed cs)[k]? = some (i, c))
include hroom hk

theorem listed_without :
    listed (without cs k i c) = ((listed cs).eraseIdx k).map fun e =>
      (PoolIndex.shift i c.slots.toUInt16 e.1, e.2.mapReferences (PoolIndex.shift i c.slots.toUInt16)) := by
  rw [without, listed_map, listed_eraseIdx hroom hk, List.map_map]
  rfl

theorem indices_without :
    indices (without cs k i c) =
      ((indices cs).eraseIdx k).map (PoolIndex.shift i c.slots.toUInt16) := by
  rw [indices, listed_without hroom hk, indices, List.eraseIdx_map, List.map_map, List.map_map]
  rfl

theorem roomy_without : Roomy (without cs k i c) := by
  have herased : Roomy (cs.eraseIdx k) := hroom.eraseIdx (getElem?_listed.mp hk).1
  unfold Roomy at herased ⊢
  rw [without, Layout.past_map _ fun d _ => d.slots_mapReferences _]
  exact herased

variable {q : Pool}

/-- References shift all at once, as indices do. -/
theorem shiftReferences_of_listed (d : Constant) :
    d.shiftReferences i c.slots.toUInt16 = d.mapReferences (PoolIndex.shift i c.slots.toUInt16) := by
  have hplace := hroom.getElem?_placed_iff.mpr hk
  have hfrom : 1 ≤ i.slot.toNat := (rising_constants 1 cs).le_of_mem_placed (List.mem_of_getElem? hplace)
  have hpos := c.slots_pos
  have hwidth := c.slots_le_two
  apply Constant.shiftReferences_eq <;> rw [c.toNat_slots] <;> omega

theorem Lists.close (hq : q.Lists cs) : (q.close i k c).Lists (without cs k i c) where
  laid := by
    change (q.constants.erase k).mapInPlace (fun _ _ d => d.shiftReferences _ _) = _
    simp only [shiftReferences_of_listed hroom hk]
    rw [hq.laid, Layout.erase_laid, Layout.mapInPlace_laid _ fun d _ => d.slots_mapReferences _]
    rfl
  sized := by
    have hlt : k < cs.length := (List.getElem?_eq_some_iff.mp (getElem?_listed.mp hk).1).1
    simp [Pool.close, without, Array.eraseIdxIfInBounds, hq.sized, hlt, List.length_eraseIdx]

theorem Lists.holdersAt_close (hq : q.Lists cs) {j : Nat} {r : PoolIndex}
    (hj : (indices (without cs k i c))[j]? = some r) :
    ∃ m a, (indices cs)[m]? = some a ∧ a ∈ (indices cs).eraseIdx k ∧
      PoolIndex.shift i c.slots.toUInt16 a = r ∧
      (q.close i k c).holdersAt j =
        (q.holdersAt m).rename (moveHolder (PoolIndex.shift i c.slots.toUInt16)) := by
  rw [indices_without hroom hk, List.getElem?_map, Option.map_eq_some_iff] at hj
  obtain ⟨a, ha, rfl⟩ := hj
  have hmem := List.mem_of_getElem? ha
  have hlt : k < q.inbound.size := by
    rw [hq.sized]
    exact (List.getElem?_eq_some_iff.mp (getElem?_listed.mp hk).1).1
  let m := if j < k then j else j + 1
  have hm : (indices cs)[m]? = some a := by
    rw [← ha, List.getElem?_eraseIdx]
    exact apply_ite (fun n => (indices cs)[n]?) (j < k) j (j + 1)
  have hsize : m < q.inbound.size := by
    rw [hq.sized, ← length_indices]
    exact (List.getElem?_eq_some_iff.mp hm).1
  have hget : (q.close i k c).inbound[j]? =
      q.inbound[m]?.map (Holders.rename (moveHolder (PoolIndex.shift i c.slots.toUInt16))) := by
    rw [show q.inbound[m]? = if j < k then q.inbound[j]? else q.inbound[j + 1]? from
      apply_ite (fun n => q.inbound[n]?) (j < k) j (j + 1)]
    simp [Pool.close, Array.eraseIdxIfInBounds, hlt, Array.getElem?_eraseIdx]
  refine ⟨m, a, hm, hmem, rfl, ?_⟩
  rw [holdersAt, holdersAt, Array.getD_eq_getD_getElem?, Array.getD_eq_getD_getElem?, hget,
    Array.getElem?_eq_getElem hsize]
  rfl

/-- Closing the gap that an unlinked constant leaves keeps the records of all others. -/
theorem Counts.close (hq : q.Counts cs ((listed cs).eraseIdx k))
    (hclosed : ∀ d ∈ cs.eraseIdx k, ∀ a ∈ d.references, a ∈ (indices cs).eraseIdx k) :
    (q.close i k c).Tracks (without cs k i c) := by
  have hkeys : ((listed cs).eraseIdx k).map Prod.fst = (indices cs).eraseIdx k :=
    (List.eraseIdx_map _ _ _).symm
  have hconstants : ((listed cs).eraseIdx k).map Prod.snd = cs.eraseIdx k := by
    rw [← List.eraseIdx_map, map_snd_listed]
  have hroomy := roomy_without hroom hk
  have hd := hroomy.nodup_indices
  rw [indices, listed_without hroom hk, List.map_map] at hd
  refine ⟨⟨hq.lists.close hroom hk, hroomy, fun j r hj => ?_⟩, fun d hmem r hr => ?_⟩
  · obtain ⟨m, a, hm, ha, rfl, hholders⟩ := hq.lists.holdersAt_close hroom hk hj
    rw [hholders, listed_without hroom hk]
    refine (hq.recorded m a hm).rename hd ?_ ?_
    · intro e he
      rw [hkeys]
      refine hclosed e.2 ?_
      rw [← hconstants]
      exact List.mem_map_of_mem he
    · rw [hkeys]
      exact ha
  · obtain ⟨e, he, rfl⟩ := List.mem_map.mp hmem
    rw [Constant.references_mapReferences] at hr
    obtain ⟨a, ha, rfl⟩ := List.mem_map.mp hr
    rw [indices_without hroom hk]
    exact List.mem_map_of_mem (hclosed e he a ha)

end Without

section Removal

variable {p : Pool} {cs : List Constant} (hp : p.Tracks cs) {k : Nat} {i : PoolIndex} {c : Constant}
  (hk : (listed cs)[k]? = some (i, c))
include hp hk

theorem Tracks.unlinked : (p.unlinked i c).Counts cs ((listed cs).eraseIdx k) :=
  hp.counts.unlink hp.counts.roomy.nodup_indices hk

theorem Tracks.closed_eraseIdx (hempty : ((p.unlinked i c).holdersAt k).isEmpty) :
    ∀ d ∈ cs.eraseIdx k, ∀ a ∈ d.references, a ∈ (indices cs).eraseIdx k := by
  intro d hd a ha
  have hrecord := (hp.unlinked hk).recorded k i (getElem?_indices.mpr ⟨c, hk⟩)
  have hne : a ≠ i := by
    rintro rfl
    rw [← map_snd_listed cs, List.eraseIdx_map] at hd
    obtain ⟨e, he, rfl⟩ := List.mem_map.mp hd
    exact hrecord.not_mem_references hempty he ha
  have hmem := hp.closed d (List.mem_of_mem_eraseIdx hd) a ha
  rw [(perm_cons_eraseIdx (getElem?_indices.mpr ⟨c, hk⟩)).mem_iff] at hmem
  exact (List.mem_cons.mp hmem).resolve_left hne

theorem Tracks.removed (hempty : ((p.unlinked i c).holdersAt k).isEmpty) :
    ((p.unlinked i c).close i k c).Tracks (without cs k i c) :=
  (hp.unlinked hk).close hp.counts.roomy hk (hp.closed_eraseIdx hk hempty)

theorem Tracks.relinked : (c.references.foldl (register (.entry i)) (p.unlinked i c)).Tracks cs := by
  have hperm := perm_cons_eraseIdx hk
  have hkeys := (hperm.map Prod.fst).nodup_iff.mp hp.counts.roomy.nodup_indices
  have hlinked := (hp.unlinked hk).link (List.nodup_cons.mp hkeys).1 c
  exact ⟨hlinked.perm (hperm.trans (List.perm_append_singleton _ _).symm), hp.closed⟩

end Removal

end ClassCode.Pool
