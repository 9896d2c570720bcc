import ClassCode.Proofs.Pool.Records
import ClassCode.Proofs.Pool.Run
import ClassCode.Proofs.Pool.Touching

/-! A pool as a list of its constants. A pool tracks a list when it has these constants, laid out from slot
1 on, when each of them refers to constants of the list, and when the holders of each of them are those
that refer to it. -/
namespace ClassCode.Pool

open Holders

/-- `p` has the constants `cs`, and the holders of each of them record `es`. -/
structure Counts (p : Pool) (cs : List Constant) (es : List (PoolIndex × Constant)) : Prop where
  lists : p.Lists cs
  roomy : Roomy cs
  recorded : ∀ k r, (indices cs)[k]? = some r → Records (p.holdersAt k) es r

/-- `p` has the constants `cs`, they refer to each other only, and their holders record just them. -/
structure Tracks (p : Pool) (cs : List Constant) : Prop where
  counts : p.Counts cs (listed cs)
  closed : ∀ c ∈ cs, ∀ r ∈ c.references, r ∈ indices cs

section Counts

variable {p : Pool} {cs : List Constant} {es : List (PoolIndex × Constant)} (hp : p.Counts cs es)
include hp

theorem Counts.touch {f : Holders (Holder PoolIndex) → Holders (Holder PoolIndex)}
    (hpos : ∀ s, s.Positive → (f s).Positive)
    (hcount : ∀ s h, (f s).count (.entry h) = s.count (.entry h)) (i : PoolIndex) :
    (p.touch f i).Counts cs es where
  lists := hp.lists.touch f i
  roomy := hp.roomy
  recorded k r hk := by
    have hold := hp.recorded k r hk
    rw [hp.lists.holdersAt_touch f i hp.roomy hk]
    split
    · exact hold.of_count_eq (hpos _ hold.positive) (hcount _)
    · exact hold

theorem Counts.link {i : PoolIndex} (hi : i ∉ es.map Prod.fst) (c : Constant) :
    (c.references.foldl (register (.entry i)) p).Counts cs (es ++ [(i, c)]) where
  lists := hp.lists.foldl_touch _ c.references
  roomy := hp.roomy
  recorded k r hk := by
    have hold := hp.recorded k r hk
    rw [register_eq_touch, hp.lists.holdersAt_foldl_touch _ hp.roomy _ hk]
    refine hold.append (positive_repeat _ _ (fun s hs => positive_register hs _) hold.positive) hi ?_
    intro h
    rw [count_repeat_register]
    simp

theorem Counts.unlink (hd : (es.map Prod.fst).Nodup) {k : Nat} {i : PoolIndex} {c : Constant}
    (hk : es[k]? = some (i, c)) : (p.unlinked i c).Counts cs (es.eraseIdx k) where
  lists := hp.lists.foldl_touch _ c.references
  roomy := hp.roomy
  recorded j r hj := by
    have hold := hp.recorded j r hj
    rw [unlinked, release_eq_touch, hp.lists.holdersAt_foldl_touch _ hp.roomy _ hj]
    refine hold.eraseIdx (positive_repeat _ _ (fun s hs => positive_release hs _) hold.positive) hd hk ?_
    intro h
    rw [count_repeat_release]
    simp

theorem Counts.perm {ds : List (PoolIndex × Constant)} (hperm : ds.Perm es) : p.Counts cs ds where
  lists := hp.lists
  roomy := hp.roomy
  recorded k r hk := (hp.recorded k r hk).perm hperm

end Counts

theorem Roomy.not_mem_indices {cs : List Constant} {c : Constant} (hroom : Roomy (cs ++ [c])) :
    indexAt (Layout.past 1 cs) ∉ indices cs := by
  have hnew := hroom.nodup_indices
  rw [indices_append] at hnew
  exact fun hmem => (List.disjoint_of_nodup_append hnew) hmem List.mem_cons_self

theorem tracks_empty : Pool.empty.Tracks [] where
  counts := ⟨⟨rfl, rfl⟩, by unfold Roomy; decide, by simp [indices, listed, Layout.placed]⟩
  closed := by simp

section Steps

variable {p : Pool} {cs : List Constant} (hp : p.Tracks cs)
include hp

theorem Tracks.references_listed {e : PoolIndex × Constant} (he : e ∈ listed cs) :
    ∀ r ∈ e.2.references, r ∈ indices cs := hp.closed e.2 (snd_mem_of_mem_listed he)

theorem Tracks.counts_append {c : Constant} (hroom : Roomy (cs ++ [c])) :
    (p.append c).Counts (cs ++ [c]) (listed cs) where
  lists := hp.counts.lists.append c
  roomy := hroom
  recorded k r hk := by
    rw [indices_append] at hk
    rw [hp.counts.lists.holdersAt_append]
    by_cases hlt : k < cs.length
    · rw [if_pos hlt]
      rw [List.getElem?_append_left (by simpa using hlt)] at hk
      exact hp.counts.recorded k r hk
    · rw [if_neg hlt]
      rw [List.getElem?_append_right (by simpa using hlt)] at hk
      obtain rfl := List.mem_singleton.mp (List.mem_of_getElem? hk)
      exact records_empty fun e he hr => hroom.not_mem_indices (hp.references_listed he _ hr)

theorem Tracks.added {c : Constant} (hroom : Roomy (cs ++ [c]))
    (hrefs : ∀ r ∈ c.references, r ∈ indices cs) : (p.added c).Tracks (cs ++ [c]) := by
  have hnext : p.next = indexAt (Layout.past 1 cs) := congrArg indexAt hp.counts.lists.count_eq
  have hfresh : p.next ∉ (listed cs).map Prod.fst := by
    rw [hnext]
    exact hroom.not_mem_indices
  constructor
  · have hlinked := (hp.counts_append hroom).link hfresh c
    rw [listed_append, ← hnext]
    exact hlinked
  · intro d hd r hr
    rw [indices_append, List.mem_append]
    rcases List.mem_append.mp hd with hold | hlast
    · exact .inl (hp.closed d hold r hr)
    · obtain rfl := List.mem_singleton.mp hlast
      exact .inl (hrefs r hr)

end Steps

end ClassCode.Pool
