import ClassCode.Proofs.Pool.Renumbering

/-! Following a removal from outside. Something outside that holds an index past the gap is told of its new
one. A client that replaces indices as it is told, one notice after the other, has the right ones in the
end: the notices ascend, so that no new index is taken for one that is still to be replaced. -/
namespace ClassCode.Pool

open Holders

section Following

def Notice.replace (n : Notice) (j : PoolIndex) : PoolIndex := if j = n.old then n.new else j

/-- The indices that a client keeps for everything outside, after a notice. -/
def follow (books : ExternalId → List PoolIndex) (n : Notice) (h : ExternalId) : List PoolIndex :=
  if n.holder = h then (books h).map n.replace else books h

theorem foldl_follow (ns : List Notice) (books : ExternalId → List PoolIndex) (h : ExternalId) :
    ns.foldl follow books h =
      (books h).map fun j => (ns.filter fun n => n.holder = h).foldl (fun j n => n.replace j) j := by
  induction ns generalizing books with
  | nil => simp
  | cons n ns ih =>
    rw [List.foldl_cons, ih, follow]
    by_cases hn : n.holder = h
    · simp [hn, List.map_map, Function.comp_def]
    · simp [hn]

/-- Where every notice says what `f` makes of an index, and the old indices of one holder ascend past their
new ones, the holder ends up with `f` of the indices that it was told of. -/
theorem foldl_replace_notices {f : PoolIndex → PoolIndex} {ns : List Notice} (hnew : ∀ n ∈ ns, n.new = f n.old)
    (hapart : ns.Pairwise fun m n => m.new ≠ n.old) (j : PoolIndex) :
    ns.foldl (fun j n => n.replace j) j = if j ∈ ns.map Notice.old then f j else j := by
  have hreplace : ns.foldl (fun j n => n.replace j) j =
      (ns.map Notice.old).foldl (fun j old => if j = old then f old else j) j := by
    rw [List.foldl_map]
    refine List.foldl_ext _ _ _ fun j n hn => ?_
    rw [Notice.replace, hnew n hn]
  rw [hreplace, PoolIndex.foldl_replace]
  refine List.pairwise_map.mpr (hapart.imp_of_mem fun {m n} hm _ hne => ?_)
  rw [← hnew m hm]
  exact hne

end Following

section Notices

def noticesOf (w : UInt16) (new : PoolIndex) (s : Holders (Holder PoolIndex)) : List Notice :=
  s.members.filterMap fun
    | .external holder => some { holder, old := ⟨new.slot + w⟩, new }
    | .entry _ => none

theorem mem_noticesOf {w : UInt16} {new : PoolIndex} {s : Holders (Holder PoolIndex)} {n : Notice} :
    n ∈ noticesOf w new s ↔ n.new = new ∧ n.old = ⟨n.new.slot + w⟩ ∧ .external n.holder ∈ s.members := by
  rw [noticesOf, List.mem_filterMap]
  constructor
  · rintro ⟨h, hmem, heq⟩
    cases h with
    | entry i => cases heq
    | external id =>
      obtain rfl := Option.some.inj heq
      exact ⟨rfl, rfl, hmem⟩
  · rintro ⟨rfl, hold, hmem⟩
    refine ⟨_, hmem, ?_⟩
    rw [← hold]

theorem pairwise_noticesOf (w : UInt16) (new : PoolIndex) (s : Holders (Holder PoolIndex)) :
    (noticesOf w new s).Pairwise fun m n => m.holder ≠ n.holder := by
  have hkeys : s.members.Nodup := Std.ExtTreeMap.nodup_keys
  refine List.pairwise_filterMap.mpr (hkeys.imp fun {a b} hne m hm n hn heq => hne ?_)
  cases a with
  | entry i => cases hm
  | external id =>
    cases b with
    | entry j => cases hn
    | external id' =>
      obtain rfl := Option.some.inj hm
      obtain rfl := Option.some.inj hn
      exact congrArg Holder.external heq

def held (q : Pool) : List (PoolIndex × Holders (Holder PoolIndex)) :=
  (q.constants.toList.zip q.inbound.toList).map fun e => (indexAt e.1.1, e.2)

theorem noticesFrom_eq (q : Pool) (k : Nat) (w : UInt16) :
    q.noticesFrom k w = (q.held.drop k).flatMap fun e => noticesOf w e.1 e.2 := by
  rw [held, ← List.map_drop, List.flatMap_map]
  rfl

variable {q : Pool} {ds : List Constant} (hq : q.Tracks ds)
include hq

theorem Tracks.map_fst_held : q.held.map Prod.fst = indices ds := by
  have hsized : q.inbound.toList.length = ds.length := Array.length_toList.trans hq.counts.lists.sized
  have hlength : q.constants.toList.length ≤ q.inbound.toList.length := by
    rw [hq.toList_eq, Layout.length_placed]
    exact Nat.le_of_eq hsized.symm
  have hfirst := congrArg (List.map fun e => indexAt e.1) (List.map_fst_zip hlength)
  rw [List.map_map, hq.toList_eq] at hfirst
  rw [held, indices, listed, List.map_map, List.map_map, hq.toList_eq]
  exact hfirst

theorem Tracks.getElem?_held {m : Nat} {t : PoolIndex} {s : Holders (Holder PoolIndex)} :
    q.held[m]? = some (t, s) ↔ (indices ds)[m]? = some t ∧ q.holdersAt m = s := by
  have hholders {e : PoolIndex × Holders (Holder PoolIndex)} (he : q.held[m]? = some e) :
      q.holdersAt m = e.2 := by
    rw [held, List.getElem?_map, Option.map_eq_some_iff] at he
    obtain ⟨d, hd, rfl⟩ := he
    have hs : q.inbound[m]? = some d.2 := by
      rw [← Array.getElem?_toList]
      exact (List.getElem?_zip_eq_some.mp hd).2
    rw [holdersAt, Array.getD_eq_getD_getElem?, hs, Option.getD_some]
  rw [← hq.map_fst_held, List.getElem?_map, Option.map_eq_some_iff]
  constructor
  · intro h
    exact ⟨⟨_, h, rfl⟩, hholders h⟩
  · rintro ⟨⟨e, he, rfl⟩, rfl⟩
    rw [he, hholders he]

theorem Tracks.pairwise_held : q.held.Pairwise fun d e => d.1.slot < e.1.slot := by
  have hkeys : (q.held.map Prod.fst).Pairwise fun a b => a.slot < b.slot := by
    rw [hq.map_fst_held]
    exact List.pairwise_map.mpr hq.counts.roomy.pairwise_listed
  rw [List.pairwise_map] at hkeys
  exact hkeys

theorem Tracks.mem_noticesFrom {k : Nat} {w : UInt16} {n : Notice} :
    n ∈ q.noticesFrom k w ↔ n.old = ⟨n.new.slot + w⟩ ∧ .external n.holder ∈ q.registrationsAt n.new ∧
      ∃ m ≥ k, (indices ds)[m]? = some n.new := by
  have hmember {m : Nat} {t : PoolIndex} (ht : (indices ds)[m]? = some t) (h : Holder PoolIndex) :
      h ∈ (q.holdersAt m).members ↔ h ∈ q.registrationsAt t := by
    rw [hq.registrationsAt_eq ht, mem_members_iff (hq.counts.recorded m t ht).positive,
      ← List.count_pos_iff, count_toList]
  rw [noticesFrom_eq, List.mem_flatMap]
  constructor
  · rintro ⟨⟨t, s⟩, he, hn⟩
    obtain ⟨m, hm⟩ := List.mem_iff_getElem?.mp he
    rw [List.getElem?_drop, hq.getElem?_held] at hm
    obtain ⟨ht, rfl⟩ := hm
    obtain ⟨rfl, hold, hmem⟩ := mem_noticesOf.mp hn
    exact ⟨hold, (hmember ht _).mp hmem, k + m, Nat.le_add_right k m, ht⟩
  · rintro ⟨hold, hmem, m, hm, ht⟩
    obtain ⟨l, rfl⟩ := Nat.exists_eq_add_of_le hm
    refine ⟨(n.new, q.holdersAt (k + l)), ?_, mem_noticesOf.mpr ⟨rfl, hold, (hmember ht _).mpr hmem⟩⟩
    refine List.mem_of_getElem? (i := l) ?_
    rw [List.getElem?_drop, hq.getElem?_held]
    exact ⟨ht, rfl⟩

theorem Tracks.pairwise_noticesFrom (k : Nat) (w : UInt16) :
    (q.noticesFrom k w).Pairwise fun m n => m.holder = n.holder → m.new.slot < n.new.slot := by
  rw [noticesFrom_eq, List.pairwise_flatMap]
  refine ⟨fun e _ => (pairwise_noticesOf w e.1 e.2).imp fun hne heq => absurd heq hne, ?_⟩
  refine (hq.pairwise_held.drop).imp fun {d e} hlt m hm n hn _ => ?_
  rw [(mem_noticesOf.mp hm).1, (mem_noticesOf.mp hn).1]
  exact hlt

end Notices

/-- The books of a client list what everything outside holds: indices of constants only, and each of them as
often as it is registered there. -/
structure Booked (p : Pool) (books : ExternalId → List PoolIndex) : Prop where
  live : ∀ h, ∀ j ∈ books h, ∃ d, p.constantAt j none = .ok d
  counted : ∀ h j d, p.constantAt j none = .ok d →
    (p.registrationsAt j).count (.external h) = (books h).count j

theorem raise_lowered {i j : PoolIndex} (hi : 0 < i.slot.toNat) (c : Constant) (h : i.slot < j.slot) :
    ⟨(lowered i c.slots j).slot + c.slots.toUInt16⟩ = j := by
  rw [← shift_eq_lowered hi c, PoolIndex.shift, if_pos h, UInt16.sub_add_cancel]

theorem count_external_moved (f : PoolIndex → PoolIndex) (i : PoolIndex) (h : ExternalId)
    (hs : List (Holder PoolIndex)) :
    ((hs.filter fun k => k ≠ .entry i).map (moveHolder f)).count (.external h) = hs.count (.external h) := by
  have hsame : ((· == .external h) ∘ moveHolder f) = (· == .external h) := by
    funext k
    cases k <;> simp [moveHolder]
  rw [List.count, List.countP_map, hsame, ← List.count, List.count_filter (by simp)]

section Removal

variable {p : Pool} {cs : List Constant} (hp : p.Tracks cs) {k : Nat} {i : PoolIndex} {c : Constant}
  (hk : (listed cs)[k]? = some (i, c))
include hp hk

theorem Tracks.getElem?_indices_without {m : Nat} {t : PoolIndex} (hm : k ≤ m) :
    (indices (without cs k i c))[m]? = some t ↔
      ∃ j, (indices cs)[m + 1]? = some j ∧ lowered i c.slots j = t := by
  have hroom := hp.counts.roomy
  rw [indices_without hroom hk, shift_eq_lowered (slot_pos hroom hk), List.getElem?_map,
    List.getElem?_eraseIdx_of_ge hm, Option.map_eq_some_iff]

variable (hempty : ((p.unlinked i c).holdersAt k).isEmpty)
include hempty

theorem Tracks.external_not_mem_registrationsAt (h : ExternalId) : .external h ∉ p.registrationsAt i := by
  have hi : (indices cs)[k]? = some i := getElem?_indices.mpr ⟨c, hk⟩
  have hnone : .external h ∉ ((p.unlinked i c).holdersAt k).toList := by
    rw [← List.count_eq_zero, count_toList]
    exact count_eq_zero_of_isEmpty hempty _
  rw [(hp.perm_unlinked hk hi).mem_iff, List.mem_filter] at hnone
  rw [hp.registrationsAt_eq hi]
  exact fun hmem => hnone ⟨hmem, by simp⟩

theorem Tracks.count_external_close {j : PoolIndex} (hne : j ≠ i) (hj : j ∈ indices cs) (h : ExternalId) :
    (((p.unlinked i c).close i k c).registrationsAt (lowered i c.slots j)).count (.external h) =
      (p.registrationsAt j).count (.external h) := by
  rw [(hp.registrationsAt_close hk (hp.removed hk hempty) hne hj).count_eq, count_external_moved]

theorem Tracks.mem_notices_iff {n : Notice} :
    n ∈ ((p.unlinked i c).close i k c).noticesFrom k c.slots.toUInt16 ↔
      i.slot < n.old.slot ∧ .external n.holder ∈ p.registrationsAt n.old ∧
        n.new = lowered i c.slots n.old := by
  have hroom := hp.counts.roomy
  have hi : (indices cs)[k]? = some i := getElem?_indices.mpr ⟨c, hk⟩
  have hpos := slot_pos hroom hk
  have hmoved {m : Nat} {j : PoolIndex} (hj : (indices cs)[m]? = some j) (hlt : i.slot < j.slot) :
      .external n.holder ∈ ((p.unlinked i c).close i k c).registrationsAt (lowered i c.slots j) ↔
        .external n.holder ∈ p.registrationsAt j := by
    have hne : j ≠ i := by
      rintro rfl
      exact UInt16.lt_irrefl _ hlt
    rw [← List.count_pos_iff, hp.count_external_close hk hempty hne (List.mem_of_getElem? hj),
      List.count_pos_iff]
  rw [(hp.removed hk hempty).mem_noticesFrom]
  constructor
  · rintro ⟨hold, hmem, m, hm, ht⟩
    obtain ⟨j, hj, hnew⟩ := (hp.getElem?_indices_without hk hm).mp ht
    have hlt : i.slot < j.slot := (hroom.slot_lt_iff hi hj).mpr (Nat.lt_succ_of_le hm)
    obtain rfl : n.old = j := by
      rw [hold, ← hnew, raise_lowered hpos c hlt]
    rw [← hnew] at hmem
    exact ⟨hlt, (hmoved hj hlt).mp hmem, hnew.symm⟩
  · rintro ⟨hlt, hmem, hnew⟩
    have hlive : n.old ∈ indices cs := by
      by_contra hnot
      rw [hp.registrationsAt_of_not_mem hnot] at hmem
      exact List.not_mem_nil hmem
    obtain ⟨l, hl⟩ := List.mem_iff_getElem?.mp hlive
    obtain ⟨m, rfl⟩ := Nat.exists_eq_add_of_lt ((hroom.slot_lt_iff hi hl).mp hlt)
    rw [hnew]
    exact ⟨(raise_lowered hpos c hlt).symm, (hmoved hl hlt).mpr hmem, k + m, Nat.le_add_right k m,
      (hp.getElem?_indices_without hk (Nat.le_add_right k m)).mpr ⟨_, hl, rfl⟩⟩

theorem Tracks.pairwise_notices :
    (((p.unlinked i c).close i k c).noticesFrom k c.slots.toUInt16).Pairwise fun m n =>
      m.holder = n.holder → m.new.slot < n.old.slot ∧ m.old ≠ n.old := by
  have hpos := slot_pos hp.counts.roomy hk
  refine ((hp.removed hk hempty).pairwise_noticesFrom _ _).imp_of_mem fun {m n} hm hn hordered heq => ?_
  obtain ⟨-, -, hmnew⟩ := (hp.mem_notices_iff hk hempty).mp hm
  obtain ⟨hlt, -, hnnew⟩ := (hp.mem_notices_iff hk hempty).mp hn
  have hnew := hordered heq
  refine ⟨UInt16.lt_of_lt_of_le hnew ?_, fun hold => ?_⟩
  · rw [hnnew, ← shift_eq_lowered hpos c, PoolIndex.shift, if_pos hlt, UInt16.le_iff_toNat_le,
      toNat_sub_slots hpos c hlt]
    exact Nat.sub_le ..
  · rw [hmnew, hnnew, hold] at hnew
    exact UInt16.lt_irrefl _ hnew

variable {books : ExternalId → List PoolIndex} (hbooks : p.Booked books)
include hbooks

/-- What a client lists stays, for nothing outside held what was taken out. -/
theorem Tracks.of_mem_books {h : ExternalId} {j : PoolIndex} (hj : j ∈ books h) :
    j ≠ i ∧ .external h ∈ p.registrationsAt j ∧ ∃ d, p.constantAt j none = .ok d := by
  obtain ⟨d, hd⟩ := hbooks.live h j hj
  have hheld : .external h ∈ p.registrationsAt j := by
    rw [← List.count_pos_iff, hbooks.counted h j d hd]
    exact List.count_pos_iff.mpr hj
  refine ⟨?_, hheld, d, hd⟩
  rintro rfl
  exact hp.external_not_mem_registrationsAt hk hempty h hheld

/-- One notice after the other, every index is brought to where its constant went. -/
theorem Tracks.foldl_follow_notices (h : ExternalId) :
    (((p.unlinked i c).close i k c).noticesFrom k c.slots.toUInt16).foldl follow books h =
      (books h).map (lowered i c.slots) := by
  let ns := ((p.unlinked i c).close i k c).noticesFrom k c.slots.toUInt16
  let own := ns.filter fun n => n.holder = h
  have hown {n : Notice} : n ∈ own ↔ n ∈ ns ∧ n.holder = h := by simp [own]
  have hnew : ∀ n ∈ own, n.new = lowered i c.slots n.old := fun n hn =>
    ((hp.mem_notices_iff hk hempty).mp (hown.mp hn).1).2.2
  have hapart : own.Pairwise fun m n => m.new ≠ n.old := by
    refine ((hp.pairwise_notices hk hempty).filter _).imp_of_mem fun {m n} hm hn hordered heq => ?_
    obtain ⟨hlt, -⟩ := hordered ((hown.mp hm).2.trans (hown.mp hn).2.symm)
    rw [heq] at hlt
    exact UInt16.lt_irrefl _ hlt
  rw [foldl_follow]
  refine List.map_congr_left fun j hj => ?_
  rw [foldl_replace_notices hnew hapart]
  split
  · rfl
  · rename_i hnot
    -- a client is told of all that it lists past the gap, so this index is before it
    have hbefore : ¬ i.slot < j.slot := fun hlt => hnot <| by
      obtain ⟨-, hheld, -⟩ := hp.of_mem_books hk hempty hbooks hj
      refine List.mem_map.mpr ⟨⟨h, j, lowered i c.slots j⟩, hown.mpr ⟨?_, rfl⟩, rfl⟩
      exact (hp.mem_notices_iff hk hempty).mpr ⟨hlt, hheld, rfl⟩
    rw [lowered, if_neg hbefore]

theorem Tracks.constantAt_lowered {h : ExternalId} {j : PoolIndex} (hj : j ∈ books h) :
    ∃ d, p.constantAt j none = .ok d ∧
      ((p.unlinked i c).close i k c).constantAt (lowered i c.slots j) none =
        .ok (d.mapReferences (lowered i c.slots)) := by
  obtain ⟨hne, -, d, hd⟩ := hp.of_mem_books hk hempty hbooks hj
  exact ⟨d, hd, (hp.constantAt_without hk (hp.removed hk hempty)).mpr ⟨j, d, hne, hd, rfl, rfl⟩⟩

theorem Tracks.booked_close :
    ((p.unlinked i c).close i k c).Booked
      ((((p.unlinked i c).close i k c).noticesFrom k c.slots.toUInt16).foldl follow books) where
  live h t ht := by
    rw [hp.foldl_follow_notices hk hempty hbooks] at ht
    obtain ⟨j, hj, rfl⟩ := List.mem_map.mp ht
    obtain ⟨d, -, hd⟩ := hp.constantAt_lowered hk hempty hbooks hj
    exact ⟨_, hd⟩
  counted h t e he := by
    obtain ⟨j, d, hne, hd, rfl, -⟩ := (hp.constantAt_without hk (hp.removed hk hempty)).mp he
    have hj := hp.mem_indices_of_constantAt hd
    have hinj : ∀ a ∈ books h, lowered i c.slots a = lowered i c.slots j → a = j := by
      intro a ha heq
      obtain ⟨hother, -, b, hb⟩ := hp.of_mem_books hk hempty hbooks ha
      exact lowered_injOn hp.counts.roomy hk hother hne (hp.mem_indices_of_constantAt hb) hj heq
    rw [hp.foldl_follow_notices hk hempty hbooks, count_map_of_injOn hinj,
      hp.count_external_close hk hempty hne hj, hbooks.counted h j d hd]

end Removal

/-- One constant after the other is taken out of `p`, and a client follows. -/
inductive Followed (p : Pool) (books : ExternalId → List PoolIndex) :
    Pool → (ExternalId → List PoolIndex) → Prop where
  | start : Followed p books p books
  | removed {q s : Pool} {later : ExternalId → List PoolIndex} {i : PoolIndex} {r : Removal}
    (h : Followed p books q later) (hr : remove i q = .ok r s) :
    Followed p books s (r.notices.foldl follow later)

theorem Reachable.of_remove {p q : Pool} {i : PoolIndex} {r : Removal} (hp : Reachable p)
    (hr : remove i p = .ok r q) : Reachable q := by
  have hq := hp.edited (.remove i)
  rw [Request.apply, Run.leaves, hr] at hq
  exact hq

/-- However many constants are taken out, the books agree with the registrations. -/
theorem Followed.booked {p q : Pool} {books later : ExternalId → List PoolIndex}
    (h : Followed p books q later) (hp : Reachable p) (hbooks : p.Booked books) :
    Reachable q ∧ q.Booked later := by
  induction h with
  | start => exact ⟨hp, hbooks⟩
  | removed _ hr ih =>
    obtain ⟨hq, hlater⟩ := ih
    obtain ⟨cs, hcs⟩ := hq.tracked
    have hs := hq.of_remove hr
    obtain ⟨k, c, hfind, hempty, rfl, rfl⟩ := remove_eq_ok_iff.mp hr
    exact ⟨hs, hcs.booked_close (hcs.find_eq_ok_iff.mp hfind) hempty hlater⟩

/-- When a constant is taken out, and a client replaces indices as it is told by the notices, in their order,
its books agree with the registrations again, if they did before. Every index in them is brought to where
its constant went, which is the same up to renumbered references. There is one notice for each
holder from outside of each constant past the one that was taken out, and no other one. -/
theorem booked_of_notices {p q : Pool} {books : ExternalId → List PoolIndex} {i : PoolIndex} {r : Removal}
    (hp : Reachable p) (hbooks : p.Booked books) (hr : remove i p = .ok r q) :
    q.Booked (r.notices.foldl follow books) ∧
    (∀ h, List.Forall₂ (fun j t => t = lowered i r.constant.slots j ∧
        ∃ d, p.constantAt j none = .ok d ∧
          q.constantAt t none = .ok (d.mapReferences (lowered i r.constant.slots)))
      (books h) (r.notices.foldl follow books h)) ∧
    (r.notices.map fun n => (n.holder, n.old)).Nodup ∧
    ∀ n, n ∈ r.notices ↔ i.slot < n.old.slot ∧ .external n.holder ∈ p.registrationsAt n.old ∧
      n.new = lowered i r.constant.slots n.old := by
  obtain ⟨cs, hp⟩ := hp.tracked
  obtain ⟨k, c, hfind, hempty, rfl, rfl⟩ := remove_eq_ok_iff.mp hr
  have hk := hp.find_eq_ok_iff.mp hfind
  refine ⟨hp.booked_close hk hempty hbooks, fun h => ?_, ?_, fun n => hp.mem_notices_iff hk hempty⟩
  · rw [hp.foldl_follow_notices hk hempty hbooks, List.forall₂_map_right_iff, List.forall₂_same]
    exact fun j hj => ⟨rfl, hp.constantAt_lowered hk hempty hbooks hj⟩
  · refine List.pairwise_map.mpr ((hp.pairwise_notices hk hempty).imp fun {m n} hordered heq => ?_)
    obtain ⟨hholder, hold⟩ := Prod.mk.inj heq
    exact (hordered hholder).2 hold

/-- Three numbers behind a wide one, all held by the same thing outside, one of them twice. The last one comes
down to the index that the first one had. -/
theorem booked_of_notices_of_adjacent_indices :
    let p := [Request.long 0, .integer 1, .integer 2, .integer 3, .registerExternal ⟨7⟩ ⟨3⟩,
      .registerExternal ⟨7⟩ ⟨4⟩, .registerExternal ⟨7⟩ ⟨4⟩, .registerExternal ⟨7⟩ ⟨5⟩].foldl
        (fun p r => r.apply p) empty
    let books (h : ExternalId) : List PoolIndex := if h = ⟨7⟩ then [⟨4⟩, ⟨5⟩, ⟨3⟩, ⟨4⟩] else []
    p.Booked books ∧ ∃ r q, remove ⟨1⟩ p = .ok r q ∧ q.Booked (r.notices.foldl follow books) ∧
      r.notices.foldl follow books ⟨7⟩ = [⟨2⟩, ⟨3⟩, ⟨1⟩, ⟨2⟩] ∧
      (r.notices.map fun n => (n.holder, n.old)).Nodup ∧ ⟨⟨7⟩, ⟨4⟩, ⟨2⟩⟩ ∈ r.notices := by
  intro p books
  have hreach : Reachable p := Reachable.empty.foldl_apply _
  have hentries : p.entries =
      [(⟨1⟩, .long 0), (⟨3⟩, .integer 1), (⟨4⟩, .integer 2), (⟨5⟩, .integer 3)] := by decide +kernel
  have hheld : (p.entries.map fun e => p.registrationsAt e.1) =
      [[], [.external ⟨7⟩], [.external ⟨7⟩, .external ⟨7⟩], [.external ⟨7⟩]] := by decide +kernel
  have hlive : ∀ j ∈ books ⟨7⟩, (p.constantAt j none).toOption.isSome := by decide +kernel
  have hgranted : (match remove ⟨1⟩ p with
    | .ok r _ => decide (r.constant.slots = 2)
    | .error _ _ => false) = true := by decide +kernel
  simp only [hentries, List.map_cons, List.map_nil, List.cons.injEq, and_true] at hheld
  obtain ⟨hfirst, hlow, htwice, hlast⟩ := hheld
  have hbooks : p.Booked books := by
    obtain ⟨cs, hp⟩ := hreach.tracked
    refine ⟨fun h j hj => ?_, fun h j d hd => ?_⟩
    · have hh : h = ⟨7⟩ := by
        by_contra hne
        simp [books, hne] at hj
      have hsome := hlive j (hh ▸ hj)
      cases hd : p.constantAt j none with
      | error f => simp [hd, Except.toOption] at hsome
      | ok d => exact ⟨d, rfl⟩
    · rw [hp.constantAt_eq_ok_iff, ← hp.counts.lists.entries_eq, hentries] at hd
      simp only [List.mem_cons, Prod.mk.injEq, List.not_mem_nil, or_false] at hd
      by_cases hh : h = ⟨7⟩
      · subst hh
        rcases hd with ⟨rfl, -⟩ | ⟨rfl, -⟩ | ⟨rfl, -⟩ | ⟨rfl, -⟩
        · rw [hfirst]; decide
        · rw [hlow]; decide
        · rw [htwice]; decide
        · rw [hlast]; decide
      · rcases hd with ⟨rfl, -⟩ | ⟨rfl, -⟩ | ⟨rfl, -⟩ | ⟨rfl, -⟩ <;>
          simp [books, hfirst, hlow, htwice, hlast, hh, Ne.symm hh]
  refine ⟨hbooks, ?_⟩
  cases hr : remove ⟨1⟩ p with
  | error f q => simp [hr] at hgranted
  | ok r q =>
    have hwide : r.constant.slots = 2 := by simpa [hr] using hgranted
    obtain ⟨hafter, hentry, honce, htold⟩ := booked_of_notices hreach hbooks hr
    have hown := List.forall₂_map_left_iff.mpr ((hentry ⟨7⟩).imp fun _ _ h => h.1.symm)
    rw [List.forall₂_eq_eq_eq, hwide] at hown
    refine ⟨r, q, rfl, hafter, hown.symm, honce, (htold _).mpr ⟨by decide, ?_, ?_⟩⟩
    · rw [htwice]
      decide
    · rw [hwide]
      decide

end ClassCode.Pool
