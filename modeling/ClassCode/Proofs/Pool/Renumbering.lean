import ClassCode.Proofs.Pool.References

/-! Renumbering. Taking out a constant takes its slots out of the numbering: every index past it comes
down by as many slots, wherever it is kept, and nothing else about the pool changes. -/
namespace ClassCode.Pool

open Holders Outcome Run

/-- Where an index goes when the constant at `i`, of `slots` slots, is taken out. -/
def lowered (i : PoolIndex) (slots : Nat) (j : PoolIndex) : PoolIndex :=
  if i.slot < j.slot then indexAt (j.slot.toNat - slots) else j

/-- Every registration on the constant at an index; there are none where there is no constant. -/
def registrationsAt (p : Pool) (i : PoolIndex) : List (Holder PoolIndex) :=
  match p.find i with
  | .ok (k, _) => (p.holdersAt k).toList
  | .error _ => []

section Exact

variable {i : PoolIndex} (hi : 0 < i.slot.toNat) (c : Constant)
include hi

theorem slots_le_of_lt {j : PoolIndex} (h : i.slot < j.slot) : c.slots ≤ j.slot.toNat := by
  have hwidth := c.slots_le_two
  rw [UInt16.lt_iff_toNat_lt] at h
  omega

theorem toNat_sub_slots {j : PoolIndex} (h : i.slot < j.slot) :
    (j.slot - c.slots.toUInt16).toNat = j.slot.toNat - c.slots := by
  have hle := slots_le_of_lt hi c h
  rw [UInt16.toNat_sub_of_le, c.toNat_slots]
  rw [UInt16.le_iff_toNat_le, c.toNat_slots]
  exact hle

theorem shift_eq_lowered : PoolIndex.shift i c.slots.toUInt16 = lowered i c.slots := by
  funext j
  rw [PoolIndex.shift, lowered]
  split
  · rename_i h
    apply PoolIndex.slot_toNat_inj
    have hlt := j.slot.toNat_lt
    rw [toNat_sub_slots hi c h, indexAt_toNat (by omega)]
  · rfl

end Exact

section Slots

variable {cs : List Constant} {k : Nat} {i : PoolIndex} {c : Constant}

theorem slotCount_eraseIdx (h : cs[k]? = some c) : slotCount (cs.eraseIdx k) + c.slots = slotCount cs := by
  obtain ⟨pre, post, rfl, rfl⟩ := exists_eq_append h
  rw [List.eraseIdx_append_of_length_le (Nat.le_refl _)]
  simp only [slotCount_append, slotCount, Nat.sub_self, List.eraseIdx_zero, List.tail_cons]
  omega

theorem past_without (h : (listed cs)[k]? = some (i, c)) :
    Layout.past 1 (without cs k i c) + c.slots = Layout.past 1 cs := by
  have hslots := slotCount_eraseIdx (getElem?_listed.mp h).1
  rw [without, Layout.past_map _ fun d _ => d.slots_mapReferences _, past_eq, past_eq]
  omega

variable (hroom : Roomy cs) (hk : (listed cs)[k]? = some (i, c))
include hroom hk

theorem slot_pos : 0 < i.slot.toNat :=
  (rising_constants 1 cs).le_of_mem_placed (List.mem_of_getElem? (hroom.getElem?_placed_iff.mpr hk))

theorem mem_eraseIdx_listed {e : PoolIndex × Constant} :
    e ∈ (listed cs).eraseIdx k ↔ e.1 ≠ i ∧ e ∈ listed cs := by
  have hperm := perm_cons_eraseIdx hk
  have hkeys := (hperm.map Prod.fst).nodup_iff.mp hroom.nodup_indices
  have hfresh : i ∉ ((listed cs).eraseIdx k).map Prod.fst := (List.nodup_cons.mp hkeys).1
  rw [hperm.mem_iff, List.mem_cons]
  constructor
  · intro he
    refine ⟨fun heq => ?_, .inr he⟩
    subst heq
    exact hfresh (List.mem_map_of_mem he)
  · rintro ⟨hne, heq | he⟩
    · exact absurd (congrArg Prod.fst heq) hne
    · exact he

theorem mem_eraseIdx_indices {a : PoolIndex} : a ∈ (indices cs).eraseIdx k ↔ a ≠ i ∧ a ∈ indices cs := by
  have hperm := perm_cons_eraseIdx (getElem?_indices.mpr ⟨c, hk⟩)
  have hfresh := (List.nodup_cons.mp (hperm.nodup_iff.mp hroom.nodup_indices)).1
  rw [hperm.mem_iff, List.mem_cons]
  exact ⟨fun ha => ⟨ne_of_mem_of_not_mem ha hfresh, .inr ha⟩, fun ha => ha.2.resolve_left ha.1⟩

theorem mem_indices_without {t : PoolIndex} :
    t ∈ indices (without cs k i c) ↔ ∃ a ∈ indices cs, a ≠ i ∧ lowered i c.slots a = t := by
  rw [indices_without hroom hk, shift_eq_lowered (slot_pos hroom hk), List.mem_map]
  simp only [mem_eraseIdx_indices hroom hk, and_assoc, and_left_comm]

theorem lowered_injOn {a b : PoolIndex} (ha : a ≠ i) (hb : b ≠ i) (hia : a ∈ indices cs)
    (hib : b ∈ indices cs) (h : lowered i c.slots a = lowered i c.slots b) : a = b := by
  have hd := (roomy_without hroom hk).nodup_indices
  rw [indices_without hroom hk, shift_eq_lowered (slot_pos hroom hk)] at hd
  exact List.inj_on_of_nodup_map hd ((mem_eraseIdx_indices hroom hk).mpr ⟨ha, hia⟩)
    ((mem_eraseIdx_indices hroom hk).mpr ⟨hb, hib⟩) h

end Slots

section Constants

variable {p : Pool} {cs : List Constant} (hp : p.Tracks cs)
include hp

theorem Tracks.constantAt_eq_ok_iff {j : PoolIndex} {d : Constant} :
    p.constantAt j none = .ok d ↔ (j, d) ∈ listed cs := by
  have hfound : p.constantAt j none = .ok d ↔ ∃ k, p.find j = .ok (k, d) := by
    rw [constantAt]
    cases p.find j with
    | error f => simp
    | ok found => simp [Prod.ext_iff, eq_comm]
  rw [hfound, List.mem_iff_getElem?]
  exact exists_congr fun k => hp.find_eq_ok_iff

theorem Tracks.mem_indices_of_constantAt {j : PoolIndex} {d : Constant} (h : p.constantAt j none = .ok d) :
    j ∈ indices cs := List.mem_map_of_mem (hp.constantAt_eq_ok_iff.mp h)

theorem Tracks.registrationsAt_eq {k : Nat} {j : PoolIndex} (hj : (indices cs)[k]? = some j) :
    p.registrationsAt j = (p.holdersAt k).toList := by
  obtain ⟨d, hd⟩ := getElem?_indices.mp hj
  rw [registrationsAt, hp.find_eq_ok_iff.mpr hd]

theorem Tracks.registrationsAt_of_not_mem {i : PoolIndex} (hi : i ∉ indices cs) :
    p.registrationsAt i = [] := by
  rw [registrationsAt]
  cases h : p.find i with
  | error f => rfl
  | ok found => exact absurd ((hp.counts.lists.exists_find_iff hp.counts.roomy).mp ⟨_, _, h⟩) hi

variable {k : Nat} {i : PoolIndex} {c : Constant} (hk : (listed cs)[k]? = some (i, c))
include hk

theorem Tracks.constantAt_without {q : Pool} (hq : q.Tracks (without cs k i c)) {t : PoolIndex}
    {d : Constant} :
    q.constantAt t none = .ok d ↔ ∃ j e, j ≠ i ∧ p.constantAt j none = .ok e ∧
      lowered i c.slots j = t ∧ e.mapReferences (lowered i c.slots) = d := by
  have hroom := hp.counts.roomy
  rw [hq.constantAt_eq_ok_iff, listed_without hroom hk, shift_eq_lowered (slot_pos hroom hk), List.mem_map]
  simp only [mem_eraseIdx_listed hroom hk, hp.constantAt_eq_ok_iff, Prod.mk.injEq, Prod.exists, and_assoc]

/-- A constant that is taken out lets go of all that it held, and nothing else lets go of anything. -/
theorem Tracks.perm_unlinked {m : Nat} {j : PoolIndex} (hm : (indices cs)[m]? = some j) :
    ((p.unlinked i c).holdersAt m).toList.Perm
      ((p.holdersAt m).toList.filter fun h => h ≠ .entry i) := by
  rw [List.perm_iff_count]
  intro h
  rw [count_toList, Pool.unlinked, release_eq_touch,
    hp.counts.lists.holdersAt_foldl_touch _ hp.counts.roomy _ hm, count_repeat_release]
  by_cases hh : h = .entry i
  · subst hh
    have hheld : (p.holdersAt m).count (.entry i) = c.references.count j :=
      (hp.counts.recorded m j hm).held (i, c) (List.mem_of_getElem? hk)
    rw [if_pos rfl, hheld, Nat.sub_self]
    exact (List.count_eq_zero.mpr (by simp)).symm
  · rw [if_neg (Ne.symm hh), Nat.sub_zero, List.count_filter (by simpa using hh), count_toList]

/-- The registrations on a constant that stays move along with the indices of their holders. -/
theorem Tracks.registrationsAt_close
    (hq : ((p.unlinked i c).close i k c).Tracks (without cs k i c)) {j : PoolIndex} (hne : j ≠ i)
    (hj : j ∈ indices cs) :
    (((p.unlinked i c).close i k c).registrationsAt (lowered i c.slots j)).Perm
      (((p.registrationsAt j).filter fun h => h ≠ .entry i).map (moveHolder (lowered i c.slots))) := by
  have hroom := hp.counts.roomy
  have hshift := shift_eq_lowered (slot_pos hroom hk) c
  have hstays : lowered i c.slots j ∈ indices (without cs k i c) :=
    (mem_indices_without hroom hk).mpr ⟨j, hj, hne, rfl⟩
  obtain ⟨l, hl⟩ := List.mem_iff_getElem?.mp hstays
  obtain ⟨m, a, hm, ha, heq, hholders⟩ :=
    (hp.unlinked hk).lists.holdersAt_close hroom hk hl
  have hother : a ≠ i := ((mem_eraseIdx_indices hroom hk).mp ha).1
  rw [hshift] at heq hholders
  obtain rfl := lowered_injOn hroom hk hother hne (List.mem_of_getElem? hm) hj heq
  rw [hq.registrationsAt_eq hl, hp.registrationsAt_eq hm, hholders]
  exact (perm_toList_rename _ _).trans ((hp.perm_unlinked hk hm).map _)

end Constants

theorem remove_eq_ok_iff {p q : Pool} {i : PoolIndex} {r : Removal} :
    remove i p = .ok r q ↔ ∃ k c, p.find i = .ok (k, c) ∧ ((p.unlinked i c).holdersAt k).isEmpty ∧
      (p.unlinked i c).close i k c = q ∧ ⟨c, q.noticesFrom k c.slots.toUInt16⟩ = r := by
  rw [remove_apply]
  cases p.find i with
  | error f => simp
  | ok found =>
    obtain ⟨k, c⟩ := found
    by_cases hempty : ((p.unlinked i c).holdersAt k).isEmpty
    · simp only [hempty, if_true, EStateM.Result.ok.injEq, Except.ok.injEq, Prod.mk.injEq]
      constructor
      · rintro ⟨rfl, rfl⟩
        exact ⟨k, c, ⟨rfl, rfl⟩, hempty, rfl, rfl⟩
      · rintro ⟨_, _, ⟨rfl, rfl⟩, -, rfl, rfl⟩
        exact ⟨rfl, rfl⟩
    · simp only [hempty, Bool.false_eq_true, if_false, reduceCtorEq, false_iff]
      rintro ⟨_, _, hfound, hyes, -⟩
      obtain ⟨rfl, rfl⟩ := Prod.mk.inj (Except.ok.inj hfound)
      exact hempty hyes

/-- Offsets in the pool that is left fit into 16 bits, also with the slots added that were taken out. -/
theorem Tracks.toNat_indexAt {p q : Pool} {cs ds : List Constant} (hp : p.Tracks cs) (hq : q.Tracks ds)
    {w : Nat} (hcount : q.count + w = p.count) {e : Nat × Constant} (he : e ∈ q.constants.toList) :
    (indexAt e.1).slot.toNat = e.1 ∧ ((indexAt e.1).slot + w.toUInt16).toNat = e.1 + w := by
  have hroom : p.count ≤ 65535 := by
    rw [hp.counts.lists.count_eq]
    exact hp.counts.roomy
  have hend : e.1 + e.2.slots ≤ q.count := by
    rw [hq.toList_eq] at he
    rw [hq.counts.lists.count_eq]
    exact (rising_constants _ _).add_span_le_past he
  have hpos := e.2.slots_pos
  have hplain : (indexAt e.1).slot.toNat = e.1 := indexAt_toNat (by omega)
  have hwidth : w.toUInt16.toNat = w := UInt16.toNat_ofNat_of_lt' (by
    change w < 65536
    omega)
  refine ⟨hplain, ?_⟩
  rw [UInt16.toNat_add, hplain, hwidth]
  exact Nat.mod_eq_of_lt (by omega)

/-- A constant that is taken out is the one at its index, and its slots are gone from the count. The others
are found at their renumbered indices, which stay apart, and nothing is found elsewhere; they refer to
what they referred to, renumbered, and nothing else about them changes. What was registered on them still
is, as often as before and under renumbered indices; only what the removed constant held, it let go of.
The last three parts say that the numbers of 16 bits that this is computed with do not wrap: the width,
the differences, the offsets and the sums. -/
theorem remove_renumbers {p q : Pool} {i : PoolIndex} {r : Removal} (hp : Reachable p)
    (hr : remove i p = .ok r q) :
    ∃ c, p.constantAt i none = .ok c ∧ r.constant = c ∧ q.count + c.slots = p.count ∧
      (∀ t d, q.constantAt t none = .ok d ↔ ∃ j e, j ≠ i ∧ p.constantAt j none = .ok e ∧
        lowered i c.slots j = t ∧ e.mapReferences (lowered i c.slots) = d) ∧
      (∀ a b d e, a ≠ i → b ≠ i → p.constantAt a none = .ok d → p.constantAt b none = .ok e →
        lowered i c.slots a = lowered i c.slots b → a = b) ∧
      (∀ j d, j ≠ i → p.constantAt j none = .ok d →
        (q.registrationsAt (lowered i c.slots j)).Perm
          (((p.registrationsAt j).filter fun h => h ≠ .entry i).map (moveHolder (lowered i c.slots)))) ∧
      c.slots.toUInt16.toNat = c.slots ∧
      (∀ j : PoolIndex, i.slot < j.slot →
        (j.slot - c.slots.toUInt16).toNat + c.slots = j.slot.toNat) ∧
      ∀ e ∈ q.constants.toList, (indexAt e.1).slot.toNat = e.1 ∧
        ((indexAt e.1).slot + c.slots.toUInt16).toNat = e.1 + c.slots := by
  obtain ⟨cs, hp⟩ := hp.tracked
  obtain ⟨k, c, hfind, hempty, rfl, rfl⟩ := remove_eq_ok_iff.mp hr
  have hk := hp.find_eq_ok_iff.mp hfind
  have hroom := hp.counts.roomy
  have hpos := slot_pos hroom hk
  have hq := hp.removed hk hempty
  have hcount : ((p.unlinked i c).close i k c).count + c.slots = p.count := by
    rw [hq.counts.lists.count_eq, hp.counts.lists.count_eq]
    exact past_without hk
  refine ⟨c, hp.constantAt_eq_ok_iff.mpr (List.mem_of_getElem? hk), rfl, hcount,
    fun t d => hp.constantAt_without hk hq, fun a b d e ha hb hd he heq => ?_, fun j d hne hj => ?_,
    c.toNat_slots, fun j hj => ?_, fun e he => hp.toNat_indexAt hq hcount he⟩
  · exact lowered_injOn hroom hk ha hb (hp.mem_indices_of_constantAt hd) (hp.mem_indices_of_constantAt he) heq
  · exact hp.registrationsAt_close hk hq hne (hp.mem_indices_of_constantAt hj)
  · rw [toNat_sub_slots hpos c hj, Nat.sub_add_cancel (slots_le_of_lt hpos c hj)]

/-- A name and type whose references cross when they come down, and which something outside holds: that of
the name is renumbered to what that of the descriptor was. -/
theorem remove_renumbers_of_crossing_references :
    let p := (Request.registerExternal ⟨7⟩ ⟨4⟩).apply ((Request.intern (.nameAndType ⟨3⟩ ⟨2⟩)).apply
      ((Request.intern (.utf8 [0x62])).apply ((Request.intern (.utf8 [0x61])).apply
        ((Request.integer 5).apply empty))))
    ∃ r q, remove ⟨1⟩ p = .ok r q ∧ r.constant = .integer 5 ∧ q.count = 4 ∧
      q.constantAt ⟨3⟩ none = .ok (.nameAndType ⟨2⟩ ⟨1⟩) ∧
      (q.registrationsAt ⟨1⟩).Perm [.entry ⟨3⟩] ∧ (q.registrationsAt ⟨3⟩).Perm [.external ⟨7⟩] := by
  intro p
  have hreach : Reachable p := ((((Reachable.empty.edited _).edited _).edited _).edited _).edited _
  have hgranted : (match remove ⟨1⟩ p with | .ok _ _ => true | .error _ _ => false) = true := by
    decide +kernel
  have hold : p.constantAt ⟨1⟩ none = .ok (.integer 5) := by decide +kernel
  have hpair : p.constantAt ⟨4⟩ none = .ok (.nameAndType ⟨3⟩ ⟨2⟩) := by decide +kernel
  have htext : p.constantAt ⟨2⟩ none = .ok (.utf8 [0x61]) := by decide +kernel
  have hcount : p.count = 5 := by decide +kernel
  have hlow : p.registrationsAt ⟨2⟩ = [.entry ⟨4⟩] := by decide +kernel
  have hhigh : p.registrationsAt ⟨4⟩ = [.external ⟨7⟩] := by decide +kernel
  cases hr : remove ⟨1⟩ p with
  | error f q => simp [hr] at hgranted
  | ok r q =>
    obtain ⟨c, hc, hremoved, hsize, hconstants, -, hregistered, -⟩ := remove_renumbers hreach hr
    obtain rfl : .integer 5 = c := by simpa using hold.symm.trans hc
    refine ⟨r, q, rfl, hremoved, ?_,
      (hconstants _ _).mpr ⟨⟨4⟩, _, by decide, hpair, by decide, by decide⟩, ?_, ?_⟩
    · rw [hcount] at hsize
      exact Nat.succ.inj hsize
    · have hmoved := hregistered ⟨2⟩ _ (by decide) htext
      rw [hlow] at hmoved
      exact hmoved
    · have hmoved := hregistered ⟨4⟩ _ (by decide) hpair
      rw [hhigh] at hmoved
      exact hmoved

end ClassCode.Pool
