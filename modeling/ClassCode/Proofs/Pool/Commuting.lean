import ClassCode.Proofs.Pool.Following
import ClassCode.Proofs.Pool.Refusals

/-! Taking out two constants. Whichever of the two goes first, the other indices come down the same way, and the
pool that is left is known from its constants and from what holds them from outside. -/
namespace ClassCode.Pool

open Holders Run

section Lowered

variable {i j a : PoolIndex} {w v : Nat}

theorem toNat_lowered : (lowered i w j).slot.toNat =
    if i.slot.toNat < j.slot.toNat then j.slot.toNat - w else j.slot.toNat := by
  have hlt := j.slot.toNat_lt
  simp only [lowered, UInt16.lt_iff_toNat_lt]
  split
  · exact indexAt_toNat (by omega)
  · rfl

theorem lowered_of_le (h : j.slot.toNat ≤ i.slot.toNat) : lowered i w j = j := by
  simp only [lowered, UInt16.lt_iff_toNat_lt, if_neg (Nat.not_lt.mpr h)]

/-- Two gaps can be closed in either order: the upper one comes down by the lower one. Nothing starts inside
of what fills them. -/
theorem lowered_lowered (hij : i.slot.toNat < j.slot.toNat) (hw : i.slot.toNat + w ≤ j.slot.toNat)
    (ha : j.slot.toNat < a.slot.toNat → j.slot.toNat + v ≤ a.slot.toNat) :
    lowered (lowered i w j) v (lowered i w a) = lowered i w (lowered j v a) := by
  apply PoolIndex.slot_toNat_inj
  simp only [toNat_lowered, hij, if_true]
  split_ifs <;> omega

end Lowered

section Listed

variable {cs : List Constant} (hroom : Roomy cs) {k m : Nat} {i j : PoolIndex} {c d : Constant}
include hroom

theorem Roomy.add_slots_le (hk : (listed cs)[k]? = some (i, c)) (hm : (listed cs)[m]? = some (j, d))
    (h : i.slot.toNat < j.slot.toNat) : i.slot.toNat + c.slots ≤ j.slot.toNat := by
  have hlt : k < m := by
    rw [← hroom.slot_lt_iff (getElem?_indices.mpr ⟨c, hk⟩) (getElem?_indices.mpr ⟨d, hm⟩)]
    exact UInt16.lt_iff_toNat_lt.mpr h
  have hplaced := hroom.getElem?_placed_iff.mpr hk
  exact (rising_constants 1 cs).add_span_le_of_lt hplaced (hroom.getElem?_placed_iff.mpr hm) hlt

variable (hk : (listed cs)[k]? = some (i, c)) (hm : (listed cs)[m]? = some (j, d))
include hk hm

theorem Roomy.lowered_lowered {a : PoolIndex} (h : i.slot.toNat < j.slot.toNat) (ha : a ∈ indices cs) :
    lowered (lowered i c.slots j) d.slots (lowered i c.slots a) = lowered i c.slots (lowered j d.slots a) := by
  obtain ⟨l, hl⟩ := List.mem_iff_getElem?.mp ha
  obtain ⟨x, hx⟩ := getElem?_indices.mp hl
  exact Pool.lowered_lowered h (hroom.add_slots_le hk hm h) (hroom.add_slots_le hm hx)

theorem Roomy.getElem?_listed_without_of_lt (h : k < m) :
    (listed (without cs k i c))[m - 1]? =
      some (lowered i c.slots j, d.mapReferences (lowered i c.slots)) := by
  rw [listed_without hroom hk, shift_eq_lowered (slot_pos hroom hk), List.getElem?_map,
    List.getElem?_eraseIdx_of_ge (by omega), Nat.sub_add_cancel (by omega), hm]
  rfl

theorem Roomy.getElem?_listed_without_of_gt (h : m < k) :
    (listed (without cs k i c))[m]? = some (j, d.mapReferences (lowered i c.slots)) := by
  have hlt := (hroom.slot_lt_iff (getElem?_indices.mpr ⟨d, hm⟩) (getElem?_indices.mpr ⟨c, hk⟩)).mpr h
  have hstays : lowered i c.slots j = j := lowered_of_le (Nat.le_of_lt (UInt16.lt_iff_toNat_lt.mp hlt))
  rw [listed_without hroom hk, shift_eq_lowered (slot_pos hroom hk), List.getElem?_map,
    List.getElem?_eraseIdx_of_lt h, hm, Option.map_some, hstays]

/-- Where references lead to constants of the list, it does not matter which of two constants goes first. -/
theorem Roomy.without_without (hclosed : ∀ e ∈ cs, ∀ r ∈ e.references, r ∈ indices cs) (h : k < m) :
    without (without cs k i c) (m - 1) (lowered i c.slots j) (d.mapReferences (lowered i c.slots)) =
      without (without cs m j d) k i (c.mapReferences (lowered j d.slots)) := by
  have hlt : i.slot.toNat < j.slot.toNat := by
    rw [← UInt16.lt_iff_toNat_lt,
      hroom.slot_lt_iff (getElem?_indices.mpr ⟨c, hk⟩) (getElem?_indices.mpr ⟨d, hm⟩)]
    exact h
  have hfirst := shift_eq_lowered (slot_pos hroom hk) c
  have hother := shift_eq_lowered (slot_pos hroom hm) d
  have hupper := shift_eq_lowered (slot_pos (roomy_without hroom hk)
    (hroom.getElem?_listed_without_of_lt hk hm h)) (d.mapReferences (lowered i c.slots))
  have hlower := shift_eq_lowered (slot_pos hroom hk) (c.mapReferences (lowered j d.slots))
  have hmaps : cs.map (Constant.mapReferences (lowered (lowered i c.slots j) d.slots) ∘
        Constant.mapReferences (lowered i c.slots)) =
      cs.map (Constant.mapReferences (lowered i c.slots) ∘ Constant.mapReferences (lowered j d.slots)) := by
    refine List.map_congr_left fun e he => ?_
    simp only [Function.comp_apply, Constant.mapReferences_mapReferences]
    exact Constant.mapReferences_congr fun r hr => hroom.lowered_lowered hk hm hlt (hclosed e he r hr)
  rw [without, hupper, without, hfirst, without, hlower, without, hother]
  simp only [← List.eraseIdx_map, List.map_map, Constant.slots_mapReferences]
  rw [hmaps, eraseIdx_eraseIdx_comm _ h]

omit hm in
theorem Roomy.exists_of_mem_indices {l : Nat} {e : Constant} {t : PoolIndex}
    (hl : (listed (without cs k i c))[l]? = some (lowered i c.slots j, e))
    (ht : t ∈ indices (without (without cs k i c) l (lowered i c.slots j) e)) :
    ∃ a ∈ indices cs, a ≠ i ∧ a ≠ j ∧ lowered (lowered i c.slots j) e.slots (lowered i c.slots a) = t := by
  obtain ⟨b, hb, hbj, rfl⟩ := (mem_indices_without (roomy_without hroom hk) hl).mp ht
  obtain ⟨a, ha, hai, rfl⟩ := (mem_indices_without hroom hk).mp hb
  exact ⟨a, ha, hai, fun haj => hbj (congrArg _ haj), rfl⟩

end Listed

/-- Every constant of `p` that is not among those `gone` is in `q` where `f` takes its index, with its references
taken along, and is held from outside by the same things and as often. -/
def Carries (p q : Pool) (gone : List PoolIndex) (f : PoolIndex → PoolIndex) : Prop :=
  ∀ a x, a ∉ gone → p.constantAt a none = .ok x →
    q.constantAt (f a) none = .ok (x.mapReferences f) ∧
      ∀ h : ExternalId, (q.registrationsAt (f a)).count (.external h) = (p.registrationsAt a).count (.external h)

section Removal

variable {p : Pool} {cs : List Constant} (hp : p.Tracks cs) {k m : Nat} {i j : PoolIndex} {c d : Constant}
include hp

variable (hk : (listed cs)[k]? = some (i, c)) (hidle : p.Idle i)
include hk hidle

theorem Tracks.idle_close (hne : j ≠ i) (hj : j ∈ indices cs) (hother : p.Idle j) :
    ((p.unlinked i c).close i k c).Idle (lowered i c.slots j) := by
  obtain ⟨-, hq⟩ := hp.remove_idle hk hidle
  intro h hh
  rw [(hp.registrationsAt_close hk hq hne hj).mem_iff, List.mem_map] at hh
  obtain ⟨g, hg, rfl⟩ := hh
  rw [hother g (List.mem_filter.mp hg).1]
  rfl

theorem Tracks.carries_close :
    p.Carries ((p.unlinked i c).close i k c) [i] (lowered i c.slots) := by
  intro a x hne ha
  rw [List.mem_singleton] at hne
  obtain ⟨-, hq⟩ := hp.remove_idle hk hidle
  exact ⟨(hp.constantAt_without hk hq).mpr ⟨a, x, hne, ha, rfl, rfl⟩,
    hp.count_external_close hk ((hp.isEmpty_unlinked_iff hk).mpr hidle) hne (hp.mem_indices_of_constantAt ha)⟩

/-- What two removals make of a pool, the second one at the index that the first one left. -/
theorem Tracks.remove_remove {l : Nat} {e : Constant}
    (hl : (listed (without cs k i c))[l]? = some (lowered i c.slots j, e)) (hne : j ≠ i) (hj : j ∈ indices cs)
    (hother : p.Idle j) :
    ∃ r₁ p₁ r₂ q, remove i p = .ok r₁ p₁ ∧ remove (lowered i c.slots j) p₁ = .ok r₂ q ∧
      q.Tracks (without (without cs k i c) l (lowered i c.slots j) e) ∧ q.interned = internedOf q.constants ∧
      p.Carries q [i, j] fun a => lowered (lowered i c.slots j) e.slots (lowered i c.slots a) := by
  obtain ⟨hfirst, hp₁⟩ := hp.remove_idle hk hidle
  have hidle₁ := hp.idle_close hk hidle hne hj hother
  obtain ⟨hsecond, hq⟩ := hp₁.remove_idle hl hidle₁
  refine ⟨_, _, _, _, hfirst, hsecond, hq, rfl, fun a x hstays ha => ?_⟩
  simp only [List.mem_cons, List.not_mem_nil, or_false, not_or] at hstays
  obtain ⟨hx, hcount⟩ := hp.carries_close hk hidle a x (by simpa using hstays.1) ha
  have hapart : lowered i c.slots a ≠ lowered i c.slots j := fun heq =>
    hstays.2 (lowered_injOn hp.counts.roomy hk hstays.1 hne (hp.mem_indices_of_constantAt ha) hj heq)
  obtain ⟨hx₁, hcount₁⟩ := hp₁.carries_close hl hidle₁ _ _ (by simpa using hapart) hx
  rw [Constant.mapReferences_mapReferences] at hx₁
  exact ⟨hx₁, fun h => (hcount₁ h).trans (hcount h)⟩

theorem Tracks.remove_either (hm : (listed cs)[m]? = some (j, d)) (hkm : k < m) (hother : p.Idle j) :
    ∃ r₁ p₁ r₂ r₃ p₂ r₄ q, remove i p = .ok r₁ p₁ ∧ remove (lowered i c.slots j) p₁ = .ok r₂ q ∧
      remove j p = .ok r₃ p₂ ∧ remove i p₂ = .ok r₄ q ∧
      p.Carries q [i, j] fun a => lowered i c.slots (lowered j d.slots a) := by
  have hroom := hp.counts.roomy
  have hi : (indices cs)[k]? = some i := getElem?_indices.mpr ⟨c, hk⟩
  have hj : (indices cs)[m]? = some j := getElem?_indices.mpr ⟨d, hm⟩
  have hlt : i.slot.toNat < j.slot.toNat := UInt16.lt_iff_toNat_lt.mp ((hroom.slot_lt_iff hi hj).mpr hkm)
  have hne : i ≠ j := by
    rintro rfl
    exact Nat.lt_irrefl _ hlt
  have hstays : lowered j d.slots i = i := lowered_of_le (Nat.le_of_lt hlt)
  -- The lower one first, then the upper one where it came down to.
  have hupper := hroom.getElem?_listed_without_of_lt hk hm hkm
  obtain ⟨r₁, p₁, r₂, q, hr₁, hr₂, hq, hinterned, hcarried⟩ := hp.remove_remove hk hidle hupper hne.symm
    (List.mem_of_getElem? hj) hother
  -- The upper one first, then the lower one where it stayed.
  have hlower := hroom.getElem?_listed_without_of_gt hm hk hkm
  rw [← hstays] at hlower
  obtain ⟨r₃, p₂, r₄, q', hr₃, hr₄, hq', hinterned', hcarried'⟩ := hp.remove_remove hm hother hlower hne
    (List.mem_of_getElem? hi) hidle
  simp only [hstays, Constant.slots_mapReferences] at hcarried hcarried' hr₄ hq'
  have hsame : q = q' := by
    rw [← hroom.without_without hk hm hp.closed hkm] at hq'
    have hconstants : q.constants = q'.constants := hq.counts.lists.laid.trans hq'.counts.lists.laid.symm
    refine hq.ext hq' (by rw [hinterned, hinterned', hconstants]) fun t ht h => ?_
    obtain ⟨a, ha, hai, haj, rfl⟩ := hroom.exists_of_mem_indices hk hupper ht
    obtain ⟨l, hl⟩ := List.mem_iff_getElem?.mp ha
    obtain ⟨x, hx⟩ := getElem?_indices.mp hl
    have hxa := hp.constantAt_eq_ok_iff.mpr (List.mem_of_getElem? hx)
    rw [Constant.slots_mapReferences, (hcarried a x (by simp [hai, haj]) hxa).2 h,
      hroom.lowered_lowered hk hm hlt ha, (hcarried' a x (by simp [hai, haj]) hxa).2 h]
  subst hsame
  exact ⟨r₁, p₁, r₂, r₃, p₂, r₄, q, hr₁, hr₂, hr₃, hr₄, fun a x ha => hcarried' a x (by simpa [and_comm] using ha)⟩

end Removal

/-- Two constants that nothing but themselves holds can be taken out in either order, and the same pool is left:
the same constants, registrations and interned indices. It carries every other constant. -/
theorem removals_commute {p : Pool} {i j : PoolIndex} {hs ks : List (Holder PoolIndex)} (hp : Reachable p)
    (hij : i.slot < j.slot) (hi : p.holders i = .ok hs) (hj : p.holders j = .ok ks)
    (hself : ∀ h ∈ hs, h = .entry i) (hother : ∀ h ∈ ks, h = .entry j) :
    ∃ c d r₁ p₁ r₂ r₃ p₂ r₄ q, p.constantAt i none = .ok c ∧ p.constantAt j none = .ok d ∧
      remove i p = .ok r₁ p₁ ∧ remove ⟨j.slot - c.slots.toUInt16⟩ p₁ = .ok r₂ q ∧
      remove j p = .ok r₃ p₂ ∧ remove i p₂ = .ok r₄ q ∧
      p.Carries q [i, j] fun a => lowered i c.slots (lowered j d.slots a) := by
  obtain ⟨cs, hp⟩ := hp.tracked
  have hroom := hp.counts.roomy
  obtain ⟨k, c, hk, -⟩ := hp.holders_eq_ok_iff.mp hi
  obtain ⟨m, d, hm, -⟩ := hp.holders_eq_ok_iff.mp hj
  have hkm : k < m :=
    (hroom.slot_lt_iff (getElem?_indices.mpr ⟨c, hk⟩) (getElem?_indices.mpr ⟨d, hm⟩)).mp hij
  have hmoves : lowered i c.slots j = ⟨j.slot - c.slots.toUInt16⟩ := by
    rw [← shift_eq_lowered (slot_pos hroom hk), PoolIndex.shift, if_pos hij]
  have heither := hp.remove_either hk ((hp.idle_iff hi).mpr hself) hm hkm ((hp.idle_iff hj).mpr hother)
  rw [hmoves] at heither
  obtain ⟨r₁, p₁, r₂, r₃, p₂, r₄, q, hremoved⟩ := heither
  exact ⟨c, d, r₁, p₁, r₂, r₃, p₂, r₄, q, hp.constantAt_eq_ok_iff.mpr (List.mem_of_getElem? hk),
    hp.constantAt_eq_ok_iff.mpr (List.mem_of_getElem? hm), hremoved⟩

/-- Two wide numbers, a text between them and a class behind them that it is the name of. Two things outside
hold the text, one of them twice. -/
theorem removals_commute_around_text :
    let p := [Request.long 0, .intern (.utf8 [0x61]), .double 0, .intern (.classInfo ⟨3⟩),
      .registerExternal ⟨7⟩ ⟨3⟩, .registerExternal ⟨7⟩ ⟨3⟩, .registerExternal ⟨8⟩ ⟨3⟩].foldl
        (fun p r => r.apply p) empty
    ∃ r₁ p₁ r₂ r₃ p₂ r₄ q, remove ⟨1⟩ p = .ok r₁ p₁ ∧ remove ⟨2⟩ p₁ = .ok r₂ q ∧
      remove ⟨4⟩ p = .ok r₃ p₂ ∧ remove ⟨1⟩ p₂ = .ok r₄ q ∧ q.constantAt ⟨2⟩ none = .ok (.classInfo ⟨1⟩) ∧
      (q.registrationsAt ⟨1⟩).count (.external ⟨7⟩) = 2 := by
  intro p
  have hreach : Reachable p := Reachable.empty.foldl_apply _
  have hlow : p.constantAt ⟨1⟩ none = .ok (.long 0) := by decide +kernel
  have hhigh : p.constantAt ⟨4⟩ none = .ok (.double 0) := by decide +kernel
  have htext : p.constantAt ⟨3⟩ none = .ok (.utf8 [0x61]) := by decide +kernel
  have hclass : p.constantAt ⟨6⟩ none = .ok (.classInfo ⟨3⟩) := by decide +kernel
  have htwice : (p.registrationsAt ⟨3⟩).count (.external ⟨7⟩) = 2 := by decide +kernel
  have hfree : p.holders ⟨1⟩ = .ok [] := by decide +kernel
  have hfree' : p.holders ⟨4⟩ = .ok [] := by decide +kernel
  obtain ⟨c, d, r₁, p₁, r₂, r₃, p₂, r₄, q, hc, hd, hr₁, hr₂, hr₃, hr₄, hcarried⟩ :=
    removals_commute hreach (by decide) hfree hfree' (by simp) (by simp)
  obtain rfl := Except.ok.inj (hlow.symm.trans hc)
  obtain rfl := Except.ok.inj (hhigh.symm.trans hd)
  refine ⟨r₁, p₁, r₂, r₃, p₂, r₄, q, hr₁, hr₂, hr₃, hr₄, ?_, ?_⟩
  · exact (hcarried ⟨6⟩ _ (by decide) hclass).1
  · exact ((hcarried ⟨3⟩ _ (by decide) htext).2 ⟨7⟩).trans htwice

end ClassCode.Pool
