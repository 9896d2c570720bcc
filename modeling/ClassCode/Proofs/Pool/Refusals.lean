import ClassCode.Proofs.Pool.Renumbering

/-! Refused removals. A constant can be taken out as long as nothing but itself holds it. Otherwise it takes hold
again of what it let go of, repeated references and one to itself included, and the pool is the one it was. -/
namespace ClassCode.Pool

open Holders Outcome Run

/-- Pools with the same constants are the same when the same is interned, and held from outside. -/
theorem Tracks.ext {p q : Pool} {cs : List Constant} (hp : p.Tracks cs) (hq : q.Tracks cs)
    (hinterned : p.interned = q.interned)
    (hexternal : ∀ i ∈ indices cs, ∀ h : ExternalId,
      (p.registrationsAt i).count (.external h) = (q.registrationsAt i).count (.external h)) : p = q := by
  have hconstants : p.constants = q.constants := hp.counts.lists.laid.trans hq.counts.lists.laid.symm
  have hsize : p.inbound.size = q.inbound.size := hp.counts.lists.sized.trans hq.counts.lists.sized.symm
  have hinbound : p.inbound = q.inbound := by
    refine Array.ext hsize fun k hkp hkq => ?_
    have hlt : k < (indices cs).length := by rwa [length_indices, ← hp.counts.lists.sized]
    have hk := List.getElem?_eq_getElem hlt
    have hrecords := hp.counts.recorded k _ hk
    have hothers := hq.counts.recorded k _ hk
    have hall (h : Holder PoolIndex) : (p.holdersAt k).count h = (q.holdersAt k).count h := by
      cases h with
      | entry i => exact hrecords.count_eq hothers i
      | external h =>
        have hsame := hexternal _ (List.mem_of_getElem? hk) h
        rwa [hp.registrationsAt_eq hk, hq.registrationsAt_eq hk, count_toList, count_toList] at hsame
    have hholders := ext_count hrecords.positive hothers.positive hall
    rwa [holdersAt, holdersAt, Array.getD_eq_getD_getElem?, Array.getD_eq_getD_getElem?,
      Array.getElem?_eq_getElem hkp, Array.getElem?_eq_getElem hkq] at hholders
  cases p; cases q
  simp_all

def Idle (p : Pool) (i : PoolIndex) : Prop := ∀ h ∈ p.registrationsAt i, h = .entry i

section Held

variable {p : Pool} {cs : List Constant} (hp : p.Tracks cs) {k : Nat} {i : PoolIndex} {c : Constant}
include hp

theorem Tracks.holders_eq_ok_iff {hs : List (Holder PoolIndex)} :
    p.holders i = .ok hs ↔ ∃ k c, (listed cs)[k]? = some (i, c) ∧ (p.holdersAt k).members = hs := by
  rw [holders, bind_eq_ok_iff]
  simp only [Prod.exists, hp.find_eq_ok_iff, pure_eq_ok_iff]

theorem Tracks.idle_iff {hs : List (Holder PoolIndex)} (h : p.holders i = .ok hs) :
    p.Idle i ↔ ∀ g ∈ hs, g = .entry i := by
  obtain ⟨k, c, hk, rfl⟩ := hp.holders_eq_ok_iff.mp h
  have hi : (indices cs)[k]? = some i := getElem?_indices.mpr ⟨c, hk⟩
  refine forall_congr' fun g => imp_congr_left ?_
  rw [hp.registrationsAt_eq hi, ← List.count_pos_iff, count_toList,
    mem_members_iff (hp.counts.recorded k i hi).positive]

variable (hk : (listed cs)[k]? = some (i, c))
include hk

theorem Tracks.isEmpty_unlinked_iff : ((p.unlinked i c).holdersAt k).isEmpty ↔ p.Idle i := by
  have hi : (indices cs)[k]? = some i := getElem?_indices.mpr ⟨c, hk⟩
  rw [isEmpty_iff ((hp.unlinked hk).recorded k i hi).positive, Idle, hp.registrationsAt_eq hi]
  refine forall_congr' fun h => ?_
  rw [← count_toList, (hp.perm_unlinked hk hi).count_eq, List.count_eq_zero, List.mem_filter]
  simp

theorem Tracks.remove_idle (hidle : p.Idle i) :
    remove i p = .ok ⟨c, ((p.unlinked i c).close i k c).noticesFrom k c.slots.toUInt16⟩
        ((p.unlinked i c).close i k c) ∧
      ((p.unlinked i c).close i k c).Tracks (without cs k i c) := by
  have hempty := (hp.isEmpty_unlinked_iff hk).mpr hidle
  exact ⟨remove_eq_ok_iff.mpr ⟨k, c, hp.find_eq_ok_iff.mpr hk, hempty, rfl, rfl⟩, hp.removed hk hempty⟩

/-- Letting go and taking hold again is doing nothing. -/
theorem Tracks.relinked_eq : c.references.foldl (register (.entry i)) (p.unlinked i c) = p := by
  have hq := hp.relinked hk
  refine hq.ext hp ?_ fun j hj h => ?_
  · rw [Pool.unlinked, register_eq_touch, release_eq_touch, interned_foldl_touch, interned_foldl_touch]
  · obtain ⟨m, hm⟩ := List.mem_iff_getElem?.mp hj
    have hroom := hp.counts.roomy
    have hlet : ((p.unlinked i c).holdersAt m).count (.external h) = (p.holdersAt m).count (.external h) := by
      rw [Pool.unlinked, release_eq_touch, hp.counts.lists.holdersAt_foldl_touch _ hroom _ hm,
        count_repeat_release]
      simp
    rw [hq.registrationsAt_eq hm, hp.registrationsAt_eq hm, count_toList, count_toList, ← hlet,
      register_eq_touch, (hp.unlinked hk).lists.holdersAt_foldl_touch _ hroom _ hm, count_repeat_register]
    simp

/-- A constant that something else holds stays, and all else stays with it. -/
theorem Tracks.remove_held (hheld : ¬ p.Idle i) :
    remove i p = .error (.constantInUse i (p.holdersAt k).members) p := by
  have hempty := mt (hp.isEmpty_unlinked_iff hk).mp hheld
  rw [remove_apply, hp.find_eq_ok_iff.mpr hk]
  simp [hempty, hp.relinked_eq hk]

omit hk in
theorem Tracks.eq_of_remove_eq_error {f : Fault} {q : Pool} (h : remove i p = .error f q) : q = p := by
  cases hi : p.find i with
  | error e =>
    rw [remove_apply, hi] at h
    injection h with _ hq
    exact hq.symm
  | ok found =>
    have hfound := hp.find_eq_ok_iff.mp hi
    by_cases hself : p.Idle i
    · rw [(hp.remove_idle hfound hself).1] at h
      cases h
    · rw [hp.remove_held hfound hself] at h
      injection h with _ hq
      exact hq.symm

end Held

/-- Where there is no constant, nothing is taken out, and the pool is as it was. Where there is one, it is refused
just when something other than itself is among its holders; it is these holders that are named then, all of
them, and the pool is as it was: the constants, every registration, what is interned. A refusal has no
notices. -/
theorem removal_refused_iff_held {p : Pool} {i : PoolIndex} (hp : Reachable p) :
    (∀ f, p.holders i = .error f → remove i p = .error f p) ∧
    ∀ hs, p.holders i = .ok hs → ∀ f q, remove i p = .error f q ↔
      (∃ h ∈ hs, h ≠ .entry i) ∧ f = .constantInUse i hs ∧ q = p := by
  obtain ⟨cs, hp⟩ := hp.tracked
  refine ⟨fun f hf => ?_, fun hs hhs f q => ?_⟩
  · rcases bind_eq_error_iff.mp hf with hmissing | ⟨_, -, hlisted⟩
    · rw [remove_apply, hmissing]
    · cases hlisted
  · have hidle : (∃ h ∈ hs, h ≠ .entry i) ↔ ¬ p.Idle i := by
      rw [hp.idle_iff hhs]
      simp
    obtain ⟨k, c, hk, rfl⟩ := hp.holders_eq_ok_iff.mp hhs
    rw [hidle]
    by_cases hself : p.Idle i
    · simp [(hp.remove_idle hk hself).1, hself]
    · simp [hp.remove_held hk hself, hself, eq_comm]

/-- A name and type that is its own name and its own descriptor, and the name of a class. It lets go of itself
twice before it is found to be held, and is held three times afterwards as it was before. -/
theorem removal_refused_iff_held_of_own_name :
    ∃ p rest, read [0, 3, 12, 0, 1, 0, 1, 7, 0, 1] = .ok (p, rest) ∧
      p.registrationsAt ⟨1⟩ = [.entry ⟨1⟩, .entry ⟨1⟩, .entry ⟨2⟩] ∧
      remove ⟨1⟩ p = .error (.constantInUse ⟨1⟩ [.entry ⟨1⟩, .entry ⟨2⟩]) p := by
  have hall : (read [0, 3, 12, 0, 1, 0, 1, 7, 0, 1]).toOption.map (fun r =>
      (r.1.registrationsAt ⟨1⟩, (r.1.holders ⟨1⟩).toOption)) =
        some ([.entry ⟨1⟩, .entry ⟨1⟩, .entry ⟨2⟩], some [.entry ⟨1⟩, .entry ⟨2⟩]) := by
    decide +kernel
  cases hread : read [0, 3, 12, 0, 1, 0, 1, 7, 0, 1] with
  | error f => simp [hread, Except.toOption] at hall
  | ok r =>
    obtain ⟨p, rest⟩ := r
    simp only [hread, Except.toOption, Option.map_some, Option.some.injEq, Prod.mk.injEq] at hall
    obtain ⟨hregistered, hholders⟩ := hall
    have hhs : p.holders ⟨1⟩ = .ok [.entry ⟨1⟩, .entry ⟨2⟩] := by
      cases h : p.holders ⟨1⟩ <;> simp_all
    obtain ⟨-, hrefused⟩ := removal_refused_iff_held (i := ⟨1⟩) (Reachable.read hread)
    exact ⟨p, rest, rfl, hregistered, (hrefused _ hhs _ _).mpr ⟨⟨.entry ⟨2⟩, by simp, by simp⟩, rfl, rfl⟩⟩

end ClassCode.Pool
