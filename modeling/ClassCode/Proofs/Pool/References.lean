import ClassCode.Proofs.Pool.Changing
import ClassCode.Proofs.Pool.Reading

/-! References along a run of edits. Whatever was edited, granted or refused, constants fill their slots
without gaps, refer to constants of the pool only, and are held just by those that refer to them. -/
namespace ClassCode.Pool

open Holders

/-- `p` is the pool of some list of constants. -/
def Tracked (p : Pool) : Prop := ∃ cs, p.Tracks cs

theorem Tracked.apply {p : Pool} (hp : Tracked p) (r : Request) : Tracked (r.apply p) := by
  obtain ⟨cs, hp⟩ := hp
  obtain ⟨ds, hq, -⟩ := r.keeps_tracks (fun _ _ => True) (fun _ => True) (fun _ _ _ _ => trivial)
    (fun _ => trivial) (fun _ _ => trivial) (fun _ _ => trivial) ⟨cs, hp, trivial⟩
  exact ⟨ds, hq⟩

theorem Reachable.tracked {p : Pool} (h : Reachable p) : Tracked p := by
  induction h with
  | empty => exact ⟨[], tracks_empty⟩
  | read h => exact tracks_read h
  | edited _ r ih => exact ih.apply r

def referencesAt (p : Pool) (i : PoolIndex) : List PoolIndex :=
  match p.find i with
  | .ok (_, c) => c.references
  | .error _ => []

section Tracked

variable {p : Pool} {cs : List Constant} (hp : p.Tracks cs)
include hp

theorem Tracks.elements_eq : p.constants.elements = cs := by
  rw [hp.counts.lists.laid, Layout.elements_laid]

theorem Tracks.toList_eq : p.constants.toList = Layout.placed 1 cs := by
  rw [hp.counts.lists.laid, Layout.toList_laid]

theorem Tracks.offset_eq {k : Nat} {e : Nat × Constant} (hk : p.constants.toList[k]? = some e) :
    e.1 = 1 + slotCount (cs.take k) := by
  rw [hp.toList_eq, Layout.getElem?_placed, Option.map_eq_some_iff] at hk
  obtain ⟨c, -, rfl⟩ := hk
  exact past_eq 1 _

theorem Tracks.reference_starts {e : Nat × Constant} (he : e ∈ p.constants.toList) {r : PoolIndex}
    (hr : r ∈ e.2.references) : ∃ d ∈ p.constants.toList, d.1 = r.slot.toNat := by
  have hmem : e.2 ∈ cs := by
    rw [← hp.elements_eq]
    exact List.mem_map_of_mem he
  obtain ⟨k, hk⟩ := List.mem_iff_getElem?.mp (hp.closed e.2 hmem r hr)
  obtain ⟨c, hc⟩ := getElem?_indices.mp hk
  rw [hp.toList_eq]
  exact ⟨_, List.mem_of_getElem? (hp.counts.roomy.getElem?_placed_iff.mpr hc), rfl⟩

theorem Tracks.count_holders {t : PoolIndex} {k : Nat} {c : Constant} (ht : p.find t = .ok (k, c))
    (h : PoolIndex) : (p.holdersAt k).count (.entry h) = (p.referencesAt h).count t := by
  have hrecord := hp.counts.recorded k t (getElem?_indices.mpr ⟨c, hp.find_eq_ok_iff.mp ht⟩)
  rw [referencesAt]
  cases hh : p.find h with
  | ok found =>
    obtain ⟨j, d⟩ := found
    exact hrecord.held (h, d) (List.mem_of_getElem? (hp.find_eq_ok_iff.mp hh))
  | error f =>
    refine hrecord.unheld h fun hmem => ?_
    obtain ⟨j, hj⟩ := List.mem_iff_getElem?.mp hmem
    obtain ⟨d, hd⟩ := getElem?_indices.mp hj
    rw [hp.find_eq_ok_iff.mpr hd] at hh
    exact absurd hh (by simp)

end Tracked

/-- In every pool that a run of edits leads to, constants take the slots from 1 on without gaps and end
within the pool; each of them has its holders; each of them refers to slots at which constants of the pool
start; these are the slots at which constants are found, and there the constant at any index is held
registered as often as it refers to the one found. -/
theorem registrations_match_references {p : Pool} (h : Reachable p) :
    (∀ (k : Nat) (e : Nat × Constant), p.constants.toList[k]? = some e →
      e.1 = 1 + slotCount (p.constants.elements.take k)) ∧
    p.count = 1 + slotCount p.constants.elements ∧ p.count ≤ maxPoolCount ∧
    p.inbound.size = p.constants.size ∧
    (∀ e ∈ p.constants.toList, ∀ r ∈ e.2.references, ∃ d ∈ p.constants.toList, d.1 = r.slot.toNat) ∧
    (∀ (t : PoolIndex) (k : Nat) (c : Constant),
      p.find t = .ok (k, c) ↔ p.constants.toList[k]? = some (t.slot.toNat, c)) ∧
    ∀ (t : PoolIndex) (k : Nat) (c : Constant), p.find t = .ok (k, c) → ∀ h : PoolIndex,
      (p.holdersAt k).count (.entry h) = (p.referencesAt h).count t := by
  obtain ⟨cs, hp⟩ := h.tracked
  have hcount := hp.counts.lists.count_eq
  refine ⟨fun k e hk => ?_, ?_, ?_, ?_, fun e he r hr => hp.reference_starts he hr, ?_,
    fun t k c ht h => hp.count_holders ht h⟩
  · rw [hp.elements_eq]
    exact hp.offset_eq hk
  · rw [hcount, hp.elements_eq, past_eq]
  · rw [hcount]
    exact hp.counts.roomy
  · rw [hp.counts.lists.sized, hp.counts.lists.laid, Layout.size_laid]
  · intro t k c
    rw [hp.find_eq_ok_iff, hp.toList_eq, hp.counts.roomy.getElem?_placed_iff]

/-- A text that is name and descriptor at once is held twice, by an index that shifted when the wide
constant in between was taken out; no edit takes out the text. -/
theorem registrations_of_shifted_holder :
    let p := (Request.remove ⟨1⟩).apply ((Request.remove ⟨2⟩).apply
      ((Request.intern (.nameAndType ⟨1⟩ ⟨1⟩)).apply
        ((Request.long 7).apply ((Request.intern (.utf8 [0x78])).apply empty))))
    p.find ⟨1⟩ = .ok (0, .utf8 [0x78]) ∧ (p.holdersAt 0).count (.entry ⟨2⟩) = 2 := by
  intro p
  have hreach : Reachable p :=
    ((((Reachable.empty.edited _).edited _).edited _).edited _).edited _
  obtain ⟨-, -, -, -, -, -, hcount⟩ := registrations_match_references hreach
  have hfind : p.find ⟨1⟩ = .ok (0, .utf8 [0x78]) := by decide +kernel
  refine ⟨hfind, ?_⟩
  rw [hcount ⟨1⟩ 0 _ hfind]
  decide +kernel

end ClassCode.Pool
