import ClassCode.Proofs.Code.Linking
import ClassCode.Proofs.Code.Scanning
import ClassCode.Proofs.Code.Stability

/-! The supply of handles. They are given out in order, and none that is still known is given out again as long
as the counter does not start over. -/
namespace ClassCode.Code

open Run Std

/-! A counter of 32 bits starts over after its last number. -/
section Counter

variable {n : UInt32}

theorem toNat_add_one (h : n ≤ n + 1) : (n + 1).toNat = n.toNat + 1 := by
  have hle := UInt32.le_iff_toNat_le.mp h
  have hlt := n.toNat_lt
  rw [UInt32.toNat_add] at hle ⊢
  simp only [UInt32.reduceToNat] at hle ⊢
  omega

theorem le_add_one (h : n.toNat + 1 < UInt32.size) : n ≤ n + 1 := by
  rw [UInt32.le_iff_toNat_le, UInt32.toNat_add]
  simp only [UInt32.reduceToNat, UInt32.size] at h ⊢
  omega

theorem add_one_eq_zero (h : n.toNat + 1 = UInt32.size) : n + 1 = 0 := by
  rw [← UInt32.toNat_inj, UInt32.toNat_add]
  simp only [UInt32.reduceToNat, UInt32.size] at h ⊢
  omega

end Counter

/-- `d` is `c` after changes for which no handle was given out. -/
structure Frugal (c d : Code) : Prop where
  next : d.next = c.next
  live : ∀ h, h ∈ d.inbound → h ∈ c.inbound
  known : ∀ h, d.Knows h → c.Knows h

theorem Frugal.of_eq {c d : Code} (hnext : d.next = c.next) (hi : d.inbound = c.inbound)
    (hd : d.dangling = c.dangling) : Frugal c d where
  next := hnext
  live h := by rw [hi]; exact id
  known h := by rw [Knows, hi, hd]; exact id

theorem Frugal.trans {c d e : Code} (hcd : Frugal c d) (hde : Frugal d e) : Frugal c e where
  next := hde.next.trans hcd.next
  live h hh := hcd.live h (hde.live h hh)
  known h hh := hcd.known h (hde.known h hh)

section Changes

variable (c : Code) (k : Holder Handle)

theorem frugal_register (t : Handle) : Frugal c (register k c t) := by
  have hlive : ∀ h, h ∈ (register k c t).inbound → h ∈ c.inbound := fun _ => ExtTreeMap.mem_modify.mp
  exact ⟨rfl, hlive, fun h => Or.imp_left (hlive h)⟩

theorem frugal_release (t : Handle) : Frugal c (release k c t) := by
  rcases release_cases k t (c := c) with ⟨he, -⟩ | ⟨s, hs, he⟩ | ⟨-, s, hs, he⟩ <;> rw [he]
  · exact .of_eq rfl rfl rfl
  · have hlive : ∀ h, h ∈ c.inbound.insert t (s.release k) → h ∈ c.inbound := fun h hh => by
      rw [ExtTreeMap.mem_insert, LawfulEqCmp.compare_eq_iff_eq] at hh
      exact hh.elim (fun he => he ▸ mem_of_getElem? hs) id
    exact ⟨rfl, hlive, fun h => Or.imp_left (hlive h)⟩
  · refine ⟨rfl, fun _ => id, fun h => Or.imp_right fun hh => ?_⟩
    dsimp only at hh
    split at hh
    · exact ExtTreeMap.mem_of_mem_erase hh
    · rw [ExtTreeMap.mem_insert, LawfulEqCmp.compare_eq_iff_eq] at hh
      exact hh.elim (fun he => he ▸ mem_of_getElem? hs) id

theorem frugal_foldl {α : Type} {f : Code → α → Code} (hf : ∀ c a, Frugal c (f c a)) (as : List α) :
    Frugal c (as.foldl f c) := by
  induction as generalizing c with
  | nil => exact .of_eq rfl rfl rfl
  | cons a as ih => exact (hf c a).trans (ih (f c a))

theorem frugal_registerAll (ts : List Handle) : Frugal c (ts.foldl (register k) c) :=
  frugal_foldl c (fun c t => frugal_register c k t) ts

theorem frugal_releaseAll (ts : List Handle) : Frugal c (ts.foldl (release k) c) :=
  frugal_foldl c (fun c t => frugal_release c k t) ts

theorem frugal_replaced (p : Nat) (old : Node) (i : Instruction Handle) : Frugal c (c.replaced p old i) := by
  let d : Code := i.labels.foldl (register (.entry old.handle)) c
  have hin : Frugal c d := frugal_registerAll c (.entry old.handle) i.labels
  have hput : Frugal d { d with nodes := d.nodes.replace p ⟨old.handle, i⟩ } := .of_eq rfl rfl rfl
  exact (hin.trans hput).trans (frugal_releaseAll _ (.entry old.handle) old.instruction.labels)

theorem frugal_detach (p : Nat) (n : Node) : Frugal c (c.detach p n).2 := by
  have herased : Frugal c (c.erased p n) := .of_eq rfl rfl rfl
  have hreleased : Frugal c (c.released p n) :=
    herased.trans (frugal_releaseAll _ (.entry n.handle) n.instruction.labels)
  have hretired : (c.detach p n).2 = (c.released p n).retire n.handle := rfl
  rw [hretired]
  exact ⟨hreleased.next, fun h hh => hreleased.live h ((mem_inbound_retire n.handle h).mp hh).2,
    fun h hh => hreleased.known h (knows_of_retire n.handle hh)⟩

end Changes

/-- All that is known was given out, and the counter has not started over since. -/
def Given (c : Code) : Prop := ∀ h, c.Knows h → h.number < c.next.toNat

theorem Given.fresh {c : Code} (hc : c.Given) : ¬ c.Knows c.fresh := fun h => Nat.lt_irrefl _ (hc _ h)

theorem Given.of_frugal {c d : Code} (h : Frugal c d) (hc : c.Given) : d.Given := fun t ht => by
  rw [h.next]
  exact hc t (h.known t ht)

structure Retired (h : Handle) (c : Code) : Prop where
  given : h.number < c.next.toNat
  absent : h ∉ c.inbound

theorem Retired.of_frugal {h : Handle} {c d : Code} (hd : Frugal c d) (hc : Retired h c) : Retired h d where
  given := by rw [hd.next]; exact hc.given
  absent hh := hc.absent (hd.live h hh)

theorem stable_of_frugal {I : Code → Prop} (hI : ∀ {c d : Code}, Frugal c d → I c → I d) : Stable I where
  replaced {c i p old} hc _ _ := hI (frugal_replaced c p old i) hc
  detached {c p n} hc _ := hI (frugal_detach c p n) hc
  redirected {c} _ _ _ hc := hI (Frugal.of_eq (c := c) rfl rfl rfl) hc
  registered {c t} k hc _ := hI (frugal_register c k t) hc
  released {c} k t hc := hI (frugal_release c k t) hc

section Inserted

variable {c : Code} (p : Nat) (i : Instruction Handle)

@[simp] theorem next_inserted : (c.inserted p i).next = c.next + 1 :=
  congrArg (· + 1) (frugal_registerAll c (.entry c.fresh) i.labels).next

theorem live_of_inserted {h : Handle} (hh : h ∈ (c.inserted p i).inbound) : h = c.fresh ∨ h ∈ c.inbound := by
  change h ∈ Std.ExtTreeMap.insert _ c.fresh Holders.empty at hh
  rw [ExtTreeMap.mem_insert, LawfulEqCmp.compare_eq_iff_eq] at hh
  exact hh.imp Eq.symm ((frugal_registerAll c (.entry c.fresh) i.labels).live h)

theorem knows_of_inserted {h : Handle} (hh : (c.inserted p i).Knows h) : h = c.fresh ∨ c.Knows h := by
  rcases hh with hi | hd
  · exact (live_of_inserted p i hi).imp_right .inl
  · exact .inr ((frugal_registerAll c (.entry c.fresh) i.labels).known h (.inr hd))

variable (hroom : c.next ≤ c.next + 1)
include hroom

theorem Given.inserted (hc : c.Given) : (c.inserted p i).Given := by
  intro h hh
  rw [next_inserted, toNat_add_one hroom]
  rcases knows_of_inserted p i hh with rfl | hh
  · exact Nat.lt_succ_self _
  · exact Nat.lt_succ_of_lt (hc h hh)

/-- The new instruction has a handle of its own. -/
theorem Retired.inserted {h : Handle} (hc : Retired h c) : Retired h (c.inserted p i) := by
  refine ⟨?_, fun hh => ?_⟩
  · rw [next_inserted, toNat_add_one hroom]
    exact Nat.lt_succ_of_lt hc.given
  · rcases live_of_inserted p i hh with rfl | hh
    · exact Nat.lt_irrefl _ hc.given
    · exact hc.absent hh

end Inserted

/-- Handles are given out for what is read, and none but these is known. -/
theorem given_decode {bytes : List UInt8} {c : Code} (h : decode bytes = .ok c) (hfew : c.size < UInt32.size) :
    c.Given := by
  rw [decode, Outcome.bind_eq_ok_iff] at h
  obtain ⟨ps, -, hps⟩ := h
  obtain ⟨ns, hns, rfl⟩ := ofInstructions_eq_ok_iff.mp hps
  have hlink : Frugal (ofNodes ns) (ofNodes ns).link :=
    frugal_foldl _ (fun c (e : Nat × Node) => frugal_registerAll c (.entry e.2.handle) e.2.instruction.labels) _
  rw [(tracks_nodesOf hns).size_eq] at hfew
  have hnext : (ofNodes ns).next.toNat = ns.length := UInt32.toNat_ofNat_of_lt' hfew
  refine Given.of_frugal hlink fun h hh => ?_
  rw [hnext, ← (numbered_nodesOf hns).mem_handles, ← mem_inbound_ofNodes ns (numbered_nodesOf hns).distinct]
  exact hh.resolve_right (by simp [ofNodes])

theorem size_le_of_decode {bytes : List UInt8} {c : Code} (h : decode bytes = .ok c) : c.size ≤ bytes.length := by
  rw [decode, Outcome.bind_eq_ok_iff] at h
  obtain ⟨ps, hscan, hps⟩ := h
  obtain ⟨is, rfl, -, rfl⟩ := scanAll_eq_ok_iff.mp hscan
  obtain ⟨ns, hns, rfl⟩ := ofInstructions_eq_ok_iff.mp hps
  rw [(tracks_nodesOf hns).size_eq, length_nodesOf hns, Layout.length_placed]
  exact length_listing_placed_le 0 is

theorem apply_of_frugal {I : Code → Prop} (hI : ∀ {c d : Code}, Frugal c d → I c → I d)
    (hinserted : ∀ {c : Code} (p : Nat) (i : Instruction Handle), c.next ≤ c.next + 1 → I c → I (c.inserted p i))
    {c : Code} (hc : I c) (r : Request) (hroom : c.next ≤ (r.apply c).next) : I (r.apply c) := by
  refine (stable_of_frugal hI).apply hc r fun p i _ _ he => ?_
  rw [he, next_inserted] at hroom
  exact he ▸ hinserted p i hroom hc

theorem Given.apply {c : Code} (hc : c.Given) (r : Request) (hroom : c.next ≤ (r.apply c).next) :
    (r.apply c).Given :=
  apply_of_frugal Given.of_frugal (fun p i hroom hc => hc.inserted p i hroom) hc r hroom

theorem Retired.apply {h : Handle} {c : Code} (hc : Retired h c) (r : Request)
    (hroom : c.next ≤ (r.apply c).next) : Retired h (r.apply c) :=
  apply_of_frugal Retired.of_frugal (fun p i hroom hc => hc.inserted p i hroom) hc r hroom

theorem Retired.foldl_apply {h : Handle} {c : Code} (hc : Retired h c) {rs : List Request}
    (hrs : Supplies rs c) : Retired h (rs.foldl (fun c r => r.apply c) c) := by
  induction rs generalizing c with
  | nil => exact hc
  | cons r rs ih => exact ih (hc.apply r hrs.1) hrs.2

theorem Supplied.given {c : Code} (h : Supplied c) : c.Given := by
  induction h with
  | empty => exact fun h hh => hh.elim (by simp [Code.empty]) (by simp [Code.empty])
  | decoded h hfew => exact given_decode h hfew
  | edited _ r hroom ih => exact ih.apply r hroom

end ClassCode.Code
