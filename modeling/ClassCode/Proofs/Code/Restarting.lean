import ClassCode.Proofs.Code.Recovery

/-! Handles that run out. An instruction that is put in and taken out again leaves the code as it was, but for
the handle that was given out for it. So a client can bring the counter of handles round on any code, and
then handles are given out again that are still in use. -/
namespace ClassCode.Code

open Run

theorem Tracks.eq_of_outside {c d : Code} {ns : List Node} (hc : c.Tracks ns) (hd : d.Tracks ns)
    (hnext : c.next = d.next) (hsame : c.SameOutside d) : c = d := by
  refine hc.ext hd hnext fun t k => ?_
  cases k with
  | entry j => rw [hc.counted, hd.counted]
  | external e => exact (hsame t e).symm

/-- Handles that are skipped are missed by no instruction. -/
theorem Tracks.skip {c : Code} {ns : List Node} (hc : c.Tracks ns) (n : UInt32) :
    Tracks { c with next := n } ns where
  laid := hc.laid
  distinct := hc.distinct
  placed := hc.placed
  live := hc.live
  ledger := hc.ledger.of_eq rfl rfl
  counted := hc.counted

theorem Tracks.remove_inserted {c : Code} {as bs : List Node} (hc : c.Tracks (as ++ bs)) (hfresh : ¬ c.Knows c.fresh)
    {x : Instruction Handle} (hx : ∀ l ∈ x.labels, l ∈ c.inbound) :
    Code.remove as.length (c.inserted as.length x) = .ok x { c with next := c.next + 1 } := by
  let n : Node := ⟨c.fresh, x⟩
  have hd : (c.inserted as.length x).Tracks (as ++ n :: bs) := hc.inserted_between hfresh hx
  have hat : (as ++ n :: bs)[as.length]? = some n := by simp
  have hback : { c with next := c.next + 1 } = ((c.inserted as.length x).detach as.length n).2 := by
    refine (hc.skip _).eq_of_outside hd.detached_between ?_
      ((outside_inserted hfresh as.length x).trans (hd.outside_detach hat))
    rw [(frugal_detach _ as.length n).next, next_inserted]
  -- nothing can be left on the new instruction, for its handle was not known
  refine remove_eq_ok_iff.mpr ⟨n, hd.nodeAt_eq_ok_iff.mpr hat, hd.isEmpty_left hat fun k => ?_, rfl, hback.symm⟩
  rw [← hback]
  exact registrations_of_not_knows hfresh k

theorem push_plain (c : Code) : (Request.push (.plain ⟨0⟩)).apply c = c.inserted c.size (.plain ⟨0⟩) := by
  rw [Request.apply, leaves, push_apply,
    insert_eq_ok_iff.mpr ⟨Nat.le_refl _, show c.validate (.plain ⟨0⟩) = .ok () from rfl, rfl, rfl⟩]

section Spin

variable {c : Code} (h : Supplied c)
include h

/-- Putting in an instruction at the end and taking it out uses up a handle, and does nothing else. -/
theorem Supplied.spin :
    (Request.remove c.size).apply ((Request.push (.plain ⟨0⟩)).apply c) = { c with next := c.next + 1 } := by
  obtain ⟨ns, hc⟩ := h.tracks
  have hend : c.Tracks (ns ++ []) := (List.append_nil ns).symm ▸ hc
  have hremove := hend.remove_inserted h.given.fresh (x := .plain ⟨0⟩) (by simp [Instruction.labels])
  rw [← hc.size_eq] at hremove
  rw [push_plain, Request.apply, leaves, hremove]

theorem Supplied.spun (hroom : c.next ≤ c.next + 1) : Supplied { c with next := c.next + 1 } := by
  have hnext : ((Request.push (.plain ⟨0⟩)).apply c).next = c.next + 1 := by rw [push_plain, next_inserted]
  have hspun := (h.edited (.push (.plain ⟨0⟩)) (by rwa [hnext])).edited (.remove c.size)
    (by rw [h.spin, hnext]; exact UInt32.le_refl _)
  rwa [h.spin] at hspun

/-- The counter of handles can be brought round. -/
theorem Supplied.reachable_restarted : Reachable { c with next := 0 } := by
  -- by induction on how many handles there are before the counter starts over
  induction hleft : UInt32.size - 1 - c.next.toNat generalizing c with
  | zero =>
    have hspun := (h.reachable.edited (.push (.plain ⟨0⟩))).edited (.remove c.size)
    have hlast : c.next.toNat + 1 = UInt32.size := by
      have hlt := c.next.toNat_lt_size
      omega
    rwa [h.spin, add_one_eq_zero hlast] at hspun
  | succ n ih =>
    have hroom : c.next ≤ c.next + 1 := le_add_one (by omega)
    have hless : UInt32.size - 1 - (c.next + 1).toNat = n := by
      rw [toNat_add_one hroom]
      omega
    exact ih (c := { c with next := c.next + 1 }) (h.spun hroom) hless

end Spin

end ClassCode.Code
