import ClassCode.Proofs.Code.Fitting
import ClassCode.Proofs.Code.Restarting

/-! Undoing edits. Taking out what was just put in, and exchanging back what was just exchanged, lead back to
the code as it was, with all that is registered on instructions that are there or gone; only handles are
not given out twice. -/
namespace ClassCode.Code

open Outcome Run

theorem validate_of_live {c : Code} {i : Instruction Handle} (hfit : i.misfit? = none)
    (hlive : ∀ l ∈ i.labels, c.isLive l) : c.validate i = .ok () := by
  have hlabels : i.labels.forM c.checkLive = .ok () :=
    forM_eq_ok_iff.mpr fun l hl => by simp [checkLive, hlive l hl]
  rw [validate, Instruction.check_eq_ok_iff (u := ()).mpr hfit, ok_bind, hlabels]

section Steps

variable {c : Code} {ns : List Node} (hc : c.Tracks ns)
include hc

/-- What was exchanged can be exchanged back as long as all that it leads to is there. -/
theorem Tracks.replace_replaced {p : Nat} {n : Node} {x : Instruction Handle} (hp : ns[p]? = some n)
    (hx : ∀ l ∈ x.labels, l ∈ c.inbound) (hfit : n.instruction.misfit? = none)
    (hlive : ∀ l ∈ n.instruction.labels, (c.replaced p n x).isLive l) :
    Code.replace p n.instruction (c.replaced p n x) = .ok x c := by
  let d := c.replaced p n x
  have hd : d.Tracks (ns.set p ⟨n.handle, x⟩) := hc.replaced hp hx
  have hat : (ns.set p ⟨n.handle, x⟩)[p]? = some ⟨n.handle, x⟩ := by
    rw [List.getElem?_set_self (List.getElem?_eq_some_iff.mp hp).1]
  have hlabels : ∀ l ∈ n.instruction.labels, l ∈ d.inbound := fun l hl => hd.isLive_iff.mp (hlive l hl)
  have he := hd.replaced hat hlabels
  have hset : (ns.set p ⟨n.handle, x⟩).set p ⟨n.handle, n.instruction⟩ = ns := by
    obtain ⟨hlt, rfl⟩ := List.getElem?_eq_some_iff.mp hp
    rw [List.set_set]
    exact List.set_getElem_self hlt
  rw [hset] at he
  have hback : c = d.replaced p ⟨n.handle, x⟩ n.instruction := by
    refine hc.eq_of_outside he ?_ ((outside_replaced p n x c).trans (outside_replaced p _ _ d))
    rw [(frugal_replaced _ p _ _).next, (frugal_replaced c p n x).next]
  exact replace_eq_ok_iff.mpr
    ⟨_, hd.nodeAt_eq_ok_iff.mpr hat, validate_of_live hfit hlive, rfl, hback.symm⟩

end Steps

/-- Taking out an instruction that was just put in answers with it and leads back to the code as it was, but for
the next handle; putting an instruction back in the place of the one that was just put there leads back to
the very code, if all that it leads to is there. -/
theorem edits_undone {c : Code} (hc : Supplied c) (p : Nat) (x : Instruction Handle) :
    (∀ h d, insert p x c = .ok h d → remove p d = .ok x { c with next := c.next + 1 }) ∧
      ∀ old d, replace p x c = .ok old d → (∀ l ∈ old.labels, d.isLive l) → replace p old d = .ok x c := by
  obtain ⟨ns, hns⟩ := hc.tracks
  constructor
  · intro h d hedit
    obtain ⟨hp, hvalid, -, rfl⟩ := insert_eq_ok_iff.mp hedit
    rw [hns.size_eq] at hp
    obtain ⟨as, bs, rfl, rfl⟩ := exists_append_of_le hp
    exact hns.remove_inserted hc.given.fresh (hns.labels_live hvalid)
  · intro old d hedit hlive
    obtain ⟨n, hn, hvalid, rfl, rfl⟩ := replace_eq_ok_iff.mp hedit
    have hp := hns.nodeAt_eq_ok_iff.mp hn
    have hfit : n.instruction.misfit? = none := by
      have hmem : n ∈ c.nodes.elements := by
        rw [hns.laid, Layout.elements_laid]
        exact List.mem_of_getElem? hp
      exact hc.reachable.fitting n hmem
    exact hns.replace_replaced hp (hns.labels_live hvalid) hfit hlive

/-- The counter has started over behind a jump back to the first instruction. What is put in gets the handle of
that one, and when it is taken out the first instruction is not found any more. -/
theorem edits_not_undone_of_restarted :
    let rs := [Request.push (.plain ⟨0⟩), .push (.jump ⟨0xa7⟩ ⟨0⟩)]
    let c := { rs.foldl (fun c r => r.apply c) empty with next := 0 }
    Reachable c ∧ c.positionOf ⟨0⟩ = .ok 0 ∧ ∃ d e, insert 2 (.plain ⟨0xb1⟩) c = .ok ⟨0⟩ d ∧
      remove 2 d = .ok (.plain ⟨0xb1⟩) e ∧ e.positionOf ⟨0⟩ = unknown ⟨0⟩ := by
  intro rs c
  have hrs : Supplies rs empty := by decide +kernel
  have hc : Reachable c := (Supplied.empty.foldl_apply hrs).reachable_restarted
  refine ⟨hc, by decide +kernel, _, _, insert_eq_ok_iff.mpr ⟨by decide +kernel, by decide +kernel, rfl, rfl⟩,
    remove_eq_ok_iff.mpr ⟨⟨⟨0⟩, .plain ⟨0xb1⟩⟩, by decide +kernel, by decide +kernel, rfl, rfl⟩, by decide +kernel⟩

/-- A jump to a switch is put in front of it and taken out, and the switch, which leads to itself and elsewhere, is
exchanged for one that does so too and back. -/
theorem edits_undone_of_switch_to_itself :
    let i : Instruction Handle := .tableSwitch ⟨1⟩ 0 [⟨0⟩, ⟨1⟩]
    let j : Instruction Handle := .lookupSwitch ⟨1⟩ [(7, ⟨1⟩), (8, ⟨0⟩)]
    let c := (Request.replace 1 i).apply ((Request.push (.plain ⟨0⟩)).apply ((Request.push (.plain ⟨0⟩)).apply empty))
    (∃ d, insert 1 (.jump ⟨0xa7⟩ ⟨1⟩) c = .ok ⟨2⟩ d ∧
      remove 1 d = .ok (.jump ⟨0xa7⟩ ⟨1⟩) { c with next := c.next + 1 }) ∧
    ∃ d, replace 1 j c = .ok i d ∧ replace 1 i d = .ok j c := by
  intro i j c
  have hc : Supplied c := ((Supplied.empty.edited _ (by decide +kernel)).edited _ (by decide +kernel)).edited _
    (by decide +kernel)
  have hinsert : insert 1 (.jump ⟨0xa7⟩ ⟨1⟩) c = .ok ⟨2⟩ (c.inserted 1 (.jump ⟨0xa7⟩ ⟨1⟩)) :=
    insert_eq_ok_iff.mpr ⟨by decide +kernel, by decide +kernel, by decide +kernel, rfl⟩
  have hreplace : replace 1 j c = .ok i (c.replaced 1 ⟨⟨1⟩, i⟩ j) :=
    replace_eq_ok_iff.mpr ⟨_, by decide +kernel, by decide +kernel, rfl, rfl⟩
  exact ⟨⟨_, hinsert, (edits_undone hc 1 _).1 _ _ hinsert⟩,
    ⟨_, hreplace, (edits_undone hc 1 j).2 _ _ hreplace (by decide +kernel)⟩⟩

end ClassCode.Code
