import ClassCode.Proofs.Code.Restarting

/-! Transfers. Registrations of one holder go from one instruction to another, one after the other. What it
has less of on the one it has more of on the other; all else stays, but for an instruction that was taken out
and that nothing is left on. -/
namespace ClassCode.Code

open Std Run

theorem Ledger.mem_dangling_iff {c : Code} (hc : c.Ledger) {h : Handle} :
    h ∈ c.dangling ↔ h ∉ c.inbound ∧ ∃ k, 0 < c.registrations h k := by
  by_cases hi : h ∈ c.inbound
  · simp [hi, hc.separate h hi]
  · have hnone := not_congr (hc.dangling_eq_none_iff hi)
    rw [← ne_eq, Option.ne_none_iff_isSome, ← ExtTreeMap.mem_iff_isSome_getElem?] at hnone
    simp [hnone, hi, Nat.pos_iff_ne_zero]

/-- `d` is `c` with `n` registrations of `k` transferred from `source` to `target`. -/
structure Transferred (k : Holder Handle) (source target : Handle) (n : Nat) (c d : Code) : Prop where
  nodes : d.nodes = c.nodes
  positions : d.positions = c.positions
  next : d.next = c.next
  live : ∀ h, h ∈ d.inbound ↔ h ∈ c.inbound
  left : source ≠ target → d.registrations source k + n = c.registrations source k
  gained : source ≠ target → d.registrations target k = c.registrations target k + n
  others : ∀ t m, (m = k → t ≠ source ∧ t ≠ target) → d.registrations t m = c.registrations t m
  forgotten : ∀ h, h ∈ d.dangling ↔ h ∈ c.dangling ∧ ∃ m, 0 < d.registrations h m
  same : source = target → d = c

theorem transferred_moved {c : Code} (hc : c.Ledger) {k : Holder Handle} {source target : Handle}
    (ht : target ∈ c.inbound) {n : Nat} (hn : n ≤ c.registrations source k) :
    Transferred k source target n c (moved k source target n c) := by
  have hmove := relisted_moved hc k source ht n
  have hcount := registrations_moved hc k source ht hn
  constructor
  case nodes => exact hmove.nodes
  case positions => exact hmove.positions
  case next => exact hmove.next
  case live => exact hmove.live
  case left =>
    intro hne
    rw [hcount, if_pos ⟨rfl, rfl⟩, if_neg fun h => hne h.1.symm, Nat.add_zero]
    exact Nat.sub_add_cancel hn
  case gained =>
    intro hne
    rw [hcount, if_neg fun h => hne h.1, if_pos ⟨rfl, rfl⟩, Nat.sub_zero]
  case others =>
    intro t m hother
    have hsource : ¬ (source = t ∧ k = m) := fun h => (hother h.2.symm).1 h.1.symm
    have htarget : ¬ (target = t ∧ k = m) := fun h => (hother h.2.symm).2 h.1.symm
    rw [hcount, if_neg hsource, if_neg htarget, Nat.sub_zero, Nat.add_zero]
  case forgotten =>
    intro h
    rw [hmove.ledger.mem_dangling_iff, hmove.live]
    refine ⟨fun ⟨hi, hleft⟩ => ⟨?_, hleft⟩, fun ⟨hh, hleft⟩ => ⟨fun hi => hc.separate h hi hh, hleft⟩⟩
    exact hmove.gone h (hmove.ledger.mem_dangling_iff.mpr ⟨fun hd => hi ((hmove.live h).mp hd), hleft⟩)
  case same =>
    -- each registration that is released is registered again on the same instruction
    rintro rfl
    refine hmove.ledger.ext hc hmove.nodes hmove.positions hmove.next hmove.live fun t m => ?_
    rw [hcount]
    by_cases h : source = t ∧ k = m
    · obtain ⟨rfl, rfl⟩ := h
      rw [if_pos ⟨rfl, rfl⟩]
      exact Nat.sub_add_cancel hn
    · rw [if_neg h, Nat.sub_zero, Nat.add_zero]

/-! Retargeting. A holder can be sent from one instruction to another just when it is registered on the one,
there or gone, and the other is there. An instruction goes with all its labels, and something outside with
one of its references; nothing else changes. -/

/-- How many registrations on `source` a holder takes along: an instruction all that it has, and something
outside one. -/
def carried (c : Code) (source : Handle) : Holder Handle → Nat
  | .entry h => c.registrations source (.entry h)
  | .external _ => 1

def retargetNode (k : Holder Handle) (source target : Handle) (n : Node) : Node :=
  if k = .entry n.handle then redirectNode source target n else n

section Nodes

variable (k : Holder Handle) (source target : Handle)

@[simp] theorem width_retargetNode (n : Node) (o : Nat) :
    (retargetNode k source target n).instruction.width o = n.instruction.width o := by
  rw [retargetNode]
  split
  · exact Instruction.width_map _ _ o
  · rfl

theorem retargetNode_self (n : Node) : retargetNode k source source n = n := by
  have hredirect : redirect source source = fun l => l := by
    funext l
    rw [redirect]
    split
    · rename_i hl
      exact hl.symm
    · rfl
  simp [retargetNode, redirectNode, hredirect, Instruction.map_id]

theorem map_retargetNode_external (e : ExternalId) (ns : List Node) :
    ns.map (retargetNode (.external e) source target) = ns := by
  have hsame : retargetNode (.external e) source target = id := funext fun _ => if_neg fun h => by cases h
  rw [hsame, List.map_id]

end Nodes

/-- `d` is `c` with the holder `k` sent from `source` to `target`. Offsets, positions and handles stay, and so
do the registrations of others and on other instructions. What is gone is forgotten with its last
registration. -/
structure Retargeted (k : Holder Handle) (source target : Handle) (c d : Code) : Prop where
  instructions : d.toList = c.toList.map fun e => (e.1, retargetNode k source target e.2)
  length : d.length = c.length
  positions : d.positions = c.positions
  next : d.next = c.next
  live : ∀ h, h ∈ d.inbound ↔ h ∈ c.inbound
  left : source ≠ target → d.registrations source k + c.carried source k = c.registrations source k
  gained : source ≠ target → d.registrations target k = c.registrations target k + c.carried source k
  others : ∀ t m, (m = k → t ≠ source ∧ t ≠ target) → d.registrations t m = c.registrations t m
  forgotten : ∀ h, h ∈ d.dangling ↔ h ∈ c.dangling ∧ ∃ m, 0 < d.registrations h m
  same : source = target → d = c

section Steps

variable {c : Code} {ns : List Node} (hc : c.Tracks ns) {k : Holder Handle} {source target : Handle}

theorem carried_le (hheld : 0 < c.registrations source k) : c.carried source k ≤ c.registrations source k := by
  cases k with
  | entry h => exact Nat.le_refl _
  | external e => exact hheld

def relabeled (c : Code) (ns : List Node) (k : Holder Handle) (source target : Handle) : Code :=
  { c with nodes := Layout.laid 0 (ns.map (retargetNode k source target)) }

def retargeted (c : Code) (ns : List Node) (k : Holder Handle) (source target : Handle) : Code :=
  moved k source target (c.carried source k) (c.relabeled ns k source target)

include hc

theorem Tracks.retarget_held (hlive : c.isLive target) (hheld : 0 < c.registrations source k) :
    Code.retarget k source target c = .ok ⟨⟩ (c.retargeted ns k source target) := by
  cases k with
  | entry h =>
    obtain ⟨p, n, hp, rfl, hcount, happly⟩ := hc.retarget_entry hlive hheld
    have hnodes : c.nodes.update p (redirectNode source target) =
        Layout.laid 0 (ns.map (retargetNode (.entry n.handle) source target)) := by
      rw [hc.laid, Layout.update_laid _ fun m o => Instruction.width_map _ _ o,
        modify_eq_map_of_nodup hc.distinct hp]
      exact congrArg _ (List.map_congr_left fun m _ => by simp only [retargetNode, Holder.entry.injEq, eq_comm])
    rw [happly, hcount, hnodes]
    rfl
  | external e =>
    have hsame : c.relabeled ns (.external e) source target = c := by
      rw [relabeled, map_retargetNode_external, ← hc.laid]
    rw [retarget_apply, if_pos hlive, if_pos ((registered_contains_iff hc.ledger).mpr hheld), retargeted, hsame]
    exact moveRegistrations_apply hc.ledger (.external e) source (hc.isLive_iff.mp hlive) 1

theorem Tracks.retarget_refused (h : ¬ (c.isLive target ∧ 0 < c.registrations source k)) :
    ∃ f, Code.retarget k source target c = .error (.unresolved f) c := by
  rw [retarget_apply]
  by_cases hlive : c.isLive target
  · have hheld : ¬ ((c.registered? source).any fun s => s.contains k) := fun hany =>
      h ⟨hlive, (registered_contains_iff hc.ledger).mp hany⟩
    exact ⟨_, by rw [if_pos hlive, if_neg hheld]⟩
  · exact ⟨_, if_neg hlive⟩

theorem Tracks.ledger_relabeled : (c.relabeled ns k source target).Ledger := hc.ledger.of_eq rfl rfl

/-- Once its labels are redirected, the holder gives away the registrations that they had. -/
theorem Tracks.transferred (hlive : c.isLive target) (hheld : 0 < c.registrations source k) :
    Transferred k source target (c.carried source k) (c.relabeled ns k source target)
      (c.retargeted ns k source target) :=
  transferred_moved hc.ledger_relabeled (hc.isLive_iff.mp hlive) (carried_le hheld)

theorem Tracks.retargeted (hlive : c.isLive target) (hheld : 0 < c.registrations source k) :
    Retargeted k source target c (c.retargeted ns k source target) := by
  have hmove := hc.transferred hlive hheld
  have hspan := width_retargetNode k source target
  constructor
  case instructions =>
    rw [toList, hmove.nodes, hc.toList_eq, relabeled, Layout.toList_laid, Layout.placed_map _ hspan]
  case length =>
    rw [length, hmove.nodes, length, hc.laid, relabeled, Layout.stop_laid, Layout.stop_laid,
      Layout.past_map _ hspan]
  case positions => exact hmove.positions
  case next => exact hmove.next
  case live => exact hmove.live
  case left => exact hmove.left
  case gained => exact hmove.gained
  case others => exact hmove.others
  case forgotten => exact hmove.forgotten
  case same =>
    rintro rfl
    rw [hmove.same rfl, relabeled, funext (retargetNode_self k source), List.map_id', ← hc.laid]

end Steps

/-- Retargeting succeeds just when the holder is registered on the one instruction, whether that is there or was
taken out, and the other is there. All that it changes then are the labels and the registrations of the
holder, as `Retargeted` says. -/
theorem retarget_exact {c : Code} (hc : Supplied c) (k : Holder Handle) (source target : Handle) :
    ((∃ d, retarget k source target c = .ok ⟨⟩ d) ↔ c.isLive target ∧ 0 < c.registrations source k) ∧
      ∀ d, retarget k source target c = .ok ⟨⟩ d → Retargeted k source target c d := by
  obtain ⟨ns, hc⟩ := hc.tracks
  by_cases h : c.isLive target ∧ 0 < c.registrations source k
  · have hrun := hc.retarget_held h.1 h.2
    refine ⟨iff_of_true ⟨_, hrun⟩ h, fun d hd => ?_⟩
    rw [hrun] at hd
    injection hd with _ hd
    exact hd ▸ hc.retargeted h.1 h.2
  · obtain ⟨f, hrun⟩ := hc.retarget_refused h
    rw [hrun]
    exact ⟨iff_of_false (fun ⟨_, hd⟩ => by cases hd) h, fun _ hd => by cases hd⟩

/-- The counter has started over, and what was then put in with the handle of the first instruction was taken out
again. The first instruction still has a position, but there are no holders for it, and the jump to the
second one cannot be sent to it. -/
theorem retarget_exact_of_restarted :
    let rs := [Request.push (.plain ⟨0⟩), .push (.plain ⟨0⟩), .push (.jump ⟨0xa7⟩ ⟨1⟩)]
    let c := { rs.foldl (fun c r => r.apply c) empty with next := 0 }
    let d := (Request.remove 0).apply ((Request.insert 0 (.plain ⟨0⟩)).apply c)
    Reachable d ∧ d.isLive ⟨0⟩ ∧ 0 < d.registrations ⟨1⟩ (.entry ⟨2⟩) ∧
      Run.fault? (retarget (.entry ⟨2⟩) ⟨1⟩ ⟨0⟩) d = some (.unresolved (.unknownInstruction ⟨0⟩)) := by
  intro rs c d
  have hrs : Supplies rs empty := by decide +kernel
  have hc : Reachable c := (Supplied.empty.foldl_apply hrs).reachable_restarted
  exact ⟨(hc.edited _).edited _, by decide +kernel⟩

/-- A switch goes to the next instruction with both its labels that led to one that was taken out, on which a
reference from outside is left. -/
theorem retarget_exact_of_switch_on_removed :
    let c := (Request.remove 0).apply ((Request.registerExternal ⟨7⟩ ⟨0⟩).apply
      ((Request.push (.tableSwitch ⟨0⟩ 0 [⟨1⟩, ⟨0⟩])).apply
        ((Request.push (.plain ⟨0⟩)).apply ((Request.push (.plain ⟨0⟩)).apply empty))))
    ∃ d, retarget (.entry ⟨2⟩) ⟨0⟩ ⟨1⟩ c = .ok ⟨⟩ d ∧ d.registrations ⟨1⟩ (.entry ⟨2⟩) = 3 ∧
      (d.toList.map fun e => e.2.instruction.labels) = [[], [⟨1⟩, ⟨1⟩, ⟨1⟩]] ∧ ⟨0⟩ ∈ d.dangling := by
  intro c
  have hc : Supplied c := ((((Supplied.empty.edited _ (by decide +kernel)).edited _ (by decide +kernel)).edited
    _ (by decide +kernel)).edited _ (by decide +kernel)).edited _ (by decide +kernel)
  obtain ⟨hiff, heffect⟩ := retarget_exact hc (.entry ⟨2⟩) ⟨0⟩ ⟨1⟩
  obtain ⟨d, hrun⟩ := hiff.mpr (by decide +kernel)
  have hd := heffect d hrun
  refine ⟨d, hrun, (hd.gained (by decide)).trans (by decide +kernel), ?_,
    (hd.forgotten ⟨0⟩).mpr ⟨?_, .external ⟨7⟩, ?_⟩⟩
  · rw [hd.instructions]
    decide +kernel
  · decide +kernel
  · rw [hd.others ⟨0⟩ (.external ⟨7⟩) (fun h => by cases h)]
    decide +kernel

end ClassCode.Code
