import ClassCode.Proofs.Code.Retargeting
import ClassCode.Proofs.Instruction.Image

/-! Refused edits. An edit that fails leaves the code as it was, whatever it was asked for; only a removal that
complains of references to the instruction has taken it out all the same. -/
namespace ClassCode.Code

open Outcome Run

def InUse (f : Fault) : Prop := ∃ i ks, f = .instructionInUse i ks

/-- An edit that fails leaves the code as it was, and not for references to an instruction. -/
def Refuses {α : Type} (edit : Edit α) (c : Code) : Prop := ∀ f d, edit c = .error f d → d = c ∧ ¬ InUse f

theorem Refuses.leaves_eq_iff {α : Type} {edit : Edit α} {c : Code} (h : Refuses edit c) {f : Fault}
    (hf : Run.fault? edit c = some f) : leaves edit c = c ↔ ¬ InUse f :=
  iff_of_true (h f _ (fault?_eq_some_iff.mp hf)).1 (h f _ (fault?_eq_some_iff.mp hf)).2

theorem refuses_of_eq_error {α : Type} {edit : Edit α} {c : Code} {e : Fault} (h : edit c = .error e c)
    (he : ¬ InUse e) : Refuses edit c := by
  intro f d hf
  rw [h] at hf
  injection hf with hfault hcode
  exact ⟨hcode.symm, hfault ▸ he⟩

theorem refuses_of_eq_ok {α : Type} {edit : Edit α} {c d : Code} {a : α} (h : edit c = .ok a d) :
    Refuses edit c := by
  intro f e hf
  rw [h] at hf
  cases hf

section Checks

variable {c : Code} {f : Fault}

@[simp] theorem not_inUse_unresolved (u : Unresolved) : ¬ InUse (.unresolved u) := fun ⟨_, _, h⟩ => by cases h

theorem not_inUse_of_nodeAt {p : Nat} (h : c.nodeAt p = .error f) : ¬ InUse f := by
  rw [nodeAt] at h
  cases hn : c.nodes.get? p with
  | none =>
    rw [hn, throw_eq_error_iff] at h
    exact h ▸ not_inUse_unresolved _
  | some e => simp [hn] at h

theorem validate_eq_error_iff {i : Instruction Handle} :
    c.validate i = .error f ↔ i.check = .error f ∨ i.check = .ok () ∧
      ∃ l, (i.labels.find? fun l => !c.isLive l) = some l ∧ .unresolved (.unknownInstruction l) = f := by
  have hlabels : i.labels.forM c.checkLive = (i.labels.find? fun l => !c.isLive l).elim (.ok ()) fun l =>
      .error (.unresolved (.unknownInstruction l)) :=
    forM_eq_find? fun l _ => by cases hl : c.isLive l <;> simp [checkLive, unknown, hl]
  rw [validate, bind_eq_error_iff, hlabels]
  refine or_congr_right ⟨?_, ?_⟩
  · rintro ⟨_, hcheck, hl⟩
    refine ⟨hcheck, ?_⟩
    cases hfind : i.labels.find? fun l => !c.isLive l <;> simp_all
  · rintro ⟨hcheck, l, hl, he⟩
    refine ⟨(), hcheck, ?_⟩
    rw [hl, ← he]
    rfl

theorem not_inUse_of_validate {i : Instruction Handle} (h : c.validate i = .error f) : ¬ InUse f := by
  rcases validate_eq_error_iff.mp h with hcheck | ⟨-, l, -, rfl⟩
  · obtain ⟨m, -, rfl⟩ := Instruction.check_eq_error_iff.mp hcheck
    exact fun ⟨_, _, h⟩ => by cases h
  · exact not_inUse_unresolved _

end Checks

section Edits

variable (c : Code)

theorem refuses_insert (p : Nat) (i : Instruction Handle) : Refuses (insert p i) c := by
  have happly := insert_apply c p i
  by_cases hp : c.size < p
  · rw [if_pos hp] at happly
    exact refuses_of_eq_error happly (not_inUse_unresolved _)
  · rw [if_neg hp] at happly
    cases hv : c.validate i with
    | error f => exact refuses_of_eq_error (by rw [happly, hv]) (not_inUse_of_validate hv)
    | ok _ => exact refuses_of_eq_ok (by rw [happly, hv])

theorem refuses_push (i : Instruction Handle) : Refuses (push i) c := by
  intro f d h
  rw [push_apply] at h
  exact refuses_insert c c.size i f d h

theorem refuses_replace (p : Nat) (i : Instruction Handle) : Refuses (replace p i) c := by
  have happly := replace_apply c p i
  cases hn : c.nodeAt p with
  | error f => exact refuses_of_eq_error (by rw [happly, hn]) (not_inUse_of_nodeAt hn)
  | ok old =>
    cases hv : c.validate i with
    | error f => exact refuses_of_eq_error (by rw [happly, hn, hv]) (not_inUse_of_validate hv)
    | ok _ => exact refuses_of_eq_ok (by rw [happly, hn, hv])

theorem refuses_registerExternal (e : ExternalId) (t : Handle) : Refuses (registerExternal e t) c := by
  have happly := registerOn_apply c (.external e) t
  by_cases ht : t ∈ c.inbound
  · rw [if_pos ht] at happly
    exact refuses_of_eq_ok happly
  · rw [if_neg ht] at happly
    exact refuses_of_eq_error happly (not_inUse_unresolved _)

theorem refuses_unregisterExternal (e : ExternalId) (t : Handle) : Refuses (unregisterExternal e t) c := by
  have happly := unregisterExternal_apply c e t
  cases hr : release? (.external e) c t with
  | some d => exact refuses_of_eq_ok (by rw [happly, hr])
  | none =>
    by_cases hknown : (c.registered? t).isNone
    · exact refuses_of_eq_error (by rw [happly, hr]; exact if_pos hknown) (not_inUse_unresolved _)
    · exact refuses_of_eq_error (by rw [happly, hr]; exact if_neg hknown) (not_inUse_unresolved _)

variable {c} {ns : List Node} (hc : c.Tracks ns)
include hc

/-- Once the holder and the instruction are known, all its registrations can be moved. -/
theorem Tracks.refuses_retarget (k : Holder Handle) (source target : Handle) :
    Refuses (Code.retarget k source target) c := by
  by_cases h : c.isLive target ∧ 0 < c.registrations source k
  · exact refuses_of_eq_ok (hc.retarget_held h.1 h.2)
  · obtain ⟨f, hrun⟩ := hc.retarget_refused h
    exact refuses_of_eq_error hrun (not_inUse_unresolved f)

theorem Tracks.remove_leaves_eq_iff {p : Nat} {f : Fault} (hf : Run.fault? (Code.remove p) c = some f) :
    leaves (Code.remove p) c = c ↔ ¬ InUse f := by
  cases hn : c.nodeAt p with
  | error e =>
    have happly : Code.remove p c = .error e c := by rw [remove_apply, hn]
    exact (refuses_of_eq_error happly (not_inUse_of_nodeAt hn)).leaves_eq_iff hf
  | ok n =>
    have hp := hc.nodeAt_eq_ok_iff.mp hn
    have hthere : c.isLive n.handle :=
      hc.isLive_iff.mpr ((hc.live _).mpr (List.mem_map_of_mem (List.mem_of_getElem? hp)))
    have hgone : leaves (Code.remove p) c ≠ c := by
      rw [leaves_remove_of_nodeAt c p hn]
      intro heq
      rw [← heq, hc.isLive_detached hp] at hthere
      exact hthere.1 rfl
    have hin : InUse f := by
      rw [Run.fault?, remove_apply, hn] at hf
      by_cases hempty : (c.detach p n).1.isEmpty
      · simp [hempty] at hf
      · simp only [hempty] at hf
        exact ⟨_, _, (Option.some.inj hf).symm⟩
    exact iff_of_false hgone (not_not_intro hin)

end Edits

/-- A request that fails leaves the code as it was, all of it, unless it is for references to the instruction
that was to be taken out; then that was done. -/
theorem failure_changes_nothing {c : Code} (hc : Supplied c) {r : Request} {f : Fault} (hf : r.fault? c = some f) :
    r.apply c = c ↔ ¬ InUse f := by
  obtain ⟨ns, hc⟩ := hc.tracks
  cases r with
  | insert p i => exact (refuses_insert c p i).leaves_eq_iff hf
  | push i => exact (refuses_push c i).leaves_eq_iff hf
  | replace p i => exact (refuses_replace c p i).leaves_eq_iff hf
  | remove p => exact hc.remove_leaves_eq_iff hf
  | retarget k s t => exact (hc.refuses_retarget k s t).leaves_eq_iff hf
  | registerExternal e t => exact (refuses_registerExternal c e t).leaves_eq_iff hf
  | unregisterExternal e t => exact (refuses_unregisterExternal c e t).leaves_eq_iff hf

/-- The counter has started over, and what was then put in with the handle of the first instruction was taken out
again. The jump to the second one is refused to be sent to the first one, and leads there all the same. -/
theorem failure_changes_label_of_restarted :
    let rs := [Request.push (.plain ⟨0⟩), .push (.plain ⟨0⟩), .push (.jump ⟨0xa7⟩ ⟨1⟩)]
    let c := { rs.foldl (fun c r => r.apply c) empty with next := 0 }
    let d := (Request.remove 0).apply ((Request.insert 0 (.plain ⟨0⟩)).apply c)
    let r : Request := .retarget (.entry ⟨2⟩) ⟨1⟩ ⟨0⟩
    Reachable d ∧ r.fault? d = some (.unresolved (.unknownInstruction ⟨0⟩)) ∧
      d.toList[2]? = some (2, ⟨⟨2⟩, .jump ⟨0xa7⟩ ⟨1⟩⟩) ∧
      (r.apply d).toList[2]? = some (2, ⟨⟨2⟩, .jump ⟨0xa7⟩ ⟨0⟩⟩) := by
  intro rs c d r
  have hrs : Supplies rs empty := by decide +kernel
  have hc : Reachable c := (Supplied.empty.foldl_apply hrs).reachable_restarted
  exact ⟨(hc.edited _).edited _, by decide +kernel⟩

/-- An instruction that a jump leads to is taken out, and the jump cannot be sent to it any more. -/
theorem failure_changes_nothing_of_jump_to_removed :
    let b := (Request.push (.jump ⟨0xa7⟩ ⟨0⟩)).apply ((Request.push (.plain ⟨0⟩)).apply empty)
    let c := (Request.remove 0).apply b
    c ≠ b ∧ (Request.retarget (.entry ⟨1⟩) ⟨0⟩ ⟨0⟩).apply c = c := by
  intro b c
  have hb : Supplied b := (Supplied.empty.edited _ (by decide +kernel)).edited _ (by decide +kernel)
  have hin : (Request.remove 0).fault? b = some (.instructionInUse (.plain ⟨0⟩) [.entry ⟨1⟩]) := by
    decide +kernel
  have hunknown : (Request.retarget (.entry ⟨1⟩) ⟨0⟩ ⟨0⟩).fault? c =
      some (.unresolved (.unknownInstruction ⟨0⟩)) := by
    decide +kernel
  refine ⟨fun heq => (failure_changes_nothing hb hin).mp heq ⟨_, _, rfl⟩, ?_⟩
  exact (failure_changes_nothing (hb.edited _ (by decide +kernel)) hunknown).mpr (not_inUse_unresolved _)

end ClassCode.Code
