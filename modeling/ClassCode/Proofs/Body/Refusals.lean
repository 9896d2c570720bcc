import ClassCode.Proofs.Body.Registrations
import ClassCode.Proofs.Code.Refusals

/-! Refused edits of guards. All that could stand in the way of an edit is found out before anything is
changed, since the registrations of a guard match its targets: an edit that fails leaves the body as it
was, and one that retargets a guard moves all of its registrations. -/
namespace ClassCode.Body

open Run Outcome

/-- `d` is `b` with the guard `g` sent from `source` to `target` with all its targets that were `source`, and
with as many of its registrations. -/
structure Retargeted (g : Guard) (source target : Handle) (b d : Body) : Prop where
  guards : d.guards =
    b.guards.map fun x => if x.id = g.id then x.mapTargets (Code.redirect source target) else x
  code : Code.Transferred (.external g.id) source target (g.targets.count source) b.code d.code
  others : d = { b with code := d.code, guards := d.guards }

section Steps

variable {b : Body} (hb : Agrees b)
include hb

theorem Agrees.addGuard_failed {start handler : Handle} {stop : Option Handle} {catches : PoolIndex} {f : Fault}
    {d : Body} (h : Body.addGuard start stop handler catches b = .error f d) :
    d = { b with ids := b.ids.fresh.2 } := by
  rw [addGuard_apply _ _ _ _ _ hb.mem_inbound] at h
  cases hlive : forM (b.newGuard start stop handler catches).targets b.code.checkLive with
  | ok u => simp [hlive] at h
  | error e =>
    simp only [hlive] at h
    injection h with _ hd
    exact hd.symm

theorem Agrees.removeGuard_failed {id : ExternalId} {f : Fault} {d : Body}
    (h : Body.removeGuard id b = .error f d) : d = b := by
  cases hfind : b.findGuard id with
  | error e =>
    have hrun : Body.removeGuard id b = .error e b := by simp [Body.removeGuard, hfind]
    rw [hrun] at h
    injection h with _ hd
    exact hd.symm
  | ok e =>
    obtain ⟨p, g⟩ := e
    obtain ⟨hp, rfl⟩ := getElem?_of_findGuard hfind
    have hg : g ∈ b.guards.toList := Array.mem_toList_iff.mpr (Array.mem_of_getElem? hp)
    rw [removeGuard_apply hfind fun t => Nat.le_of_eq (hb.counted g hg t).symm] at h
    cases h

theorem Agrees.modify_eq_map {p : Nat} {g : Guard} (hp : b.guards[p]? = some g) (f : Guard → Guard) :
    b.guards.modify p f = b.guards.map fun x => if x.id = g.id then f x else x := by
  apply Array.toList_inj.mp
  rw [Array.toList_modify, Array.toList_map]
  exact modify_eq_map_of_nodup hb.distinct (Array.getElem?_toList.trans hp) f

theorem Agrees.retargetGuard_held {g : Guard} (hg : g ∈ b.guards.toList) {source target : Handle}
    (hsource : source ∈ g.targets) (hlive : b.code.isLive target) :
    ∃ d, Body.retargetGuard g.id source target b = .ok () d ∧ Retargeted g source target b d := by
  obtain ⟨ns, hc⟩ := hb.tracks
  obtain ⟨p, hfind⟩ := findGuard_of_mem hb.distinct hg
  have hheld := Nat.le_of_eq (hb.counted g hg source).symm
  have hcount : g.targets.count source ≠ 0 := Nat.ne_of_gt (List.count_pos_iff.mpr hsource)
  refine ⟨_, (retargetGuard_apply hfind hc.ledger hb.mem_inbound hheld).trans
    ((if_neg hcount).trans (if_pos hlive)), ?_⟩
  exact ⟨hb.modify_eq_map (getElem?_of_findGuard hfind).1 _,
    Code.transferred_moved hc.ledger (hb.mem_inbound target hlive) hheld, rfl⟩

theorem Agrees.retargetGuard_refused {id : ExternalId} {source target : Handle}
    (h : ¬ ∃ g ∈ b.guards.toList, g.id = id ∧ source ∈ g.targets ∧ b.code.isLive target) :
    ∃ f, Body.retargetGuard id source target b = .error f b := by
  cases hfind : b.findGuard id with
  | error f => exact ⟨f, by simp [Body.retargetGuard, hfind]⟩
  | ok e =>
    obtain ⟨p, g⟩ := e
    obtain ⟨hp, rfl⟩ := getElem?_of_findGuard hfind
    obtain ⟨ns, hc⟩ := hb.tracks
    have hg : g ∈ b.guards.toList := Array.mem_toList_iff.mpr (Array.mem_of_getElem? hp)
    rw [retargetGuard_apply hfind hc.ledger hb.mem_inbound (Nat.le_of_eq (hb.counted g hg source).symm)]
    by_cases hcount : g.targets.count source = 0
    · exact ⟨_, if_pos hcount⟩
    · have hlive : ¬ b.code.isLive target := fun hlive =>
        h ⟨g, hg, rfl, List.count_pos_iff.mp (Nat.pos_of_ne_zero hcount), hlive⟩
      exact ⟨_, (if_neg hcount).trans (if_neg hlive)⟩

theorem Agrees.retarget_failed {k : Holder Handle} {source target : Handle} {f : Fault} {d : Body}
    (h : Body.retarget k source target b = .error f d) : d = b := by
  cases k with
  | entry j =>
    obtain ⟨ns, hc⟩ := hb.tracks
    rw [Body.retarget, onCode_apply] at h
    cases hrun : Code.retarget (.entry j) source target b.code with
    | ok u c => simp [hrun] at h
    | error e c =>
      obtain ⟨rfl, -⟩ := hc.refuses_retarget _ _ _ e c hrun
      simp only [hrun] at h
      injection h with _ hd
      exact hd.symm
  | external id =>
    by_cases hheld : ∃ g ∈ b.guards.toList, g.id = id ∧ source ∈ g.targets ∧ b.code.isLive target
    · obtain ⟨g, hg, rfl, hsource, hlive⟩ := hheld
      obtain ⟨e, hrun, -⟩ := hb.retargetGuard_held hg hsource hlive
      rw [Body.retarget, hrun] at h
      cases h
    · obtain ⟨e, hrun⟩ := hb.retargetGuard_refused hheld
      rw [Body.retarget, hrun] at h
      injection h with _ hd
      exact hd.symm

end Steps

/-- An edit of the guards that fails leaves the body as it was, but that adding a guard uses up an identity. A guard
is retargeted just when it has the one instruction for a target and the other is there; then all its targets
and registrations on the one move, and nothing else changes. -/
theorem guard_edits_all_or_nothing {b : Body} (hb : Supplied b) :
    (∀ start stop handler catches f d, addGuard start stop handler catches b = .error f d →
      d = { b with ids := b.ids.fresh.2 }) ∧
    (∀ id f d, removeGuard id b = .error f d → d = b) ∧
    (∀ k source target f d, retarget k source target b = .error f d → d = b) ∧
    ∀ id source target,
      ((∃ d, retarget (.external id) source target b = .ok () d) ↔
        ∃ g ∈ b.guards.toList, g.id = id ∧ source ∈ g.targets ∧ b.code.isLive target) ∧
      ∀ d, retarget (.external id) source target b = .ok () d →
        ∀ g ∈ b.guards.toList, g.id = id → Retargeted g source target b d := by
  have hagrees := hb.agrees
  refine ⟨fun _ _ _ _ _ _ => hagrees.addGuard_failed, fun _ _ _ => hagrees.removeGuard_failed,
    fun _ _ _ _ _ => hagrees.retarget_failed, fun id source target => ?_⟩
  by_cases hheld : ∃ g ∈ b.guards.toList, g.id = id ∧ source ∈ g.targets ∧ b.code.isLive target
  · obtain ⟨g, hg, rfl, hsource, hlive⟩ := hheld
    obtain ⟨d, hrun, hd⟩ := hagrees.retargetGuard_held hg hsource hlive
    refine ⟨iff_of_true ⟨d, hrun⟩ ⟨g, hg, rfl, hsource, hlive⟩, fun e he x hx hid => ?_⟩
    rw [retarget, hrun] at he
    injection he with _ he
    rw [List.inj_on_of_nodup_map hagrees.distinct hx hg hid, ← he]
    exact hd
  · obtain ⟨f, hrun⟩ := hagrees.retargetGuard_refused hheld
    rw [retarget, hrun]
    exact ⟨iff_of_false (fun ⟨_, h⟩ => by cases h) hheld, fun _ h => by cases h⟩

/-- The identities have started over, and a second guard has that of the first one. Its start cannot be sent
elsewhere, since only the first guard is found. -/
theorem guard_edits_all_or_nothing_of_restarted :
    let b := (Request.addGuard ⟨0⟩ none ⟨2⟩ .absent).apply ((Request.push (.plain ⟨0xb1⟩)).apply
      ((Request.push (.plain ⟨0⟩)).apply ((Request.push (.plain ⟨0⟩)).apply (ofCode 1 0 Code.empty))))
    let d := (Request.addGuard ⟨1⟩ none ⟨2⟩ .absent).apply { b with ids := ⟨0⟩ }
    let g : Guard := ⟨⟨1⟩, none, ⟨2⟩, .absent, ⟨0⟩⟩
    Reachable d ∧ g ∈ d.guards.toList ∧ ⟨1⟩ ∈ g.targets ∧ d.code.isLive ⟨2⟩ ∧
      Run.fault? (retarget (.external g.id) ⟨1⟩ ⟨2⟩) d =
        some (.unresolved (.unregisteredHolder ⟨1⟩ (.external g.id))) := by
  intro b d g
  have hb : Reachable b := ((((reachable_empty 1 0).edited _).edited _).edited _).edited _
  exact ⟨(hb.supplied_from (t := ⟨9⟩) (by decide +kernel) 0).edited _, by decide +kernel⟩

/-- A guard starts at the instruction that handles it, and both move at once. None is added on an instruction that
is not there, no other one is taken out, and this one is neither sent there nor from elsewhere. -/
theorem guard_edits_all_or_nothing_of_guard_on_its_handler :
    let b := (Request.addGuard ⟨0⟩ (some ⟨2⟩) ⟨0⟩ .absent).apply ((Request.push (.plain ⟨0xb1⟩)).apply
      ((Request.push (.plain ⟨0⟩)).apply ((Request.push (.plain ⟨0⟩)).apply (ofCode 1 0 Code.empty))))
    let g : Guard := ⟨⟨0⟩, some ⟨2⟩, ⟨0⟩, .absent, ⟨0⟩⟩
    leaves (addGuard ⟨0⟩ none ⟨9⟩ .absent) b = { b with ids := b.ids.fresh.2 } ∧
    leaves (removeGuard ⟨1⟩) b = b ∧
    leaves (retarget (.external ⟨0⟩) ⟨0⟩ ⟨9⟩) b = b ∧
    leaves (retarget (.external ⟨0⟩) ⟨1⟩ ⟨2⟩) b = b ∧
    ∃ d, retarget (.external ⟨0⟩) ⟨0⟩ ⟨1⟩ b = .ok () d ∧ Retargeted g ⟨0⟩ ⟨1⟩ b d ∧
      d.code.registrations ⟨1⟩ (.external ⟨0⟩) = 2 := by
  intro b g
  have hb : Supplied b := ((((supplied_empty 1 0).edited _ (by decide +kernel) (by decide +kernel)).edited
    _ (by decide +kernel) (by decide +kernel)).edited _ (by decide +kernel) (by decide +kernel)).edited
    _ (by decide +kernel) (by decide +kernel)
  have hg : g ∈ b.guards.toList := by decide +kernel
  obtain ⟨hadd, hremove, hretarget, hsend⟩ := guard_edits_all_or_nothing hb
  obtain ⟨hiff, heffect⟩ := hsend ⟨0⟩ ⟨0⟩ ⟨1⟩
  obtain ⟨d, hrun⟩ := hiff.mpr ⟨g, hg, rfl, by decide, by decide +kernel⟩
  have hd := heffect d hrun g hg rfl
  have hunknown : Run.fault? (addGuard ⟨0⟩ none ⟨9⟩ .absent) b = some (.unresolved (.unknownInstruction ⟨9⟩)) := by
    decide +kernel
  have hother : Run.fault? (removeGuard ⟨1⟩) b = some (.unresolved (.unknownGuard ⟨1⟩)) := by decide +kernel
  have hthere : Run.fault? (retarget (.external ⟨0⟩) ⟨0⟩ ⟨9⟩) b =
      some (.unresolved (.unknownInstruction ⟨9⟩)) := by decide +kernel
  have hfrom : Run.fault? (retarget (.external ⟨0⟩) ⟨1⟩ ⟨2⟩) b =
      some (.unresolved (.unregisteredHolder ⟨1⟩ (.external ⟨0⟩))) := by decide +kernel
  exact ⟨hadd _ _ _ _ _ _ (fault?_eq_some_iff.mp hunknown), hremove _ _ _ (fault?_eq_some_iff.mp hother),
    hretarget _ _ _ _ _ (fault?_eq_some_iff.mp hthere), hretarget _ _ _ _ _ (fault?_eq_some_iff.mp hfrom),
    d, hrun, hd, (hd.code.gained (by decide)).trans (by decide +kernel)⟩

end ClassCode.Body
