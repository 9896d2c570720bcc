import ClassCode.Proofs.Body.Registrations
import ClassCode.Proofs.Body.Writing
import ClassCode.Proofs.Code.Fitting
import ClassCode.Proofs.Code.Recovery

/-! Recovering from a removal. An instruction can be taken out although others refer to it; they are then
named. Retargeting each of them once, in any order, leads to one body, in which every reference to the
instruction leads elsewhere, and which can be written. -/
namespace ClassCode.Body

open Run Outcome

theorem Reachable.fitting {b : Body} (h : Reachable b) : b.code.Fitting :=
  h.code Code.stable_fitting (fun _ hc => hc.fitting) fun p hv hc => hc.inserted p (Code.misfit?_of_validate hv)

theorem Supplied.write_eq_error {b : Body} (hb : Supplied b)
    (hlabels : ∀ e ∈ b.code.toList, ∀ l ∈ e.2.instruction.labels, b.code.isLive l)
    (htargets : ∀ g ∈ b.guards.toList, ∀ t ∈ g.targets, b.code.isLive t) {f : Fault}
    (h : b.write.bytes = .error f) : (∃ o t, f = .branchOverflow o t) ∨ ∃ n, f = .malformed (.codeLength n) := by
  obtain ⟨ns, hc⟩ := hb.agrees.tracks
  cases hcode : b.code.encode with
  | error e =>
    rw [write, Writer.bytes_ofExcept_bind, hcode] at h
    obtain rfl : e = f := Except.error.inj h
    exact .inl (hb.reachable.fitting.encode_eq_error
      (fun e he l hl => hc.isSome_offset?_of_isLive (hlabels e he l hl)) hcode)
  | ok code =>
    by_cases hlength : code.isEmpty ∨ maxCodeLength < code.length
    · rw [write, Writer.bytes_ofExcept_bind, hcode, ok_bind, if_pos hlength] at h
      exact .inr ⟨_, (Except.error.inj h).symm⟩
    · rw [not_or, Nat.not_lt] at hlength
      have hwritten := bytes_write_eq_ok_iff.mpr ⟨code, hcode, by simpa using hlength.1, hlength.2,
        fun g hg t ht => hc.isSome_offset?_of_isLive (htargets g hg t ht), rfl⟩
      rw [hwritten] at h
      cases h

/-- Code is known from its instructions, the guards and the next handle. -/
theorem Agrees.code_eq {b d : Body} (hb : Agrees b) (hd : Agrees d)
    (hnodes : b.code.nodes.elements = d.code.nodes.elements) (hguards : b.guards = d.guards)
    (hnext : b.code.next = d.code.next) : b.code = d.code := by
  obtain ⟨ns, hns⟩ := hb.tracks
  obtain ⟨ms, hms⟩ := hd.tracks
  obtain rfl : ns = ms := by
    rwa [hns.laid, hms.laid, Layout.elements_laid, Layout.elements_laid] at hnodes
  refine hns.ext hms hnext fun t k => ?_
  cases k with
  | entry j => rw [hns.counted, hms.counted]
  | external e =>
    by_cases he : ∃ g ∈ b.guards.toList, g.id = e
    · obtain ⟨g, hg, rfl⟩ := he
      rw [hb.counted g hg, hd.counted g (hguards ▸ hg)]
    · have hnone : ∀ g ∈ b.guards.toList, g.id ≠ e := fun g hg heq => he ⟨g, hg, heq⟩
      rw [hb.free e hnone, hd.free e (hguards ▸ hnone)]

/-- `d` is `b` after some of the references to `source` were sent to `target`: sending all of them there makes
the two the same. -/
structure Rerouted (source target : Handle) (b d : Body) : Prop where
  supplied : Supplied d
  nodes : d.code.nodes.elements.map (Code.redirectNode source target) =
    b.code.nodes.elements.map (Code.redirectNode source target)
  guards : d.guards.toList.map (Guard.mapTargets (Code.redirect source target)) =
    b.guards.toList.map (Guard.mapTargets (Code.redirect source target))
  positions : d.code.positions = b.code.positions
  next : d.code.next = b.code.next
  rest : d = { b with code := d.code, guards := d.guards }

section Rerouted

variable {source target : Handle} {b d e : Body}

theorem Rerouted.refl (hb : Supplied b) : Rerouted source target b b := ⟨hb, rfl, rfl, rfl, rfl, rfl⟩

theorem Rerouted.trans (hd : Rerouted source target b d) (he : Rerouted source target d e) :
    Rerouted source target b e where
  supplied := he.supplied
  nodes := he.nodes.trans hd.nodes
  guards := he.guards.trans hd.guards
  positions := he.positions.trans hd.positions
  next := he.next.trans hd.next
  rest := by rw [he.rest, hd.rest]

theorem Rerouted.isLive (hd : Rerouted source target b d) (h : Handle) : d.code.isLive h = b.code.isLive h := by
  rw [Code.isLive, Code.isLive, hd.positions]

end Rerouted

section Reroute

variable {b : Body} (hb : Supplied b) {source target : Handle} (hsource : b.code.isLive source = false)
  (htarget : b.code.isLive target)
include hb hsource htarget

theorem Supplied.reroute_entry {h : Handle} (hheld : 0 < b.code.registrations source (.entry h)) :
    ∃ d, Body.retarget (.entry h) source target b = .ok () d ∧ Rerouted source target b d ∧
      ∀ m, d.code.registrations source m = if m = .entry h then 0 else b.code.registrations source m := by
  obtain ⟨ns, hc⟩ := hb.agrees.tracks
  have hne : source ≠ target := fun he => by simp [he, htarget] at hsource
  have hmem := hc.isLive_iff.mp htarget
  obtain ⟨p, n, hp, rfl, hcount, happly⟩ := hc.retarget_entry htarget hheld
  let c : Code := { b.code with nodes := b.code.nodes.update p (Code.redirectNode source target) }
  have hledger : c.Ledger := hc.ledger.of_eq rfl rfl
  have hrun : Body.retarget (.entry n.handle) source target b = .ok () { b with
      code := Code.moved (.entry n.handle) source target (n.instruction.labels.count source) c } := by
    rw [Body.retarget, onCode_apply, happly]
  have hmove := Code.relisted_moved hledger (.entry n.handle) source hmem (n.instruction.labels.count source)
  have hsteady := hb.steady (r := .retarget (.entry n.handle) source target) (leaves_of_eq_ok hrun) hmove.next rfl
  refine ⟨_, hrun, ⟨hsteady, ?_, rfl, hmove.positions, hmove.next, rfl⟩, fun m => ?_⟩
  · change (Code.moved _ _ _ _ c).nodes.elements.map _ = _
    rw [hmove.nodes, Layout.elements_update]
    exact map_modify_of_comp (Code.redirectNode_redirectNode source target) _ p
  · change (Code.moved _ _ _ _ c).registrations source m = _
    rw [hcount]
    exact Code.registrations_moved_away hledger (.entry n.handle) hmem hne m

theorem Supplied.reroute_guard {id : ExternalId} (hheld : 0 < b.code.registrations source (.external id)) :
    ∃ d, Body.retarget (.external id) source target b = .ok () d ∧ Rerouted source target b d ∧
      ∀ m, d.code.registrations source m = if m = .external id then 0 else b.code.registrations source m := by
  have hagrees := hb.agrees
  obtain ⟨ns, hc⟩ := hagrees.tracks
  have hne : source ≠ target := fun he => by simp [he, htarget] at hsource
  have hmem := hc.isLive_iff.mp htarget
  obtain ⟨g, hg, rfl⟩ : ∃ g ∈ b.guards.toList, g.id = id := by
    by_contra hnone
    rw [hagrees.free id (fun g hg heq => hnone ⟨g, hg, heq⟩)] at hheld
    exact Nat.lt_irrefl 0 hheld
  obtain ⟨p, hfind⟩ := findGuard_of_mem hagrees.distinct hg
  have hcount := hagrees.counted g hg source
  have hrun : retargetGuard g.id source target b = _ :=
    retargetGuard_apply hfind hc.ledger hagrees.mem_inbound (Nat.le_of_eq hcount.symm)
  rw [if_neg (hcount ▸ Nat.ne_of_gt hheld), if_pos htarget] at hrun
  have hmove := Code.relisted_moved hc.ledger (.external g.id) source hmem (g.targets.count source)
  have hsteady := hb.steady (r := .retarget (.external g.id) source target) (leaves_of_eq_ok hrun) hmove.next rfl
  refine ⟨_, hrun, ⟨hsteady, ?_, ?_, hmove.positions, hmove.next, rfl⟩, fun m => ?_⟩
  · change (Code.moved _ _ _ _ b.code).nodes.elements.map _ = _
    rw [hmove.nodes]
  · rw [Array.toList_modify]
    refine map_modify_of_comp (fun g => ?_) _ p
    rw [Guard.mapTargets_mapTargets]
    exact congrArg (fun f => Guard.mapTargets f g) (funext (Code.redirect_redirect source target))
  · change (Code.moved _ _ _ _ b.code).registrations source m = _
    rw [← hcount]
    exact Code.registrations_moved_away hc.ledger (.external g.id) hmem hne m

theorem Supplied.reroute {k : Holder Handle} (hheld : 0 < b.code.registrations source k) :
    ∃ d, Body.retarget k source target b = .ok () d ∧ Rerouted source target b d ∧
      ∀ m, d.code.registrations source m = if m = k then 0 else b.code.registrations source m := by
  cases k with
  | entry h => exact hb.reroute_entry hsource htarget hheld
  | external id => exact hb.reroute_guard hsource htarget hheld

theorem Supplied.reroute_all {ks : List (Holder Handle)} (hnodup : ks.Nodup)
    (hheld : ∀ k ∈ ks, 0 < b.code.registrations source k) :
    ∃ d, (forM ks fun k => Body.retarget k source target) b = .ok () d ∧ Rerouted source target b d ∧
      ∀ m, d.code.registrations source m = if m ∈ ks then 0 else b.code.registrations source m := by
  induction ks generalizing b with
  | nil => exact ⟨b, rfl, .refl hb, by simp⟩
  | cons k ks ih =>
    obtain ⟨hk, hks⟩ := List.nodup_cons.mp hnodup
    obtain ⟨d, hrun, hd, hcount⟩ := hb.reroute hsource htarget (hheld k (by simp))
    -- the other holders keep their registrations, so that they can still be retargeted
    have hrest : ∀ m ∈ ks, 0 < d.code.registrations source m := by
      intro m hm
      rw [hcount, if_neg (ne_of_mem_of_not_mem hm hk)]
      exact hheld m (by simp [hm])
    obtain ⟨e, hruns, he, hcounts⟩ := ih hd.supplied ((hd.isLive source).trans hsource)
      ((hd.isLive target).trans htarget) hks hrest
    refine ⟨e, ?_, hd.trans he, fun m => ?_⟩
    · rw [List.forM_cons, bind_apply, hrun]
      exact hruns
    · rw [hcounts, hcount]
      by_cases hm : m = k <;> by_cases hmem : m ∈ ks <;> simp [hm, hmem]

end Reroute

section Cleared

variable {source target : Handle} {b d e : Body} (hd : Rerouted source target b d)
  (hnone : ∀ k, d.code.registrations source k = 0)
include hd hnone

theorem Rerouted.label_ne : ∀ n ∈ d.code.nodes.elements, source ∉ n.instruction.labels := by
  obtain ⟨ns, hc⟩ := hd.supplied.agrees.tracks
  intro n hn
  rw [hc.laid, Layout.elements_laid] at hn
  rw [← List.count_eq_zero, ← Code.labelsOf_of_mem hc.distinct hn, ← hc.counted, hnone]

theorem Rerouted.target_ne : ∀ g ∈ d.guards.toList, source ∉ g.targets := by
  intro g hg
  rw [← List.count_eq_zero, ← hd.supplied.agrees.counted g hg, hnone]

theorem Rerouted.elements_eq :
    d.code.nodes.elements = b.code.nodes.elements.map (Code.redirectNode source target) := by
  rw [← hd.nodes]
  refine (List.map_id _).symm.trans (List.map_congr_left fun n hn => ?_)
  exact (Code.redirectNode_eq_self target (hd.label_ne hnone n hn)).symm

theorem Rerouted.toList_eq (hb : Supplied b) :
    d.code.toList = b.code.toList.map fun e => (e.1, Code.redirectNode source target e.2) := by
  obtain ⟨ns, hns⟩ := hb.agrees.tracks
  obtain ⟨ms, hms⟩ := hd.supplied.agrees.tracks
  have helements := hd.elements_eq hnone
  rw [hns.laid, hms.laid, Layout.elements_laid, Layout.elements_laid] at helements
  rw [hns.toList_eq, hms.toList_eq, helements]
  exact Layout.placed_map _ (fun n o => Instruction.width_map _ n.instruction o) 0 ns

theorem Rerouted.guards_eq :
    d.guards = b.guards.map (Guard.mapTargets (Code.redirect source target)) := by
  apply Array.toList_inj.mp
  rw [Array.toList_map, ← hd.guards]
  refine (List.map_id _).symm.trans (List.map_congr_left fun g hg => ?_)
  exact (Guard.mapTargets_eq_self fun t ht =>
    Code.redirect_of_ne target (ne_of_mem_of_not_mem ht (hd.target_ne hnone g hg))).symm

/-- Two bodies in which all references were sent are the same. -/
theorem Rerouted.unique (he : Rerouted source target b e) (hnone' : ∀ k, e.code.registrations source k = 0) :
    d = e := by
  have hguards : d.guards = e.guards := (hd.guards_eq hnone).trans (he.guards_eq hnone').symm
  have hcode : d.code = e.code := hd.supplied.agrees.code_eq he.supplied.agrees
    ((hd.elements_eq hnone).trans (he.elements_eq hnone').symm) hguards (hd.next.trans he.next.symm)
  rw [hd.rest, he.rest, hcode, hguards]

variable (hlive : b.code.isLive target)
include hlive

omit hnone in
theorem Rerouted.isLive_redirect {l : Handle} (hl : l ≠ source → b.code.isLive l) :
    d.code.isLive (Code.redirect source target l) := by
  rw [hd.isLive, Code.redirect]
  split
  · exact hlive
  · rename_i hne
    exact hl hne

theorem Rerouted.labels_live
    (hlabels : ∀ n ∈ b.code.nodes.elements, ∀ l ∈ n.instruction.labels, l ≠ source → b.code.isLive l) :
    ∀ e ∈ d.code.toList, ∀ l ∈ e.2.instruction.labels, d.code.isLive l := by
  intro e he l hl
  have hmem : e.2 ∈ d.code.nodes.elements := List.mem_map_of_mem he
  rw [hd.elements_eq hnone] at hmem
  obtain ⟨n, hn, hne⟩ := List.mem_map.mp hmem
  rw [← hne, Code.redirectNode, Instruction.labels_map] at hl
  obtain ⟨k, hk, rfl⟩ := List.mem_map.mp hl
  exact hd.isLive_redirect hlive (hlabels n hn k hk)

theorem Rerouted.targets_live
    (htargets : ∀ g ∈ b.guards.toList, ∀ t ∈ g.targets, t ≠ source → b.code.isLive t) :
    ∀ g ∈ d.guards.toList, ∀ t ∈ g.targets, d.code.isLive t := by
  intro g hg t ht
  rw [hd.guards_eq hnone, Array.toList_map] at hg
  obtain ⟨x, hx, rfl⟩ := List.mem_map.mp hg
  rw [Guard.targets_mapTargets] at ht
  obtain ⟨k, hk, rfl⟩ := List.mem_map.mp ht
  exact hd.isLive_redirect hlive (htargets x hx k hk)

end Cleared

section Removed

variable {b : Body} (hb : Supplied b) {p : Nat} {n : Node} (hn : b.code.nodeAt p = .ok n)
include hb hn

/-- All that the body refers to after an instruction was taken out is there, but for the instruction. -/
theorem Supplied.live_of_detached {c : Body} (hc : c = { b with code := (b.code.detach p n).2 })
    (hlabels : ∀ e ∈ b.code.toList, ∀ l ∈ e.2.instruction.labels, b.code.isLive l)
    (htargets : ∀ g ∈ b.guards.toList, ∀ t ∈ g.targets, b.code.isLive t) :
    (∀ m ∈ c.code.nodes.elements, ∀ l ∈ m.instruction.labels, l ≠ n.handle → c.code.isLive l) ∧
      ∀ g ∈ c.guards.toList, ∀ t ∈ g.targets, t ≠ n.handle → c.code.isLive t := by
  subst hc
  obtain ⟨ns, hns⟩ := hb.agrees.tracks
  have hat := hns.nodeAt_eq_ok_iff.mp hn
  refine ⟨fun m hm l hl hne => (hns.isLive_detached hat).mpr ⟨hne, ?_⟩, fun g hg t ht hne =>
    (hns.isLive_detached hat).mpr ⟨hne, htargets g hg t ht⟩⟩
  rw [(hns.detached hat).laid, Layout.elements_laid] at hm
  have hmem : m ∈ b.code.toList.map Prod.snd := by
    rw [hns.toList_eq, Layout.map_snd_placed]
    exact List.mem_of_mem_eraseIdx hm
  obtain ⟨e, he, rfl⟩ := List.mem_map.mp hmem
  exact hlabels e he l hl

/-- The holders of an instruction that is taken out can be retargeted in any order, and all orders lead to one
body. -/
theorem Supplied.reroute_perm {c : Body} (hc : c = { b with code := (b.code.detach p n).2 })
    (hreach : Supplied c) {target : Handle} (hlive : c.code.isLive target) :
    ∃ d, Rerouted n.handle target c d ∧ (∀ k, d.code.registrations n.handle k = 0) ∧
      ∀ ks : List (Holder Handle), ks.Perm (b.code.detach p n).1.members →
        (forM ks fun k => Body.retarget k n.handle target) c = .ok () d := by
  obtain ⟨ns, hns⟩ := hb.agrees.tracks
  have hat := hns.nodeAt_eq_ok_iff.mp hn
  have hsource : c.code.isLive n.handle = false := by
    rw [hc, ← Bool.not_eq_true, hns.isLive_detached hat]
    exact fun hh => hh.1 rfl
  have hheld (k : Holder Handle) :
      k ∈ (b.code.detach p n).1.members ↔ 0 < c.code.registrations n.handle k := by
    rw [hc]
    exact hns.mem_left_iff hat k
  have hall (ks : List (Holder Handle)) (hks : ks.Perm (b.code.detach p n).1.members) :
      ∃ d, (forM ks fun k => Body.retarget k n.handle target) c = .ok () d ∧
        Rerouted n.handle target c d ∧ ∀ k, d.code.registrations n.handle k = 0 := by
    obtain ⟨d, hrun, hd, hcount⟩ := hreach.reroute_all hsource hlive
      (hks.nodup_iff.mpr Std.ExtTreeMap.nodup_keys) fun k hk => (hheld k).mp (hks.mem_iff.mp hk)
    refine ⟨d, hrun, hd, fun k => ?_⟩
    rw [hcount]
    split
    · rfl
    · rename_i hk
      exact Nat.eq_zero_of_not_pos fun hpos => hk (hks.mem_iff.mpr ((hheld k).mpr hpos))
  obtain ⟨d, -, hd, hnone⟩ := hall _ (.refl _)
  refine ⟨d, hd, hnone, fun ks hks => ?_⟩
  obtain ⟨e, hrun, he, hnone'⟩ := hall ks hks
  rw [hrun, hd.unique hnone he hnone']

omit hb in
theorem of_remove_eq_instructionInUse {c : Body} {i : Instruction Handle} {holders : List (Holder Handle)}
    (h : onCode (Code.remove p) b = .error (.instructionInUse i holders) c) :
    (b.code.detach p n).1.members = holders ∧ c = { b with code := (b.code.detach p n).2 } := by
  rw [onCode_apply, Code.remove_apply, hn] at h
  by_cases hempty : (b.code.detach p n).1.isEmpty
  · simp [hempty] at h
  · simp only [hempty] at h
    obtain ⟨hfault, rfl⟩ := EStateM.Result.error.inj h
    exact ⟨(Fault.instructionInUse.inj hfault).2, rfl⟩

end Removed

/-- An instruction is taken out of a body in which everything that is referred to is there, and the holders
of references to it are named, each once. Whatever instruction is then chosen and in whatever order the
holders are retargeted to it, every one of them is, and all orders lead to the same body: that in which
just the references to the instruction lead to the chosen one. It can be written unless its code has too
many bytes, or none, or a jump is too far. -/
theorem removed_references_recoverable {b c : Body} (h : Supplied b)
    (hlabels : ∀ e ∈ b.code.toList, ∀ l ∈ e.2.instruction.labels, b.code.isLive l)
    (htargets : ∀ g ∈ b.guards.toList, ∀ t ∈ g.targets, b.code.isLive t) {p : Nat} {n : Node}
    (hn : b.code.nodeAt p = .ok n) {i : Instruction Handle} {holders : List (Holder Handle)}
    (hremove : onCode (Code.remove p) b = .error (.instructionInUse i holders) c) {target : Handle}
    (hlive : c.code.isLive target) :
    holders.Nodup ∧ ∃ d,
      (∀ ks : List (Holder Handle), ks.Perm holders → (forM ks fun k => retarget k n.handle target) c = .ok () d) ∧
      d.code.toList = c.code.toList.map (fun e => (e.1, Code.redirectNode n.handle target e.2)) ∧
      d.guards = c.guards.map (Guard.mapTargets (Code.redirect n.handle target)) ∧
      d = { c with code := d.code, guards := d.guards } ∧
      (∀ e ∈ d.code.toList, n.handle ∉ e.2.instruction.labels) ∧
      (∀ g ∈ d.guards.toList, n.handle ∉ g.targets) ∧
      ∀ f, d.write.bytes = .error f →
        (∃ o t, f = .branchOverflow o t) ∨ ∃ k, f = .malformed (.codeLength k) := by
  obtain ⟨rfl, hc⟩ := of_remove_eq_instructionInUse hn hremove
  have hreach : Supplied c := h.steady (r := .remove p) (leaves_of_eq_error hremove)
    (by rw [hc]; exact (Code.frugal_detach b.code p n).next) (by rw [hc])
  obtain ⟨hlabel, htarget⟩ := h.live_of_detached hn hc hlabels htargets
  obtain ⟨d, hd, hnone, hrun⟩ := h.reroute_perm hn hc hreach hlive
  refine ⟨Std.ExtTreeMap.nodup_keys, d, hrun, hd.toList_eq hnone hreach, hd.guards_eq hnone, hd.rest,
    fun e he => hd.label_ne hnone e.2 (List.mem_map_of_mem he), hd.target_ne hnone, fun f hf => ?_⟩
  exact hd.supplied.write_eq_error (hd.labels_live hnone hlive hlabel) (hd.targets_live hnone hlive htarget) hf

/-- The identities have started over, and a second guard has that of the first one. The instruction that it starts
with is taken out, and its identity is named, but only the first guard is found by it. -/
theorem removed_references_not_recoverable_of_restarted :
    let b := (Request.addGuard ⟨0⟩ none ⟨2⟩ .absent).apply ((Request.push (.plain ⟨0xb1⟩)).apply
      ((Request.push (.plain ⟨0⟩)).apply ((Request.push (.plain ⟨0⟩)).apply (ofCode 1 0 Code.empty))))
    let d := (Request.addGuard ⟨1⟩ none ⟨2⟩ .absent).apply { b with ids := ⟨0⟩ }
    let e := (Request.remove 1).apply d
    Reachable d ∧ (∀ x ∈ d.code.toList, x.2.instruction.labels = []) ∧
      (∀ g ∈ d.guards.toList, ∀ t ∈ g.targets, d.code.isLive t) ∧
      Run.fault? (onCode (Code.remove 1)) d = some (.instructionInUse (.plain ⟨0⟩) [.external ⟨0⟩]) ∧
      e.code.isLive ⟨2⟩ ∧ Run.fault? (retarget (.external ⟨0⟩) ⟨1⟩ ⟨2⟩) e =
        some (.unresolved (.unregisteredHolder ⟨1⟩ (.external ⟨0⟩))) := by
  intro b d e
  have hb : Reachable b := ((((reachable_empty 1 0).edited _).edited _).edited _).edited _
  exact ⟨(hb.supplied_from (t := ⟨9⟩) (by decide +kernel) 0).edited _, by decide +kernel⟩

/-- A switch leads to the removed instruction twice, and a guard starts with it and goes on with it. One
retargeting of each sends both references, in either order. -/
theorem removed_references_recoverable_of_switch_and_guard :
    let b := (Request.addGuard ⟨0⟩ (some ⟨1⟩) ⟨0⟩ .absent).apply
      ((Request.push (.lookupSwitch ⟨0⟩ [(7, ⟨0⟩), (8, ⟨2⟩)])).apply ((Request.push (.plain ⟨0xb1⟩)).apply
        ((Request.push (.plain ⟨0⟩)).apply ((Request.push (.plain ⟨0⟩)).apply (ofCode 1 0 Code.empty)))))
    ∃ c d, onCode (Code.remove 0) b =
        .error (.instructionInUse (.plain ⟨0⟩) [.entry ⟨3⟩, .external ⟨0⟩]) c ∧
      (forM [.entry ⟨3⟩, .external ⟨0⟩] fun k => retarget k ⟨0⟩ ⟨2⟩) c = .ok () d ∧
      (forM [.external ⟨0⟩, .entry ⟨3⟩] fun k => retarget k ⟨0⟩ ⟨2⟩) c = .ok () d ∧
      d.guards = #[⟨⟨2⟩, some ⟨1⟩, ⟨2⟩, .absent, ⟨0⟩⟩] := by
  intro b
  have hb : Supplied b := (((((supplied_empty 1 0).edited _ (by decide +kernel) (by decide +kernel)).edited
    _ (by decide +kernel) (by decide +kernel)).edited _ (by decide +kernel) (by decide +kernel)).edited
    _ (by decide +kernel) (by decide +kernel)).edited _ (by decide +kernel) (by decide +kernel)
  have hlabels : ∀ e ∈ b.code.toList, ∀ l ∈ e.2.instruction.labels, b.code.isLive l := by decide +kernel
  have htargets : ∀ g ∈ b.guards.toList, ∀ t ∈ g.targets, b.code.isLive t := by decide +kernel
  have hn : b.code.nodeAt 0 = .ok ⟨⟨0⟩, .plain ⟨0⟩⟩ := by decide +kernel
  have hlive : (leaves (onCode (Code.remove 0)) b).code.isLive ⟨2⟩ := by decide +kernel
  have hguards : (leaves (onCode (Code.remove 0)) b).guards = #[⟨⟨0⟩, some ⟨1⟩, ⟨0⟩, .absent, ⟨0⟩⟩] := by
    decide +kernel
  have hfault : (match onCode (Code.remove 0) b with
      | .error f _ => f
      | .ok _ _ => .sinkFull) =
      .instructionInUse (.plain ⟨0⟩) [.entry ⟨3⟩, .external ⟨0⟩] := by decide +kernel
  cases hremove : onCode (Code.remove 0) b with
  | ok i c =>
    simp only [hremove] at hfault
    cases hfault
  | error f c =>
    simp only [leaves, hremove] at hlive hguards hfault
    subst hfault
    obtain ⟨-, d, hrun, -, hd, -⟩ := removed_references_recoverable hb hlabels htargets hn hremove hlive
    refine ⟨c, d, rfl, hrun _ (.refl _), hrun _ (.swap _ _ _), ?_⟩
    rw [hd, hguards]
    decide +kernel

end ClassCode.Body
