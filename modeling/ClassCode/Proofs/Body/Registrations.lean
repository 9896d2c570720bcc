import ClassCode.Proofs.Body.Stability
import ClassCode.Proofs.Positions

/-! Guards and their registrations. Whatever was edited, granted or refused, every guard is registered on
each of its targets, there or gone, as often as it has it, and nothing else from outside is registered. -/
namespace ClassCode.Body

open Run Outcome

/-- Guards have identities of their own, and the registrations from outside are those of the guards on their
targets. -/
structure Agrees (b : Body) : Prop where
  tracks : ∃ ns, b.code.Tracks ns
  distinct : (b.guards.toList.map Guard.id).Nodup
  counted : ∀ g ∈ b.guards.toList, ∀ t, b.code.registrations t (.external g.id) = g.targets.count t
  free : ∀ e, (∀ g ∈ b.guards.toList, g.id ≠ e) → ∀ t, b.code.registrations t (.external e) = 0

theorem agrees_ofCode {c : Code} (hc : ∃ ns, c.Tracks ns)
    (hfree : ∀ t e, c.registrations t (.external e) = 0) (maxStack maxLocals : UInt16) :
    Agrees (ofCode maxStack maxLocals c) where
  tracks := hc
  distinct := by simp [ofCode]
  counted := by simp [ofCode]
  free e _ t := hfree t e

section Steps

variable {b : Body} (hb : Agrees b)
include hb

theorem Agrees.of_outside {d : Body} (hguards : d.guards = b.guards)
    (htracks : ∃ ns, d.code.Tracks ns) (hsame : b.code.SameOutside d.code) : Agrees d where
  tracks := htracks
  distinct := by rw [hguards]; exact hb.distinct
  counted g hg t := (hsame t g.id).trans (hb.counted g (by rwa [← hguards]) t)
  free e he t := (hsame t e).trans (hb.free e (by rwa [← hguards]) t)

/-- One guard comes, goes or is exchanged for another one with its identity. -/
theorem Agrees.exchange {d : Body} (id : ExternalId) (old new : Option Guard) {others : List Guard}
    (hbefore : b.guards.toList.Perm (old.toList ++ others))
    (hafter : d.guards.toList.Perm (new.toList ++ others)) (hnew : ∀ g ∈ new, g.id = id)
    (hothers : ∀ g ∈ others, g.id ≠ id) (hold : ∀ g ∈ old, g.id = id) (htracks : ∃ ns, d.code.Tracks ns)
    (hsame : ∀ e, e ≠ id → ∀ t, d.code.registrations t (.external e) = b.code.registrations t (.external e))
    (hcount : ∀ t, d.code.registrations t (.external id) = (new.elim [] Guard.targets).count t) :
    Agrees d := by
  have hkept {g : Guard} (hg : g ∈ others) : g ∈ b.guards.toList :=
    hbefore.mem_iff.mpr (List.mem_append_right _ hg)
  have hcases {g : Guard} (hg : g ∈ d.guards.toList) : g ∈ new ∨ g ∈ others := by
    simpa using hafter.mem_iff.mp hg
  constructor
  case tracks => exact htracks
  case distinct =>
    have hleft := (hbefore.map Guard.id).nodup_iff.mp hb.distinct
    rw [List.map_append, List.nodup_append] at hleft
    rw [(hafter.map Guard.id).nodup_iff, List.map_append, List.nodup_append]
    refine ⟨by cases new <;> simp, hleft.2.1, fun i hi j hj hij => ?_⟩
    obtain ⟨g, hg, rfl⟩ := List.mem_map.mp hi
    obtain ⟨x, hx, rfl⟩ := List.mem_map.mp hj
    exact hothers x hx (hij ▸ hnew g (by simpa using hg))
  case counted =>
    intro g hg t
    rcases hcases hg with hg | hg
    · obtain rfl : new = some g := hg
      rw [hnew g rfl, hcount, Option.elim_some]
    · rw [hsame g.id (hothers g hg), hb.counted g (hkept hg)]
  case free =>
    intro e he t
    by_cases hid : e = id
    · subst hid
      cases new with
      | none => rw [hcount, Option.elim_none, List.count_nil]
      | some g => exact absurd (hnew g rfl) (he g (hafter.mem_iff.mpr (by simp)))
    · -- no guard had the identity before either: the old one has `id`, and the others are still there
      rw [hsame e hid]
      refine hb.free e (fun g hg => ?_) t
      rcases List.mem_append.mp (hbefore.mem_iff.mp hg) with hg | hg
      · rw [hold g (by simpa using hg)]
        exact Ne.symm hid
      · exact he g (hafter.mem_iff.mpr (List.mem_append_right _ hg))

theorem Agrees.mem_inbound (t : Handle) (ht : b.code.isLive t) : t ∈ b.code.inbound := by
  obtain ⟨ns, hc⟩ := hb.tracks
  exact hc.isLive_iff.mp ht

theorem Agrees.addGuard (hfresh : ∀ x ∈ b.guards.toList, x.id ≠ b.ids.fresh.1) (start : Handle)
    (stop : Option Handle) (handler : Handle) (catches : PoolIndex) :
    Agrees (leaves (Body.addGuard start stop handler catches) b) := by
  obtain ⟨ns, hc⟩ := hb.tracks
  let g := b.newGuard start stop handler catches
  rw [leaves, addGuard_apply _ _ _ _ _ hb.mem_inbound]
  cases hlive : forM g.targets b.code.checkLive with
  | error f =>
    simp only [g] at hlive
    simp only [hlive]
    exact { hb with }
  | ok u =>
    have hts : ∀ t ∈ g.targets, t ∈ b.code.inbound := fun t ht =>
      hb.mem_inbound t (Code.checkLive_eq_ok_iff.mp (forM_eq_ok_iff.mp hlive t ht))
    have hcount := Code.registrations_registerAll hc.ledger (.external g.id) hts
    simp only [g] at hlive
    simp only [hlive]
    refine hb.exchange g.id none (some g) (.refl _) ?_ (by simp) hfresh (by simp) ⟨ns, ?_⟩ (fun e he t => ?_)
      (fun t => ?_)
    · simp [g]
    · exact hc.of_relisted (Code.relisted_registerAll hc.ledger _ hts) fun t j => by simp [hcount, g]
    · rw [hcount, if_neg (by simpa using Ne.symm he), Nat.add_zero]
    · rw [hcount, if_pos rfl, hb.free g.id hfresh, Nat.zero_add, Option.elim_some]

theorem Agrees.others {p : Nat} {g : Guard} (hp : b.guards[p]? = some g) :
    b.guards.toList.Perm (g :: b.guards.toList.eraseIdx p) ∧
      ∀ x ∈ b.guards.toList.eraseIdx p, x.id ≠ g.id := by
  have hperm := perm_cons_eraseIdx (Array.getElem?_toList.trans hp)
  have hdistinct := (hperm.map Guard.id).nodup_iff.mp hb.distinct
  rw [List.map_cons, List.nodup_cons] at hdistinct
  exact ⟨hperm, fun x hx he => hdistinct.1 (he ▸ List.mem_map_of_mem hx)⟩

theorem Agrees.removeGuard (id : ExternalId) : Agrees (leaves (Body.removeGuard id) b) := by
  cases hfind : b.findGuard id with
  | error f => simpa [leaves, Body.removeGuard, hfind] using hb
  | ok e =>
    obtain ⟨p, g⟩ := e
    obtain ⟨hp, rfl⟩ := getElem?_of_findGuard hfind
    obtain ⟨ns, hc⟩ := hb.tracks
    obtain ⟨hperm, hothers⟩ := hb.others hp
    have hg : g ∈ b.guards.toList := hperm.mem_iff.mpr (by simp)
    have hcount := Code.registrations_releaseAll (c := b.code) (.external g.id) g.targets
    rw [leaves, removeGuard_apply hfind fun t => Nat.le_of_eq (hb.counted g hg t).symm]
    refine hb.exchange g.id (some g) none hperm ?_ (by simp) hothers (by simp) ⟨ns, ?_⟩ (fun e he t => ?_)
      (fun t => ?_)
    · simp
    · exact hc.of_relisted (Code.relisted_releaseAll hc.ledger _ _) fun t j => by simp [hcount]
    · rw [hcount, if_neg (by simpa using Ne.symm he), Nat.sub_zero]
    · rw [hcount, if_pos rfl, hb.counted g hg, Nat.sub_self, Option.elim_none, List.count_nil]

theorem Agrees.retargeted {p : Nat} {g : Guard} (hp : b.guards[p]? = some g) (source : Handle)
    {target : Handle} (ht : target ∈ b.code.inbound) :
    Agrees { b with
      code := Code.moved (.external g.id) source target (g.targets.count source) b.code
      guards := b.guards.modify p (Guard.mapTargets (Code.redirect source target)) } := by
  obtain ⟨ns, hc⟩ := hb.tracks
  obtain ⟨hperm, hothers⟩ := hb.others hp
  have hg : g ∈ b.guards.toList := hperm.mem_iff.mpr (by simp)
  have hcount := Code.registrations_moved hc.ledger (.external g.id) source ht
    (Nat.le_of_eq (hb.counted g hg source).symm)
  refine hb.exchange g.id (some g) (some (g.mapTargets (Code.redirect source target))) hperm ?_
    (by simp [Guard.mapTargets]) hothers (by simp) ⟨ns, ?_⟩
    (fun e he t => ?_) (fun t => ?_)
  · obtain ⟨hlt, -⟩ := List.getElem?_eq_some_iff.mp (Array.getElem?_toList.trans hp)
    rw [Array.toList_modify, List.modify_eq_set_getElem?, Array.getElem?_toList, hp]
    exact List.set_perm_cons_eraseIdx hlt _
  · exact hc.of_relisted (Code.relisted_moved hc.ledger _ source ht _) fun t j => by simp [hcount]
  · exact Code.registrations_moved_of_ne (by simpa using Ne.symm he) b.code source target _ t
  · rw [hcount, hb.counted g hg, Option.elim_some, Guard.targets_mapTargets, Code.count_map_redirect_eq]
    simp only [and_true]

theorem Agrees.retargetGuard (id : ExternalId) (source target : Handle) :
    Agrees (leaves (Body.retargetGuard id source target) b) := by
  cases hfind : b.findGuard id with
  | error f => simpa [leaves, Body.retargetGuard, hfind] using hb
  | ok e =>
    obtain ⟨p, g⟩ := e
    obtain ⟨hp, rfl⟩ := getElem?_of_findGuard hfind
    obtain ⟨ns, hc⟩ := hb.tracks
    have hg : g ∈ b.guards.toList := Array.mem_toList_iff.mpr (Array.mem_of_getElem? hp)
    rw [leaves, retargetGuard_apply hfind hc.ledger hb.mem_inbound
      (Nat.le_of_eq (hb.counted g hg source).symm)]
    by_cases hn : g.targets.count source = 0
    · simpa [hn] using hb
    · by_cases hlive : b.code.isLive target
      · simpa [hn, hlive] using hb.retargeted hp source (hb.mem_inbound target hlive)
      · simpa [hn, hlive] using hb

theorem Agrees.onCode {α : Type} (edit : Code.Edit α)
    (hedit : ∀ ns, b.code.Tracks ns → (∃ ms, (leaves edit b.code).Tracks ms) ∧
      b.code.SameOutside (leaves edit b.code)) : Agrees (leaves (Body.onCode edit) b) := by
  obtain ⟨ns, hc⟩ := hb.tracks
  obtain ⟨htracks, hsame⟩ := hedit ns hc
  rw [leaves_onCode]
  exact hb.of_outside rfl htracks hsame

theorem Agrees.apply (hfresh : ¬ b.code.Knows b.code.fresh) (hid : ∀ g ∈ b.guards.toList, g.id ≠ b.ids.fresh.1)
    (r : Request) : Agrees (r.apply b) := by
  cases r with
  | addGuard start stop handler catches => exact hb.addGuard hid start stop handler catches
  | removeGuard id => exact hb.removeGuard id
  | retarget k source target =>
    cases k with
    | entry h =>
      exact hb.onCode _ fun ns hc =>
        ⟨hc.retarget (.entry h) source target, hc.outside_retarget h source target⟩
    | external id => exact hb.retargetGuard id source target
  | insert p i => exact hb.onCode _ fun ns hc => ⟨hc.insert hfresh p i, Code.outside_insert hfresh p i⟩
  | push i => exact hb.onCode _ fun ns hc => ⟨hc.apply hfresh (.push i), Code.outside_push hfresh i⟩
  | replace p i => exact hb.onCode _ fun ns hc => ⟨hc.replace p i, Code.outside_replace p i b.code⟩
  | remove p => exact hb.onCode _ fun ns hc => ⟨hc.remove p, hc.outside_remove p⟩
  | setMaxStack n => exact hb.of_outside rfl hb.tracks (.refl b.code)
  | setMaxLocals n => exact hb.of_outside rfl hb.tracks (.refl b.code)
  | setAttributes attributes => exact hb.of_outside rfl hb.tracks (.refl b.code)

end Steps

/-- The identities of the guards were given out, and their counter has not started over since. -/
def Identified (b : Body) : Prop := ∀ g ∈ b.guards.toList, g.id.number < b.ids.next

theorem Identified.fresh {b : Body} (hb : Identified b) : ∀ g ∈ b.guards.toList, g.id ≠ b.ids.fresh.1 :=
  fun g hg he => UInt32.lt_irrefl _ (congrArg ExternalId.number he ▸ hb g hg)

theorem identified_ofCode (maxStack maxLocals : UInt16) (c : Code) : Identified (ofCode maxStack maxLocals c) :=
  fun _ hg => absurd hg List.not_mem_nil

theorem keeps_onCode_identified {α : Type} (edit : Code.Edit α) : Keeps Identified (onCode edit) := by
  intro b hb
  rw [leaves_onCode]
  exact hb

theorem Identified.erase {b : Body} (hb : Identified b) (p : Nat) :
    Identified { b with guards := b.guards.eraseIdxIfInBounds p } := by
  intro g hg
  rw [Array.toList_eraseIdxIfInBounds] at hg
  exact hb g (List.mem_of_mem_eraseIdx hg)

theorem Identified.modify {b : Body} (hb : Identified b) (p : Nat) (f : Handle → Handle) :
    Identified { b with guards := b.guards.modify p (Guard.mapTargets f) } := by
  intro g hg
  have hid := List.mem_map_of_mem (f := Guard.id) hg
  rw [Array.toList_modify, map_modify_of_comp (f := Guard.mapTargets f) (fun _ => rfl)] at hid
  obtain ⟨x, hx, hsame⟩ := List.mem_map.mp hid
  exact hsame ▸ hb x hx

section Bounded

variable {b : Body} (hb : Agrees b)
include hb

theorem Agrees.ids_addGuard (start : Handle) (stop : Option Handle) (handler : Handle) (catches : PoolIndex) :
    (leaves (Body.addGuard start stop handler catches) b).ids = b.ids.fresh.2 := by
  rw [leaves, addGuard_apply _ _ _ _ _ hb.mem_inbound]
  dsimp only
  cases forM (b.newGuard start stop handler catches).targets b.code.checkLive <;> rfl

theorem Agrees.identified_addGuard (hids : Identified b) (hroom : b.ids.next ≤ b.ids.next + 1) (start : Handle)
    (stop : Option Handle) (handler : Handle) (catches : PoolIndex) :
    Identified (leaves (Body.addGuard start stop handler catches) b) := by
  have hnext : b.ids.next < b.ids.next + 1 := by
    rw [UInt32.lt_iff_toNat_lt, Code.toNat_add_one hroom]
    exact Nat.lt_succ_self _
  have hold : ∀ g ∈ b.guards.toList, g.id.number < b.ids.next + 1 := fun g hg => UInt32.lt_trans (hids g hg) hnext
  rw [leaves, addGuard_apply _ _ _ _ _ hb.mem_inbound]
  dsimp only
  -- the counter moves on also when the guard is refused
  cases forM (b.newGuard start stop handler catches).targets b.code.checkLive with
  | error f => exact hold
  | ok u =>
    intro g hg
    rw [Array.toList_push, List.mem_append, List.mem_singleton] at hg
    rcases hg with hg | rfl
    · exact hold g hg
    · exact hnext

theorem Agrees.identified_apply (hids : Identified b) (r : Request) (hroom : b.ids.next ≤ (r.apply b).ids.next) :
    Identified (r.apply b) := by
  cases r with
  | addGuard start stop handler catches =>
    rw [Request.apply, hb.ids_addGuard] at hroom
    exact hb.identified_addGuard hids hroom start stop handler catches
  | removeGuard id =>
    exact keeps_removeGuard (fun _ => keeps_onCode_identified _) (fun _ p hb => hb.erase p) b hids
  | retarget k source target =>
    cases k with
    | entry h => exact keeps_onCode_identified _ b hids
    | external id =>
      exact keeps_retargetGuard (keeps_onCode_identified _) (fun _ => keeps_onCode_identified _)
        (fun _ p hb => hb.modify p _) b hids
  | insert | push | replace | remove => exact keeps_onCode_identified _ b hids
  | setMaxStack | setMaxLocals | setAttributes => exact hids

end Bounded

theorem given_apply {b : Body} (hb : b.code.Given) (r : Request) (hroom : b.code.next ≤ (r.apply b).code.next) :
    (r.apply b).code.Given := by
  refine code_apply (Code.stable_of_frugal Code.Given.of_frugal) hb r fun p i _ he => ?_
  rw [he, Code.next_inserted] at hroom
  exact he ▸ hb.inserted p i hroom

/-- There are not so many guards that identities could run out, nor instructions that handles could. -/
theorem agrees_read {bytes rest : List UInt8} {b : Body} (h : read bytes = .ok (b, rest)) :
    Agrees b ∧ Identified b ∧ b.code.Given := by
  obtain ⟨maxStack, maxLocals, code, c, d, count, entries, mid, attributes, -, -, hmax, hdecode, hguards, -,
    rfl⟩ := read_body_eq_ok_iff.mp h
  let I (n : Nat) (b : Body) : Prop := Agrees b ∧ Identified b ∧ b.code.Given ∧ b.ids.next.toNat + n ≤ 65535
  have hstart : I count.toNat (ofCode maxStack maxLocals c) := by
    refine ⟨agrees_ofCode (Code.tracks_decode hdecode) (Code.registrations_decode hdecode) maxStack maxLocals,
      identified_ofCode maxStack maxLocals c, Code.given_decode hdecode ?_, ?_⟩
    · exact Nat.lt_of_le_of_lt (Nat.le_trans (Code.size_le_of_decode hdecode) hmax) (by decide)
    · have hlt := count.toNat_lt
      change 0 + count.toNat ≤ 65535
      omega
  have hadd : ∀ n b start stop handler catches, I (n + 1) b →
      I n (leaves (addGuard start stop handler catches) b) := by
    rintro n b start stop handler catches ⟨hagrees, hids, hgiven, hleft⟩
    have hroom : b.ids.next ≤ b.ids.next + 1 := Code.le_add_one (by simp only [UInt32.size]; omega)
    refine ⟨hagrees.addGuard hids.fresh start stop handler catches,
      hagrees.identified_addGuard hids hroom start stop handler catches,
      keeps_addGuard (Code.stable_of_frugal Code.Given.of_frugal) start stop handler catches b hgiven, ?_⟩
    rw [hagrees.ids_addGuard, ExternalSupply.fresh, Code.toNat_add_one hroom]
    omega
  obtain ⟨hagrees, hids, hgiven, -⟩ := readGuards_run hadd hstart hguards
  exact ⟨hagrees.of_outside rfl hagrees.tracks (.refl d.code), hids, hgiven⟩

theorem Supplied.agrees_and_given {b : Body} (h : Supplied b) : Agrees b ∧ Identified b ∧ b.code.Given := by
  induction h with
  | ofCode h hfree maxStack maxLocals =>
    exact ⟨agrees_ofCode h.tracks hfree maxStack maxLocals, identified_ofCode maxStack maxLocals _, h.given⟩
  | ofRead h => exact agrees_read h
  | edited _ r hhandles hroom ih =>
    obtain ⟨hagrees, hids, hgiven⟩ := ih
    exact ⟨hagrees.apply hgiven.fresh hids.fresh r, hagrees.identified_apply hids r hroom,
      given_apply hgiven r hhandles⟩

theorem Supplied.agrees {b : Body} (h : Supplied b) : Agrees b := h.agrees_and_given.1

/-- In every body that a run of edits leads to, guards have different identities, and a guard is registered on
every instruction, there or gone, as often as it has it for a target; without a guard there are no
registrations. So every guard can be taken out, and nothing of it is left anywhere. -/
theorem registrations_match_guards {b : Body} (h : Supplied b) :
    (b.guards.toList.map Guard.id).Nodup ∧
    (∀ g ∈ b.guards.toList, ∀ t, b.code.registrations t (.external g.id) = g.targets.count t) ∧
    (∀ e, (∀ g ∈ b.guards.toList, g.id ≠ e) → ∀ t, b.code.registrations t (.external e) = 0) ∧
    ∀ g ∈ b.guards.toList, ∃ d, removeGuard g.id b = .ok g d ∧
      ∀ (t : Handle) (s : Holders (Holder Handle)),
        d.code.inbound[t]? = some s ∨ d.code.dangling[t]? = some s → s.contains (.external g.id) = false := by
  have hb := h.agrees
  refine ⟨hb.distinct, hb.counted, hb.free, fun g hg => ?_⟩
  obtain ⟨ns, hc⟩ := hb.tracks
  obtain ⟨p, hfind⟩ := findGuard_of_mem hb.distinct hg
  have hledger := (Code.relisted_releaseAll hc.ledger (.external g.id) g.targets).ledger
  refine ⟨_, removeGuard_apply hfind fun t => Nat.le_of_eq (hb.counted g hg t).symm, fun t s hs => ?_⟩
  rw [← Bool.not_eq_true, Holders.contains_iff (hledger.positive_of_getElem? hs),
    ← hledger.registrations_of_getElem? hs, Code.registrations_releaseAll, if_pos rfl, hb.counted g hg,
    Nat.sub_self]
  exact Nat.lt_irrefl 0

/-- An instruction that starts and ends a guard and handles it is taken out. All three registrations are left
on it, and the guard can still be taken out. -/
theorem registrations_of_guard_of_removed :
    let b := (Request.remove 0).apply ((Request.addGuard ⟨0⟩ (some ⟨0⟩) ⟨0⟩ .absent).apply
      ((Request.push (.plain ⟨0xb1⟩)).apply ((Request.push (.plain ⟨0⟩)).apply (ofCode 1 0 Code.empty))))
    let g : Guard := ⟨⟨0⟩, some ⟨0⟩, ⟨0⟩, .absent, ⟨0⟩⟩
    b.code.isLive ⟨0⟩ = false ∧ b.code.registrations ⟨0⟩ (.external g.id) = 3 ∧
      ∃ d, removeGuard g.id b = .ok g d ∧ ∀ (t : Handle) (s : Holders (Holder Handle)),
        d.code.inbound[t]? = some s ∨ d.code.dangling[t]? = some s → s.contains (.external g.id) = false := by
  intro b g
  have hb : Supplied b := ((((supplied_empty 1 0).edited _ (by decide +kernel) (by decide +kernel)).edited
    _ (by decide +kernel) (by decide +kernel)).edited _ (by decide +kernel) (by decide +kernel)).edited
    _ (by decide +kernel) (by decide +kernel)
  have hg : g ∈ b.guards.toList := by decide +kernel
  obtain ⟨-, hcounted, -, hremove⟩ := registrations_match_guards hb
  exact ⟨by decide +kernel, hcounted g hg ⟨0⟩, hremove g hg⟩

end ClassCode.Body
