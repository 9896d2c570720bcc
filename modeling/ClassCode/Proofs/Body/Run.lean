import ClassCode.Body.Wire
import ClassCode.Proofs.Body.Guards
import ClassCode.Proofs.Code.Outside
import Mathlib.Data.List.Nodup

/-! Runs of edits of a body. A guard is found by its identity; its registrations are undone when it is taken
out and moved when it is retargeted. -/
namespace ClassCode.Body

open Run Outcome

/-- An edit that a client can ask for. Instructions and guards are both retargeted with `retarget`. -/
inductive Request where
  | addGuard (start : Handle) (stop : Option Handle) (handler : Handle) (catches : PoolIndex)
  | removeGuard (id : ExternalId)
  | retarget (holder : Holder Handle) (source target : Handle)
  | insert (position : Nat) (i : Instruction Handle)
  | push (i : Instruction Handle)
  | replace (position : Nat) (i : Instruction Handle)
  | remove (position : Nat)
  | setMaxStack (n : UInt16)
  | setMaxLocals (n : UInt16)
  | setAttributes (attributes : List Attribute)

def Request.apply : Request → Body → Body
  | addGuard start stop handler catches => leaves (Body.addGuard start stop handler catches)
  | removeGuard id => leaves (Body.removeGuard id)
  | retarget k s t => leaves (Body.retarget k s t)
  | insert p i => leaves (onCode (Code.insert p i))
  | push i => leaves (onCode (Code.push i))
  | replace p i => leaves (onCode (Code.replace p i))
  | remove p => leaves (onCode (Code.remove p))
  | setMaxStack n => fun b => { b with maxStack := n }
  | setMaxLocals n => fun b => { b with maxLocals := n }
  | setAttributes attributes => fun b => { b with attributes }

/-- A body that a run of requests leads to, from what was read or from code on which nothing from outside
is registered. -/
inductive Reachable : Body → Prop where
  | ofCode {c : Code} (h : Code.Reachable c) (hfree : ∀ t e, c.registrations t (.external e) = 0)
      (maxStack maxLocals : UInt16) : Reachable (Body.ofCode maxStack maxLocals c)
  | ofRead {bytes rest : List UInt8} {b : Body} (h : Body.read bytes = .ok (b, rest)) : Reachable b
  | edited {b : Body} (h : Reachable b) (r : Request) : Reachable (r.apply b)

/-- A body that a run of requests leads to on which neither the counter of handles nor that of identities starts
over. What is read is too short for that. -/
inductive Supplied : Body → Prop where
  | ofCode {c : Code} (h : Code.Supplied c) (hfree : ∀ t e, c.registrations t (.external e) = 0)
      (maxStack maxLocals : UInt16) : Supplied (Body.ofCode maxStack maxLocals c)
  | ofRead {bytes rest : List UInt8} {b : Body} (h : Body.read bytes = .ok (b, rest)) : Supplied b
  | edited {b : Body} (h : Supplied b) (r : Request) (hhandles : b.code.next ≤ (r.apply b).code.next)
      (hids : b.ids.next ≤ (r.apply b).ids.next) : Supplied (r.apply b)

theorem Supplied.reachable {b : Body} (h : Supplied b) : Reachable b := by
  induction h with
  | ofCode h hfree maxStack maxLocals => exact .ofCode h.reachable hfree maxStack maxLocals
  | ofRead h => exact .ofRead h
  | edited _ r _ _ ih => exact ih.edited r

theorem Supplied.steady {b d : Body} (h : Supplied b) {r : Request} (hd : r.apply b = d)
    (hhandles : d.code.next = b.code.next) (hids : d.ids = b.ids) : Supplied d := by
  subst hd
  exact h.edited r (by rw [hhandles]; exact UInt32.le_refl _) (by rw [hids]; exact UInt32.le_refl _)

theorem registrations_empty (t : Handle) (e : ExternalId) : Code.empty.registrations t (.external e) = 0 :=
  Code.registrations_of_not_mem (by simp [Code.empty]) (by simp [Code.empty]) _

theorem supplied_empty (maxStack maxLocals : UInt16) : Supplied (Body.ofCode maxStack maxLocals Code.empty) :=
  .ofCode .empty registrations_empty maxStack maxLocals

theorem reachable_empty (maxStack maxLocals : UInt16) :
    Reachable (Body.ofCode maxStack maxLocals Code.empty) :=
  (supplied_empty maxStack maxLocals).reachable

variable {b : Body}

theorem leaves_onCode {α : Type} (edit : Code.Edit α) :
    leaves (onCode edit) b = { b with code := leaves edit b.code } := by
  simp only [leaves, onCode_apply]
  cases edit b.code <;> rfl

/-- A guard on an instruction that is not there is refused, and uses up an identity. -/
theorem addGuard_apply_of_not_isLive {t : Handle} (ht : b.code.isLive t = false) :
    addGuard t none t .absent b =
      .error (.unresolved (.unknownInstruction t)) { b with ids := b.ids.fresh.2 } := by
  simp [addGuard, Guard.targets, Code.ask, Code.checkLive, Code.unknown, ht]

/-- The supply of identities can be brought to any number. -/
theorem Reachable.supplied_from (h : Reachable b) {t : Handle} (ht : b.code.isLive t = false) (n : UInt32) :
    Reachable { b with ids := ⟨n⟩ } := by
  -- every guard that is refused uses up one identity, and nothing else
  have hspent (k : Nat) : Reachable { b with ids := ⟨b.ids.next + k.toUInt32⟩ } := by
    induction k with
    | zero =>
      rw [show (0 : Nat).toUInt32 = 0 from rfl, UInt32.add_zero]
      exact h
    | succ k ih =>
      have hnext := ih.edited (.addGuard t none t .absent)
      rw [Request.apply, leaves_of_eq_error
        (addGuard_apply_of_not_isLive (b := { b with ids := ⟨b.ids.next + k.toUInt32⟩ }) ht)] at hnext
      have hcount : (k + 1).toUInt32 = k.toUInt32 + 1 := UInt32.ofNat_add k 1
      rw [hcount, ← UInt32.add_assoc]
      exact hnext
  have hreached := hspent (n - b.ids.next).toNat
  have hsame : b.ids.next + (n - b.ids.next).toNat.toUInt32 = n := by
    rw [show (n - b.ids.next).toNat.toUInt32 = n - b.ids.next from UInt32.ofNat_toNat, UInt32.add_comm]
    exact UInt32.sub_add_cancel n b.ids.next
  rwa [hsame] at hreached

section Find

variable {id : ExternalId} {p : Nat} {g : Guard}

theorem getElem?_of_findGuard (h : b.findGuard id = .ok (p, g)) : b.guards[p]? = some g ∧ g.id = id := by
  rw [findGuard] at h
  cases hf : b.guards.zipIdx.find? fun e => e.1.id == id with
  | none => simp [hf] at h
  | some e =>
    simp only [hf, pure_eq_ok_iff, Prod.mk.injEq] at h
    obtain ⟨rfl, rfl⟩ := h
    have hid := Array.find?_some hf
    have hmem := Array.mem_of_find?_eq_some hf
    exact ⟨Array.mem_zipIdx_iff_getElem?.mp hmem, by simpa using hid⟩

theorem findGuard_of_mem (hd : (b.guards.toList.map Guard.id).Nodup) (hg : g ∈ b.guards.toList) :
    ∃ p, b.findGuard g.id = .ok (p, g) := by
  cases hf : b.findGuard g.id with
  | error f =>
    obtain ⟨p, hp⟩ := Array.mem_iff_getElem?.mp (Array.mem_toList_iff.mp hg)
    rw [findGuard] at hf
    cases hz : b.guards.zipIdx.find? fun e => e.1.id == g.id with
    | none => exact absurd (Array.find?_eq_none.mp hz (g, p) (Array.mem_zipIdx_iff_getElem?.mpr hp)) (by simp)
    | some e => simp [hz, pure, Except.pure] at hf
  | ok e =>
    obtain ⟨hp, hid⟩ := getElem?_of_findGuard hf
    have hmem := Array.mem_toList_iff.mpr (Array.mem_of_getElem? hp)
    exact ⟨e.1, by rw [← List.inj_on_of_nodup_map hd hmem hg hid]⟩

end Find

section Apply

variable {id : ExternalId} {p : Nat} {g : Guard} (hfind : b.findGuard id = .ok (p, g))
include hfind

theorem removeGuard_apply (hts : ∀ t, g.targets.count t ≤ b.code.registrations t (.external id)) :
    removeGuard id b = .ok g { b with
      code := g.targets.foldl (Code.release (.external id)) b.code
      guards := b.guards.eraseIdxIfInBounds p } := by
  have hrelease := Code.forM_unregisterExternal_apply id hts
  simp [removeGuard, hfind, hrelease]

theorem retargetGuard_apply {source target : Handle} (hc : b.code.Ledger)
    (hheld : ∀ t, b.code.isLive t → t ∈ b.code.inbound)
    (hts : g.targets.count source ≤ b.code.registrations source (.external id)) :
    retargetGuard id source target b =
      if g.targets.count source = 0 then
        .error (.unresolved (.unregisteredHolder source (.external id))) b
      else if b.code.isLive target then
        .ok () { b with
          code := Code.moved (.external id) source target (g.targets.count source) b.code
          guards := b.guards.modify p (Guard.mapTargets (Code.redirect source target)) }
      else .error (.unresolved (.unknownInstruction target)) b := by
  by_cases hn : g.targets.count source = 0
  · simp [retargetGuard, hfind, hn]
  · by_cases hlive : b.code.isLive target
    · have hmove := Code.forM_retarget_apply hc id source hlive (hheld target hlive) hts
      simp [retargetGuard, hfind, hn, hlive, hmove, Code.ask, Code.checkLive]
    · simp [retargetGuard, hfind, hn, hlive, Code.ask, Code.checkLive, Code.unknown]

end Apply

end ClassCode.Body
