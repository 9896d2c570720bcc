import ClassCode.Code.Wire
import ClassCode.Proofs.Outcome
import ClassCode.Proofs.Run

/-! Runs of edits of code. Each edit either refuses and leaves the code as it was, or changes it in one
way; taking out an instruction that is still referred to changes the code and reports a failure. -/
namespace ClassCode.Code

open Run

inductive Request where
  | insert (position : Nat) (i : Instruction Handle)
  | push (i : Instruction Handle)
  | replace (position : Nat) (i : Instruction Handle)
  | remove (position : Nat)
  | retarget (holder : Holder Handle) (source target : Handle)
  | registerExternal (id : ExternalId) (target : Handle)
  | unregisterExternal (id : ExternalId) (target : Handle)

/-- The code that a request leaves, whether it is granted or refused. -/
def Request.apply : Request → Code → Code
  | insert p i => leaves (Code.insert p i)
  | push i => leaves (Code.push i)
  | replace p i => leaves (Code.replace p i)
  | remove p => leaves (Code.remove p)
  | retarget k s t => leaves (Code.retarget k s t)
  | registerExternal e t => leaves (Code.registerExternal e t)
  | unregisterExternal e t => leaves (Code.unregisterExternal e t)

/-- What a refused request is refused for, and what a removal complains of that takes out an instruction which
is still referred to. -/
def Request.fault? : Request → Code → Option Fault
  | insert p i => Run.fault? (Code.insert p i)
  | push i => Run.fault? (Code.push i)
  | replace p i => Run.fault? (Code.replace p i)
  | remove p => Run.fault? (Code.remove p)
  | retarget k s t => Run.fault? (Code.retarget k s t)
  | registerExternal e t => Run.fault? (Code.registerExternal e t)
  | unregisterExternal e t => Run.fault? (Code.unregisterExternal e t)

/-- Code that a run of requests leads to, from none or from what was read. -/
inductive Reachable : Code → Prop where
  | empty : Reachable Code.empty
  | decoded {bytes : List UInt8} {c : Code} (h : decode bytes = .ok c) : Reachable c
  | edited {c : Code} (h : Reachable c) (r : Request) : Reachable (r.apply c)

/-- Code that a run of requests leads to on which the counter of handles does not start over: fewer than
2^32 of them are given out. -/
inductive Supplied : Code → Prop where
  | empty : Supplied Code.empty
  | decoded {bytes : List UInt8} {c : Code} (h : decode bytes = .ok c) (hfew : c.size < UInt32.size) :
      Supplied c
  | edited {c : Code} (h : Supplied c) (r : Request) (hroom : c.next ≤ (r.apply c).next) :
      Supplied (r.apply c)

theorem Supplied.reachable {c : Code} (h : Supplied c) : Reachable c := by
  induction h with
  | empty => exact .empty
  | decoded h _ => exact .decoded h
  | edited _ r _ ih => exact ih.edited r

/-- The counter does not start over in a run of requests. -/
def Supplies : List Request → Code → Prop
  | [], _ => True
  | r :: rs, c => c.next ≤ (r.apply c).next ∧ Supplies rs (r.apply c)

instance decidableSupplies : (rs : List Request) → (c : Code) → Decidable (Supplies rs c)
  | [], _ => isTrue trivial
  | r :: rs, c =>
    have := decidableSupplies rs (r.apply c)
    inferInstanceAs (Decidable (_ ∧ _))

theorem Supplied.foldl_apply {c : Code} (h : Supplied c) {rs : List Request} (hrs : Supplies rs c) :
    Supplied (rs.foldl (fun c r => r.apply c) c) := by
  induction rs generalizing c with
  | nil => exact h
  | cons r rs ih => exact ih (h.edited r hrs.1) hrs.2

variable (c : Code)

def inserted (position : Nat) (i : Instruction Handle) : Code :=
  let d := i.labels.foldl (register (.entry c.fresh)) c
  reindexFrom position { d with
    nodes := d.nodes.insert position ⟨c.fresh, i⟩
    inbound := d.inbound.insert c.fresh .empty
    next := d.next + 1 }

def erased (position : Nat) (n : Node) : Code :=
  reindexFrom position { c with
    nodes := c.nodes.erase position
    positions := c.positions.erase n.handle }

def released (position : Nat) (n : Node) : Code :=
  n.instruction.labels.foldl (release (.entry n.handle)) (c.erased position n)

def replaced (position : Nat) (old : Node) (i : Instruction Handle) : Code :=
  let d := i.labels.foldl (register (.entry old.handle)) c
  old.instruction.labels.foldl (release (.entry old.handle))
    { d with nodes := d.nodes.replace position ⟨old.handle, i⟩ }

theorem insert_apply (position : Nat) (i : Instruction Handle) :
    insert position i c =
      if c.size < position then .error (.unresolved (.positionOutOfRange position c.size)) c
      else match c.validate i with
        | .error f => .error f c
        | .ok _ => .ok c.fresh (c.inserted position i) := by
  by_cases hp : c.size < position
  · simp [insert, hp]
  · cases hv : c.validate i <;> simp [insert, ask, hp, hv, inserted]

theorem push_apply (i : Instruction Handle) : push i c = insert c.size i c := by
  simp [push]

theorem replace_apply (position : Nat) (i : Instruction Handle) :
    replace position i c =
      match c.nodeAt position with
      | .error f => .error f c
      | .ok old => match c.validate i with
        | .error f => .error f c
        | .ok _ => .ok old.instruction (c.replaced position old i) := by
  cases hn : c.nodeAt position with
  | error f => simp [replace, ask, hn]
  | ok old => cases hv : c.validate i <;> simp [replace, ask, hn, hv, replaced]

theorem remove_apply (position : Nat) :
    remove position c =
      match c.nodeAt position with
      | .error f => .error f c
      | .ok n =>
        if (c.detach position n).1.isEmpty then .ok n.instruction (c.detach position n).2
        else .error (.instructionInUse n.instruction (c.detach position n).1.members)
          (c.detach position n).2 := by
  cases hn : c.nodeAt position with
  | error f => simp [remove, ask, hn]
  | ok n => by_cases he : (c.detach position n).1.isEmpty <;> simp [remove, ask, hn, he]

section Granted

variable {c} {d : Code} {position : Nat} {i j : Instruction Handle} {h : Handle}

theorem insert_eq_ok_iff :
    insert position i c = .ok h d ↔ position ≤ c.size ∧ c.validate i = .ok () ∧ c.fresh = h ∧
      c.inserted position i = d := by
  rw [insert_apply]
  by_cases hp : c.size < position
  · simp [hp, Nat.not_le_of_lt hp]
  · cases hv : c.validate i <;> simp [hp, Nat.le_of_not_lt hp]

theorem replace_eq_ok_iff :
    replace position i c = .ok j d ↔ ∃ old, c.nodeAt position = .ok old ∧ c.validate i = .ok () ∧
      old.instruction = j ∧ c.replaced position old i = d := by
  rw [replace_apply]
  cases c.nodeAt position with
  | error f => simp
  | ok old => cases hv : c.validate i <;> simp

theorem remove_eq_ok_iff :
    remove position c = .ok j d ↔ ∃ n, c.nodeAt position = .ok n ∧ (c.detach position n).1.isEmpty ∧
      n.instruction = j ∧ (c.detach position n).2 = d := by
  rw [remove_apply]
  cases c.nodeAt position with
  | error f => simp
  | ok n => by_cases he : (c.detach position n).1.isEmpty <;> simp [he]

end Granted

theorem registerOn_apply (k : Holder Handle) (target : Handle) :
    registerOn k target c =
      if target ∈ c.inbound then .ok ⟨⟩ (register k c target)
      else .error (.unresolved (.unknownInstruction target)) c := by
  by_cases h : target ∈ c.inbound <;> simp [registerOn, ask, unknown, h]

theorem unregisterExternal_apply (id : ExternalId) (target : Handle) :
    unregisterExternal id target c =
      match release? (.external id) c target with
      | some d => .ok ⟨⟩ d
      | none =>
        if (c.registered? target).isNone then .error (.unresolved (.unknownInstruction target)) c
        else .error (.unresolved (.unregisteredHolder target (.external id))) c := by
  cases hr : c.registered? target with
  | none =>
    obtain ⟨hi, hd⟩ := Option.or_eq_none_iff.mp hr
    simp [unregisterExternal, ask, unknown, release?, hr, hi, hd]
  | some s => cases h : release? (.external id) c target <;> simp [unregisterExternal, hr, h]

theorem retarget_apply (k : Holder Handle) (source target : Handle) :
    retarget k source target c =
      if c.isLive target then
        if (c.registered? source).any fun s => s.contains k then
          match k with
          | .entry h =>
            match c.positionOf h with
            | .error f => .error f c
            | .ok position =>
              match c.nodes.get? position with
              | none => .error (.unresolved (.unknownInstruction h)) c
              | some (_, n) => moveRegistrations k source target (n.instruction.labels.count source)
                  { c with nodes := c.nodes.update position (redirectNode source target) }
          | .external _ => moveRegistrations k source target 1 c
        else .error (.unresolved (.unregisteredHolder source k)) c
      else .error (.unresolved (.unknownInstruction target)) c := by
  by_cases ht : c.isLive target
  · by_cases hk : (c.registered? source).any fun s => s.contains k
    · cases k with
      | entry h =>
        cases hp : c.positionOf h with
        | error f => simp [retarget, ask, checkLive, ht, hk, hp]
        | ok position =>
          cases hn : c.nodes.get? position with
          | none => simp [retarget, ask, checkLive, unknown, ht, hk, hp, hn]
          | some e => simp [retarget, ask, checkLive, ht, hk, hp, hn]
      | external e => simp [retarget, ask, checkLive, ht, hk]
    · simp [retarget, ask, checkLive, ht, hk]
  · simp [retarget, ask, checkLive, unknown, ht]

/-! What each edit leaves. A refused one leaves the code as it was, and so do some that are granted. -/
section Leaves

variable (position : Nat) (i : Instruction Handle)

theorem leaves_insert :
    leaves (insert position i) c = c ∨
      position ≤ c.size ∧ c.validate i = .ok () ∧ leaves (insert position i) c = c.inserted position i := by
  rw [leaves, insert_apply]
  by_cases hp : c.size < position
  · exact .inl (by simp [hp])
  · cases hv : c.validate i with
    | error f => exact .inl (by simp [hp])
    | ok _ => exact .inr ⟨Nat.le_of_not_lt hp, rfl, by simp [hp]⟩

theorem leaves_replace :
    leaves (replace position i) c = c ∨
      ∃ old, c.nodeAt position = .ok old ∧ c.validate i = .ok () ∧
        leaves (replace position i) c = c.replaced position old i := by
  rw [leaves, replace_apply]
  cases hn : c.nodeAt position with
  | error f => exact .inl rfl
  | ok old =>
    cases hv : c.validate i with
    | error f => exact .inl rfl
    | ok _ => exact .inr ⟨old, rfl, rfl, rfl⟩

theorem leaves_remove_of_nodeAt {n : Node} (hn : c.nodeAt position = .ok n) :
    leaves (remove position) c = (c.detach position n).2 := by
  rw [leaves, remove_apply, hn]
  by_cases he : (c.detach position n).1.isEmpty <;> simp [he]

theorem leaves_remove :
    leaves (remove position) c = c ∨
      ∃ n, c.nodeAt position = .ok n ∧ leaves (remove position) c = (c.detach position n).2 := by
  cases hn : c.nodeAt position with
  | error f => exact .inl (by rw [leaves, remove_apply, hn])
  | ok n => exact .inr ⟨n, rfl, c.leaves_remove_of_nodeAt position hn⟩

theorem leaves_registerOn (k : Holder Handle) (target : Handle) :
    leaves (registerOn k target) c = c ∨
      target ∈ c.inbound ∧ leaves (registerOn k target) c = register k c target := by
  rw [leaves, registerOn_apply]
  by_cases ht : target ∈ c.inbound
  · exact .inr ⟨ht, by simp [ht]⟩
  · exact .inl (by simp [ht])

theorem leaves_unregisterExternal (id : ExternalId) (target : Handle) :
    leaves (unregisterExternal id target) c = release (.external id) c target := by
  rw [leaves, unregisterExternal_apply, release]
  cases release? (.external id) c target with
  | some d => rfl
  | none => by_cases hn : (c.registered? target).isNone <;> simp [hn]

theorem leaves_retarget (k : Holder Handle) (source target : Handle) :
    leaves (retarget k source target) c = c ∨
      c.isLive target ∧ ((c.registered? source).any fun s => s.contains k) ∧
        ((∃ e, k = .external e ∧
            leaves (retarget k source target) c = leaves (moveRegistrations k source target 1) c) ∨
          ∃ h p o n, k = .entry h ∧ c.positionOf h = .ok p ∧ c.nodes.get? p = some (o, n) ∧
            leaves (retarget k source target) c =
              leaves (moveRegistrations k source target (n.instruction.labels.count source))
                { c with nodes := c.nodes.update p (redirectNode source target) }) := by
  simp only [leaves, retarget_apply]
  by_cases ht : c.isLive target
  · by_cases hk : (c.registered? source).any fun s => s.contains k
    · cases k with
      | entry h =>
        cases hp : c.positionOf h with
        | error f => exact .inl (by simp [ht, hk, hp])
        | ok p =>
          cases hn : c.nodes.get? p with
          | none => exact .inl (by simp [ht, hk, hp, hn])
          | some e => exact .inr ⟨ht, hk, .inr ⟨h, p, e.1, e.2, rfl, hp, hn, by simp [ht, hk, hp, hn]⟩⟩
      | external e => exact .inr ⟨ht, hk, .inl ⟨e, rfl, by simp [ht, hk]⟩⟩
    · exact .inl (by simp [ht, hk])
  · exact .inl (by simp [ht])

end Leaves

end ClassCode.Code
