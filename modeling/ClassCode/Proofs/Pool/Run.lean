import ClassCode.Pool.Edit
import ClassCode.Proofs.Run

/-! Runs of edits of a pool. A constant that is interned is found or added; the helpers that intern what is
meant add one constant after the other and stop where one is refused. -/
namespace ClassCode.Pool

open Run

inductive Request where
  | intern (c : Constant)
  | utf8 (s : String)
  | integer (v : Int32)
  | float (bits : UInt32)
  | long (v : Int64)
  | double (bits : UInt64)
  | classNamed (name : String)
  | string (value : String)
  | methodType (descriptor : String)
  | moduleNamed (name : String)
  | packageNamed (name : String)
  | nameAndType (name descriptor : String)
  | fieldRef (owner name descriptor : String)
  | methodRef (owner name descriptor : String)
  | interfaceMethodRef (owner name descriptor : String)
  | methodHandle (kind : HandleKind) (member : PoolIndex)
  | invokeDynamic (bootstrap : UInt16) (name descriptor : String)
  | dynamic (bootstrap : UInt16) (name descriptor : String)
  | remove (i : PoolIndex)
  | registerExternal (id : ExternalId) (i : PoolIndex)
  | unregisterExternal (id : ExternalId) (i : PoolIndex)

def Request.apply : Request → Pool → Pool
  | intern c => leaves (Pool.intern c)
  | utf8 s => leaves (Pool.utf8 s)
  | integer v => leaves (Pool.integer v)
  | float bits => leaves (Pool.float bits)
  | long v => leaves (Pool.long v)
  | double bits => leaves (Pool.double bits)
  | classNamed name => leaves (Pool.classNamed name)
  | string value => leaves (Pool.string value)
  | methodType descriptor => leaves (Pool.methodType descriptor)
  | moduleNamed name => leaves (Pool.moduleNamed name)
  | packageNamed name => leaves (Pool.packageNamed name)
  | nameAndType name descriptor => leaves (Pool.nameAndType name descriptor)
  | fieldRef owner name descriptor => leaves (Pool.fieldRef owner name descriptor)
  | methodRef owner name descriptor => leaves (Pool.methodRef owner name descriptor)
  | interfaceMethodRef owner name descriptor => leaves (Pool.interfaceMethodRef owner name descriptor)
  | methodHandle kind member => leaves (Pool.methodHandle kind member)
  | invokeDynamic bootstrap name descriptor => leaves (Pool.invokeDynamic bootstrap name descriptor)
  | dynamic bootstrap name descriptor => leaves (Pool.dynamic bootstrap name descriptor)
  | remove i => leaves (Pool.remove i)
  | registerExternal id i => leaves (Pool.registerExternal id i)
  | unregisterExternal id i => leaves (Pool.unregisterExternal id i)

/-- Pools that a run of requests leads to, from the empty one or from one that was read. -/
inductive Reachable : Pool → Prop where
  | empty : Reachable Pool.empty
  | read {bytes rest : List UInt8} {p : Pool} (h : Pool.read bytes = .ok (p, rest)) : Reachable p
  | edited {p : Pool} (h : Reachable p) (r : Request) : Reachable (r.apply p)

theorem Reachable.foldl_apply {p : Pool} (h : Reachable p) (rs : List Request) :
    Reachable (rs.foldl (fun p r => r.apply p) p) := by
  induction rs generalizing p with
  | nil => exact h
  | cons r rs ih => exact ih (h.edited r)

variable (p : Pool)

/-- The pool with a constant in its next slot, registered on what it refers to. -/
def added (c : Constant) : Pool := c.references.foldl (register (.entry p.next)) (p.append c)

/-- The pool in which a constant, at index `i`, has let go of what it refers to. -/
def unlinked (i : PoolIndex) (c : Constant) : Pool := c.references.foldl (release (.entry i)) p

theorem intern_apply (c : Constant) :
    intern c p =
      match p.indexOf? c with
      | some i => .ok i p
      | none =>
        match checkReferences p c with
        | .error f => .error f p
        | .ok _ =>
          match checkRoom p c with
          | .error f => .error f p
          | .ok _ => .ok p.next (p.added c) := by
  cases hi : p.indexOf? c with
  | some i => simp [intern, hi]
  | none =>
    cases hr : checkReferences p c with
    | error f => simp [intern, ask, hi, hr]
    | ok _ => cases hc : checkRoom p c <;> simp [intern, ask, hi, hr, hc, added]

theorem registerExternal_apply (id : ExternalId) (i : PoolIndex) :
    registerExternal id i p =
      match p.find i with
      | .error f => .error f p
      | .ok (position, _) => .ok ⟨⟩ (p.registerAt position (.external id)) := by
  cases hi : p.find i <;> simp [registerExternal, ask, hi]

theorem unregisterExternal_apply (id : ExternalId) (i : PoolIndex) :
    unregisterExternal id i p =
      match p.find i with
      | .error f => .error f p
      | .ok (position, _) =>
        if (p.holdersAt position).contains (.external id) then
          .ok ⟨⟩ (p.releaseAt position (.external id))
        else .error (.unresolved (.unregisteredConstantHolder i (.external id))) p := by
  cases hi : p.find i with
  | error f => simp [unregisterExternal, ask, hi]
  | ok found =>
    by_cases hc : (p.holdersAt found.1).contains (.external id) <;>
      simp [unregisterExternal, ask, hi, hc]

theorem constants_registerExternal (id : ExternalId) (i : PoolIndex) :
    (leaves (registerExternal id i) p).constants = p.constants := by
  rw [leaves, registerExternal_apply]
  cases p.find i <;> rfl

theorem constants_unregisterExternal (id : ExternalId) (i : PoolIndex) :
    (leaves (unregisterExternal id i) p).constants = p.constants := by
  rw [leaves, unregisterExternal_apply]
  cases p.find i with
  | error f => rfl
  | ok found =>
    by_cases hheld : (p.holdersAt found.1).contains (.external id)
    · simp only [hheld]
      rfl
    · simp only [hheld]
      rfl

theorem remove_apply (i : PoolIndex) :
    remove i p =
      match p.find i with
      | .error f => .error f p
      | .ok (position, c) =>
        let released := p.unlinked i c
        let relinked := c.references.foldl (register (.entry i)) released
        if (released.holdersAt position).isEmpty then
          .ok ⟨c, (released.close i position c).noticesFrom position c.slots.toUInt16⟩
            (released.close i position c)
        else .error (.constantInUse i (relinked.holdersAt position).members) relinked := by
  cases hi : p.find i with
  | error f => simp [remove, ask, hi]
  | ok found =>
    by_cases he : ((found.2.references.foldl (release (.entry i)) p).holdersAt found.1).isEmpty <;>
      simp [remove, ask, hi, he, unlinked]

end ClassCode.Pool
