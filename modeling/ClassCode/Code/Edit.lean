import ClassCode.Code.Basic
import ClassCode.Instruction.Wire

/-! Editing code. An edit that fails says why; only taking out an instruction that others refer to changes
the code and fails all the same, to name those whose references now dangle. -/
namespace ClassCode.Code

abbrev Edit := EStateM Fault Code

def ask {α : Type} (question : Code → Except Fault α) : Edit α := do ofExcept (question (← get))

def reindexFrom (position : Nat) (c : Code) : Code :=
  let moved := (c.nodes.entries.extract position c.size).zipIdx position
  { c with positions := moved.foldl (fun m e => m.insert e.1.2.handle e.2) c.positions }

def register (holder : Holder Handle) (c : Code) (target : Handle) : Code :=
  { c with inbound := c.inbound.modify target fun s => s.register holder }

/-- Undo one registration of a holder. An instruction that was taken out is forgotten with the last one
on it. -/
def release? (holder : Holder Handle) (c : Code) (target : Handle) : Option Code :=
  match c.inbound[target]? with
  | some s => (s.release? holder).map fun s => { c with inbound := c.inbound.insert target s }
  | none => do
    let s ← (← c.dangling[target]?).release? holder
    return { c with
      dangling := if s.isEmpty then c.dangling.erase target else c.dangling.insert target s }

def release (holder : Holder Handle) (c : Code) (target : Handle) : Code :=
  (release? holder c target).getD c

/-- Refuse an instruction whose operands do not go with its opcode, or that leads to an instruction that
is not there. -/
def validate (c : Code) (i : Instruction Handle) : Except Fault Unit := do
  i.check
  i.labels.forM c.checkLive

/-- Put an instruction in front of the one at `position`, or at the end. References to the one that was
there stay with it. -/
def insert (position : Nat) (i : Instruction Handle) : Edit Handle := do
  let size := (← get).size
  if size < position then throw (.unresolved (.positionOutOfRange position size))
  ask (validate · i)
  let h := (← get).fresh
  modify fun c =>
    let c := i.labels.foldl (register (.entry h)) c
    reindexFrom position { c with
      nodes := c.nodes.insert position ⟨h, i⟩
      inbound := c.inbound.insert h .empty
      next := c.next + 1 }
  return h

def push (i : Instruction Handle) : Edit Handle := do insert (← get).size i

def replace (position : Nat) (i : Instruction Handle) : Edit (Instruction Handle) := do
  let old ← ask (nodeAt · position)
  ask (validate · i)
  modify fun c =>
    let c := i.labels.foldl (register (.entry old.handle)) c
    let c := { c with nodes := c.nodes.replace position ⟨old.handle, i⟩ }
    old.instruction.labels.foldl (release (.entry old.handle)) c
  return old.instruction

/-- The code without the instruction `n`, which is at `position`, and the holders that are left on it.
Its own jumps are released, one to itself included; the holders that are left dangle. -/
def detach (c : Code) (position : Nat) (n : Node) : Holders (Holder Handle) × Code :=
  let c := { c with nodes := c.nodes.erase position, positions := c.positions.erase n.handle }
  let c := c.reindexFrom position
  let c := n.instruction.labels.foldl (release (.entry n.handle)) c
  let left := c.inbound.getD n.handle .empty
  (left, { c with
    inbound := c.inbound.erase n.handle
    dangling := if left.isEmpty then c.dangling else c.dangling.insert n.handle left })

/-- Take out the instruction at `position`, in any case. It is a failure if something still refers to
it. -/
def remove (position : Nat) : Edit (Instruction Handle) := do
  let n ← ask (nodeAt · position)
  let left ← modifyGet fun c => c.detach position n
  if left.isEmpty then return n.instruction
  throw (.instructionInUse n.instruction left.members)

def registerOn (holder : Holder Handle) (target : Handle) : Edit Unit := do
  unless (← get).inbound.contains target do ask fun _ => unknown target
  modify fun c => register holder c target

def registerExternal (id : ExternalId) (target : Handle) : Edit Unit := registerOn (.external id) target

def unregisterExternal (id : ExternalId) (target : Handle) : Edit Unit := do
  if ((← get).registered? target).isNone then ask fun _ => unknown target
  match release? (.external id) (← get) target with
  | some c => set c
  | none => throw (.unresolved (.unregisteredHolder target (.external id)))

def moveRegistrations (holder : Holder Handle) (source target : Handle) : (n : Nat) → Edit Unit
  | 0 => return
  | n + 1 => do
    modify fun c => release holder c source
    registerOn holder target
    moveRegistrations holder source target n

def redirect (source target l : Handle) : Handle := if l = source then target else l

def redirectNode (source target : Handle) (n : Node) : Node :=
  { n with instruction := n.instruction.map (redirect source target) }

/-- Make a holder refer to `target` instead of `source`, which may have been taken out. All labels of an
instruction that lead to `source` move, but only one reference from outside. -/
def retarget (holder : Holder Handle) (source target : Handle) : Edit Unit := do
  ask (checkLive · target)
  unless ((← get).registered? source).any fun s => s.contains holder do
    throw (.unresolved (.unregisteredHolder source holder))
  match holder with
  | .entry h =>
    let position ← ask (positionOf · h)
    match (← get).nodes.get? position with
    | none => ask fun _ => unknown h
    | some (_, n) =>
      modify fun c => { c with nodes := c.nodes.update position (redirectNode source target) }
      moveRegistrations holder source target (n.instruction.labels.count source)
  | .external _ => moveRegistrations holder source target 1

end ClassCode.Code
