import ClassCode.Bytes
import ClassCode.Code.Edit

/-! The body of a method: its code, the ranges of it that are guarded by exception handlers, and its
attributes, whose bytes are carried along unread. Every guard is registered, under an identity of its own,
on the instructions that it refers to. -/
namespace ClassCode

structure Attribute where
  name : PoolIndex
  info : List UInt8
deriving DecidableEq, Inhabited

namespace Attribute

/-- The name, the number of bytes, in four bytes, and the bytes. -/
instance : Wire Attribute where
  read := do
    let name ← Wire.read
    let length : UInt32 ← Wire.read
    let info ← Reader.take length.toNat
    return { name, info }
  write a := do
    Wire.write a.name
    Wire.write a.info.length.toUInt32
    Writer.put a.info

end Attribute

/-- A guarded range, from `start` up to `stop` or to the end of the code, and the instruction to go on
with when an exception of the type `catches` is thrown in it. An absent type stands for all of them. -/
structure Guard where
  start : Handle
  stop : Option Handle
  handler : Handle
  catches : PoolIndex
  id : ExternalId
deriving DecidableEq, Inhabited

def Guard.targets (g : Guard) : List Handle := g.start :: g.stop.toList ++ [g.handler]

def Guard.mapTargets (f : Handle → Handle) (g : Guard) : Guard :=
  { g with start := f g.start, stop := g.stop.map f, handler := f g.handler }

/-- Guards that come first are tried first. `ids` has the identities for further ones. -/
structure Body where
  maxStack : UInt16
  maxLocals : UInt16
  code : Code
  guards : Array Guard := #[]
  attributes : List Attribute := []
  ids : ExternalSupply := {}

namespace Body

instance : Inhabited Body := ⟨{ maxStack := 0, maxLocals := 0, code := Code.empty }⟩

def ofCode (maxStack maxLocals : UInt16) (code : Code) : Body := { maxStack, maxLocals, code }

def constants (b : Body) : List PoolIndex :=
  b.code.toList.flatMap (fun e => e.2.instruction.constants) ++
    (b.guards.toList.map Guard.catches).filter (fun i => i ≠ .absent) ++
    b.attributes.map Attribute.name

/-! Editing the body of a method. Guards and their registrations change together; an edit that fails part
of the way keeps what it did before it failed. -/

abbrev Edit := EStateM Fault Body

def onCode {α : Type} (edit : Code.Edit α) : Edit α := fun b =>
  match edit b.code with
  | .ok x code => .ok x { b with code }
  | .error f code => .error f { b with code }

/-- Add a guard after all others. A call that fails still uses up an identity. -/
def addGuard (start : Handle) (stop : Option Handle) (handler : Handle) (catches : PoolIndex) :
    Edit ExternalId := do
  let (id, ids) := (← get).ids.fresh
  modify fun b => { b with ids }
  let guard : Guard := { start, stop, handler, catches, id }
  onCode (guard.targets.forM fun target => Code.ask (Code.checkLive · target))
  onCode (guard.targets.forM (Code.registerExternal id))
  modify fun b => { b with guards := b.guards.push guard }
  return id

def findGuard (b : Body) (id : ExternalId) : Except Fault (Nat × Guard) :=
  match b.guards.zipIdx.find? fun e => e.1.id == id with
  | some (guard, place) => return (place, guard)
  | none => throw (.unresolved (.unknownGuard id))

def removeGuard (id : ExternalId) : Edit Guard := do
  let (place, guard) ← ofExcept ((← get).findGuard id)
  modify fun b => { b with guards := b.guards.eraseIdxIfInBounds place }
  onCode (guard.targets.forM (Code.unregisterExternal id))
  return guard

def retargetGuard (id : ExternalId) (source target : Handle) : Edit Unit := do
  let (place, guard) ← ofExcept ((← get).findGuard id)
  let n := guard.targets.count source
  if n = 0 then throw (.unresolved (.unregisteredHolder source (.external id)))
  onCode (Code.ask (Code.checkLive · target))
  onCode ((List.replicate n ()).forM fun _ => Code.retarget (.external id) source target)
  modify fun b =>
    { b with guards := b.guards.modify place (Guard.mapTargets (Code.redirect source target)) }

/-- Make a holder refer to `target` instead of `source`: an instruction with all its labels, a guard with
all its targets. -/
def retarget (holder : Holder Handle) (source target : Handle) : Edit Unit :=
  match holder with
  | .entry _ => onCode (Code.retarget holder source target)
  | .external id => retargetGuard id source target

end Body

end ClassCode
