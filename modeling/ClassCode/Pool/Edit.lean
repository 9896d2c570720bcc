import ClassCode.Constant.Wire
import ClassCode.Pool.Basic

/-! Changing a pool. An edit that fails says why and keeps what it did before it failed. Adding a constant
registers it on the constants that it refers to, which all have to be there. Removing one closes the
gap: every index past it shifts down, and whoever holds one of those from outside is told. -/
namespace ClassCode

open Std

namespace Pool

abbrev Edit := EStateM Fault Pool

def ask {α : Type} (question : Pool → Except Fault α) : Edit α := do ofExcept (question (← get))

def checkRoom (p : Pool) (c : Constant) : Except Fault Unit := do
  if let .utf8 bytes := c then
    if maxTextLength < bytes.length then throw (.textTooLong bytes.length)
  if maxPoolCount < p.count + c.slots then throw (.poolOverflow c p.count.toUInt16)

def checkReferences (p : Pool) (c : Constant) : Except Fault Unit :=
  c.references.forM fun target => do discard (p.find target)

/-- The index of a constant, which is added if it is not there yet. -/
def intern (c : Constant) : Edit PoolIndex := do
  match (← get).indexOf? c with
  | some i => return i
  | none =>
    ask (checkReferences · c)
    ask (checkRoom · c)
    let i := (← get).next
    modify fun p => c.references.foldl (register (.entry i)) (p.append c)
    return i

def registerExternal (id : ExternalId) (i : PoolIndex) : Edit Unit := do
  let (position, _) ← ask (find · i)
  modify fun p => p.registerAt position (.external id)

def unregisterExternal (id : ExternalId) (i : PoolIndex) : Edit Unit := do
  let (position, _) ← ask (find · i)
  unless ((← get).holdersAt position).contains (.external id) do
    throw (.unresolved (.unregisteredConstantHolder i (.external id)))
  modify fun p => p.releaseAt position (.external id)

/-- The word that the index held by something outside went from `old` to `new`. -/
structure Notice where
  holder : ExternalId
  old : PoolIndex
  new : PoolIndex
deriving DecidableEq, Inhabited

structure Removal where
  constant : Constant
  notices : List Notice

def moveHolder (f : PoolIndex → PoolIndex) : Holder PoolIndex → Holder PoolIndex
  | .entry i => .entry (f i)
  | .external e => .external e

def internedOf (constants : Layout Nat Constant) : ExtTreeMap Constant PoolIndex :=
  constants.entries.foldl (fun m e => m.insertIfNew e.2 (indexAt e.1)) ∅

/-- Take out the constant `c`, at index `i` and at `position`, and shift every index past it. -/
def close (p : Pool) (i : PoolIndex) (position : Nat) (c : Constant) : Pool :=
  let shift := PoolIndex.shift i c.slots.toUInt16
  let constants := (p.constants.erase position).mapInPlace fun _ _ d =>
    d.shiftReferences i c.slots.toUInt16
  { constants
    inbound := (p.inbound.eraseIdxIfInBounds position).map (Holders.rename (moveHolder shift))
    interned := internedOf constants }

/-- The notices for the constants from `position` on, which all moved down by `slots`: constant after
constant, and for each of them holder after holder. -/
def noticesFrom (p : Pool) (position : Nat) (slots : UInt16) : List Notice :=
  (p.constants.toList.zip p.inbound.toList).drop position |>.flatMap fun e =>
    let new := indexAt e.1.1
    e.2.members.filterMap fun
      | .external holder => some { holder, old := ⟨new.slot + slots⟩, new }
      | .entry _ => none

/-- Take out the constant at an index. It is refused as long as something other than the constant itself
holds the index; what the constant let go of by then, it takes hold of again. -/
def remove (i : PoolIndex) : Edit Removal := do
  let (position, c) ← ask (find · i)
  modify fun p => c.references.foldl (release (.entry i)) p
  unless ((← get).holdersAt position).isEmpty do
    modify fun p => c.references.foldl (register (.entry i)) p
    throw (.constantInUse i ((← get).holdersAt position).members)
  let closed := (← get).close i position c
  set closed
  return { constant := c, notices := closed.noticesFrom position c.slots.toUInt16 }

/-! Interning by what is meant: each of these finds or adds a constant and all that it refers to, from
numbers and texts. One that fails keeps the constants that it added on the way. -/

def utf8 (s : String) : Edit PoolIndex := intern (.utf8 (ModifiedUtf8.ofString s))

def integer (v : Int32) : Edit PoolIndex := intern (.integer v)

def float (bits : UInt32) : Edit PoolIndex := intern (.float bits)

def long (v : Int64) : Edit PoolIndex := intern (.long v)

def double (bits : UInt64) : Edit PoolIndex := intern (.double bits)

def classNamed (name : String) : Edit PoolIndex := do intern (.classInfo (← utf8 name))

def string (value : String) : Edit PoolIndex := do intern (.string (← utf8 value))

def methodType (descriptor : String) : Edit PoolIndex := do intern (.methodType (← utf8 descriptor))

def moduleNamed (name : String) : Edit PoolIndex := do intern (.moduleInfo (← utf8 name))

def packageNamed (name : String) : Edit PoolIndex := do intern (.packageInfo (← utf8 name))

def nameAndType (name descriptor : String) : Edit PoolIndex := do
  let name ← utf8 name
  let descriptor ← utf8 descriptor
  intern (.nameAndType name descriptor)

def member (kind : PoolIndex → PoolIndex → Constant) (owner name descriptor : String) :
    Edit PoolIndex := do
  let owner ← classNamed owner
  let member ← nameAndType name descriptor
  intern (kind owner member)

def fieldRef (owner name descriptor : String) : Edit PoolIndex :=
  member .fieldRef owner name descriptor

def methodRef (owner name descriptor : String) : Edit PoolIndex :=
  member .methodRef owner name descriptor

def interfaceMethodRef (owner name descriptor : String) : Edit PoolIndex :=
  member .interfaceMethodRef owner name descriptor

def methodHandle (kind : HandleKind) (member : PoolIndex) : Edit PoolIndex :=
  intern (.methodHandle kind member)

def invokeDynamic (bootstrap : UInt16) (name descriptor : String) : Edit PoolIndex := do
  intern (.invokeDynamic bootstrap (← nameAndType name descriptor))

def dynamic (bootstrap : UInt16) (name descriptor : String) : Edit PoolIndex := do
  intern (.dynamic bootstrap (← nameAndType name descriptor))

/-! The wire form of a pool: the number of its slots, in two bytes, and its constants in index order. A
pool is read with its duplicates; every reference in it has to lead to a constant of the same pool. -/

def write (p : Pool) : Writer Unit := do
  Wire.write p.count.toUInt16
  p.constants.toList.forM fun e => e.2.write

/-- Read constants into the next `slots` slots. A wide constant in the last one takes a slot more. -/
def readSlots : (slots : Nat) → Pool → Reader Pool
  | 0, p => pure p
  | n + 1, p => do
    let c ← Constant.read p.next
    if c.isWide then
      match n with
      | 0 => pure (p.append c)
      | m + 1 => readSlots m (p.append c)
    else readSlots n (p.append c)

def linkTo (i : PoolIndex) (p : Pool) (target : PoolIndex) : Except Fault Pool :=
  match p.find target with
  | .ok (position, _) => return p.registerAt position (.entry i)
  | .error _ => throw (.malformed (.danglingReference i target))

def link (p : Pool) : Except Fault Pool :=
  p.entries.foldlM (fun p e => e.2.references.foldlM (linkTo e.1) p) p

def read : Reader Pool := do
  let count : UInt16 ← Wire.read
  if count = 0 then Reader.malformed (.poolCount count)
  let p ← readSlots (count.toNat - 1) empty
  if p.count ≠ count.toNat then Reader.malformed (.poolCount count)
  ofExcept p.link

end Pool

end ClassCode
