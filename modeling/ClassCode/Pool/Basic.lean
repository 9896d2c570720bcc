import ClassCode.Constant.Basic
import ClassCode.Fault

/-! The pool of constants of a class. A constant is interned: added again, it keeps the index that it has.
Every index held by a constant of the pool, or by something outside that said so, is registered on the
constant it leads to. -/
namespace ClassCode

open Std

/-- The greatest number of slots of a pool, slot 0 included. -/
def maxPoolCount : Nat := 65535

/-- Constants in slots from 1 on, the holders of each of them, and the first index of every distinct
one. -/
structure Pool where
  constants : Layout Nat Constant := Layout.emptyAt 1
  inbound : Array (Holders (Holder PoolIndex)) := #[]
  interned : ExtTreeMap Constant PoolIndex := ∅

namespace Pool

def indexAt (offset : Nat) : PoolIndex := ⟨offset.toUInt16⟩

def empty : Pool := {}

instance : Inhabited Pool := ⟨empty⟩

def count (p : Pool) : Nat := p.constants.stop

def isEmpty (p : Pool) : Bool := p.constants.isEmpty

def next (p : Pool) : PoolIndex := indexAt p.count

def entries (p : Pool) : List (PoolIndex × Constant) :=
  p.constants.toList.map fun e => (indexAt e.1, e.2)

def indexOf? (p : Pool) (c : Constant) : Option PoolIndex := p.interned[c]?

/-- The position and the constant that an index leads to. -/
def find (p : Pool) (i : PoolIndex) : Except Fault (Nat × Constant) :=
  if i = .absent then throw (.unresolved .zeroIndex)
  else
    match p.constants.locate i.slot.toNat with
    | .starts position c => return (position, c)
    | .inside _ => throw (.unresolved (.secondSlot i))
    | .outside => throw (.unresolved (.constantOutOfRange i p.count))

def constantAt (p : Pool) (i : PoolIndex) (expected : Option Tag) : Except Fault Constant := do
  let (_, c) ← p.find i
  match expected with
  | none => return c
  | some tag =>
    if tag = c.tag then return c else throw (.unresolved (.tagMismatch i tag c.tag))

def text (p : Pool) (i : PoolIndex) : Except Fault String := do
  match (← p.constantAt i (some .utf8)).text? with
  | some s => return s
  | none => throw (.malformed (.text i))

def holdersAt (p : Pool) (position : Nat) : Holders (Holder PoolIndex) :=
  p.inbound.getD position .empty

def holders (p : Pool) (i : PoolIndex) : Except Fault (List (Holder PoolIndex)) := do
  let (position, _) ← p.find i
  return (p.holdersAt position).members

def registerAt (p : Pool) (position : Nat) (h : Holder PoolIndex) : Pool :=
  { p with inbound := p.inbound.modify position fun s => s.register h }

/-- Register a holder on the constant at an index, if there is one. -/
def register (h : Holder PoolIndex) (p : Pool) (target : PoolIndex) : Pool :=
  match p.find target with
  | .ok (position, _) => p.registerAt position h
  | .error _ => p

def releaseAt (p : Pool) (position : Nat) (h : Holder PoolIndex) : Pool :=
  { p with inbound := p.inbound.modify position fun s => s.release h }

def release (h : Holder PoolIndex) (p : Pool) (target : PoolIndex) : Pool :=
  match p.find target with
  | .ok (position, _) => p.releaseAt position h
  | .error _ => p

/-- Put a constant into the next slot, with no holders. An equal one that came before stays the one that
is found. -/
def append (p : Pool) (c : Constant) : Pool :=
  let interned := p.interned.insertIfNew c p.next
  { constants := p.constants.push c
    inbound := p.inbound.push .empty
    interned }

def render (p : Pool) : String := p.constants.render Constant.render

end Pool

end ClassCode
