import ClassCode.Fault

/-! Code that can be edited. Instructions are kept in order, with their offsets, and jump to one another
through handles, so an edit leaves every jump where it leads. Whoever refers to an instruction is
registered on it, and stays so after it was taken out. -/
namespace ClassCode

open Std

structure Node where
  handle : Handle
  instruction : Instruction Handle
deriving DecidableEq, Inhabited

instance : Spans Node Nat := ⟨fun n offset => n.instruction.width offset⟩

abbrev Registry := ExtTreeMap Handle (Holders (Holder Handle))

/-- `positions` has where the instructions are, `inbound` the holders of those that are there, and
`dangling` those left on instructions that were taken out. `next` counts the handles that were given out,
and starts over after 2^32 of them. -/
structure Code where
  nodes : Layout Nat Node := Layout.empty
  positions : ExtTreeMap Handle Nat := ∅
  inbound : Registry := ∅
  dangling : Registry := ∅
  next : UInt32 := 0

namespace Code

def empty : Code := {}

instance : Inhabited Code := ⟨empty⟩

def fresh (c : Code) : Handle := ⟨c.next.toNat⟩

def size (c : Code) : Nat := c.nodes.size

def isEmpty (c : Code) : Bool := c.nodes.isEmpty

def length (c : Code) : Nat := c.nodes.stop

def toList (c : Code) : List (Nat × Node) := c.nodes.toList

def unknown {α : Type} (h : Handle) : Except Fault α := throw (.unresolved (.unknownInstruction h))

def nodeAt (c : Code) (position : Nat) : Except Fault Node :=
  match c.nodes.get? position with
  | some (_, n) => return n
  | none => throw (.unresolved (.positionOutOfRange position c.size))

def position? (c : Code) (h : Handle) : Option Nat := c.positions[h]?

def isLive (c : Code) (h : Handle) : Bool := c.positions.contains h

def checkLive (c : Code) (h : Handle) : Except Fault Unit :=
  if c.isLive h then return else unknown h

def positionOf (c : Code) (h : Handle) : Except Fault Nat :=
  match c.position? h with
  | some position => return position
  | none => unknown h

def offset? (c : Code) (h : Handle) : Option Nat := do
  let position ← c.position? h
  return (← c.nodes.get? position).1

def offsetOf (c : Code) (h : Handle) : Except Fault Nat :=
  match c.offset? h with
  | some offset => return offset
  | none => unknown h

/-- The position of the instruction that starts at an offset. -/
def positionAtOffset? (c : Code) (offset : Nat) : Option Nat :=
  match c.nodes.locate offset with
  | .starts position _ => some position
  | _ => none

def holders (c : Code) (h : Handle) : Except Fault (List (Holder Handle)) :=
  match c.inbound[h]? with
  | some s => return s.members
  | none => unknown h

def registered? (c : Code) (h : Handle) : Option (Holders (Holder Handle)) :=
  c.inbound[h]?.or c.dangling[h]?

/-- How many registrations a holder has on an instruction, whether it is still there or not. -/
def registrations (c : Code) (h : Handle) (holder : Holder Handle) : Nat :=
  match c.registered? h with
  | some s => s.count holder
  | none => 0

def render (c : Code) : String :=
  Form.list (c.toList.map fun e =>
    "@" ++ toString e.1 ++ " " ++ e.2.handle.render ++ ": " ++ e.2.instruction.render Handle.render)

end Code

end ClassCode
