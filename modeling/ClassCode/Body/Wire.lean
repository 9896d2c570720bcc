import ClassCode.Body.Basic
import ClassCode.Code.Wire

/-! The wire form of a body: sizes of stack and locals, the code with its length in four bytes, the guards
with the offsets of their instructions, and the attributes. A guard up to the end of the code has the
length of the code in the place of an offset. -/
namespace ClassCode.Body

open Std

def maxCodeLength : Nat := 65535

def handleAt (b : Body) (pc : UInt16) : Except Fault Handle :=
  match b.code.positionAtOffset? pc.toNat with
  | some position => return (← b.code.nodeAt position).handle
  | none => throw (.malformed (.exceptionPc pc))

/-- Read a guard and add it. All its numbers are read before the first of them is looked up. -/
def readGuard (length : UInt32) (b : Body) : Reader Body := do
  let start : UInt16 ← Wire.read
  let stop : UInt16 ← Wire.read
  let handler : UInt16 ← Wire.read
  let catches ← Wire.read
  let start ← ofExcept (b.handleAt start)
  let stop ← ofExcept (if stop.toNat = length.toNat then pure none else some <$> b.handleAt stop)
  let handler ← ofExcept (b.handleAt handler)
  match addGuard start stop handler catches b with
  | .ok _ b => return b
  | .error f _ => throw f

def readGuards (length : UInt32) : (n : Nat) → Body → Reader Body
  | 0, b => pure b
  | n + 1, b => do readGuards length n (← b.readGuard length)

def read : Reader Body := do
  let maxStack : UInt16 ← Wire.read
  let maxLocals : UInt16 ← Wire.read
  let length : UInt32 ← Wire.read
  if length = 0 ∨ maxCodeLength < length.toNat then Reader.malformed (.codeLength length)
  let code ← ofExcept (Code.decode (← Reader.take length.toNat))
  let count : UInt16 ← Wire.read
  let b ← readGuards length count.toNat (ofCode maxStack maxLocals code)
  return { b with attributes := ← Wire.read }

def pcOf (c : Code) (h : Handle) : Except Fault UInt16 := return (← c.offsetOf h).toUInt16

def writeGuard (c : Code) (length : Nat) (g : Guard) : Writer Unit := do
  let start ← ofExcept (pcOf c g.start)
  let stop ← match g.stop with
    | some h => ofExcept (pcOf c h)
    | none => pure length.toUInt16
  let handler ← ofExcept (pcOf c g.handler)
  Wire.write start
  Wire.write stop
  Wire.write handler
  Wire.write g.catches

/-- Write a body. Nothing is written if its code has no bytes, or none that fit. -/
def write (b : Body) : Writer Unit := do
  let code ← ofExcept b.code.encode
  if code.isEmpty ∨ maxCodeLength < code.length then
    throw (.malformed (.codeLength code.length.toUInt32))
  Wire.write b.maxStack
  Wire.write b.maxLocals
  Wire.write code.length.toUInt32
  Writer.put code
  Wire.write b.guards.size.toUInt16
  b.guards.toList.forM (writeGuard b.code code.length)
  Wire.write b.attributes

end ClassCode.Body
