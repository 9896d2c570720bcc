import ClassCode.Constant.Basic
import ClassCode.Opcode

/-! Instructions, grouped by the layout of their operands. Jump targets are labels of a type of one's
choice: offsets in the bytes of a method, handles in a body that is being edited. -/
namespace ClassCode

/-- An instruction whose jump targets are of type `L`. -/
inductive Instruction (L : Type) where
  | plain (opcode : Opcode)
  | byteArgument (opcode : Opcode) (value : UInt8)
  | pushByte (value : Int8)
  | pushShort (value : Int16)
  | constant (opcode : Opcode) (index : PoolIndex)
  | increment (slot : UInt8) (delta : Int8)
  | multiArray (elements : PoolIndex) (dimensions : UInt8)
  | callInterface (method : PoolIndex) (count : UInt8)
  | callDynamic (site : PoolIndex)
  | jump (opcode : Opcode) (target : L)
  | farJump (opcode : Opcode) (target : L)
  | tableSwitch (default : L) (low : Int32) (targets : List L)
  | lookupSwitch (default : L) (pairs : List (Int32 × L))
  | wideLocal (opcode : Opcode) (slot : UInt16)
  | wideIncrement (slot : UInt16) (delta : Int16)
deriving DecidableEq, Inhabited

/-- The number of bytes after a switch opcode at `offset` up to the next multiple of four, where the
operands of a switch start. -/
def switchPadding (offset : Nat) : Nat := (4 - (offset + 1) % 4) % 4

def maxInt32 : Int := 2147483647

namespace Instruction

variable {L M : Type}

/-- The opcode; of a widened instruction, the opcode that is widened. -/
def opcode : Instruction L → Opcode
  | plain o | byteArgument o _ | constant o _ | jump o _ | farJump o _ | wideLocal o _ => o
  | pushByte _ => .bipush
  | pushShort _ => .sipush
  | increment _ _ | wideIncrement _ _ => .iinc
  | multiArray _ _ => .multianewarray
  | callInterface _ _ => .invokeinterface
  | callDynamic _ => .invokedynamic
  | tableSwitch _ _ _ => .tableswitch
  | lookupSwitch _ _ => .lookupswitch

def isWidened : Instruction L → Bool
  | wideLocal _ _ | wideIncrement _ _ => true
  | _ => false

def highKey (low : Int32) (n : Nat) : Int := low.toInt + n - 1

/-- The layout that the operands need and the opcode does not have, if that is so. Only a widenable
opcode other than `iinc` goes with a wide local variable, and the keys of a table switch must be at
least one and stay within 32 bits. -/
def misfit? (i : Instruction L) : Option Mode :=
  let needs (o : Opcode) (m : Mode) := if o.mode? = some m then none else some m
  match i with
  | plain o => needs o .plain
  | byteArgument o _ => needs o .byteArgument
  | constant o _ => needs o .constant
  | jump o _ => needs o .jump
  | farJump o _ => needs o .farJump
  | wideLocal o _ => if o.isWidenable ∧ o ≠ .iinc then none else some .widened
  | tableSwitch _ low ts =>
    if ts.isEmpty ∨ maxInt32 < highKey low ts.length then some .tableSwitch else none
  | _ => none

/-- Jump targets in the order in which they are written, the default of a switch first. -/
def labels : Instruction L → List L
  | jump _ l | farJump _ l => [l]
  | tableSwitch d _ ts => d :: ts
  | lookupSwitch d ps => d :: ps.map Prod.snd
  | _ => []

def withLabels : Instruction L → List L → Instruction L
  | jump o _, l :: _ => jump o l
  | farJump o _, l :: _ => farJump o l
  | tableSwitch _ low _, d :: ts => tableSwitch d low ts
  | lookupSwitch _ ps, d :: ls => lookupSwitch d ((ps.map Prod.fst).zip ls)
  | i, _ => i

def constants : Instruction L → List PoolIndex
  | byteArgument o v => if o = .ldc then [⟨v.toUInt16⟩] else []
  | constant _ i | multiArray i _ | callInterface i _ | callDynamic i => [i]
  | _ => []

/-- Send every label through `f`, in their order, with its effects. -/
def traverse {m : Type → Type} [Monad m] (f : L → m M) : Instruction L → m (Instruction M)
  | plain o => pure (plain o)
  | byteArgument o v => pure (byteArgument o v)
  | pushByte v => pure (pushByte v)
  | pushShort v => pure (pushShort v)
  | constant o i => pure (constant o i)
  | increment x d => pure (increment x d)
  | multiArray i n => pure (multiArray i n)
  | callInterface i n => pure (callInterface i n)
  | callDynamic i => pure (callDynamic i)
  | jump o l => return jump o (← f l)
  | farJump o l => return farJump o (← f l)
  | tableSwitch d low ts => do
    let d ← f d
    return tableSwitch d low (← ts.mapM f)
  | lookupSwitch d ps => do
    let d ← f d
    return lookupSwitch d (← ps.mapM fun p => return (p.1, ← f p.2))
  | wideLocal o x => pure (wideLocal o x)
  | wideIncrement x d => pure (wideIncrement x d)

def map (f : L → M) (i : Instruction L) : Instruction M := Id.run (i.traverse fun l => pure (f l))

/-- The number of bytes of an instruction at `offset`, on which it depends for switches only. -/
def width (i : Instruction L) (offset : Nat) : Nat :=
  match i with
  | plain _ => 1
  | byteArgument _ _ | pushByte _ => 2
  | pushShort _ | constant _ _ | increment _ _ | jump _ _ => 3
  | multiArray _ _ | wideLocal _ _ => 4
  | callInterface _ _ | callDynamic _ | farJump _ _ => 5
  | wideIncrement _ _ => 6
  | tableSwitch _ _ ts => 1 + switchPadding offset + 12 + 4 * ts.length
  | lookupSwitch _ ps => 1 + switchPadding offset + 8 + 8 * ps.length

instance : Spans (Instruction L) Nat := ⟨width⟩

/-! Instructions as they are listed: the mnemonic, then the operands, with an arrow before a jump target
and the cases of a switch in braces. -/

def line (parts : List String) : String := " ".intercalate parts

def renderCases (name : String) (cases : List (Int × String)) (default : String) : String :=
  name ++ " \x7b" ++ String.join (cases.map fun c => " " ++ toString c.1 ++ ": " ++ c.2 ++ ",") ++
    " default: " ++ default ++ " \x7d"

def render (label : L → String) (i : Instruction L) : String :=
  match i with
  | plain o => o.render
  | byteArgument o v =>
    if o = .ldc then line ["ldc", "#" ++ toString v.toNat] else line [o.render, toString v.toNat]
  | pushByte v => line ["bipush", toString v.toInt]
  | pushShort v => line ["sipush", toString v.toInt]
  | constant o i => line [o.render, i.listed]
  | increment x d => line ["iinc", toString x.toNat, toString d.toInt]
  | multiArray i n => line ["multianewarray", i.listed, toString n.toNat]
  | callInterface i n => line ["invokeinterface", i.listed, toString n.toNat]
  | callDynamic i => line ["invokedynamic", i.listed]
  | jump o l | farJump o l => line [o.render, "->", label l]
  | tableSwitch d low ts =>
    renderCases "tableswitch" (ts.zipIdx.map fun t => (low.toInt + t.2, label t.1)) (label d)
  | lookupSwitch d ps =>
    renderCases "lookupswitch" (ps.map fun p => (p.1.toInt, label p.2)) (label d)
  | wideLocal o x => line ["wide", o.render, toString x.toNat]
  | wideIncrement x d => line ["wide", "iinc", toString x.toNat, toString d.toInt]

end Instruction

end ClassCode
