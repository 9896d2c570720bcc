import ClassCode.Code.Edit

/-! The wire form of code: the bytes of its instructions, one after the other. Read code is linked: its
jumps lead to instructions, which are given handles in their order. -/
namespace ClassCode.Code

open Std

/-- Read the instructions from `offset` on, after those of `acc`, last one first. Every instruction takes
at least a byte, so the number of bytes is fuel enough. -/
def scan : (fuel : Nat) → (offset : Nat) → (acc : List (Nat × Instruction Nat)) → List UInt8 →
    Except Fault (List (Nat × Instruction Nat))
  | 0, _, acc, _ => return acc.reverse
  | _ + 1, _, acc, [] => return acc.reverse
  | fuel + 1, offset, acc, b :: bytes => do
    let (i, rest) ← Instruction.read offset (b :: bytes)
    scan fuel (offset + i.width offset) ((offset, i) :: acc) rest

def scanAll (bytes : List UInt8) : Except Fault (List (Nat × Instruction Nat)) :=
  scan bytes.length 0 [] bytes

def handlesOf (instructions : List (Nat × Instruction Nat)) : ExtTreeMap Nat Handle :=
  instructions.zipIdx.foldl (fun m e => m.insert e.1.1 ⟨e.2⟩) ∅

/-- The handle of the instruction that a jump from `offset` leads to. -/
def resolve (starts : ExtTreeMap Nat Handle) (offset target : Nat) : Except Fault Handle :=
  match starts[target]? with
  | some h => return h
  | none => throw (.malformed (.branchTarget offset target))

def ofNodes (nodes : List Node) : Code :=
  { nodes := Layout.ofList nodes
    positions := nodes.zipIdx.foldl (fun m e => m.insert e.1.handle e.2) ∅
    inbound := nodes.foldl (fun m n => m.insert n.handle .empty) ∅
    next := nodes.length.toUInt32 }

def link (c : Code) : Code :=
  c.toList.foldl (fun c e => e.2.instruction.labels.foldl (register (.entry e.2.handle)) c) c

def ofInstructions (instructions : List (Nat × Instruction Nat)) : Except Fault Code := do
  let starts := handlesOf instructions
  let nodes ← instructions.zipIdx.mapM fun e => do
    let i ← e.1.2.traverse (resolve starts e.1.1)
    return (⟨⟨e.2⟩, i⟩ : Node)
  return (ofNodes nodes).link

/-- The code in some bytes. Every jump has to lead to the start of an instruction. -/
def decode (bytes : List UInt8) : Except Fault Code := do ofInstructions (← scanAll bytes)

def place (c : Code) (offset : Nat) (i : Instruction Handle) : Except Fault (Instruction Nat) :=
  i.traverse fun target =>
    match c.offset? target with
    | some o => return o
    | none => throw (.danglingTarget offset target)

def write (c : Code) : Writer Unit :=
  c.toList.forM fun e => do
    let i ← ofExcept (c.place e.1 e.2.instruction)
    i.write e.1

def encode (c : Code) : Except Fault (List UInt8) := c.write.bytes

end ClassCode.Code
