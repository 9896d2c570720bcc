import ClassCode.Holders
import ClassCode.Instruction.Basic

/-! What can go wrong, as causes, and the message for each of them. -/
namespace ClassCode

/-- Why bytes are not a well-formed class file. -/
inductive Malformed where
  /-- The bytes end inside a construct. -/
  | truncated
  /-- No number of constants fills that many slots: zero, or a wide constant starts in the last one. -/
  | poolCount (count : UInt16)
  | unknownTag (index : PoolIndex) (tag : UInt8)
  | text (index : PoolIndex)
  | handleKind (index : PoolIndex) (kind : UInt8)
  /-- A constant refers to something that is no entry of its pool. -/
  | danglingReference (index target : PoolIndex)
  /-- A byte that has to be zero is not. -/
  | padding (opcode : Opcode) (offset : Nat)
  | switchRange (offset : Nat) (low high : Int32)
  | pairCount (offset : Nat) (pairs : Int32)
  /-- The opcode after a wide prefix cannot be widened. -/
  | wideOpcode (offset : Nat) (opcode : UInt8)
  /-- A jump leads out of the code, or into an instruction. -/
  | branchTarget (offset : Nat) (target : Int)
  | codeLength (length : UInt32)
  /-- An offset of the exception table is not the start of an instruction. -/
  | exceptionPc (pc : UInt16)
deriving DecidableEq

/-- Why an index, a position or a handle leads to nothing. -/
inductive Unresolved where
  | zeroIndex
  | constantOutOfRange (index : PoolIndex) (count : Nat)
  /-- The second slot of a wide constant. -/
  | secondSlot (index : PoolIndex)
  | tagMismatch (index : PoolIndex) (expected found : Tag)
  | unregisteredConstantHolder (index : PoolIndex) (holder : Holder PoolIndex)
  | positionOutOfRange (position size : Nat)
  | unknownInstruction (handle : Handle)
  | unregisteredHolder (target : Handle) (holder : Holder Handle)
  | unknownGuard (id : ExternalId)
deriving DecidableEq

inductive Fault where
  | malformed (cause : Malformed)
  | unresolved (cause : Unresolved)
  | unknownOpcode (opcode : UInt8) (offset : Nat)
  | constantInUse (index : PoolIndex) (holders : List (Holder PoolIndex))
  /-- The instruction was taken out, and these still refer to it. -/
  | instructionInUse (removed : Instruction Handle) (holders : List (Holder Handle))
  | poolOverflow (constant : Constant) (offset : UInt16)
  | textTooLong (length : Nat)
  /-- The operands do not go with the opcode. -/
  | misfit (opcode : Opcode) (expected : Mode)
  | branchOverflow (offset target : Nat)
  /-- A label leads to an instruction that was taken out. -/
  | danglingTarget (offset : Nat) (target : Handle)
  /-- The bytes did not fit into what they were written to. -/
  | sinkFull
  /-- The length of a text does not fit into its field. -/
  | textUnwritable
deriving DecidableEq

def Holder.render {ι : Type} (kind : String) (name : ι → String) : Holder ι → String
  | entry i => Form.apply kind [name i]
  | external e => Form.apply "External" [e.render]

def PoolIndex.renderHolder (h : Holder PoolIndex) : String := h.render "Constant" PoolIndex.render

def Handle.renderHolder (h : Holder Handle) : String := h.render "Instruction" Handle.render

def renderOffset (o : Nat) : String := Form.apply "Offset" [toString o]

namespace Malformed

def render : Malformed → String
  | truncated => "Truncated"
  | poolCount n => Form.apply "InvalidConstantCount" [toString n.toNat]
  | unknownTag i t => Form.record "UnknownConstantTag" [("index", i.render), ("tag", toString t.toNat)]
  | text i => Form.record "MalformedUtf8" [("index", i.render)]
  | handleKind i k => Form.record "InvalidHandleKind" [("index", i.render), ("kind", toString k.toNat)]
  | danglingReference i t =>
    Form.record "DanglingConstantReference" [("index", i.render), ("target", t.render)]
  | padding o pos => Form.record "NonZeroPadding" [("opcode", o.render), ("offset", renderOffset pos)]
  | switchRange pos low high =>
    Form.record "InvalidSwitchRange"
      [("offset", renderOffset pos), ("low", toString low.toInt), ("high", toString high.toInt)]
  | pairCount pos n =>
    Form.record "NegativePairCount" [("offset", renderOffset pos), ("npairs", toString n.toInt)]
  | wideOpcode pos o =>
    Form.record "InvalidWideOpcode" [("offset", renderOffset pos), ("opcode", toString o.toNat)]
  | branchTarget pos t =>
    Form.record "InvalidBranchTarget" [("offset", renderOffset pos), ("target", toString t)]
  | codeLength n => Form.apply "InvalidCodeLength" [toString n.toNat]
  | exceptionPc pc => Form.apply "InvalidExceptionPc" [toString pc.toNat]

end Malformed

namespace Unresolved

def render : Unresolved → String
  | zeroIndex => "ZeroConstantIndex"
  | constantOutOfRange i n =>
    Form.record "ConstantOutOfRange" [("index", i.render), ("len", toString n)]
  | secondSlot i => Form.apply "Tombstone" [i.render]
  | tagMismatch i expected found =>
    Form.record "TagMismatch"
      [("index", i.render), ("expected", expected.name), ("found", found.name)]
  | unregisteredConstantHolder i h =>
    Form.record "UnregisteredConstantHolder"
      [("index", i.render), ("holder", PoolIndex.renderHolder h)]
  | positionOutOfRange p n =>
    Form.record "InstructionOutOfRange" [("position", toString p), ("len", toString n)]
  | unknownInstruction h => Form.apply "UnknownInstruction" [h.render]
  | unregisteredHolder t h =>
    Form.record "UnregisteredInstructionHolder"
      [("target", t.render), ("holder", Handle.renderHolder h)]
  | unknownGuard e => Form.apply "UnknownExceptionHandler" [e.render]

end Unresolved

namespace Fault

def message : Fault → String
  | malformed m => "malformed input: " ++ m.render
  | unresolved u => "invalid index: " ++ u.render
  | unknownOpcode o pos => "unknown opcode 0x" ++ Form.hexByte o ++ " at offset " ++ toString pos
  | constantInUse i hs =>
    "constant " ++ i.listed ++ " is still referenced by " ++
      Form.list (hs.map PoolIndex.renderHolder)
  | instructionInUse i hs =>
    "removed instruction \x60" ++ i.render Handle.render ++ "\x60 was still referenced by " ++
      Form.list (hs.map Handle.renderHolder)
  | poolOverflow c pos =>
    "constant pool overflow adding " ++ c.render ++ " at index " ++ toString pos.toNat
  | textTooLong n => "utf8 constant of " ++ toString n ++ " bytes does not fit in 65535 bytes"
  | misfit o m => "\x60" ++ o.render ++ "\x60 cannot be encoded as a " ++ m.name ++ " instruction"
  | branchOverflow pos t =>
    "branch at offset " ++ toString pos ++ " cannot reach offset " ++ toString t ++
      " with a 16-bit jump"
  | danglingTarget pos t =>
    "branch at offset " ++ toString pos ++ " targets removed instruction " ++ t.render
  | sinkFull => "failed to write whole buffer"
  | textUnwritable => "utf8 constant longer than 65535 bytes"

end Fault

end ClassCode
