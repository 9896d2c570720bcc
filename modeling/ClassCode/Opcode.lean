import ClassCode.Text.Form

/-! The chart of opcodes: their mnemonics, how their operands are laid out, and what matters to whoever
moves code around. -/
namespace ClassCode

/-- How the operands of an opcode are laid out, which fixes the length of its instructions. -/
inductive Mode where
  /-- No operands. -/
  | plain
  /-- One unsigned byte: a local variable, a constant, a type of array element. -/
  | byteArgument
  /-- One signed byte to push. -/
  | pushByte
  /-- Two signed bytes to push. -/
  | pushShort
  /-- A constant index of two bytes. -/
  | constant
  /-- A local variable and the signed byte to add to it. -/
  | increment
  /-- A constant index and a number of dimensions. -/
  | multiArray
  /-- A constant index, a count and a zero byte. -/
  | callInterface
  /-- A constant index and two zero bytes. -/
  | callDynamic
  /-- A signed distance of two bytes. -/
  | jump
  /-- A signed distance of four bytes. -/
  | farJump
  /-- Padding, and a distance for every key of a range. -/
  | tableSwitch
  /-- Padding, and keys with their distances. -/
  | lookupSwitch
  /-- Another opcode, whose operands are twice as long. -/
  | widened
deriving DecidableEq, Inhabited

def Mode.name : Mode → String
  | plain => "NoOperand"
  | byteArgument => "ByteOperand"
  | pushByte => "BytePush"
  | pushShort => "ShortPush"
  | constant => "ConstantRef"
  | increment => "IInc"
  | multiArray => "MultiANewArray"
  | callInterface => "InvokeInterface"
  | callDynamic => "InvokeDynamic"
  | jump => "Branch"
  | farJump => "WideBranch"
  | tableSwitch => "TableSwitch"
  | lookupSwitch => "LookupSwitch"
  | widened => "Wide"

/-- Properties of an opcode: it has a jump target, control never goes on to the next instruction, it may
be widened, it has a constant index among its operands. -/
inductive Trait where
  | branch
  | final
  | widenable
  | constant
deriving DecidableEq, Inhabited

structure OpcodeInfo where
  mnemonic : String
  mode : Mode
  traits : List Trait
deriving DecidableEq, Inhabited

namespace OpcodeInfo

def bare (mnemonic : String) : OpcodeInfo := ⟨mnemonic, .plain, []⟩

def last (mnemonic : String) : OpcodeInfo := ⟨mnemonic, .plain, [.final]⟩

def onLocal (mnemonic : String) : OpcodeInfo := ⟨mnemonic, .byteArgument, [.widenable]⟩

def onConstant (mnemonic : String) : OpcodeInfo := ⟨mnemonic, .constant, [.constant]⟩

def conditional (mnemonic : String) : OpcodeInfo := ⟨mnemonic, .jump, [.branch]⟩

/-- The defined opcodes, in rows of sixteen, by byte from zero on. -/
def chart : List (List OpcodeInfo) :=
  [[bare "nop", bare "aconst_null", bare "iconst_m1", bare "iconst_0", bare "iconst_1",
    bare "iconst_2", bare "iconst_3", bare "iconst_4", bare "iconst_5", bare "lconst_0",
    bare "lconst_1", bare "fconst_0", bare "fconst_1", bare "fconst_2", bare "dconst_0",
    bare "dconst_1"],
   [⟨"bipush", .pushByte, []⟩, ⟨"sipush", .pushShort, []⟩, ⟨"ldc", .byteArgument, [.constant]⟩,
    onConstant "ldc_w", onConstant "ldc2_w", onLocal "iload", onLocal "lload", onLocal "fload",
    onLocal "dload", onLocal "aload", bare "iload_0", bare "iload_1", bare "iload_2",
    bare "iload_3", bare "lload_0", bare "lload_1"],
   [bare "lload_2", bare "lload_3", bare "fload_0", bare "fload_1", bare "fload_2",
    bare "fload_3", bare "dload_0", bare "dload_1", bare "dload_2", bare "dload_3",
    bare "aload_0", bare "aload_1", bare "aload_2", bare "aload_3", bare "iaload", bare "laload"],
   [bare "faload", bare "daload", bare "aaload", bare "baload", bare "caload", bare "saload",
    onLocal "istore", onLocal "lstore", onLocal "fstore", onLocal "dstore", onLocal "astore",
    bare "istore_0", bare "istore_1", bare "istore_2", bare "istore_3", bare "lstore_0"],
   [bare "lstore_1", bare "lstore_2", bare "lstore_3", bare "fstore_0", bare "fstore_1",
    bare "fstore_2", bare "fstore_3", bare "dstore_0", bare "dstore_1", bare "dstore_2",
    bare "dstore_3", bare "astore_0", bare "astore_1", bare "astore_2", bare "astore_3",
    bare "iastore"],
   [bare "lastore", bare "fastore", bare "dastore", bare "aastore", bare "bastore",
    bare "castore", bare "sastore", bare "pop", bare "pop2", bare "dup", bare "dup_x1",
    bare "dup_x2", bare "dup2", bare "dup2_x1", bare "dup2_x2", bare "swap"],
   [bare "iadd", bare "ladd", bare "fadd", bare "dadd", bare "isub", bare "lsub", bare "fsub",
    bare "dsub", bare "imul", bare "lmul", bare "fmul", bare "dmul", bare "idiv", bare "ldiv",
    bare "fdiv", bare "ddiv"],
   [bare "irem", bare "lrem", bare "frem", bare "drem", bare "ineg", bare "lneg", bare "fneg",
    bare "dneg", bare "ishl", bare "lshl", bare "ishr", bare "lshr", bare "iushr", bare "lushr",
    bare "iand", bare "land"],
   [bare "ior", bare "lor", bare "ixor", bare "lxor", ⟨"iinc", .increment, [.widenable]⟩,
    bare "i2l", bare "i2f", bare "i2d", bare "l2i", bare "l2f", bare "l2d", bare "f2i",
    bare "f2l", bare "f2d", bare "d2i", bare "d2l"],
   [bare "d2f", bare "i2b", bare "i2c", bare "i2s", bare "lcmp", bare "fcmpl", bare "fcmpg",
    bare "dcmpl", bare "dcmpg", conditional "ifeq", conditional "ifne", conditional "iflt",
    conditional "ifge", conditional "ifgt", conditional "ifle", conditional "if_icmpeq"],
   [conditional "if_icmpne", conditional "if_icmplt", conditional "if_icmpge",
    conditional "if_icmpgt", conditional "if_icmple", conditional "if_acmpeq",
    conditional "if_acmpne", ⟨"goto", .jump, [.branch, .final]⟩, conditional "jsr",
    ⟨"ret", .byteArgument, [.widenable, .final]⟩,
    ⟨"tableswitch", .tableSwitch, [.branch, .final]⟩,
    ⟨"lookupswitch", .lookupSwitch, [.branch, .final]⟩, last "ireturn", last "lreturn",
    last "freturn", last "dreturn"],
   [last "areturn", last "return", onConstant "getstatic", onConstant "putstatic",
    onConstant "getfield", onConstant "putfield", onConstant "invokevirtual",
    onConstant "invokespecial", onConstant "invokestatic",
    ⟨"invokeinterface", .callInterface, [.constant]⟩,
    ⟨"invokedynamic", .callDynamic, [.constant]⟩, onConstant "new",
    ⟨"newarray", .byteArgument, []⟩, onConstant "anewarray", bare "arraylength", last "athrow"],
   [onConstant "checkcast", onConstant "instanceof", bare "monitorenter", bare "monitorexit",
    ⟨"wide", .widened, []⟩, ⟨"multianewarray", .multiArray, [.constant]⟩, conditional "ifnull",
    conditional "ifnonnull", ⟨"goto_w", .farJump, [.branch, .final]⟩,
    ⟨"jsr_w", .farJump, [.branch]⟩, bare "breakpoint"]]

end OpcodeInfo

/-! Opcodes. The bytes from 0x00 to 0xca are defined, the others are reserved; a reserved one is shown as
its byte. -/

/-- The first byte of an instruction, defined or not. -/
structure Opcode where
  byte : UInt8
deriving DecidableEq, Inhabited

namespace Opcode

def info? (o : Opcode) : Option OpcodeInfo :=
  OpcodeInfo.chart[o.byte.toNat / 16]?.bind fun row => row[o.byte.toNat % 16]?

def mnemonic? (o : Opcode) : Option String := o.info?.map OpcodeInfo.mnemonic

def mode? (o : Opcode) : Option Mode := o.info?.map OpcodeInfo.mode

def traits (o : Opcode) : List Trait := (o.info?.map OpcodeInfo.traits).getD []

def isBranch (o : Opcode) : Bool := o.traits.contains .branch

def isFinal (o : Opcode) : Bool := o.traits.contains .final

def isWidenable (o : Opcode) : Bool := o.traits.contains .widenable

def render (o : Opcode) : String := o.mnemonic?.getD ("<0x" ++ Form.hexByte o.byte ++ ">")

def bipush : Opcode := ⟨0x10⟩

def sipush : Opcode := ⟨0x11⟩

def ldc : Opcode := ⟨0x12⟩

def iinc : Opcode := ⟨0x84⟩

def tableswitch : Opcode := ⟨0xaa⟩

def lookupswitch : Opcode := ⟨0xab⟩

def invokeinterface : Opcode := ⟨0xb9⟩

def invokedynamic : Opcode := ⟨0xba⟩

def wide : Opcode := ⟨0xc4⟩

def multianewarray : Opcode := ⟨0xc5⟩

end Opcode

end ClassCode
