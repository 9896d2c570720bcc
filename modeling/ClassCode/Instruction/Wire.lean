import ClassCode.Bytes

/-! The wire form of instructions: the opcode, after a prefix if it is widened, then the operands. Jump
targets are written as signed distances from the instruction, and the operands of a switch start at a
multiple of four, after bytes that are zero. -/
namespace ClassCode.Instruction

/-- The target at a signed distance from `offset`, which may not be negative. -/
def readTarget (offset : Nat) (distance : Int) : Reader Nat :=
  let target := (offset : Int) + distance
  if target < 0 then Reader.malformed (.branchTarget offset target) else pure target.toNat

def readFarTarget (offset : Nat) : Reader Nat := do
  let distance : Int32 ← Wire.read
  readTarget offset distance.toInt

def skipPadding (opcode : Opcode) (offset : Nat) : (n : Nat) → Reader Unit
  | 0 => pure ()
  | n + 1 => do
    let byte : UInt8 ← Wire.read
    if byte ≠ 0 then Reader.malformed (.padding opcode offset)
    skipPadding opcode offset n

def readTableSwitch (opcode : Opcode) (offset : Nat) : Reader (Instruction Nat) := do
  skipPadding opcode offset (switchPadding offset)
  let default ← readFarTarget offset
  let low : Int32 ← Wire.read
  let high : Int32 ← Wire.read
  if high < low then Reader.malformed (.switchRange offset low high)
  return tableSwitch default low
    (← Reader.times (readFarTarget offset) (high.toInt - low.toInt + 1).toNat)

def readPair (offset : Nat) : Reader (Int32 × Nat) := do
  let key ← Wire.read
  return (key, ← readFarTarget offset)

def readLookupSwitch (opcode : Opcode) (offset : Nat) : Reader (Instruction Nat) := do
  skipPadding opcode offset (switchPadding offset)
  let default ← readFarTarget offset
  let pairs : Int32 ← Wire.read
  if pairs < 0 then Reader.malformed (.pairCount offset pairs)
  return lookupSwitch default (← Reader.times (readPair offset) pairs.toInt.toNat)

def readWidened (offset : Nat) : Reader (Instruction Nat) := do
  let byte : UInt8 ← Wire.read
  let opcode : Opcode := ⟨byte⟩
  if !opcode.isWidenable then Reader.malformed (.wideOpcode offset byte)
  if opcode = .iinc then return wideIncrement (← Wire.read) (← Wire.read)
  return wideLocal opcode (← Wire.read)

def readOperands (opcode : Opcode) (offset : Nat) : Mode → Reader (Instruction Nat)
  | .plain => return plain opcode
  | .byteArgument => return byteArgument opcode (← Wire.read)
  | .pushByte => return pushByte (← Wire.read)
  | .pushShort => return pushShort (← Wire.read)
  | .constant => return constant opcode (← Wire.read)
  | .increment => return increment (← Wire.read) (← Wire.read)
  | .multiArray => return multiArray (← Wire.read) (← Wire.read)
  | .callInterface => do
    let method ← Wire.read
    let count ← Wire.read
    let zero : UInt8 ← Wire.read
    if zero ≠ 0 then Reader.malformed (.padding opcode offset)
    return callInterface method count
  | .callDynamic => do
    let site ← Wire.read
    let zero : UInt16 ← Wire.read
    if zero ≠ 0 then Reader.malformed (.padding opcode offset)
    return callDynamic site
  | .jump => do
    let distance : Int16 ← Wire.read
    return jump opcode (← readTarget offset distance.toInt)
  | .farJump => return farJump opcode (← readFarTarget offset)
  | .tableSwitch => readTableSwitch opcode offset
  | .lookupSwitch => readLookupSwitch opcode offset
  | .widened => readWidened offset

/-- An instruction that is at `offset`. Its targets need not be starts of instructions. -/
def read (offset : Nat) : Reader (Instruction Nat) := do
  let byte : UInt8 ← Wire.read
  let opcode : Opcode := ⟨byte⟩
  match opcode.mode? with
  | some mode => readOperands opcode offset mode
  | none => throw (.unknownOpcode byte offset)

/-- The instruction at position `cursor` of some bytes, taken to be at `offset` of the code, and the
number of bytes it takes. -/
def decodeAt (bytes : List UInt8) (cursor offset : Nat) : Except Fault (Instruction Nat × Nat) :=
  let input := bytes.drop cursor
  (read offset input).map fun r => (r.1, input.length - r.2.length)

variable {L : Type}

def check (i : Instruction L) : Except Fault Unit :=
  match i.misfit? with
  | some mode => throw (.misfit i.opcode mode)
  | none => return

def farDistance (offset target : Nat) : Except Fault Int32 :=
  let d := Layout.distance target offset
  if -maxInt32 - 1 ≤ d ∧ d ≤ maxInt32 then return Int32.ofInt d
  else throw (.branchOverflow offset target)

def nearDistance (offset target : Nat) : Except Fault Int16 :=
  let d := Layout.distance target offset
  if -32768 ≤ d ∧ d ≤ 32767 then return Int16.ofInt d
  else throw (.branchOverflow offset target)

def writeFarTarget (offset target : Nat) : Writer Unit := do
  Wire.write (← ofExcept (farDistance offset target))

def writeNearTarget (offset target : Nat) : Writer Unit := do
  Wire.write (← ofExcept (nearDistance offset target))

def writePadding (offset : Nat) : Writer Unit :=
  Writer.put (List.replicate (switchPadding offset) 0)

def writeOperands (offset : Nat) : Instruction Nat → Writer Unit
  | plain _ => pure ()
  | byteArgument _ v => Wire.write v
  | pushByte v => Wire.write v
  | pushShort v => Wire.write v
  | constant _ i => Wire.write i
  | increment x d => do
    Wire.write x
    Wire.write d
  | multiArray i n => do
    Wire.write i
    Wire.write n
  | callInterface i n => do
    Wire.write i
    Wire.write n
    Wire.write (0 : UInt8)
  | callDynamic i => do
    Wire.write i
    Wire.write (0 : UInt16)
  | jump _ l => writeNearTarget offset l
  | farJump _ l => writeFarTarget offset l
  | tableSwitch d low ts => do
    writePadding offset
    writeFarTarget offset d
    Wire.write low
    Wire.write (Int32.ofInt (highKey low ts.length))
    ts.forM (writeFarTarget offset)
  | lookupSwitch d ps => do
    writePadding offset
    writeFarTarget offset d
    Wire.write (Int32.ofNat ps.length)
    ps.forM fun p => do
      Wire.write p.1
      writeFarTarget offset p.2
  | wideLocal _ x => Wire.write x
  | wideIncrement x d => do
    Wire.write x
    Wire.write d

/-- Write an instruction that is at `offset`. Nothing is written if its operands do not go with its
opcode. -/
def write (i : Instruction Nat) (offset : Nat) : Writer Unit := do
  ofExcept i.check
  if i.isWidened then Wire.write Opcode.wide.byte
  Wire.write i.opcode.byte
  i.writeOperands offset

def encodeAt (i : Instruction Nat) (offset : Nat) : Except Fault (List UInt8) :=
  (i.write offset).bytes

end ClassCode.Instruction
