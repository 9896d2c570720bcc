import ClassCode.Bytes

/-! The wire form of constants: the byte of the tag, then the fields. Text is the number of its bytes, in
two bytes, and the bytes. -/
namespace ClassCode

namespace HandleKind

/-- The kind of a method handle in the constant that goes to `index`. -/
def read (index : PoolIndex) : Reader HandleKind := do
  let byte : UInt8 ← Wire.read
  match ofByte? byte with
  | some kind => return kind
  | none => Reader.malformed (.handleKind index byte)

def write (k : HandleKind) : Writer Unit := Wire.write k.byte

end HandleKind

namespace Constant

def readText (index : PoolIndex) : Reader (List UInt8) := do
  let length : UInt16 ← Wire.read
  let bytes ← Reader.take length.toNat
  if ModifiedUtf8.isWellFormed bytes then return bytes else Reader.malformed (.text index)

def readFields (index : PoolIndex) : Tag → Reader Constant
  | .utf8 => return utf8 (← readText index)
  | .integer => return integer (← Wire.read)
  | .float => return float (← Wire.read)
  | .long => return long (← Wire.read)
  | .double => return double (← Wire.read)
  | .classInfo => return classInfo (← Wire.read)
  | .string => return string (← Wire.read)
  | .fieldRef => return fieldRef (← Wire.read) (← Wire.read)
  | .methodRef => return methodRef (← Wire.read) (← Wire.read)
  | .interfaceMethodRef => return interfaceMethodRef (← Wire.read) (← Wire.read)
  | .nameAndType => return nameAndType (← Wire.read) (← Wire.read)
  | .methodHandle => return methodHandle (← HandleKind.read index) (← Wire.read)
  | .methodType => return methodType (← Wire.read)
  | .dynamic => return dynamic (← Wire.read) (← Wire.read)
  | .invokeDynamic => return invokeDynamic (← Wire.read) (← Wire.read)
  | .moduleInfo => return moduleInfo (← Wire.read)
  | .packageInfo => return packageInfo (← Wire.read)

/-- A constant. The slot it goes to only serves to say where something is wrong. -/
def read (index : PoolIndex) : Reader Constant := do
  let byte : UInt8 ← Wire.read
  match Tag.ofByte? byte with
  | some tag => readFields index tag
  | none => Reader.malformed (.unknownTag index byte)

def writeText (bytes : List UInt8) : Writer Unit := do
  if maxTextLength < bytes.length then throw .textUnwritable
  Wire.write bytes.length.toUInt16
  Writer.put bytes

def writeFields : Constant → Writer Unit
  | utf8 bytes => writeText bytes
  | integer v => Wire.write v
  | float b => Wire.write b
  | long v => Wire.write v
  | double b => Wire.write b
  | classInfo i | string i | methodType i | moduleInfo i | packageInfo i => Wire.write i
  | fieldRef a b | methodRef a b | interfaceMethodRef a b | nameAndType a b => do
    Wire.write a
    Wire.write b
  | methodHandle k i => do
    k.write
    Wire.write i
  | dynamic n i | invokeDynamic n i => do
    Wire.write n
    Wire.write i

def write (c : Constant) : Writer Unit := do
  Wire.write c.tag.byte
  c.writeFields

end Constant

end ClassCode
