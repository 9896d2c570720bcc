import ClassCode.Holders
import ClassCode.Layout
import ClassCode.Text.Form
import ClassCode.Text.ModifiedUtf8

/-! Constants of a pool. A constant refers to others through their indices. Numbers with a fraction are
kept as their bit patterns: two of them are one constant when the patterns agree, so a quiet and a
signalling not-a-number differ, and so do the two zeros. -/
namespace ClassCode

open Std

/-- Index of a slot of a constant pool. Slot 0 is never an entry. -/
structure PoolIndex where
  slot : UInt16
deriving DecidableEq, Inhabited

namespace PoolIndex

instance : Ord PoolIndex := ⟨compareOn slot⟩

instance : TransOrd PoolIndex := inferInstanceAs (TransCmp (compareOn slot))

instance : LawfulEqOrd PoolIndex :=
  compareOn_lawfulEq fun {a b} h => by cases a; cases b; simpa using h

def absent : PoolIndex := ⟨0⟩

/-- Where an index goes when the constant at `removed`, of `slots` slots, is taken out. -/
def shift (removed : PoolIndex) (slots : UInt16) (i : PoolIndex) : PoolIndex :=
  if removed.slot < i.slot then ⟨i.slot - slots⟩ else i

end PoolIndex

inductive HandleKind where
  | getField
  | getStatic
  | putField
  | putStatic
  | invokeVirtual
  | invokeStatic
  | invokeSpecial
  | newInvokeSpecial
  | invokeInterface
deriving DecidableEq, Inhabited

namespace HandleKind

def byte : HandleKind → UInt8
  | getField => 1
  | getStatic => 2
  | putField => 3
  | putStatic => 4
  | invokeVirtual => 5
  | invokeStatic => 6
  | invokeSpecial => 7
  | newInvokeSpecial => 8
  | invokeInterface => 9

def all : List HandleKind :=
  [getField, getStatic, putField, putStatic, invokeVirtual, invokeStatic, invokeSpecial,
    newInvokeSpecial, invokeInterface]

def ofByte? (b : UInt8) : Option HandleKind := all.find? fun k => k.byte == b

theorem ofByte?_byte (k : HandleKind) : ofByte? k.byte = some k := by
  cases k <;> decide

theorem byte_of_ofByte? {b : UInt8} {k : HandleKind} (h : ofByte? b = some k) : k.byte = b := by
  simpa using List.find?_some h

def name : HandleKind → String
  | getField => "GetField"
  | getStatic => "GetStatic"
  | putField => "PutField"
  | putStatic => "PutStatic"
  | invokeVirtual => "InvokeVirtual"
  | invokeStatic => "InvokeStatic"
  | invokeSpecial => "InvokeSpecial"
  | newInvokeSpecial => "NewInvokeSpecial"
  | invokeInterface => "InvokeInterface"

end HandleKind

inductive Tag where
  | utf8
  | integer
  | float
  | long
  | double
  | classInfo
  | string
  | fieldRef
  | methodRef
  | interfaceMethodRef
  | nameAndType
  | methodHandle
  | methodType
  | dynamic
  | invokeDynamic
  | moduleInfo
  | packageInfo
deriving DecidableEq, Inhabited

namespace Tag

def byte : Tag → UInt8
  | utf8 => 1
  | integer => 3
  | float => 4
  | long => 5
  | double => 6
  | classInfo => 7
  | string => 8
  | fieldRef => 9
  | methodRef => 10
  | interfaceMethodRef => 11
  | nameAndType => 12
  | methodHandle => 15
  | methodType => 16
  | dynamic => 17
  | invokeDynamic => 18
  | moduleInfo => 19
  | packageInfo => 20

def all : List Tag :=
  [utf8, integer, float, long, double, classInfo, string, fieldRef, methodRef, interfaceMethodRef,
    nameAndType, methodHandle, methodType, dynamic, invokeDynamic, moduleInfo, packageInfo]

def ofByte? (b : UInt8) : Option Tag := all.find? fun t => t.byte == b

theorem ofByte?_byte (t : Tag) : ofByte? t.byte = some t := by
  cases t <;> decide

theorem byte_of_ofByte? {b : UInt8} {t : Tag} (h : ofByte? b = some t) : t.byte = b := by
  simpa using List.find?_some h

def name : Tag → String
  | utf8 => "Utf8"
  | integer => "Integer"
  | float => "Float"
  | long => "Long"
  | double => "Double"
  | classInfo => "Class"
  | string => "String"
  | fieldRef => "FieldRef"
  | methodRef => "MethodRef"
  | interfaceMethodRef => "InterfaceMethodRef"
  | nameAndType => "NameAndType"
  | methodHandle => "MethodHandle"
  | methodType => "MethodType"
  | dynamic => "Dynamic"
  | invokeDynamic => "InvokeDynamic"
  | moduleInfo => "Module"
  | packageInfo => "Package"

/-- Tags are ordered by their bytes. -/
instance : Ord Tag := ⟨compareOn byte⟩

end Tag

/-- A constant of a pool. Text is kept as the bytes it was read from, which need not be text that
decodes; `bootstrap` counts the bootstrap methods of a class and is no index of the pool. -/
inductive Constant where
  | utf8 (bytes : List UInt8)
  | integer (value : Int32)
  | float (bits : UInt32)
  | long (value : Int64)
  | double (bits : UInt64)
  | classInfo (name : PoolIndex)
  | string (value : PoolIndex)
  | fieldRef (owner member : PoolIndex)
  | methodRef (owner member : PoolIndex)
  | interfaceMethodRef (owner member : PoolIndex)
  | nameAndType (name descriptor : PoolIndex)
  | methodHandle (kind : HandleKind) (member : PoolIndex)
  | methodType (descriptor : PoolIndex)
  | dynamic (bootstrap : UInt16) (member : PoolIndex)
  | invokeDynamic (bootstrap : UInt16) (member : PoolIndex)
  | moduleInfo (name : PoolIndex)
  | packageInfo (name : PoolIndex)
deriving DecidableEq, Inhabited

def maxTextLength : Nat := 65535

namespace Constant

def tag : Constant → Tag
  | utf8 _ => .utf8
  | integer _ => .integer
  | float _ => .float
  | long _ => .long
  | double _ => .double
  | classInfo _ => .classInfo
  | string _ => .string
  | fieldRef _ _ => .fieldRef
  | methodRef _ _ => .methodRef
  | interfaceMethodRef _ _ => .interfaceMethodRef
  | nameAndType _ _ => .nameAndType
  | methodHandle _ _ => .methodHandle
  | methodType _ => .methodType
  | dynamic _ _ => .dynamic
  | invokeDynamic _ _ => .invokeDynamic
  | moduleInfo _ => .moduleInfo
  | packageInfo _ => .packageInfo

/-- The constants that this one refers to, in field order. One index can show up twice. -/
def references : Constant → List PoolIndex
  | utf8 _ | integer _ | float _ | long _ | double _ => []
  | classInfo i | string i | methodType i | moduleInfo i | packageInfo i => [i]
  | fieldRef a b | methodRef a b | interfaceMethodRef a b | nameAndType a b => [a, b]
  | methodHandle _ i | dynamic _ i | invokeDynamic _ i => [i]

def mapReferences (f : PoolIndex → PoolIndex) : Constant → Constant
  | utf8 bytes => utf8 bytes
  | integer v => integer v
  | float b => float b
  | long v => long v
  | double b => double b
  | classInfo i => classInfo (f i)
  | string i => string (f i)
  | fieldRef a b => fieldRef (f a) (f b)
  | methodRef a b => methodRef (f a) (f b)
  | interfaceMethodRef a b => interfaceMethodRef (f a) (f b)
  | nameAndType a b => nameAndType (f a) (f b)
  | methodHandle k i => methodHandle k (f i)
  | methodType i => methodType (f i)
  | dynamic n i => dynamic n (f i)
  | invokeDynamic n i => invokeDynamic n (f i)
  | moduleInfo i => moduleInfo (f i)
  | packageInfo i => packageInfo (f i)

def renumber (old new : PoolIndex) : Constant → Constant :=
  mapReferences fun i => if i = old then new else i

/-- Shift the references past a constant that is taken out, one index after the other. The lowest comes
first, so that no index that has shifted is taken for one that has yet to. -/
def shiftReferences (removed : PoolIndex) (slots : UInt16) (c : Constant) : Constant :=
  let past := c.references.filter fun i => removed.slot < i.slot
  let stale := past.eraseDups.mergeSort fun i j => i.slot ≤ j.slot
  stale.foldl (fun c old => c.renumber old (PoolIndex.shift removed slots old)) c

@[simp] theorem references_mapReferences (f : PoolIndex → PoolIndex) (c : Constant) :
    (c.mapReferences f).references = c.references.map f := by
  cases c <;> rfl

@[simp] theorem tag_mapReferences (f : PoolIndex → PoolIndex) (c : Constant) :
    (c.mapReferences f).tag = c.tag := by
  cases c <;> rfl

/-- A constant of eight bytes takes two slots, of which only the first is an entry. -/
def isWide : Constant → Bool
  | long _ | double _ => true
  | _ => false

def slots (c : Constant) : Nat := if c.isWide then 2 else 1

instance : Spans Constant Nat := ⟨fun c _ => c.slots⟩

def text? : Constant → Option String
  | utf8 bytes => ModifiedUtf8.string? bytes
  | _ => none

def fields : Constant → List Nat
  | utf8 bytes => bytes.map UInt8.toNat
  | integer v => [v.toUInt32.toNat]
  | float b => [b.toNat]
  | long v => [v.toUInt64.toNat]
  | double b => [b.toNat]
  | classInfo i | string i | methodType i | moduleInfo i | packageInfo i => [i.slot.toNat]
  | fieldRef a b | methodRef a b | interfaceMethodRef a b | nameAndType a b =>
    [a.slot.toNat, b.slot.toNat]
  | methodHandle k i => [k.byte.toNat, i.slot.toNat]
  | dynamic n i | invokeDynamic n i => [n.toNat, i.slot.toNat]

/-- What makes two constants one entry: kind and fields. -/
def key (c : Constant) : List Nat := c.tag.byte.toNat :: c.fields

end Constant

/-! The order of constants, by kind and then by fields. Main statement: the key of a constant tells it
apart from every other one, so the order has no ties. -/

theorem PoolIndex.slot_toNat_inj {i j : PoolIndex} (h : i.slot.toNat = j.slot.toNat) : i = j := by
  cases i; cases j; simpa using UInt16.toNat_inj.mp h

theorem HandleKind.byte_toNat_inj {k l : HandleKind} (h : k.byte.toNat = l.byte.toNat) : k = l := by
  have hb : ofByte? k.byte = ofByte? l.byte := by rw [UInt8.toNat_inj.mp h]
  simpa [ofByte?_byte] using hb

theorem Tag.byte_toNat_inj {t u : Tag} (h : t.byte.toNat = u.byte.toNat) : t = u := by
  have hb : ofByte? t.byte = ofByte? u.byte := by rw [UInt8.toNat_inj.mp h]
  simpa [ofByte?_byte] using hb

namespace Constant

theorem bytes_toNat_inj {a b : List UInt8} (h : a.map UInt8.toNat = b.map UInt8.toNat) : a = b :=
  List.map_inj_right (fun _ _ => UInt8.toNat_inj.mp) |>.mp h

theorem int32_toNat_inj {v w : Int32} (h : v.toUInt32.toNat = w.toUInt32.toNat) : v = w :=
  congrArg Int32.ofUInt32 (UInt32.toNat_inj.mp h)

theorem int64_toNat_inj {v w : Int64} (h : v.toUInt64.toNat = w.toUInt64.toNat) : v = w :=
  congrArg Int64.ofUInt64 (UInt64.toNat_inj.mp h)

theorem eq_of_fields {a b : Constant} (ht : a.tag = b.tag) (hf : a.fields = b.fields) : a = b := by
  cases a <;> cases b <;> simp only [tag, reduceCtorEq] at ht <;>
    simp only [fields, List.cons.injEq, and_true] at hf
  case utf8 => rw [bytes_toNat_inj hf]
  case integer => rw [int32_toNat_inj hf]
  case float => rw [UInt32.toNat_inj.mp hf]
  case long => rw [int64_toNat_inj hf]
  case double => rw [UInt64.toNat_inj.mp hf]
  case fieldRef | methodRef | interfaceMethodRef | nameAndType =>
    rw [PoolIndex.slot_toNat_inj hf.1, PoolIndex.slot_toNat_inj hf.2]
  case methodHandle => rw [HandleKind.byte_toNat_inj hf.1, PoolIndex.slot_toNat_inj hf.2]
  case dynamic | invokeDynamic => rw [UInt16.toNat_inj.mp hf.1, PoolIndex.slot_toNat_inj hf.2]
  all_goals rw [PoolIndex.slot_toNat_inj hf]

theorem key_inj {a b : Constant} (h : a.key = b.key) : a = b := by
  simp only [key, List.cons.injEq] at h
  exact eq_of_fields (Tag.byte_toNat_inj h.1) h.2

instance : Ord Constant := ⟨compareOn key⟩

instance : TransOrd Constant := inferInstanceAs (TransCmp (compareOn key))

instance : LawfulEqOrd Constant := compareOn_lawfulEq key_inj

end Constant

/-! How constants and their indices are shown: `#3` in listings, and in messages the kind of the constant
with its fields. -/

namespace PoolIndex

def listed (i : PoolIndex) : String := "#" ++ toString i.slot.toNat

def render (i : PoolIndex) : String := Form.apply "ConstantIndex" [toString i.slot.toNat]

end PoolIndex

namespace Constant

def renderMember (name : String) (owner member : PoolIndex) : String :=
  Form.record name [("class", owner.render), ("name_and_type", member.render)]

def renderDynamic (name : String) (bootstrap : UInt16) (member : PoolIndex) : String :=
  Form.record name
    [("bootstrap_method", toString bootstrap.toNat), ("name_and_type", member.render)]

def render (c : Constant) : String :=
  let name := c.tag.name
  match c with
  | utf8 bytes => Form.apply name [Form.list (bytes.map fun b => toString b.toNat)]
  | integer v => Form.apply name [toString v.toInt]
  | float b => Form.apply name [Decimal.single.text b.toNat]
  | long v => Form.apply name [toString v.toInt]
  | double b => Form.apply name [Decimal.double.text b.toNat]
  | classInfo i | string i | moduleInfo i | packageInfo i => Form.apply name [i.render]
  | fieldRef a b | methodRef a b | interfaceMethodRef a b => renderMember name a b
  | nameAndType a b => Form.record name [("name", a.render), ("descriptor", b.render)]
  | methodHandle k i => Form.record name [("handle_kind", k.name), ("member", i.render)]
  | methodType i => Form.record name [("descriptor", i.render)]
  | dynamic n i | invokeDynamic n i => renderDynamic name n i

end Constant

end ClassCode
