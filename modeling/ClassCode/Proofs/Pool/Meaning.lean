import ClassCode.Proofs.Pool.Growing
import ClassCode.Proofs.Text.Strings

/-! What constants mean. A constant that was interned from texts and numbers means just these: they are read
back from it when its references are followed, and whatever means the same is interned at the same index. -/
namespace ClassCode.Pool

open Run

inductive Number where
  | integer (value : Int32)
  | float (bits : UInt32)
  | long (value : Int64)
  | double (bits : UInt64)
deriving DecidableEq

inductive NamedKind where
  | classInfo
  | string
  | methodType
  | moduleInfo
  | packageInfo
deriving DecidableEq

inductive MemberKind where
  | field
  | method
  | interfaceMethod
deriving DecidableEq

inductive DynamicKind where
  | constant
  | call
deriving DecidableEq

namespace Number

def toConstant : Number → Constant
  | integer v => .integer v
  | float bits => .float bits
  | long v => .long v
  | double bits => .double bits

def intern : Number → Edit PoolIndex
  | integer v => Pool.integer v
  | float bits => Pool.float bits
  | long v => Pool.long v
  | double bits => Pool.double bits

end Number

namespace NamedKind

def toConstant : NamedKind → PoolIndex → Constant
  | classInfo => .classInfo
  | string => .string
  | methodType => .methodType
  | moduleInfo => .moduleInfo
  | packageInfo => .packageInfo

def intern : NamedKind → String → Edit PoolIndex
  | classInfo => classNamed
  | string => Pool.string
  | methodType => Pool.methodType
  | moduleInfo => moduleNamed
  | packageInfo => packageNamed

end NamedKind

namespace MemberKind

def toConstant : MemberKind → PoolIndex → PoolIndex → Constant
  | field => .fieldRef
  | method => .methodRef
  | interfaceMethod => .interfaceMethodRef

def intern : MemberKind → String → String → String → Edit PoolIndex
  | field => fieldRef
  | method => methodRef
  | interfaceMethod => interfaceMethodRef

end MemberKind

namespace DynamicKind

def toConstant : DynamicKind → UInt16 → PoolIndex → Constant
  | constant => .dynamic
  | call => .invokeDynamic

def intern : DynamicKind → UInt16 → String → String → Edit PoolIndex
  | constant => Pool.dynamic
  | call => invokeDynamic

end DynamicKind

/-- What a constant is interned from. The member of a handle is an index, as it has to be in the pool. -/
inductive Meaning where
  | text (s : String)
  | number (n : Number)
  | handle (kind : HandleKind) (member : PoolIndex)
  | named (kind : NamedKind) (s : String)
  | nameAndType (name descriptor : String)
  | member (kind : MemberKind) (owner name descriptor : String)
  | dynamic (kind : DynamicKind) (bootstrap : UInt16) (name descriptor : String)
deriving DecidableEq

namespace Meaning

def intern : Meaning → Edit PoolIndex
  | text s => utf8 s
  | number n => n.intern
  | handle kind i => methodHandle kind i
  | named kind s => kind.intern s
  | nameAndType name descriptor => Pool.nameAndType name descriptor
  | member kind owner name descriptor => kind.intern owner name descriptor
  | dynamic kind bootstrap name descriptor => kind.intern bootstrap name descriptor

/-- What is interned on the way, in this order. -/
def parts : Meaning → List Meaning
  | text _ | number _ | handle _ _ => []
  | named _ s => [text s]
  | nameAndType name descriptor => [text name, text descriptor]
  | member _ owner name descriptor =>
    [text owner, named .classInfo owner, text name, text descriptor, nameAndType name descriptor]
  | dynamic _ _ name descriptor => [text name, text descriptor, nameAndType name descriptor]

theorem intern_number (n : Number) : (number n).intern = Pool.intern n.toConstant := by
  cases n <;> rfl

theorem intern_named (k : NamedKind) (s : String) :
    (named k s).intern = (text s).intern >>= fun i => Pool.intern (k.toConstant i) := by
  cases k <;> rfl

theorem intern_nameAndType (name descriptor : String) :
    (nameAndType name descriptor).intern =
      (text name).intern >>= fun i => (text descriptor).intern >>= fun j => Pool.intern (.nameAndType i j) :=
  rfl

theorem intern_member (k : MemberKind) (owner name descriptor : String) :
    (member k owner name descriptor).intern = (named .classInfo owner).intern >>= fun i =>
      (nameAndType name descriptor).intern >>= fun j => Pool.intern (k.toConstant i j) := by
  cases k <;> rfl

theorem intern_dynamic (k : DynamicKind) (bootstrap : UInt16) (name descriptor : String) :
    (dynamic k bootstrap name descriptor).intern =
      (nameAndType name descriptor).intern >>= fun i => Pool.intern (k.toConstant bootstrap i) := by
  cases k <;> rfl

end Meaning

section Reading

variable (p : Pool)

def text? (i : PoolIndex) : Option String := (p.text i).toOption

def owner? (i : PoolIndex) : Option String :=
  match p.constantAt i none with
  | .ok (.classInfo name) => p.text? name
  | _ => none

def typed? (i : PoolIndex) : Option (String × String) :=
  match p.constantAt i none with
  | .ok (.nameAndType name descriptor) => do return (← p.text? name, ← p.text? descriptor)
  | _ => none

def member? (kind : MemberKind) (owner member : PoolIndex) : Option Meaning := do
  let owner ← p.owner? owner
  let (name, descriptor) ← p.typed? member
  return .member kind owner name descriptor

/-- What a constant means: its references are followed until texts are reached. -/
def means? : Constant → Option Meaning
  | .utf8 bytes => (ModifiedUtf8.string? bytes).map .text
  | .integer v => some (.number (.integer v))
  | .float bits => some (.number (.float bits))
  | .long v => some (.number (.long v))
  | .double bits => some (.number (.double bits))
  | .classInfo name => (p.text? name).map (.named .classInfo)
  | .string value => (p.text? value).map (.named .string)
  | .methodType descriptor => (p.text? descriptor).map (.named .methodType)
  | .moduleInfo name => (p.text? name).map (.named .moduleInfo)
  | .packageInfo name => (p.text? name).map (.named .packageInfo)
  | .nameAndType name descriptor => do return .nameAndType (← p.text? name) (← p.text? descriptor)
  | .fieldRef owner member => p.member? .field owner member
  | .methodRef owner member => p.member? .method owner member
  | .interfaceMethodRef owner member => p.member? .interfaceMethod owner member
  | .methodHandle kind member => some (.handle kind member)
  | .dynamic n member => (p.typed? member).map fun t => .dynamic .constant n t.1 t.2
  | .invokeDynamic n member => (p.typed? member).map fun t => .dynamic .call n t.1 t.2

def meaning? (i : PoolIndex) : Option Meaning := (p.constantAt i none).toOption >>= p.means?

end Reading

/-- A meaning is found at an index: its constant is interned there, and refers to where its parts are found. -/
inductive Found (p : Pool) : Meaning → PoolIndex → Prop where
  | text {s : String} {i : PoolIndex} (h : p.indexOf? (.utf8 (ModifiedUtf8.ofString s)) = some i) :
    Found p (.text s) i
  | number {n : Number} {i : PoolIndex} (h : p.indexOf? n.toConstant = some i) : Found p (.number n) i
  | handle {kind : HandleKind} {m i : PoolIndex} (h : p.indexOf? (.methodHandle kind m) = some i) :
    Found p (.handle kind m) i
  | named {kind : NamedKind} {s : String} {j i : PoolIndex} (hs : Found p (.text s) j)
    (h : p.indexOf? (kind.toConstant j) = some i) : Found p (.named kind s) i
  | nameAndType {name descriptor : String} {j k i : PoolIndex} (hname : Found p (.text name) j)
    (hdescriptor : Found p (.text descriptor) k) (h : p.indexOf? (.nameAndType j k) = some i) :
    Found p (.nameAndType name descriptor) i
  | member {kind : MemberKind} {owner name descriptor : String} {j k i : PoolIndex}
    (howner : Found p (.named .classInfo owner) j) (hmember : Found p (.nameAndType name descriptor) k)
    (h : p.indexOf? (kind.toConstant j k) = some i) : Found p (.member kind owner name descriptor) i
  | dynamic {kind : DynamicKind} {bootstrap : UInt16} {name descriptor : String} {j i : PoolIndex}
    (hmember : Found p (.nameAndType name descriptor) j)
    (h : p.indexOf? (kind.toConstant bootstrap j) = some i) :
    Found p (.dynamic kind bootstrap name descriptor) i

theorem bind_of_ok {p : Pool} {x : Edit PoolIndex} {i : PoolIndex} (hx : x p = .ok i p)
    (f : PoolIndex → Edit PoolIndex) : (x >>= f) p = f i p := by
  rw [bind_apply, hx]

theorem intern_of_indexOf? {p : Pool} {c : Constant} {i : PoolIndex} (h : p.indexOf? c = some i) :
    intern c p = .ok i p := by
  rw [intern_apply, h]

theorem constantAt_tag {p : Pool} {i : PoolIndex} {c : Constant} (h : p.constantAt i none = .ok c) :
    p.constantAt i (some c.tag) = .ok c := by
  rw [constantAt] at h ⊢
  cases hfind : p.find i with
  | error f => simp [hfind] at h
  | ok found =>
    obtain rfl : found.2 = c := by simpa [hfind] using h
    simp

theorem text?_of_constantAt {p : Pool} {i : PoolIndex} {bytes : List UInt8}
    (h : p.constantAt i none = .ok (.utf8 bytes)) : p.text? i = ModifiedUtf8.string? bytes := by
  have hutf8 : p.constantAt i (some .utf8) = .ok (.utf8 bytes) := constantAt_tag h
  rw [text?, text, hutf8, Outcome.ok_bind, Constant.text?]
  cases ModifiedUtf8.string? bytes <;> rfl

namespace Found

variable {p q : Pool} {m : Meaning} {i : PoolIndex}

/-- What is found stays found when the interned indices stay. -/
theorem mono (hpq : ∀ c j, p.indexOf? c = some j → q.indexOf? c = some j) (h : p.Found m i) : q.Found m i := by
  induction h with
  | text h => exact .text (hpq _ _ h)
  | number h => exact .number (hpq _ _ h)
  | handle h => exact .handle (hpq _ _ h)
  | named _ h hs => exact .named hs (hpq _ _ h)
  | nameAndType _ _ h hname hdescriptor => exact .nameAndType hname hdescriptor (hpq _ _ h)
  | member _ _ h howner hmember => exact .member howner hmember (hpq _ _ h)
  | dynamic _ h hmember => exact .dynamic hmember (hpq _ _ h)

theorem of_prefix (h : p.Found m i) (hp : Reachable p) (hq : Reachable q) (hpq : p.entries <+: q.entries) :
    q.Found m i :=
  h.mono fun _ _ hc => hp.indexOf?_of_prefix hq hpq hc

theorem intern_eq (h : p.Found m i) : m.intern p = .ok i p := by
  induction h with
  | text h => exact intern_of_indexOf? h
  | number h =>
    rw [Meaning.intern_number]
    exact intern_of_indexOf? h
  | handle h => exact intern_of_indexOf? h
  | named _ h hs =>
    rw [Meaning.intern_named, bind_of_ok hs]
    exact intern_of_indexOf? h
  | nameAndType _ _ h hname hdescriptor =>
    rw [Meaning.intern_nameAndType, bind_of_ok hname, bind_of_ok hdescriptor]
    exact intern_of_indexOf? h
  | member _ _ h howner hmember =>
    rw [Meaning.intern_member, bind_of_ok howner, bind_of_ok hmember]
    exact intern_of_indexOf? h
  | dynamic _ h hmember =>
    rw [Meaning.intern_dynamic, bind_of_ok hmember]
    exact intern_of_indexOf? h

section Reading

variable (hp : Reachable p)
include hp

theorem text?_eq {s : String} (h : p.Found (.text s) i) : p.text? i = some s := by
  cases h with
  | text h =>
    rw [text?_of_constantAt (hp.constantAt_of_indexOf? h)]
    exact ModifiedUtf8.string?_ofString s

theorem owner?_eq {s : String} (h : p.Found (.named .classInfo s) i) : p.owner? i = some s := by
  cases h with
  | named hs h =>
    have hclass : p.constantAt i none = .ok (.classInfo _) := hp.constantAt_of_indexOf? h
    rw [owner?, hclass]
    exact text?_eq hp hs

theorem typed?_eq {a b : String} (h : p.Found (.nameAndType a b) i) : p.typed? i = some (a, b) := by
  cases h with
  | nameAndType hname hdescriptor h =>
    rw [typed?, hp.constantAt_of_indexOf? h]
    simp [text?_eq hp hname, text?_eq hp hdescriptor]

/-- What is found at an index is what is read there. -/
theorem meaning?_eq (h : p.Found m i) : p.meaning? i = some m := by
  have hread {c : Constant} (hc : p.indexOf? c = some i) : p.meaning? i = p.means? c := by
    rw [meaning?, hp.constantAt_of_indexOf? hc]
    rfl
  cases h with
  | @text s _ h =>
    rw [hread h, means?, ModifiedUtf8.string?_ofString, Option.map_some]
  | @number n _ h =>
    rw [hread h]
    cases n <;> rfl
  | handle h => exact hread h
  | @named kind _ _ _ hs h =>
    rw [hread h]
    cases kind <;> simp [NamedKind.toConstant, means?, text?_eq hp hs]
  | nameAndType hname hdescriptor h =>
    rw [hread h]
    simp [means?, text?_eq hp hname, text?_eq hp hdescriptor]
  | @member kind _ _ _ _ _ _ howner hmember h =>
    rw [hread h]
    cases kind <;> simp [MemberKind.toConstant, means?, member?, owner?_eq hp howner, typed?_eq hp hmember]
  | @dynamic kind _ _ _ _ _ hmember h =>
    rw [hread h]
    cases kind <;> simp [DynamicKind.toConstant, means?, typed?_eq hp hmember]

end Reading

end Found

end ClassCode.Pool
