import ClassCode.Fault

/-! Values as bytes: numbers, most significant byte first, what reads values and what writes them, and wire forms,
which have both. Main statement: reading the bytes of a number gives it back, up to what does not fit into
them. -/
namespace ClassCode.BigEndian

def bound : (n : Nat) → Nat
  | 0 => 1
  | n + 1 => 256 * bound n

/-- The last `n` base-256 digits of a number, most significant first. -/
def octets : (n : Nat) → Nat → List UInt8
  | 0, _ => []
  | n + 1, v => (v / bound n).toUInt8 :: octets n v

def value (bytes : List UInt8) : Nat := bytes.foldl (fun n b => n * 256 + b.toNat) 0

@[simp] theorem length_octets (n v : Nat) : (octets n v).length = n := by
  induction n with
  | zero => rfl
  | succ n ih => simp [octets, ih]

theorem bound_pos (n : Nat) : 0 < bound n := by
  induction n with
  | zero => exact Nat.one_pos
  | succ n ih => exact Nat.mul_pos (by decide) ih

theorem foldl_octets (n v a : Nat) :
    (octets n v).foldl (fun n b => n * 256 + b.toNat) a = a * bound n + v % bound n := by
  induction n generalizing a with
  | zero => simp [octets, bound, Nat.mod_one]
  | succ n ih =>
    have split : v % bound (n + 1) = v % bound n + bound n * (v / bound n % 256) := by
      rw [bound, Nat.mul_comm 256, Nat.mod_mul]
    have digit : (v / bound n).toUInt8.toNat = v / bound n % 256 := by simp
    rw [octets, List.foldl_cons, ih, split, digit, bound, Nat.add_mul, Nat.mul_assoc,
      Nat.mul_comm (bound n) (_ % _)]
    omega

@[simp] theorem value_octets (n v : Nat) : value (octets n v) = v % bound n := by
  simp [value, foldl_octets]

end ClassCode.BigEndian

/-! Reading values from the front of a list of bytes. A reader answers with a value and the bytes that it
left, or with the cause why there is none; running out of bytes is always `truncated`. -/
namespace ClassCode

/-- Takes a value from the front of some bytes. -/
abbrev Reader := StateT (List UInt8) (Except Fault)

namespace Reader

variable {α : Type}

def malformed (cause : Malformed) : Reader α := throw (.malformed cause)

def take (n : Nat) : Reader (List UInt8) := fun bytes =>
  let front := bytes.take n
  if front.length = n then .ok (front, bytes.drop n) else .error (.malformed .truncated)

def number (n : Nat) : Reader Nat := return BigEndian.value (← take n)

/-- `n` values one after the other, after those of `acc`, last one first. -/
def timesOnto (r : Reader α) (acc : List α) : Nat → Reader (List α)
  | 0 => pure acc.reverse
  | n + 1 => do
    let x ← r
    timesOnto r (x :: acc) n

def times (r : Reader α) (n : Nat) : Reader (List α) := timesOnto r [] n

end Reader

/-! Writing values to a sink of bytes, which may have a limited capacity. A write that does not fit
stores what fits and fails, so what a failed writer leaves behind shows how far it got. -/

/-- What was written, and how much can be at most; there is no limit if there is no capacity. -/
structure Sink where
  capacity : Option Nat := none
  written : Array UInt8 := #[]

/-- Writes to a sink. What was written stays there on failure. -/
abbrev Writer := EStateM Fault Sink

namespace Writer

def put (bytes : List UInt8) : Writer Unit := fun s =>
  match s.capacity with
  | none => .ok () { s with written := s.written ++ bytes }
  | some n =>
    let room := n - s.written.size
    if bytes.length ≤ room then .ok () { s with written := s.written ++ bytes }
    else .error .sinkFull { s with written := s.written ++ bytes.take room }

def number (n v : Nat) : Writer Unit := put (BigEndian.octets n v)

/-- The bytes that a writer puts into a sink of the given capacity, and the cause if it fails. -/
def runTo (capacity : Option Nat) (w : Writer Unit) : List UInt8 × Except Fault Unit :=
  match w { capacity } with
  | .ok () s => (s.written.toList, .ok ())
  | .error f s => (s.written.toList, .error f)

def bytes (w : Writer Unit) : Except Fault (List UInt8) :=
  let r := w.runTo none
  r.2.map fun _ => r.1

end Writer

/-! Wire forms. Numbers are written most significant byte first, signed ones in two's complement, and a
list is written as the number of its elements, in two bytes, and the elements. -/

class Wire (α : Type) where
  read : Reader α
  write : α → Writer Unit

namespace Wire

instance : Wire UInt8 where
  read := return (← Reader.number 1).toUInt8
  write v := Writer.number 1 v.toNat

instance : Wire UInt16 where
  read := return (← Reader.number 2).toUInt16
  write v := Writer.number 2 v.toNat

instance : Wire UInt32 where
  read := return (← Reader.number 4).toUInt32
  write v := Writer.number 4 v.toNat

instance : Wire UInt64 where
  read := return (← Reader.number 8).toUInt64
  write v := Writer.number 8 v.toNat

instance : Wire Int8 where
  read := return Int8.ofUInt8 (← read)
  write v := write v.toUInt8

instance : Wire Int16 where
  read := return Int16.ofUInt16 (← read)
  write v := write v.toUInt16

instance : Wire Int32 where
  read := return Int32.ofUInt32 (← read)
  write v := write v.toUInt32

instance : Wire Int64 where
  read := return Int64.ofUInt64 (← read)
  write v := write v.toUInt64

instance : Wire PoolIndex where
  read := return ⟨← read⟩
  write i := write i.slot

/-- The number of elements is written modulo 65536. -/
instance {α : Type} [Wire α] : Wire (List α) where
  read := do
    let n : UInt16 ← read
    Reader.times read n.toNat
  write xs := do
    write xs.length.toUInt16
    xs.forM write

end Wire

end ClassCode
