/-! Text in class files. It is made of UTF-16 code units: a character outside the basic plane is a pair of
units, a high surrogate and a low one; a surrogate that is not part of a pair is no text. -/
namespace ClassCode.Utf16

def ofChar (c : Char) : List UInt16 :=
  let n := c.toNat
  if n < 0x10000 then [n.toUInt16]
  else [(0xD800 + (n - 0x10000) / 0x400).toUInt16, (0xDC00 + (n - 0x10000) % 0x400).toUInt16]

def encode (s : List Char) : List UInt16 := s.flatMap ofChar

def isHigh (u : UInt16) : Bool := 0xD800 ≤ u && u < 0xDC00

def isLow (u : UInt16) : Bool := 0xDC00 ≤ u && u < 0xE000

/-- The character that a high and a low surrogate stand for. -/
def joined (high low : UInt16) : Char :=
  Char.ofNat (0x10000 + (high.toNat - 0xD800) * 0x400 + (low.toNat - 0xDC00))

/-- Read units in front of which the characters of `acc`, last one first, were read. -/
def decodeOnto (acc : List Char) : List UInt16 → Option (List Char)
  | [] => some acc.reverse
  | [u] => if isHigh u || isLow u then none else some (Char.ofNat u.toNat :: acc).reverse
  | u :: v :: rest =>
    if isHigh u then if isLow v then decodeOnto (joined u v :: acc) rest else none
    else if isLow u then none
    else decodeOnto (Char.ofNat u.toNat :: acc) (v :: rest)

/-- The text of some units, if every surrogate among them is part of a pair. -/
def decode? (units : List UInt16) : Option (List Char) := decodeOnto [] units

end ClassCode.Utf16

/-! Modified UTF-8, the text format of class files. Every UTF-16 unit is written on its own, in one, two
or three bytes, so a character outside the basic plane takes six bytes; the unit zero takes the
two-byte form, so that no written text holds a zero byte. A reader accepts every form of a unit,
also one that is longer than needed. -/
namespace ClassCode.ModifiedUtf8

def continuation (bits : Nat) : UInt8 := (0x80 + bits % 0x40).toUInt8

def ofUnit (u : UInt16) : List UInt8 :=
  let n := u.toNat
  if 0 < n ∧ n < 0x80 then [n.toUInt8]
  else if n < 0x800 then [(0xC0 + n / 0x40).toUInt8, continuation n]
  else [(0xE0 + n / 0x1000).toUInt8, continuation (n / 0x40), continuation n]

def encode (s : List Char) : List UInt8 := (Utf16.encode s).flatMap ofUnit

def ofString (s : String) : List UInt8 := encode s.toList

def continued? (b : UInt8) : Option Nat :=
  if 0x80 ≤ b && b < 0xC0 then some (b.toNat - 0x80) else none

def unitsOnto (acc : List UInt16) : List UInt8 → Option (List UInt16)
  | [] => some acc.reverse
  | b :: rest =>
    if 0x01 ≤ b && b < 0x80 then unitsOnto (b.toUInt16 :: acc) rest
    else if 0xC0 ≤ b && b < 0xE0 then
      match rest with
      | c :: rest => do
        let low ← continued? c
        unitsOnto (((b.toNat - 0xC0) * 0x40 + low).toUInt16 :: acc) rest
      | [] => none
    else if 0xE0 ≤ b && b < 0xF0 then
      match rest with
      | c :: d :: rest => do
        let mid ← continued? c
        let low ← continued? d
        unitsOnto (((b.toNat - 0xE0) * 0x1000 + mid * 0x40 + low).toUInt16 :: acc) rest
      | _ => none
    else none

/-- The units that some bytes stand for, if they are a sequence of well-formed units. -/
def units? (bytes : List UInt8) : Option (List UInt16) := unitsOnto [] bytes

def isWellFormed (bytes : List UInt8) : Bool := (units? bytes).isSome

def decode? (bytes : List UInt8) : Option (List Char) := units? bytes >>= Utf16.decode?

def string? (bytes : List UInt8) : Option String := (decode? bytes).map String.ofList

end ClassCode.ModifiedUtf8
