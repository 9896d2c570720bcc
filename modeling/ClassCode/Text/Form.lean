/-! Written forms of values in messages and listings: a name with its parts, a record with its fields,
a list, a set, a number. Braces are spelled `\x7b` and `\x7d`. -/
namespace ClassCode.Form

def enclose (opening closing : String) (items : List String) : String :=
  opening ++ ", ".intercalate items ++ closing

def list (items : List String) : String := enclose "[" "]" items

def set (items : List String) : String := enclose "\x7b" "\x7d" items

def apply (name : String) (parts : List String) : String := name ++ enclose "(" ")" parts

def record (name : String) (fields : List (String × String)) : String :=
  name ++ enclose " \x7b " " \x7d" (fields.map fun f => f.1 ++ ": " ++ f.2)

def hexDigit (n : Nat) : Char := Nat.digitChar n

def hex : (width : Nat) → Nat → List Char
  | 0, _ => []
  | w + 1, n => hexDigit ((n >>> (4 * w)) % 16) :: hex w n

def hexByte (b : UInt8) : String := String.ofList (hex 2 b.toNat)

end ClassCode.Form

/-! Decimal text of binary floating-point numbers. A number is written with the fewest digits that read
back as it, and of those with the nearest ones; a tie goes up. Everything is decided on exact natural
numbers. -/
namespace ClassCode.Decimal

/-- A binary format: the bits of its fraction and of its exponent, and the bit patterns of the least
magnitude written positionally and of the least one above it that is not. -/
structure Format where
  fraction : Nat
  exponent : Nat
  positionalFrom : Nat
  positionalBelow : Nat

def single : Format := ⟨23, 8, 0x38d1b717, 0x5a0e1bca⟩

def double : Format := ⟨52, 11, 0x3f1a36e2eb1c432d, 0x4341c37937e08000⟩

structure Ratio where
  num : Nat
  den : Nat

namespace Ratio

def scaled (m base : Nat) (e : Int) : Ratio :=
  if 0 ≤ e then ⟨m * base.pow e.toNat, 1⟩ else ⟨m, base.pow (-e).toNat⟩

def mul (a b : Ratio) : Ratio := ⟨a.num * b.num, a.den * b.den⟩

def le (a b : Ratio) : Bool := a.num * b.den ≤ b.num * a.den

def lt (a b : Ratio) : Bool := a.num * b.den < b.num * a.den

def floor (a : Ratio) : Nat := a.num / a.den

end Ratio

/-- The numbers that round to a value: those between `low` and `high`, with both ends if `closed`. -/
structure Interval where
  low : Ratio
  value : Ratio
  high : Ratio
  closed : Bool

def Interval.contains (i : Interval) (x : Ratio) : Bool :=
  if i.closed then i.low.le x && x.le i.high else i.low.lt x && x.lt i.high

/-- The interval of the positive finite number with a given bit pattern. The gap below a power of two is
half of the one above it. -/
def Format.interval (f : Format) (bits : Nat) : Interval :=
  let unit := 1 <<< f.fraction
  let exponent := bits / unit
  let fraction := bits % unit
  let m := if exponent = 0 then fraction else unit + fraction
  let q : Int := (max exponent 1 : Nat) - ((1 <<< (f.exponent - 1)) - 1 + f.fraction : Nat)
  let below := if fraction = 0 ∧ 1 < exponent then 1 else 2
  { low := .scaled (4 * m - below) 2 (q - 2)
    value := .scaled (4 * m) 2 (q - 2)
    high := .scaled (4 * m + 2) 2 (q - 2)
    closed := m % 2 = 0 }

/-- The multiple of ten to the power `e` nearest to the value among its two neighbours inside the
interval. -/
def Interval.onGrid? (i : Interval) (e : Int) : Option Nat :=
  let n := (i.value.mul (.scaled 1 10 (-e))).floor
  let down := i.contains (.scaled n 10 e)
  let up := i.contains (.scaled (n + 1) 10 e)
  let nearUp := (Ratio.scaled (2 * n + 1) 10 e).le ⟨2 * i.value.num, i.value.den⟩
  if down && (!up || !nearUp) then some n
  else if up then some (n + 1)
  else none

/-- The first of `fuel` grids, each ten times finer than the one before, with a hit. -/
def Interval.search (i : Interval) : (fuel : Nat) → Int → Nat × Int
  | 0, e => (0, e)
  | fuel + 1, e =>
    match i.onGrid? e with
    | some n => if 0 < n then (n, e) else i.search fuel (e - 1)
    | none => i.search fuel (e - 1)

def normalize : (fuel : Nat) → Nat → Int → Nat × Int
  | 0, n, e => (n, e)
  | fuel + 1, n, e => if n % 10 = 0 then normalize fuel (n / 10) (e + 1) else (n, e)

def Interval.shortest (i : Interval) : Nat × Int :=
  let r := i.search 800 310
  normalize 20 r.1 r.2

def zeros (n : Nat) : String := String.ofList (List.replicate n '0')

/-- `digits` times ten to the power `e`, with a point and at least one digit on each side of it. -/
def positional (digits : Nat) (e : Int) : String :=
  let s := toString digits
  if 0 ≤ e then s ++ zeros e.toNat ++ ".0"
  else
    let places := (-e).toNat
    let padded := (zeros (places + 1 - s.length) ++ s).toList
    String.ofList (padded.take (padded.length - places)) ++ "." ++
      String.ofList (padded.drop (padded.length - places))

def scientific (digits : Nat) (e : Int) : String :=
  let s := (toString digits).toList
  let point := if s.length = 1 then "" else "."
  String.ofList (s.take 1) ++ point ++ String.ofList (s.drop 1) ++ "e" ++
    toString (e + (s.length - 1 : Nat))

def Format.magnitude (f : Format) (bits : Nat) : String :=
  if bits = 0 then "0.0"
  else
    let d := (f.interval bits).shortest
    if f.positionalFrom ≤ bits ∧ bits < f.positionalBelow then positional d.1 d.2
    else scientific d.1 d.2

def Format.text (f : Format) (bits : Nat) : String :=
  let signBit := 1 <<< (f.fraction + f.exponent)
  let infinity := ((1 <<< f.exponent) - 1) <<< f.fraction
  let magnitude := bits % signBit
  if infinity < magnitude then "NaN"
  else
    let sign := if signBit ≤ bits then "-" else ""
    if magnitude = infinity then sign ++ "inf" else sign ++ f.magnitude magnitude

end ClassCode.Decimal
