import ClassCode.Text.Form

/-! Elements laid out one after the other. Every element covers a number of offsets that may depend on
the offset at which it starts, so moving one can resize any element after it: an edit lays out again
everything from the edited position on. In code and in pools offsets are plain numbers, for the bytes and
slots that they count are all there; elements may also declare any width at all, and then offsets are words
of 64 bits, whose sums start over. -/
namespace ClassCode

/-- How many offsets an element covers when it starts at a given one. -/
class Spans (α : Type) (ω : outParam Type) where
  span : α → ω → ω

export Spans (span)

/-- Elements with the offset each of them starts at. `start` is the offset of the first one and `stop`
that of the next one to be added. -/
structure Layout (ω α : Type) where
  start : ω
  entries : Array (ω × α) := #[]
  stop : ω := start

/-- What is found at an offset: the start of an element, the inside of one, or nothing. -/
inductive Spot (α : Type) where
  | starts (position : Nat) (element : α)
  | inside (position : Nat)
  | outside
deriving DecidableEq

namespace Layout

variable {ω α : Type}

def emptyAt (start : ω) : Layout ω α := { start }

def empty [OfNat ω 0] : Layout ω α := emptyAt 0

instance [OfNat ω 0] : Inhabited (Layout ω α) := ⟨empty⟩

/-- Two layouts are alike when they have the same elements at the same offsets. -/
instance [BEq ω] [BEq α] : BEq (Layout ω α) := ⟨fun l m => l.entries == m.entries⟩

def size (l : Layout ω α) : Nat := l.entries.size

def isEmpty (l : Layout ω α) : Bool := l.entries.isEmpty

def toList (l : Layout ω α) : List (ω × α) := l.entries.toList

def elements (l : Layout ω α) : List α := l.toList.map Prod.snd

def get? (l : Layout ω α) (i : Nat) : Option (ω × α) := l.entries[i]?

def startOf (l : Layout ω α) (i : Nat) : ω :=
  match l.entries[i]? with
  | some e => e.1
  | none => l.stop

/-- The signed distance from the offset `b` to the offset `a`. Words of 64 bits would be taken for signed ones
first; that is left out, and makes no difference to offsets below 2^63. -/
def distance (a b : Nat) : Int := (a : Int) - b

/-- The number of positions between `lo` and `hi`, and before `lo`, whose element starts at or before
`o`. -/
def rankIn [LE ω] [DecidableLE ω] (entries : Array (ω × α)) (o : ω) : (fuel lo hi : Nat) → Nat
  | 0, lo, _ => lo
  | fuel + 1, lo, hi =>
    if lo < hi then
      let mid := (lo + hi) / 2
      match entries[mid]? with
      | some e => if e.1 ≤ o then rankIn entries o fuel (mid + 1) hi else rankIn entries o fuel lo mid
      | none => lo
    else lo

def rank [LE ω] [DecidableLE ω] (l : Layout ω α) (o : ω) : Nat := rankIn l.entries o l.size 0 l.size

/-- What is at the offset `o`. Past the start of the last element only its own span is inside. -/
def locate [LE ω] [LT ω] [DecidableLE ω] [DecidableLT ω] [DecidableEq ω] (l : Layout ω α) (o : ω) :
    Spot α :=
  let i := l.rank o - 1
  match l.entries[i]? with
  | none => .outside
  | some e =>
    if e.1 = o then .starts i e.2
    else if o < e.1 then .outside
    else if o < l.startOf (i + 1) then .inside i
    else .outside

/-- Change the element at position `i` in place. Its span must stay the same. -/
def update (l : Layout ω α) (i : Nat) (f : α → α) : Layout ω α :=
  { l with entries := l.entries.modify i fun e => (e.1, f e.2) }

def mapInPlace (l : Layout ω α) (f : (offset : ω) → (position : Nat) → α → α) : Layout ω α :=
  { l with entries := l.entries.mapIdx fun i e => (e.1, f e.1 i e.2) }

def render [ToString ω] (name : α → String) (l : Layout ω α) : String :=
  Form.list (l.toList.map fun e => "#" ++ toString e.1 ++ " = " ++ name e.2)

variable [Add ω] [Spans α ω]

def push (l : Layout ω α) (x : α) : Layout ω α :=
  { l with entries := l.entries.push (l.stop, x), stop := l.stop + span x l.stop }

def endBefore (l : Layout ω α) : (i : Nat) → ω
  | 0 => l.start
  | i + 1 =>
    match l.entries[i]? with
    | some e => e.1 + span e.2 e.1
    | none => l.stop

def cut (l : Layout ω α) (i : Nat) : Layout ω α :=
  let stop := l.endBefore i
  { l with entries := l.entries.shrink i, stop }

def relay (l : Layout ω α) (entries : Array (ω × α)) : Layout ω α :=
  entries.foldl (fun l e => l.push e.2) l

def append (l : Layout ω α) (xs : List α) : Layout ω α := xs.foldl push l

def ofList [OfNat ω 0] (xs : List α) : Layout ω α := empty.append xs

def insert (l : Layout ω α) (i : Nat) (x : α) : Layout ω α :=
  let rest := l.entries.extract i l.size
  ((l.cut i).push x).relay rest

def erase (l : Layout ω α) (i : Nat) : Layout ω α :=
  let rest := l.entries.extract (i + 1) l.size
  (l.cut i).relay rest

def replace (l : Layout ω α) (i : Nat) (x : α) : Layout ω α :=
  let rest := l.entries.extract (i + 1) l.size
  ((l.cut i).push x).relay rest

def insert? (l : Layout ω α) (i : Nat) (x : α) : Option (ω × Layout ω α) :=
  if i ≤ l.size then some (l.startOf i, l.insert i x) else none

def erase? (l : Layout ω α) (i : Nat) : Option ((ω × α) × Layout ω α) :=
  (l.get? i).map fun e => (e, l.erase i)

def replace? (l : Layout ω α) (i : Nat) (x : α) : Option (α × Layout ω α) :=
  (l.get? i).map fun e => (e.2, l.replace i x)

omit [Add ω] [Spans α ω] in
@[simp] theorem elements_emptyAt (o : ω) : (emptyAt o : Layout ω α).elements = [] := rfl

@[simp] theorem elements_cut (l : Layout ω α) (i : Nat) :
    (l.cut i).elements = l.elements.take i := by
  simp [elements, toList, cut, List.map_take]

@[simp] theorem elements_push (l : Layout ω α) (x : α) :
    (l.push x).elements = l.elements ++ [x] := by
  simp [elements, toList, push]

@[simp] theorem elements_append (l : Layout ω α) (xs : List α) :
    (l.append xs).elements = l.elements ++ xs := by
  induction xs generalizing l with
  | nil => simp [append]
  | cons x xs ih =>
    rw [append, List.foldl_cons, ← append, ih, elements_push]
    simp

theorem relay_eq_append (l : Layout ω α) (entries : Array (ω × α)) :
    l.relay entries = l.append (entries.toList.map Prod.snd) := by
  simp [relay, append, ← Array.foldl_toList, List.foldl_map]

omit [Add ω] [Spans α ω] in
theorem map_snd_extract (l : Layout ω α) (i : Nat) :
    (l.entries.extract i l.size).toList.map Prod.snd = l.elements.drop i := by
  rw [Array.toList_extract, List.extract_eq_take_drop, elements, toList, ← List.map_drop,
    List.take_of_length_le]
  simp [size]

theorem elements_insert (l : Layout ω α) (i : Nat) (x : α) :
    (l.insert i x).elements = l.elements.take i ++ x :: l.elements.drop i := by
  rw [insert, relay_eq_append, map_snd_extract]
  simp

theorem elements_erase (l : Layout ω α) (i : Nat) :
    (l.erase i).elements = l.elements.take i ++ l.elements.drop (i + 1) := by
  rw [erase, relay_eq_append, map_snd_extract]
  simp

omit [Add ω] [Spans α ω] in
theorem elements_update (l : Layout ω α) (i : Nat) (f : α → α) :
    (l.update i f).elements = l.elements.modify i f := by
  apply List.ext_getElem?
  intro j
  simp only [elements, toList, update, Array.toList_modify, List.getElem?_map, List.getElem?_modify]
  cases l.entries.toList[j]? with
  | none => rfl
  | some e => exact congrArg some (apply_ite Prod.snd (i = j) _ _)

theorem elements_replace (l : Layout ω α) (i : Nat) (x : α) :
    (l.replace i x).elements = l.elements.take i ++ x :: l.elements.drop (i + 1) := by
  rw [replace, relay_eq_append, map_snd_extract]
  simp

end Layout

end ClassCode
