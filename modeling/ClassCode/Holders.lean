import ClassCode.Text.Form
import Std.Data.ExtTreeMap

/-! Who holds what. Tables hand out names of their entries: indices, which move with the entry, and
handles, which do not. On every entry a table keeps the multiset of the holders registered on it: entries
of the same table, and things outside it. Each registration is undone separately, so the multiset counts,
and it lists its members in their order. -/
namespace ClassCode

open Std

/-! A type whose values are told apart by a key takes the order of its keys. That order is transitive and
has equality as its only tie, which is what maps ask of the things they are indexed by. -/

theorem compare_self_eq {κ : Type} [Ord κ] [ReflOrd κ] (a : κ) : compare a a = .eq :=
  ReflCmp.compare_self

theorem eq_of_compare_eq {κ : Type} [Ord κ] [LawfulEqOrd κ] {a b : κ} (h : compare a b = .eq) :
    a = b := LawfulEqCmp.eq_of_compare h

theorem compare_swap {κ : Type} [Ord κ] [OrientedOrd κ] (a b : κ) :
    compare a b = (compare b a).swap := OrientedCmp.eq_swap

theorem compare_isLE_trans {κ : Type} [Ord κ] [TransOrd κ] {a b c : κ}
    (hab : (compare a b).isLE) (hbc : (compare b c).isLE) : (compare a c).isLE :=
  TransCmp.isLE_trans hab hbc

theorem compareOn_lawfulEq {α κ : Type} [Ord κ] [LawfulEqOrd κ] {key : α → κ}
    (inj : ∀ {a b}, key a = key b → a = b) : LawfulEqCmp (compareOn key) where
  compare_self {a} := compare_self_eq (key a)
  eq_of_compare h := inj (eq_of_compare_eq h)

/-- Names one instruction of a body for as long as it stays there, whatever is put before it. New ones are
numbered by a counter of 32 bits: when it has started over, they can get the handle of one that is still
there. Read instructions are numbered in their order, and the same counter would start over among more than
2^32 of them; that is left out, and makes no difference to fewer than four gibibytes of code. -/
structure Handle where
  number : Nat
deriving DecidableEq, Inhabited

namespace Handle

instance : Ord Handle := ⟨compareOn number⟩

instance : TransOrd Handle := inferInstanceAs (TransCmp (compareOn number))

instance : LawfulEqOrd Handle :=
  compareOn_lawfulEq fun {a b} h => by cases a; cases b; simpa using h

def render (h : Handle) : String := "i" ++ toString h.number

end Handle

/-- Identity of something outside a table that keeps an index into it. The table only stores it, to
say who would be left dangling and who has to follow an index that moved. -/
structure ExternalId where
  number : UInt32
deriving DecidableEq, Inhabited

instance : Ord ExternalId := ⟨compareOn ExternalId.number⟩

instance : TransOrd ExternalId := inferInstanceAs (TransCmp (compareOn ExternalId.number))

instance : LawfulEqOrd ExternalId :=
  compareOn_lawfulEq fun {a b} h => by cases a; cases b; simpa using h

def ExternalId.render (e : ExternalId) : String := "h" ++ toString e.number

/-- A supply of identities. When the counter has started over, it gives them out again. -/
structure ExternalSupply where
  next : UInt32 := 0
deriving DecidableEq, Inhabited

def ExternalSupply.fresh (s : ExternalSupply) : ExternalId × ExternalSupply :=
  (⟨s.next⟩, ⟨s.next + 1⟩)

/-- Something that holds an index: an entry of the same table, or something outside it. Entries come
first in the order. -/
inductive Holder (ι : Type) where
  | entry (index : ι)
  | external (id : ExternalId)
deriving DecidableEq, Inhabited

namespace Holder

variable {ι : Type} [Ord ι]

def order : Holder ι → Holder ι → Ordering
  | entry a, entry b => compare a b
  | entry _, external _ => .lt
  | external _, entry _ => .gt
  | external a, external b => compare a b

instance : Ord (Holder ι) := ⟨order⟩

instance [TransOrd ι] : TransOrd (Holder ι) where
  eq_swap {a b} := by
    cases a <;> cases b
    · exact compare_swap (κ := ι) _ _
    · rfl
    · rfl
    · exact compare_swap (κ := ExternalId) _ _
  isLE_trans {a b c} hab hbc := by
    cases a <;> cases b <;> cases c
    · exact compare_isLE_trans (κ := ι) hab hbc
    · rfl
    · cases hbc
    · rfl
    · cases hab
    · cases hab
    · cases hbc
    · exact compare_isLE_trans (κ := ExternalId) hab hbc

instance [LawfulEqOrd ι] : LawfulEqOrd (Holder ι) where
  compare_self {a} := by
    cases a
    · exact compare_self_eq (κ := ι) _
    · exact compare_self_eq (κ := ExternalId) _
  eq_of_compare {a b} h := by
    cases a <;> cases b
    · exact congrArg entry (eq_of_compare_eq (κ := ι) h)
    · cases h
    · cases h
    · exact congrArg external (eq_of_compare_eq (κ := ExternalId) h)

end Holder

/-- A multiset of holders, as the number of registrations of each member. -/
structure Holders (η : Type) [Ord η] where
  counts : ExtTreeMap η Nat

namespace Holders

variable {η : Type} [Ord η] [TransOrd η]

def empty : Holders η := ⟨∅⟩

instance : Inhabited (Holders η) := ⟨empty⟩

instance [LawfulEqOrd η] : DecidableEq (Holders η) := fun s t =>
  decidable_of_iff (s.counts = t.counts) ⟨fun h => congrArg mk h, fun h => congrArg counts h⟩

def count (s : Holders η) (h : η) : Nat := s.counts.getD h 0

def add (s : Holders η) (h : η) (n : Nat) : Holders η := ⟨s.counts.insert h (s.count h + n)⟩

def register (s : Holders η) (h : η) : Holders η := s.add h 1

def release? (s : Holders η) (h : η) : Option (Holders η) :=
  match s.counts[h]? with
  | none => none
  | some n => some ⟨if 1 < n then s.counts.insert h (n - 1) else s.counts.erase h⟩

/-- Undo one registration of `h`; without one there is nothing to undo. -/
def release (s : Holders η) (h : η) : Holders η := (s.release? h).getD s

def contains (s : Holders η) (h : η) : Bool := s.counts.contains h

def isEmpty (s : Holders η) : Bool := s.counts.isEmpty

def members (s : Holders η) : List η := s.counts.keys

/-- Every registration, in order: a holder shows up once for each of its registrations. -/
def toList (s : Holders η) : List η :=
  s.counts.toList.flatMap fun e => List.replicate e.2 e.1

/-- Send every registration through `f`. Holders that `f` merges pool their registrations. -/
def rename (f : η → η) (s : Holders η) : Holders η :=
  s.counts.foldl (fun r h n => r.add (f h) n) empty

def render (name : η → String) (s : Holders η) : String := Form.set (s.toList.map name)

@[simp] theorem count_empty (h : η) : (empty : Holders η).count h = 0 := by
  simp [count, empty]

theorem release?_eq_none_iff {s : Holders η} {h : η} :
    s.release? h = none ↔ s.contains h = false := by
  simp only [release?, contains, ExtTreeMap.contains_eq_isSome_getElem?]
  cases s.counts[h]? <;> simp

variable [LawfulEqOrd η] [DecidableEq η]

theorem count_add (s : Holders η) (h : η) (n : Nat) (k : η) :
    (s.add h n).count k = s.count k + if h = k then n else 0 := by
  by_cases hk : h = k
  · subst hk
    simp [count, add]
  · simp [count, add, ExtTreeMap.getD_insert, hk]

@[simp] theorem count_register (s : Holders η) (h k : η) :
    (s.register h).count k = s.count k + if h = k then 1 else 0 := count_add s h 1 k

end Holders

end ClassCode
