import ClassCode.Body.Basic
import ClassCode.Proofs.Bytes.Reading
import Mathlib.Data.List.Infix

/-! Readers that know where a value ends. Such a reader decides by the bytes it consumes and by nothing after
them, and until it has seen them all it complains of nothing but their end. Readers in sequence are of this
kind if each of them is, so a check that is made too early shows where the readers are put together. -/
namespace ClassCode

namespace Reader

variable {α β : Type} {r : Reader α} {f : α → Reader β} {front back : List UInt8} {x : α} {y : β}

/-- The reader takes just the bytes of `front`, for the value `x`. -/
structure Consumes (r : Reader α) (front : List UInt8) (x : α) : Prop where
  accepts : ∀ rest, r (front ++ rest) = .ok (x, rest)
  truncated : ∀ short, short <+: front → short ≠ front → r short = .error (.malformed .truncated)

/-- Whatever the reader accepts begins with the bytes that it consumes. -/
def Streams (r : Reader α) : Prop :=
  ∀ ⦃bytes x rest⦄, r bytes = .ok (x, rest) → ∃ front, bytes = front ++ rest ∧ r.Consumes front x

theorem Consumes.bind (h : r.Consumes front x) (hf : (f x).Consumes back y) :
    (r >>= f).Consumes (front ++ back) y where
  accepts rest := by
    rw [List.append_assoc, bind_of_ok (h.accepts _), hf.accepts]
  truncated short hshort hne := by
    -- The bytes end in what the first reader consumes, or in what is left to the second.
    rcases List.prefix_or_prefix_of_prefix hshort (List.prefix_append front back) with hle | ⟨s, rfl⟩
    · by_cases heq : short = front
      · subst heq
        have hback : [] ≠ back := by
          rintro rfl
          exact hne (List.append_nil _).symm
        rw [← List.append_nil short, bind_of_ok (h.accepts [])]
        exact hf.truncated [] List.nil_prefix hback
      · exact bind_of_error (h.truncated short hle heq) f
    · rw [bind_of_ok (h.accepts s)]
      refine hf.truncated s ((List.prefix_append_right_inj front).mp hshort) ?_
      rintro rfl
      exact hne rfl

theorem Streams.bind (h : r.Streams) (hf : ∀ x, (f x).Streams) : (r >>= f).Streams := by
  intro bytes y rest hok
  obtain ⟨x, mid, hx, hy⟩ := bind_eq_ok_iff.mp hok
  obtain ⟨front, rfl, hfront⟩ := h hx
  obtain ⟨back, rfl, hback⟩ := hf x hy
  exact ⟨front ++ back, (List.append_assoc ..).symm, hfront.bind hback⟩

theorem Consumes.of_nil (h : ∀ rest, r rest = .ok (x, rest)) : r.Consumes [] x where
  accepts := h
  truncated _ hshort hne := absurd (List.prefix_nil.mp hshort) hne

theorem streams_pure (x : α) : (pure x : Reader α).Streams := by
  intro bytes y rest hok
  obtain ⟨rfl, rfl⟩ := pure_eq_ok_iff.mp hok
  exact ⟨[], rfl, .of_nil fun _ => rfl⟩

theorem streams_throw (e : Fault) : (throw e : Reader α).Streams := fun _ _ _ hok =>
  (throw_eq_ok_iff.mp hok).elim

theorem streams_malformed (cause : Malformed) : (malformed cause : Reader α).Streams := streams_throw _

theorem streams_ofExcept (e : Except Fault α) : (ofExcept e : Reader α).Streams := by
  cases e with
  | error e => exact streams_throw e
  | ok x => exact streams_pure x

theorem streams_refuse {c : Prop} [Decidable c] {cause : Malformed} {k : β → Reader α} (h : r.Streams) :
    (if c then malformed cause >>= k else r).Streams := by
  intro bytes x rest hok
  obtain ⟨hc, hr⟩ := refuse_eq_ok_iff.mp hok
  rw [if_neg hc]
  exact h hr

theorem streams_take (n : Nat) : (take n).Streams := by
  intro bytes front rest hok
  obtain ⟨hn, rfl⟩ := take_eq_ok_iff.mp hok
  refine ⟨front, rfl, fun _ => take_eq_ok_iff.mpr ⟨hn, rfl⟩, fun short hshort hne => ?_⟩
  have hlt : short.length < n := by
    rw [← hn]
    exact lt_of_le_of_ne hshort.length_le fun hlen => hne (hshort.eq_of_length hlen)
  rw [take, List.take_of_length_le hlt.le, if_neg hlt.ne]

theorem streams_number (n : Nat) : (number n).Streams := (streams_take n).bind fun _ => streams_pure _

theorem Streams.timesOnto (h : r.Streams) (acc : List α) (n : Nat) : (r.timesOnto acc n).Streams := by
  induction n generalizing acc with
  | zero => exact streams_pure _
  | succ n ih => exact h.bind fun x => ih (x :: acc)

theorem Streams.times (h : r.Streams) (n : Nat) : (r.times n).Streams := h.timesOnto [] n

end Reader

open Reader

class StreamingWire (α : Type) [Wire α] : Prop where
  streams : (Wire.read : Reader α).Streams

namespace StreamingWire

instance : StreamingWire UInt8 := ⟨(streams_number 1).bind fun _ => streams_pure _⟩

instance : StreamingWire UInt16 := ⟨(streams_number 2).bind fun _ => streams_pure _⟩

instance : StreamingWire UInt32 := ⟨(streams_number 4).bind fun _ => streams_pure _⟩

instance : StreamingWire UInt64 := ⟨(streams_number 8).bind fun _ => streams_pure _⟩

instance : StreamingWire Int8 := ⟨(streams (α := UInt8)).bind fun _ => streams_pure _⟩

instance : StreamingWire Int16 := ⟨(streams (α := UInt16)).bind fun _ => streams_pure _⟩

instance : StreamingWire Int32 := ⟨(streams (α := UInt32)).bind fun _ => streams_pure _⟩

instance : StreamingWire Int64 := ⟨(streams (α := UInt64)).bind fun _ => streams_pure _⟩

instance : StreamingWire PoolIndex := ⟨(streams (α := UInt16)).bind fun _ => streams_pure _⟩

instance {α : Type} [Wire α] [StreamingWire α] : StreamingWire (List α) :=
  ⟨(streams (α := UInt16)).bind fun n => streams.times n.toNat⟩

instance : StreamingWire Attribute :=
  ⟨streams.bind fun _ => (streams (α := UInt32)).bind fun n => (streams_take n.toNat).bind fun _ => streams_pure _⟩

end StreamingWire

end ClassCode
