import ClassCode.Proofs.Layout.Laid
import Mathlib.Algebra.GroupWithZero.Nat

/-! Runs of edits of a layout. Only the elements matter: an edit at a position that there is does to the layout
of a list what it does to the list, so where everything ends up does not depend on how it got there. -/
namespace ClassCode.Layout

variable {ω α : Type}

inductive Request (α : Type) where
  | push (x : α)
  | insert (position : Nat) (x : α)
  | erase (position : Nat)
  | replace (position : Nat) (x : α)

inductive Answer (ω α : Type) where
  | placed (offset : ω)
  | removed (entry : ω × α)
  | replaced (element : α)

namespace Request

def edit? : Request α → List α → Option (List α)
  | push x, xs => some (xs ++ [x])
  | insert i x, xs => if i ≤ xs.length then some (xs.insertIdx i x) else none
  | erase i, xs => if i < xs.length then some (xs.eraseIdx i) else none
  | replace i x, xs => if i < xs.length then some (xs.set i x) else none

/-- The answer to a request says where the new element is in the layout `m` that it leaves, or what was at its
position in the layout `l` before it. -/
inductive Answers (l m : Layout ω α) : Request α → Answer ω α → Prop where
  | push {x : α} {o : ω} (h : m.get? l.size = some (o, x)) : Answers l m (.push x) (.placed o)
  | insert {i : Nat} {x : α} {o : ω} (h : m.get? i = some (o, x)) : Answers l m (.insert i x) (.placed o)
  | erase {i : Nat} {e : ω × α} (h : l.get? i = some e) : Answers l m (.erase i) (.removed e)
  | replace {i : Nat} {x : α} {e : ω × α} (h : l.get? i = some e) :
      Answers l m (.replace i x) (.replaced e.2)

variable [Add ω] [Spans α ω]

def ask? : Request α → Layout ω α → Option (Answer ω α × Layout ω α)
  | push x, l => some (.placed l.stop, l.push x)
  | insert i x, l => (l.insert? i x).map fun r => (.placed r.1, r.2)
  | erase i, l => (l.erase? i).map fun r => (.removed r.1, r.2)
  | replace i x, l => (l.replace? i x).map fun r => (.replaced r.1, r.2)

/-- The layout that a request leaves. -/
def leaves? (r : Request α) (l : Layout ω α) : Option (Layout ω α) := (r.ask? l).map Prod.snd

end Request

theorem insertIdx_eq_take_append_cons_drop {xs : List α} {i : Nat} (x : α) (h : i ≤ xs.length) :
    xs.insertIdx i x = xs.take i ++ x :: xs.drop i := by
  induction xs generalizing i with
  | nil =>
    obtain rfl : i = 0 := Nat.le_zero.mp h
    rfl
  | cons y ys ih =>
    cases i with
    | zero => rfl
    | succ i => simp [ih (Nat.le_of_succ_le_succ h)]

variable [Add ω] [Spans α ω] {start : ω} {xs : List α}

section Step

variable (r : Request α)

/-- A request to the layout of a list is the request to the list. -/
theorem leaves?_laid : r.leaves? (laid start xs) = (r.edit? xs).map (laid start) := by
  have hget (i : Nat) : (laid start xs).get? i = xs[i]?.map fun x => (past start (xs.take i), x) :=
    get?_laid start xs i
  cases r with
  | push x => simp [Request.leaves?, Request.ask?, Request.edit?]
  | insert i x =>
    by_cases hi : i ≤ xs.length
    · simp [Request.leaves?, Request.ask?, Request.edit?, insert?, hi, insert_laid,
        insertIdx_eq_take_append_cons_drop x hi]
    · simp [Request.leaves?, Request.ask?, Request.edit?, insert?, hi]
  | erase i =>
    by_cases hi : i < xs.length
    · simp [Request.leaves?, Request.ask?, Request.edit?, erase?, hget, hi, erase_laid]
    · simp [Request.leaves?, Request.ask?, Request.edit?, erase?, hget, hi]
  | replace i x =>
    by_cases hi : i < xs.length
    · simp [Request.leaves?, Request.ask?, Request.edit?, replace?, hget, hi, replace_laid]
    · simp [Request.leaves?, Request.ask?, Request.edit?, replace?, hget, hi]

theorem answers_of_ask? {a : Answer ω α} {m : Layout ω α} (h : r.ask? (laid start xs) = some (a, m)) :
    r.Answers (laid start xs) m a := by
  cases r with
  | push x =>
    simp only [Request.ask?, Option.some.injEq, Prod.mk.injEq] at h
    obtain ⟨rfl, rfl⟩ := h
    refine .push ?_
    rw [push_laid, get?_laid, size_laid, stop_laid]
    simp
  | insert i x =>
    obtain ⟨⟨o, n⟩, hinsert, heq⟩ := Option.map_eq_some_iff.mp h
    obtain ⟨rfl, rfl⟩ := Prod.mk.inj heq
    rw [insert?, size_laid] at hinsert
    split at hinsert
    · rename_i hi
      obtain ⟨rfl, rfl⟩ := Prod.mk.inj (Option.some.inj hinsert)
      have hlen : (xs.take i).length = i := List.length_take_of_le hi
      refine .insert ?_
      rw [insert_laid, get?_laid, startOf_laid, List.take_left' hlen,
        List.getElem?_append_right (Nat.le_of_eq hlen), hlen]
      simp
    · simp at hinsert
  | erase i =>
    obtain ⟨⟨e, n⟩, herase, heq⟩ := Option.map_eq_some_iff.mp h
    obtain ⟨rfl, rfl⟩ := Prod.mk.inj heq
    obtain ⟨d, hd, heq⟩ := Option.map_eq_some_iff.mp herase
    obtain ⟨rfl, rfl⟩ := Prod.mk.inj heq
    exact .erase hd
  | replace i x =>
    obtain ⟨⟨y, n⟩, hreplace, heq⟩ := Option.map_eq_some_iff.mp h
    obtain ⟨rfl, rfl⟩ := Prod.mk.inj heq
    obtain ⟨d, hd, heq⟩ := Option.map_eq_some_iff.mp hreplace
    obtain ⟨rfl, rfl⟩ := Prod.mk.inj heq
    exact .replace hd

end Step

def run? (rs : List (Request α)) (l : Layout ω α) : Option (Layout ω α) := rs.foldlM (fun l r => r.leaves? l) l

def edited? (rs : List (Request α)) (xs : List α) : Option (List α) := rs.foldlM (fun xs r => r.edit? xs) xs

theorem run?_laid (rs : List (Request α)) (xs : List α) :
    run? rs (laid start xs) = (edited? rs xs).map (laid start) := by
  induction rs generalizing xs with
  | nil => rfl
  | cons r rs ih =>
    rw [run?, edited?, List.foldlM_cons, List.foldlM_cons, leaves?_laid]
    cases r.edit? xs with
    | none => rfl
    | some ys => exact ih ys

theorem past_of_getLast? {o : ω} {e : ω × α} (h : (placed o xs).getLast? = some e) :
    past o xs = e.1 + span e.2 e.1 := by
  rcases List.eq_nil_or_concat xs with rfl | ⟨ys, y, rfl⟩
  · simp [placed] at h
  · simp only [List.concat_eq_append, placed_append, placed, List.getLast?_concat, Option.some.injEq] at h
    subst h
    simp [past]

section Words

variable {β : Type} [Spans β UInt64]

def extent (es : List (UInt64 × β)) : Nat := (es.map fun e => (span e.2 e.1).toNat).sum

/-- The elements, each where it is, end before the offsets do. -/
def Fits (l : Layout UInt64 β) : Prop := l.start.toNat + extent l.toList < 2 ^ 64

instance (l : Layout UInt64 β) : Decidable l.Fits := inferInstanceAs (Decidable (_ < _))

/-- As long as they fit, a list ends after as many offsets as its elements cover. -/
theorem toNat_past {o : UInt64} {ys : List β} (h : o.toNat + extent (placed o ys) < 2 ^ 64) :
    (past o ys).toNat = o.toNat + extent (placed o ys) := by
  induction ys generalizing o with
  | nil => rfl
  | cons y ys ih =>
    have hcons : extent (placed o (y :: ys)) = (span y o).toNat + extent (placed (o + span y o) ys) :=
      List.sum_cons
    rw [hcons] at h ⊢
    have hfirst : (o + span y o).toNat = o.toNat + (span y o).toNat := by
      rw [UInt64.toNat_add, Nat.mod_eq_of_lt (by omega)]
    rw [past, ih (by omega), hfirst, Nat.add_assoc]

theorem extent_append (es fs : List (UInt64 × β)) : extent (es ++ fs) = extent es + extent fs := by
  simp [extent]

theorem toNat_past_take {o : UInt64} {ys : List β} (h : o.toNat + extent (placed o ys) < 2 ^ 64) (i : Nat) :
    (past o (ys.take i)).toNat = o.toNat + extent ((placed o ys).take i) := by
  rw [take_placed]
  refine toNat_past ?_
  have hsplit := extent_append ((placed o ys).take i) ((placed o ys).drop i)
  rw [List.take_append_drop, take_placed] at hsplit
  omega

theorem toNat_end {o : UInt64} {ys : List β} (h : o.toNat + extent (placed o ys) < 2 ^ 64) {e : UInt64 × β}
    (he : e ∈ placed o ys) : (e.1 + span e.2 e.1).toNat = e.1.toNat + (span e.2 e.1).toNat := by
  obtain ⟨i, hi⟩ := List.mem_iff_getElem?.mp he
  rw [getElem?_placed] at hi
  obtain ⟨y, hy, rfl⟩ := Option.map_eq_some_iff.mp hi
  have hend := toNat_past_take h (i + 1)
  rw [past_take_succ o hy, List.take_add_one, getElem?_placed, hy, extent_append, ← Nat.add_assoc,
    ← toNat_past_take h i] at hend
  simpa [extent] using hend

end Words

/-- Something to lay out that covers a given number of offsets, or those up to the next multiple of a step. -/
inductive Filler where
  | fixed (width : UInt64)
  | align (step : UInt64)
deriving DecidableEq

instance : Spans Filler UInt64 where
  span x o := match x with
    | .fixed w => w
    | .align step => step - o % step

end ClassCode.Layout
