import ClassCode.Proofs.Layout.Run
import ClassCode.Proofs.Layout.Search

/-! Looking up an offset. Where every element ends past its start, just one of them covers an offset that lies
between the start of the layout and its end; it is found, with its element if it starts there. -/
namespace ClassCode.Layout

open Std

variable {ω α : Type} [LE ω] [LT ω] [Add ω] [Spans α ω]

/-- What is at an offset. -/
def IsAt (l : Layout ω α) (o : ω) : Spot α → Prop
  | .starts i x => l.get? i = some (o, x)
  | .inside i => ∃ e, l.get? i = some e ∧ e.1 < o ∧ o < e.1 + span e.2 e.1
  | .outside => o < l.start ∨ l.stop ≤ o

def Covers (o : ω) (e : ω × α) : Prop := e.1 ≤ o ∧ o < e.1 + span e.2 e.1

/-- How the element at position `i` is found at an offset that it covers. -/
def spotOf [DecidableEq ω] (o : ω) (i : Nat) (e : ω × α) : Spot α := if e.1 = o then .starts i e.2 else .inside i

section Laid

variable {start o : ω} {xs : List α}

omit [LE ω] [LT ω] in
theorem getElem?_entries_laid (k : Nat) : (laid start xs).entries[k]? = (placed start xs)[k]? := by
  rw [← toList_laid, toList, Array.getElem?_toList]

omit [LE ω] [LT ω] in
theorem past_take_of_getElem? {k : Nat} {e : ω × α} (he : (placed start xs)[k]? = some e) :
    past start (xs.take (k + 1)) = e.1 + span e.2 e.1 := by
  rw [getElem?_placed] at he
  obtain ⟨x, hx, rfl⟩ := Option.map_eq_some_iff.mp he
  exact past_take_succ start hx

variable [Std.IsLinearOrder ω] [LawfulOrderLT ω]

section Rank

variable [DecidableLE ω] [DecidableLT ω] [DecidableEq ω]

/-- The last element that starts at an offset or before it decides what is found there. -/
theorem locate_laid_of_rank {k : Nat} {e : ω × α} (hrank : (laid start xs).rank o = k + 1)
    (he : (placed start xs)[k]? = some e) (hle : e.1 ≤ o) :
    (laid start xs).locate o =
      if e.1 = o then .starts k e.2 else if o < e.1 + span e.2 e.1 then .inside k else .outside := by
  rw [locate, hrank, Nat.add_sub_cancel, getElem?_entries_laid, he, startOf_laid, past_take_of_getElem? he]
  simp [Std.not_lt.mpr hle]

omit [Std.IsLinearOrder ω] in
theorem locate_laid_of_rank_zero (hrank : (laid start xs).rank o = 0) (hlt : xs ≠ [] → o < start) :
    (laid start xs).locate o = .outside := by
  rw [locate, hrank, getElem?_entries_laid]
  cases xs with
  | nil => rfl
  | cons x xs =>
    have ho := hlt (List.cons_ne_nil x xs)
    have hne : start ≠ o := fun heq => lt_irrefl (heq ▸ ho)
    simp [placed, ho, hne]

end Rank

theorem past_le_of_rank {k : Nat} {e : ω × α} (he : (placed start xs)[k]? = some e)
    (hafter : ∀ d, (placed start xs)[k + 1]? = some d → o < d.1) (hend : e.1 + span e.2 e.1 ≤ o) :
    past start xs ≤ o := by
  rw [← past_take_of_getElem? he] at hend
  cases hx : xs[k + 1]? with
  | none =>
    rwa [List.take_of_length_le (List.getElem?_eq_none_iff.mp hx)] at hend
  | some x =>
    have hnext : (placed start xs)[k + 1]? = some (past start (xs.take (k + 1)), x) := by
      rw [getElem?_placed, hx]
      rfl
    exact absurd hend (not_le.mpr (hafter _ hnext))

variable (hrise : Rising start xs)
include hrise

theorem Rising.covered_once {i j : Nat} {d e : ω × α} (hi : (placed start xs)[i]? = some d)
    (hj : (placed start xs)[j]? = some e) (hd : Covers o d) (he : Covers o e) : i = j := by
  rcases Nat.lt_trichotomy i j with hlt | heq | hgt
  · have hends := hrise.add_span_le_of_lt hi hj hlt
    exact absurd he.1 (not_le.mpr (lt_of_lt_of_le hd.2 hends))
  · exact heq
  · have hends := hrise.add_span_le_of_lt hj hi hgt
    exact absurd hd.1 (not_le.mpr (lt_of_lt_of_le he.2 hends))

theorem Rising.between_of_covers {e : ω × α} (hmem : e ∈ placed start xs) (he : Covers o e) :
    ¬ (o < start ∨ past start xs ≤ o) := by
  rintro (hlt | hle)
  · exact absurd (le_trans (hrise.le_of_mem_placed hmem) he.1) (not_le.mpr hlt)
  · exact absurd hle (not_le.mpr (lt_of_lt_of_le he.2 (hrise.add_span_le_past hmem)))

variable [DecidableEq ω]

theorem Rising.isAt_iff {s : Spot α} : (laid start xs).IsAt o s ↔
    (∃ i e, (placed start xs)[i]? = some e ∧ Covers o e ∧ s = spotOf o i e) ∨
      s = .outside ∧ (o < start ∨ past start xs ≤ o) := by
  have hget (i : Nat) : (laid start xs).get? i = (placed start xs)[i]? := getElem?_entries_laid i
  constructor
  · intro h
    cases s with
    | starts i x =>
      have hi : (placed start xs)[i]? = some (o, x) := (hget i).symm.trans h
      have hends := hrise _ (List.mem_of_getElem? hi)
      exact .inl ⟨i, (o, x), hi, ⟨le_refl o, hends⟩, (if_pos rfl).symm⟩
    | inside i =>
      obtain ⟨e, he, hlt, hend⟩ := h
      rw [hget] at he
      have hne : e.1 ≠ o := fun heq => lt_irrefl (heq ▸ hlt)
      exact .inl ⟨i, e, he, ⟨le_of_lt hlt, hend⟩, (if_neg hne).symm⟩
    | outside =>
      simp only [IsAt, start_laid, stop_laid] at h
      exact .inr ⟨rfl, h⟩
  · rintro (⟨i, e, hi, ⟨hle, hend⟩, rfl⟩ | ⟨rfl, hout⟩)
    · rw [← hget] at hi
      by_cases hstart : e.1 = o
      · rw [spotOf, if_pos hstart, ← hstart]
        exact hi
      · rw [spotOf, if_neg hstart]
        exact ⟨e, hi, lt_of_le_of_ne hle hstart, hend⟩
    · simp only [IsAt, start_laid, stop_laid]
      exact hout

theorem Rising.isAt_unique {s t : Spot α} (hs : (laid start xs).IsAt o s) (ht : (laid start xs).IsAt o t) :
    s = t := by
  rw [hrise.isAt_iff] at hs ht
  rcases hs with ⟨i, d, hi, hd, rfl⟩ | ⟨rfl, hout⟩
  · rcases ht with ⟨j, e, hj, he, rfl⟩ | ⟨rfl, hout⟩
    · obtain rfl := hrise.covered_once hi hj hd he
      obtain rfl : d = e := Option.some.inj (hi.symm.trans hj)
      rfl
    · exact absurd hout (hrise.between_of_covers (List.mem_of_getElem? hi) hd)
  · rcases ht with ⟨j, e, hj, he, rfl⟩ | ⟨rfl, -⟩
    · exact absurd hout (hrise.between_of_covers (List.mem_of_getElem? hj) he)
    · rfl

theorem Rising.isAt_locate [DecidableLE ω] [DecidableLT ω] :
    (laid start xs).IsAt o ((laid start xs).locate o) := by
  obtain ⟨-, hinside, hbelow, habove⟩ := hrise.ascending.brackets_rank o
  change _ ≤ (laid start xs).size at hinside
  rw [size_laid] at hinside
  simp only [getElem?_entries_laid] at hbelow habove
  cases hrank : (laid start xs).rank o with
  | zero =>
    have hlt : xs ≠ [] → o < start := by
      intro hne
      obtain ⟨x, ys, rfl⟩ := List.exists_cons_of_ne_nil hne
      exact habove 0 (start, x) rfl (Nat.le_of_eq hrank)
    rw [locate_laid_of_rank_zero hrank hlt, IsAt, start_laid, stop_laid]
    by_cases hempty : xs = []
    · rw [hempty, past, ← Std.not_lt]
      exact Classical.em _
    · exact .inl (hlt hempty)
  | succ k =>
    rw [hrank] at hbelow habove hinside
    obtain ⟨e, he⟩ : ∃ e, (placed start xs)[k]? = some e :=
      ⟨_, List.getElem?_eq_getElem (by rwa [length_placed])⟩
    have hle := hbelow k e he (Nat.lt_succ_self k)
    have hget : (laid start xs).get? k = some e := (getElem?_entries_laid k).trans he
    rw [locate_laid_of_rank hrank he hle]
    by_cases hstart : e.1 = o
    · rw [if_pos hstart, ← hstart]
      exact hget
    · rw [if_neg hstart]
      by_cases hend : o < e.1 + span e.2 e.1
      · rw [if_pos hend]
        exact ⟨e, hget, lt_of_le_of_ne hle hstart, hend⟩
      · rw [if_neg hend, IsAt, stop_laid]
        exact .inr (past_le_of_rank he (fun d hd => habove _ d hd (Nat.le_refl _)) (Std.not_lt.mp hend))

end Laid

section Words

variable {β : Type} [Spans β UInt64]

/-- What fits starts over nowhere, so that elements which cover an offset or more end past their starts. -/
theorem rising_of_fits {start : UInt64} {ys : List β} (hfits : start.toNat + extent (placed start ys) < 2 ^ 64)
    (hpos : ∀ e ∈ placed start ys, 0 < span e.2 e.1) : Rising start ys := by
  intro e he
  have hspan := UInt64.lt_iff_toNat_lt.mp (hpos e he)
  rw [UInt64.toNat_zero] at hspan
  rw [UInt64.lt_iff_toNat_lt, toNat_end hfits he]
  omega

end Words

end ClassCode.Layout
