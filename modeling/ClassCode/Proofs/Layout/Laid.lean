import ClassCode.Layout

/-! Layouts of a list. Every layout that edits lead to is the one that its elements get when they are put
down one after the other from its start: an edit of the layout is the same edit of the list. -/
namespace ClassCode

namespace Layout

variable {ω α : Type} [Add ω] [Spans α ω]

/-- The elements of a list with the offsets that they get from `o` on. -/
def placed : ω → List α → List (ω × α)
  | _, [] => []
  | o, x :: xs => (o, x) :: placed (o + span x o) xs

def past : ω → List α → ω
  | o, [] => o
  | o, x :: xs => past (o + span x o) xs

def laid (start : ω) (xs : List α) : Layout ω α := (emptyAt start).append xs

@[simp] theorem placed_append (o : ω) (xs ys : List α) :
    placed o (xs ++ ys) = placed o xs ++ placed (past o xs) ys := by
  induction xs generalizing o with
  | nil => rfl
  | cons x xs ih => simp [placed, past, ih]

@[simp] theorem past_append (o : ω) (xs ys : List α) :
    past o (xs ++ ys) = past (past o xs) ys := by
  induction xs generalizing o with
  | nil => rfl
  | cons x xs ih => simp [past, ih]

@[simp] theorem map_snd_placed (o : ω) (xs : List α) : (placed o xs).map Prod.snd = xs := by
  induction xs generalizing o with
  | nil => rfl
  | cons x xs ih => simp [placed, ih]

@[simp] theorem length_placed (o : ω) (xs : List α) : (placed o xs).length = xs.length := by
  rw [← List.length_map (f := Prod.snd), map_snd_placed]

theorem placed_eq_append_iff {o : ω} {xs : List α} {es fs : List (ω × α)} :
    placed o xs = es ++ fs ↔
      ∃ ys zs, xs = ys ++ zs ∧ placed o ys = es ∧ placed (past o ys) zs = fs := by
  constructor
  · intro h
    have hxs : xs = es.map Prod.snd ++ fs.map Prod.snd := by
      rw [← map_snd_placed o xs, h, List.map_append]
    refine ⟨_, _, hxs, ?_⟩
    rw [hxs, placed_append] at h
    exact List.append_inj h (by simp)
  · rintro ⟨ys, zs, rfl, rfl, rfl⟩
    exact placed_append o ys zs

theorem placed_eq_cons_iff {o : ω} {xs : List α} {e : ω × α} {es : List (ω × α)} :
    placed o xs = e :: es ↔
      ∃ x ys, xs = x :: ys ∧ (o, x) = e ∧ placed (o + span x o) ys = es := by
  constructor
  · intro h
    cases xs with
    | nil => simp [placed] at h
    | cons x xs => exact ⟨x, xs, rfl, List.cons.inj h⟩
  · rintro ⟨x, ys, rfl, rfl, rfl⟩
    rfl

section Moved

variable {β : Type} [Spans β Nat] {xs : List β} {d : Nat} (hspan : ∀ x ∈ xs, ∀ o, span x (o + d) = span x o)
include hspan

/-- Elements that cover as much at a distance as they do here keep their distances from each other there. -/
theorem placed_add (o : Nat) : placed (o + d) xs = (placed o xs).map fun e => (e.1 + d, e.2) := by
  induction xs generalizing o with
  | nil => rfl
  | cons x xs ih =>
    rw [List.forall_mem_cons] at hspan
    rw [placed, hspan.1, Nat.add_right_comm, ih hspan.2]
    rfl

theorem past_add (o : Nat) : past (o + d) xs = past o xs + d := by
  induction xs generalizing o with
  | nil => rfl
  | cons x xs ih =>
    rw [List.forall_mem_cons] at hspan
    rw [past, hspan.1, Nat.add_right_comm, ih hspan.2]
    rfl

end Moved

theorem append_append (l : Layout ω α) (xs ys : List α) :
    (l.append xs).append ys = l.append (xs ++ ys) := by
  simp [append, List.foldl_append]

@[simp] theorem start_append (l : Layout ω α) (xs : List α) : (l.append xs).start = l.start := by
  induction xs generalizing l with
  | nil => rfl
  | cons x xs ih => exact ih (l.push x)

theorem toList_append (l : Layout ω α) (xs : List α) :
    (l.append xs).toList = l.toList ++ placed l.stop xs := by
  induction xs generalizing l with
  | nil => simp [append, placed]
  | cons x xs ih =>
    have h := ih (l.push x)
    simpa [append, toList, push, placed] using h

theorem stop_append (l : Layout ω α) (xs : List α) : (l.append xs).stop = past l.stop xs := by
  induction xs generalizing l with
  | nil => rfl
  | cons x xs ih => exact ih (l.push x)

omit [Add ω] [Spans α ω] in
theorem ext_toList {l m : Layout ω α} (hstart : l.start = m.start) (hlist : l.toList = m.toList)
    (hstop : l.stop = m.stop) : l = m := by
  cases l; cases m
  simp only [toList, Array.toList_inj] at hlist
  simp_all

@[simp] theorem start_laid (o : ω) (xs : List α) : (laid o xs).start = o := start_append _ xs

@[simp] theorem elements_laid (o : ω) (xs : List α) : (laid o xs).elements = xs := by
  simp [laid]

@[simp] theorem toList_laid (o : ω) (xs : List α) : (laid o xs).toList = placed o xs := by
  exact (toList_append _ xs).trans (by simp [toList, emptyAt])

@[simp] theorem stop_laid (o : ω) (xs : List α) : (laid o xs).stop = past o xs := stop_append _ xs

omit [Add ω] [Spans α ω] in
theorem size_eq_length_elements (l : Layout ω α) : l.size = l.elements.length := by
  simp [size, elements, toList]

@[simp] theorem size_laid (o : ω) (xs : List α) : (laid o xs).size = xs.length := by
  simp [size_eq_length_elements]

theorem getElem?_placed (o : ω) (xs : List α) (i : Nat) :
    (placed o xs)[i]? = xs[i]?.map fun x => (past o (xs.take i), x) := by
  induction xs generalizing o i with
  | nil => simp [placed]
  | cons x xs ih =>
    cases i with
    | zero => simp [placed, past]
    | succ i => simp [placed, past, ih]

omit [Add ω] [Spans α ω] in
theorem get?_eq_getElem?_toList (l : Layout ω α) (i : Nat) : l.get? i = l.toList[i]? := by
  simp [get?, toList]

theorem get?_laid (o : ω) (xs : List α) (i : Nat) :
    (laid o xs).get? i = xs[i]?.map fun x => (past o (xs.take i), x) := by
  rw [get?_eq_getElem?_toList, toList_laid, getElem?_placed]

theorem past_take_succ (o : ω) {xs : List α} {i : Nat} {x : α} (h : xs[i]? = some x) :
    past o (xs.take (i + 1)) = past o (xs.take i) + span x (past o (xs.take i)) := by
  rw [List.take_add_one, h, past_append]
  rfl

theorem endBefore_laid (o : ω) (xs : List α) (i : Nat) :
    (laid o xs).endBefore i = past o (xs.take i) := by
  cases i with
  | zero => exact start_laid o xs
  | succ i =>
    have hget : (laid o xs).entries[i]? = xs[i]?.map fun x => (past o (xs.take i), x) :=
      get?_laid o xs i
    rw [endBefore, hget]
    cases hx : xs[i]? with
    | none =>
      have hlen : xs.length ≤ i + 1 := Nat.le_succ_of_le (List.getElem?_eq_none_iff.mp hx)
      simp [List.take_of_length_le hlen]
    | some x => exact (past_take_succ o hx).symm

theorem startOf_laid (o : ω) (xs : List α) (i : Nat) : (laid o xs).startOf i = past o (xs.take i) := by
  have hget : (laid o xs).entries[i]? = xs[i]?.map fun x => (past o (xs.take i), x) := get?_laid o xs i
  rw [startOf, hget]
  cases hx : xs[i]? with
  | none => simp [List.take_of_length_le (List.getElem?_eq_none_iff.mp hx)]
  | some x => rfl

theorem take_placed (o : ω) (xs : List α) (i : Nat) : (placed o xs).take i = placed o (xs.take i) := by
  have hsplit := placed_append o (xs.take i) (xs.drop i)
  rw [List.take_append_drop] at hsplit
  rw [hsplit]
  rcases Nat.le_total i xs.length with hi | hi
  · rw [List.take_left' (by simp [hi])]
  · simp [List.drop_of_length_le hi, placed, List.take_of_length_le, hi]

/-- Cutting undoes every append past the cut. -/
@[simp] theorem cut_laid (o : ω) (xs : List α) (i : Nat) :
    (laid o xs).cut i = laid o (xs.take i) := by
  apply ext_toList
  · simp [cut]
  · have hlist : ((laid o xs).cut i).toList = (laid o xs).toList.take i := by
      simp [cut, toList]
    rw [hlist, toList_laid, toList_laid, take_placed]
  · exact (endBefore_laid o xs i).trans (stop_laid o _).symm

@[simp] theorem push_laid (o : ω) (xs : List α) (x : α) :
    (laid o xs).push x = laid o (xs ++ [x]) := by
  rw [laid, laid, ← append_append]
  rfl

@[simp] theorem append_laid (o : ω) (xs ys : List α) :
    (laid o xs).append ys = laid o (xs ++ ys) := append_append _ xs ys

theorem insert_laid (o : ω) (xs : List α) (i : Nat) (x : α) :
    (laid o xs).insert i x = laid o (xs.take i ++ x :: xs.drop i) := by
  rw [insert, relay_eq_append, map_snd_extract]
  simp

theorem erase_laid (o : ω) (xs : List α) (i : Nat) :
    (laid o xs).erase i = laid o (xs.eraseIdx i) := by
  rw [erase, relay_eq_append, map_snd_extract]
  simp [List.eraseIdx_eq_take_drop_succ]

theorem replace_laid (o : ω) (xs : List α) (i : Nat) (x : α) (hi : i < xs.length) :
    (laid o xs).replace i x = laid o (xs.set i x) := by
  rw [replace, relay_eq_append, map_snd_extract]
  simp [List.set_eq_take_append_cons_drop, hi]

theorem offsets_congr {β : Type} [Spans β ω] {xs : List α} {ys : List β}
    (h : xs.map span = ys.map span) (o : ω) :
    (placed o xs).map Prod.fst = (placed o ys).map Prod.fst ∧ past o xs = past o ys := by
  induction xs generalizing o ys with
  | nil =>
    obtain rfl : ys = [] := by simpa using h.symm
    exact ⟨rfl, rfl⟩
  | cons x xs ih =>
    cases ys with
    | nil => simp at h
    | cons y ys =>
      simp only [List.map_cons, List.cons.injEq] at h
      simpa [placed, past, h.1] using ih h.2 (o + span y o)

section InPlace

variable (f : α → α) (hspan : ∀ x o, span (f x) o = span x o)
include hspan

theorem placed_map (o : ω) (xs : List α) :
    placed o (xs.map f) = (placed o xs).map fun e => (e.1, f e.2) := by
  induction xs generalizing o with
  | nil => rfl
  | cons x xs ih => simp [placed, hspan, ih]

theorem past_map (o : ω) (xs : List α) : past o (xs.map f) = past o xs := by
  induction xs generalizing o with
  | nil => rfl
  | cons x xs ih => simp [past, hspan, ih]

theorem placed_modify (o : ω) (xs : List α) (i : Nat) :
    placed o (xs.modify i f) = (placed o xs).modify i fun e => (e.1, f e.2) := by
  induction xs generalizing o i with
  | nil => simp [placed]
  | cons x xs ih => cases i <;> simp [placed, hspan, ih]

theorem past_modify (o : ω) (xs : List α) (i : Nat) : past o (xs.modify i f) = past o xs := by
  induction xs generalizing o i with
  | nil => simp
  | cons x xs ih => cases i <;> simp [past, hspan, ih]

theorem update_laid (o : ω) (xs : List α) (i : Nat) :
    (laid o xs).update i f = laid o (xs.modify i f) := by
  apply ext_toList
  · simp [update]
  · rw [toList_laid, placed_modify f hspan, ← toList_laid]
    simp [update, toList]
  · rw [stop_laid, past_modify f hspan, ← stop_laid]
    rfl

theorem mapInPlace_laid (o : ω) (xs : List α) :
    (laid o xs).mapInPlace (fun _ _ x => f x) = laid o (xs.map f) := by
  apply ext_toList
  · simp [mapInPlace]
  · rw [toList_laid, placed_map f hspan, ← toList_laid]
    apply List.ext_getElem?
    simp [mapInPlace, toList]
  · rw [stop_laid, past_map f hspan, ← stop_laid]
    rfl

end InPlace

end Layout

end ClassCode
