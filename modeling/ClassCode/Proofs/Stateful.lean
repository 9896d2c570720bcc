/-! Steps with a state of their own that may fail. A failure leaves the state that it came about in, so what the state
remembers tells which steps were taken: a step for every element of a list is taken for one after the other, up to
the first at which it fails. -/
namespace ClassCode.Stateful

variable {ε σ α β : Type}

/-- What a step that has a state of its own does in the state `s`: it gives something or fails, and leaves a
state. -/
def taken (x : ExceptT ε (StateM σ) α) (s : σ) : Except ε α × σ := x.run.run s

inductive AcceptsAll (f : α → ExceptT ε (StateM σ) β) : List α → σ → List β → σ → Prop
  | nil {s : σ} : AcceptsAll f [] s [] s
  | cons {x : α} {xs : List α} {y : β} {ys : List β} {s t u : σ} (head : taken (f x) s = (.ok y, t))
      (tail : AcceptsAll f xs t ys u) : AcceptsAll f (x :: xs) s (y :: ys) u

variable {x : ExceptT ε (StateM σ) α} {g : α → ExceptT ε (StateM σ) β} {s t : σ}

theorem taken_pure (a : α) (s : σ) : taken (pure a : ExceptT ε (StateM σ) α) s = (.ok a, s) := rfl

theorem taken_bind : taken (x >>= g) s = match taken x s with
    | (.ok a, t) => taken (g a) t
    | (.error e, t) => (.error e, t) := by
  simp only [taken, ExceptT.run_bind, StateT.run_bind]
  change (match x.run.run s with | (a, t) => _) = _
  obtain ⟨e | a, t⟩ := x.run.run s <;> rfl

theorem taken_bind_eq_ok_iff {b : β} :
    taken (x >>= g) s = (.ok b, t) ↔ ∃ a u, taken x s = (.ok a, u) ∧ taken (g a) u = (.ok b, t) := by
  rw [taken_bind]
  obtain ⟨e | a, u⟩ := taken x s <;> simp [and_assoc]

theorem taken_bind_eq_error_iff {e : ε} :
    taken (x >>= g) s = (.error e, t) ↔
      taken x s = (.error e, t) ∨ ∃ a u, taken x s = (.ok a, u) ∧ taken (g a) u = (.error e, t) := by
  rw [taken_bind]
  obtain ⟨e | a, u⟩ := taken x s <;> simp [and_assoc]

theorem taken_map_eq_ok_iff {h : α → β} {b : β} :
    taken (h <$> x) s = (.ok b, t) ↔ ∃ a, taken x s = (.ok a, t) ∧ h a = b := by
  rw [map_eq_pure_bind, taken_bind_eq_ok_iff]
  simp only [taken_pure, Prod.mk.injEq, Except.ok.injEq]
  constructor
  · rintro ⟨a, u, hx, hb, rfl⟩
    exact ⟨a, hx, hb⟩
  · rintro ⟨a, hx, hb⟩
    exact ⟨a, t, hx, hb, rfl⟩

theorem taken_map_eq_error_iff {h : α → β} {e : ε} :
    taken (h <$> x) s = (.error e, t) ↔ taken x s = (.error e, t) := by
  rw [map_eq_pure_bind, taken_bind_eq_error_iff]
  simp [taken_pure]

section Lists

variable {f : α → ExceptT ε (StateM σ) β} {xs : List α} {s t : σ}

theorem AcceptsAll.length_eq {ys : List β} (h : AcceptsAll f xs s ys t) : ys.length = xs.length := by
  induction h with
  | nil => rfl
  | cons _ _ ih => rw [List.length_cons, List.length_cons, ih]

theorem taken_mapM_eq_ok_iff {ys : List β} : taken (xs.mapM f) s = (.ok ys, t) ↔ AcceptsAll f xs s ys t := by
  induction xs generalizing s ys with
  | nil =>
    constructor
    · rintro ⟨⟩
      exact .nil
    · rintro ⟨⟩
      rfl
  | cons x xs ih =>
    simp only [List.mapM_cons, taken_bind_eq_ok_iff, taken_pure, Prod.mk.injEq, Except.ok.injEq]
    constructor
    · rintro ⟨y, u, hx, zs, v, hxs, rfl, rfl⟩
      exact .cons hx (ih.mp hxs)
    · intro h
      cases h with
      | cons hx hxs => exact ⟨_, _, hx, _, _, ih.mpr hxs, rfl, rfl⟩

/-- A step for every element fails at the first one at which it fails, and is not taken for any after it. -/
theorem taken_mapM_eq_error_iff {e : ε} : taken (xs.mapM f) s = (.error e, t) ↔
    ∃ before x after ys u, xs = before ++ x :: after ∧ AcceptsAll f before s ys u ∧
      taken (f x) u = (.error e, t) := by
  induction xs generalizing s with
  | nil =>
    constructor
    · rintro ⟨⟩
    · rintro ⟨before, x, after, ys, u, h, -⟩
      simp at h
  | cons x xs ih =>
    simp only [List.mapM_cons, taken_bind_eq_error_iff, ih, taken_pure, Prod.mk.injEq, reduceCtorEq, false_and,
      and_false, exists_false, or_false]
    constructor
    · rintro (hx | ⟨y, v, hx, before, z, after, ys, u, rfl, hbefore, hz⟩)
      · exact ⟨[], x, xs, [], s, rfl, .nil, hx⟩
      · exact ⟨x :: before, z, after, y :: ys, u, rfl, .cons hx hbefore, hz⟩
    · rintro ⟨before, z, after, ys, u, hxs, hbefore, hz⟩
      cases hbefore with
      | nil =>
        obtain ⟨rfl, rfl⟩ := List.cons.inj hxs
        exact .inl hz
      | cons hx hrest =>
        obtain ⟨rfl, rfl⟩ := List.cons.inj hxs
        exact .inr ⟨_, _, hx, _, z, after, _, u, rfl, hrest, hz⟩

end Lists

end ClassCode.Stateful
