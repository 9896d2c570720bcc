/-! Computations that succeed. What a chain of steps, or the same step for every element of a list, has to
have done when it came to its end, and what it failed for when it did not. -/
namespace ClassCode.Outcome

variable {ε α β γ : Type}

@[simp] theorem bind_eq_ok_iff {x : Except ε α} {f : α → Except ε β} {y : β} :
    x >>= f = .ok y ↔ ∃ a, x = .ok a ∧ f a = .ok y := by
  cases x with
  | error e => constructor <;> intro h <;> simp_all [bind, Except.bind]
  | ok a => simp [bind, Except.bind]

@[simp] theorem map_eq_ok_iff {x : Except ε α} {f : α → β} {y : β} :
    f <$> x = .ok y ↔ ∃ a, x = .ok a ∧ f a = y := by
  cases x <;> simp [Functor.map, Except.map]

@[simp] theorem map_eq_error_iff {x : Except ε α} {f : α → β} {e : ε} :
    f <$> x = .error e ↔ x = .error e := by
  cases x <;> simp [Functor.map, Except.map]

@[simp] theorem pure_eq_ok_iff {x y : α} : (pure x : Except ε α) = .ok y ↔ x = y := by
  simp [pure, Except.pure]

@[simp] theorem throw_eq_ok_iff {e : ε} {y : α} : (throw e : Except ε α) = .ok y ↔ False := by
  simp [throw, throwThe, MonadExceptOf.throw]

@[simp] theorem pure_eq_error_iff {x : α} {e : ε} : (pure x : Except ε α) = .error e ↔ False := by
  simp [pure, Except.pure]

@[simp] theorem throw_eq_error_iff {e f : ε} : (throw e : Except ε α) = .error f ↔ e = f := by
  simp [throw, throwThe, MonadExceptOf.throw]

@[simp] theorem ok_bind (a : α) (f : α → Except ε β) : (Except.ok a >>= f) = f a := rfl

theorem bind_eq_error_iff {x : Except ε α} {f : α → Except ε β} {e : ε} :
    x >>= f = .error e ↔ x = .error e ∨ ∃ a, x = .ok a ∧ f a = .error e := by
  cases x <;> simp [bind, Except.bind]

theorem discard_ite {c : Prop} [Decidable c] (x : α) (e : ε) :
    (discard (if c then pure x else throw e) : Except ε Unit) = if c then .ok () else .error e := by
  split <;> rfl

def error? : Except ε α → Option ε
  | .ok _ => none
  | .error e => some e

@[simp] theorem error?_eq_some_iff {x : Except ε α} {e : ε} : error? x = some e ↔ x = .error e := by
  cases x <;> simp [error?]

@[simp] theorem error?_eq_none_iff {x : Except ε α} : error? x = none ↔ ∃ a, x = .ok a := by
  cases x <;> simp [error?]

@[simp] theorem error?_pure (a : α) : error? (pure a : Except ε α) = none := rfl

@[simp] theorem error?_throw (e : ε) : error? (throw e : Except ε α) = some e := rfl

@[simp] theorem error?_map (f : α → β) (x : Except ε α) : error? (f <$> x) = error? x := by
  cases x <;> rfl

/-- A step for every element fails for what it fails for at the first element at which it does. -/
theorem error?_mapM (f : α → Except ε β) (xs : List α) :
    error? (xs.mapM f) = xs.findSome? fun x => error? (f x) := by
  induction xs with
  | nil => rfl
  | cons x xs ih =>
    rw [List.mapM_cons, List.findSome?_cons, ← ih]
    cases f x with
    | error e => rfl
    | ok y => cases xs.mapM f <;> rfl

theorem error?_forM (f : α → Except ε Unit) (xs : List α) :
    error? (forM xs f) = xs.findSome? fun x => error? (f x) := by
  induction xs with
  | nil => rfl
  | cons x xs ih =>
    rw [List.forM_cons, List.findSome?_cons, ← ih]
    cases f x with
    | error e => rfl
    | ok _ => rfl

theorem mapM_eq_ok_iff {f : α → Except ε β} {xs : List α} {ys : List β} :
    xs.mapM f = .ok ys ↔ xs.map f = ys.map .ok := by
  induction xs generalizing ys with
  | nil => cases ys <;> simp
  | cons x xs ih =>
    cases ys with
    | nil => simp
    | cons y ys =>
      simp only [List.mapM_cons, bind_eq_ok_iff, pure_eq_ok_iff, List.cons.injEq, List.map_cons]
      constructor
      · rintro ⟨_, hx, _, hxs, rfl, rfl⟩
        exact ⟨hx, ih.mp hxs⟩
      · rintro ⟨hx, hxs⟩
        exact ⟨y, hx, ys, ih.mpr hxs, rfl, rfl⟩

theorem length_of_mapM {f : α → Except ε β} {xs : List α} {ys : List β}
    (h : xs.mapM f = .ok ys) : ys.length = xs.length := by
  simpa using (congrArg List.length (mapM_eq_ok_iff.mp h)).symm

theorem mapM_getElem? {f : α → Except ε β} {xs : List α} {ys : List β} (h : xs.mapM f = .ok ys) {i : Nat}
    {x : α} (hx : xs[i]? = some x) : ∃ y, ys[i]? = some y ∧ f x = .ok y := by
  have hget := congrArg (fun zs => zs[i]?) (mapM_eq_ok_iff.mp h)
  simp only [List.getElem?_map, hx, Option.map_some] at hget
  obtain ⟨y, hy, hok⟩ := Option.map_eq_some_iff.mp hget.symm
  exact ⟨y, hy, hok.symm⟩

theorem mapM_getElem?_right {f : α → Except ε β} {xs : List α} {ys : List β} (h : xs.mapM f = .ok ys)
    {i : Nat} {y : β} (hy : ys[i]? = some y) : ∃ x, xs[i]? = some x ∧ f x = .ok y := by
  have hget := congrArg (fun zs => zs[i]?) (mapM_eq_ok_iff.mp h)
  simp only [List.getElem?_map, hy, Option.map_some] at hget
  obtain ⟨x, hx, hok⟩ := Option.map_eq_some_iff.mp hget
  exact ⟨x, hx, hok⟩

theorem mapM_exists {f : α → Except ε β} {xs : List α}
    (h : ∀ x ∈ xs, ∃ y, f x = .ok y) : ∃ ys, xs.mapM f = .ok ys := by
  induction xs with
  | nil => exact ⟨[], rfl⟩
  | cons x xs ih =>
    obtain ⟨y, hy⟩ := h x (by simp)
    obtain ⟨ys, hys⟩ := ih fun x hx => h x (by simp [hx])
    exact ⟨y :: ys, by simp [hy, hys]⟩

theorem mapM_forall {f : α → Except ε β} {xs : List α} {ys : List β} (h : xs.mapM f = .ok ys) :
    ∀ x ∈ xs, ∃ y ∈ ys, f x = .ok y := by
  intro x hx
  have hmem : f x ∈ ys.map Except.ok := by
    rw [← mapM_eq_ok_iff.mp h]
    exact List.mem_map_of_mem hx
  obtain ⟨y, hy, he⟩ := List.mem_map.mp hmem
  exact ⟨y, hy, he.symm⟩

theorem mapM_forall_right {f : α → Except ε β} {xs : List α} {ys : List β}
    (h : xs.mapM f = .ok ys) : ∀ y ∈ ys, ∃ x ∈ xs, f x = .ok y := by
  intro y hy
  have hmem : Except.ok y ∈ xs.map f := by
    rw [mapM_eq_ok_iff.mp h]
    exact List.mem_map_of_mem hy
  obtain ⟨x, hx, he⟩ := List.mem_map.mp hmem
  exact ⟨x, hx, he⟩

theorem mapM_of_mapM {f : α → Except ε β} {g : β → Except ε γ} {k : α → Except ε γ} {xs : List α}
    {ys : List β} (h : xs.mapM f = .ok ys) (hk : ∀ x ∈ xs, ∀ y, f x = .ok y → g y = k x) :
    ys.mapM g = xs.mapM k := by
  induction xs generalizing ys with
  | nil =>
    cases ys with
    | nil => rfl
    | cons y ys => simp at h
  | cons x xs ih =>
    simp only [List.mapM_cons, bind_eq_ok_iff, pure_eq_ok_iff] at h
    obtain ⟨y, hy, ys, hys, rfl⟩ := h
    have htail := ih hys fun x hx => hk x (by simp [hx])
    simp [hk x (by simp) y hy, htail]

theorem mapM_eq_ok_map {f : α → Except ε β} {g : α → Except ε γ} {k : β → γ} {xs : List α}
    {ys : List β} (h : xs.mapM f = .ok ys) (hk : ∀ x ∈ xs, ∀ y, f x = .ok y → g x = .ok (k y)) :
    xs.mapM g = .ok (ys.map k) := by
  rw [← mapM_of_mapM h fun x hx y hy => (hk x hx y hy).symm, mapM_eq_ok_iff, List.map_map]
  rfl

theorem mapM_congr_map {f : α → Except ε γ} {g : β → Except ε γ} {xs : List α} {ys : List β}
    (h : xs.map f = ys.map g) : xs.mapM f = ys.mapM g := by
  have hf := List.mapM_map (f := f) (g := (fun x => x : Except ε γ → Except ε γ)) (l := xs)
  have hg := List.mapM_map (f := g) (g := (fun x => x : Except ε γ → Except ε γ)) (l := ys)
  rw [h] at hf
  exact hf.symm.trans hg

theorem forM_eq_ok_iff {f : α → Except ε Unit} {xs : List α} :
    forM xs f = .ok () ↔ ∀ x ∈ xs, f x = .ok () := by
  induction xs with
  | nil => exact ⟨fun _ _ hx => by simp at hx, fun _ => rfl⟩
  | cons x xs ih =>
    rw [List.forM_cons, bind_eq_ok_iff, ih]
    constructor
    · rintro ⟨_, hx, hxs⟩
      simpa using ⟨hx, hxs⟩
    · intro h
      exact ⟨(), h x (by simp), fun y hy => h y (by simp [hy])⟩

/-- A step that refuses the elements with some property stops at the first of them. -/
theorem forM_eq_find? {f : α → Except ε Unit} {p : α → Bool} {g : α → ε} {xs : List α}
    (h : ∀ x ∈ xs, f x = if p x then .error (g x) else .ok ()) :
    forM xs f = (xs.find? p).elim (.ok ()) fun x => .error (g x) := by
  induction xs with
  | nil => rfl
  | cons x xs ih =>
    have hrest := ih fun y hy => h y (List.mem_cons_of_mem x hy)
    rw [List.forM_cons, h x List.mem_cons_self, List.find?_cons]
    cases p x with
    | true => rfl
    | false => exact hrest

end ClassCode.Outcome
