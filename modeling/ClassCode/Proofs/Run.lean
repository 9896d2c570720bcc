import ClassCode.Fault

/-! Running edits. What each piece of an edit makes of a state, the state that an edit leaves, whether it
succeeds or fails part of the way, what it answers, and properties that no edit takes from a state. -/
namespace ClassCode.Run

variable {σ α β : Type}

section Apply

variable (s : σ)

@[simp] theorem pure_apply (a : α) : (pure a : EStateM Fault σ α) s = .ok a s := rfl

@[simp] theorem bind_apply (x : EStateM Fault σ α) (f : α → EStateM Fault σ β) :
    (x >>= f) s = match x s with
      | .ok a t => f a t
      | .error e t => .error e t := by
  simp only [bind, EStateM.bind]
  cases x s <;> rfl

@[simp] theorem get_apply : (get : EStateM Fault σ σ) s = .ok s s := rfl

@[simp] theorem set_apply (t : σ) : (set t : EStateM Fault σ PUnit) s = .ok ⟨⟩ t := rfl

@[simp] theorem modify_apply (f : σ → σ) : (modify f : EStateM Fault σ PUnit) s = .ok ⟨⟩ (f s) := rfl

@[simp] theorem modifyGet_apply (f : σ → α × σ) :
    (modifyGet f : EStateM Fault σ α) s = .ok (f s).1 (f s).2 := rfl

@[simp] theorem throw_apply (e : Fault) : (throw e : EStateM Fault σ α) s = .error e s := rfl

@[simp] theorem map_apply (f : α → β) (x : EStateM Fault σ α) :
    (f <$> x) s = match x s with
      | .ok a t => .ok (f a) t
      | .error e t => .error e t := by
  simp only [Functor.map, EStateM.map]
  cases x s <;> rfl

@[simp] theorem ofExcept_ok (a : α) : (ofExcept (.ok a) : EStateM Fault σ α) s = .ok a s := rfl

@[simp] theorem ofExcept_error (e : Fault) :
    (ofExcept (.error e) : EStateM Fault σ α) s = .error e s := rfl

@[simp] theorem ofExcept_pure (a : α) : (ofExcept (pure a) : EStateM Fault σ α) s = .ok a s := rfl

@[simp] theorem ofExcept_throw (e : Fault) :
    (ofExcept (throw e) : EStateM Fault σ α) s = .error e s := rfl

end Apply

/-- The state that an edit leaves, whether it succeeds or fails. -/
def leaves (edit : EStateM Fault σ α) (s : σ) : σ :=
  match edit s with
  | .ok _ t => t
  | .error _ t => t

theorem leaves_of_eq_ok {edit : EStateM Fault σ α} {s t : σ} {a : α} (h : edit s = .ok a t) : leaves edit s = t := by
  rw [leaves, h]

theorem leaves_of_eq_error {edit : EStateM Fault σ α} {s t : σ} {e : Fault} (h : edit s = .error e t) :
    leaves edit s = t := by
  rw [leaves, h]

def answer? (edit : EStateM Fault σ α) (s : σ) : Option α :=
  match edit s with
  | .ok a _ => some a
  | .error _ _ => none

def fault? (edit : EStateM Fault σ α) (s : σ) : Option Fault :=
  match edit s with
  | .ok _ _ => none
  | .error e _ => some e

theorem answer?_eq_some_iff {edit : EStateM Fault σ α} {s : σ} {a : α} :
    answer? edit s = some a ↔ edit s = .ok a (leaves edit s) := by
  rw [answer?, leaves]
  cases edit s <;> simp

theorem fault?_eq_some_iff {edit : EStateM Fault σ α} {s : σ} {e : Fault} :
    fault? edit s = some e ↔ edit s = .error e (leaves edit s) := by
  rw [fault?, leaves]
  cases edit s <;> simp

/-- An edit keeps a property when it leaves no state without it. -/
def Keeps (I : σ → Prop) (edit : EStateM Fault σ α) : Prop := ∀ s, I s → I (leaves edit s)

theorem keeps_pure {I : σ → Prop} (a : α) : Keeps I (pure a : EStateM Fault σ α) := fun _ hs => hs

theorem keeps_throw {I : σ → Prop} (e : Fault) : Keeps I (throw e : EStateM Fault σ α) := fun _ hs => hs

theorem keeps_get {I : σ → Prop} : Keeps I (get : EStateM Fault σ σ) := fun _ hs => hs

theorem keeps_modify {I : σ → Prop} {f : σ → σ} (hf : ∀ s, I s → I (f s)) :
    Keeps I (modify f : EStateM Fault σ PUnit) := hf

theorem keeps_ofExcept {I : σ → Prop} (r : Except Fault α) : Keeps I (ofExcept r : EStateM Fault σ α) := by
  cases r with
  | ok a => exact keeps_pure a
  | error e => exact keeps_throw e

theorem keeps_bind {I : σ → Prop} {x : EStateM Fault σ α} {f : α → EStateM Fault σ β}
    (hx : Keeps I x) (hf : ∀ a, Keeps I (f a)) : Keeps I (x >>= f) := by
  intro s hs
  have hmid := hx s hs
  unfold leaves at hmid ⊢
  rw [bind_apply]
  cases h : x s with
  | ok a t =>
    rw [h] at hmid
    exact hf a t hmid
  | error e t =>
    rw [h] at hmid
    exact hmid

theorem keeps_forM {I : σ → Prop} {f : α → EStateM Fault σ PUnit} (hf : ∀ a, Keeps I (f a)) (as : List α) :
    Keeps I (forM as f) := by
  induction as with
  | nil => exact keeps_pure PUnit.unit
  | cons a as ih => exact keeps_bind (hf a) fun _ => ih

end ClassCode.Run
