import ClassCode.Bytes
import ClassCode.Proofs.Outcome
import ClassCode.Proofs.Run

/-! Writers by their bytes. A uniform writer does the same whatever is in the sink already: it puts some
bytes there and then succeeds or fails. What it writes is known from what its steps write. -/
namespace ClassCode.Writer

open Run Outcome

variable {α β : Type}

theorem put_nil : put [] = pure () := by
  funext s
  obtain ⟨_ | n, written⟩ := s <;> simp [put]

theorem put_append (xs ys : List UInt8) : put (xs ++ ys) = put xs >>= fun _ => put ys := by
  funext s
  obtain ⟨capacity, written⟩ := s
  have happend (zs : List UInt8) : written ++ (xs ++ zs) = written ++ xs ++ zs := by
    apply Array.ext'
    simp
  have hsize : (written ++ xs).size = written.size + xs.length := by
    simp [← Array.length_toList]
  rw [bind_apply]
  cases capacity with
  | none => simp [put, happend]
  | some n =>
    by_cases hx : xs.length ≤ n - written.size
    · by_cases hy : ys.length ≤ n - (written.size + xs.length)
      · have hboth : xs.length + ys.length ≤ n - written.size := by omega
        simp [put, hx, hy, hboth, happend, hsize]
      · have hboth : ¬ xs.length + ys.length ≤ n - written.size := by omega
        have hroom : n - written.size - xs.length = n - (written.size + xs.length) := by omega
        simp [put, hx, hy, hboth, List.take_append, List.take_of_length_le hx, hroom, happend, hsize]
    · have hboth : ¬ xs.length + ys.length ≤ n - written.size := by omega
      have hnone : n - written.size - xs.length = 0 := by omega
      simp [put, hx, hboth, List.take_append, hnone]

/-- What a writer does is to put some bytes, and to succeed or to fail. -/
def Uniform (w : Writer α) : Prop := ∃ out r, w = put out >>= fun _ => ofExcept r

theorem uniform_ofExcept (r : Except Fault α) : Uniform (ofExcept r) :=
  ⟨[], r, by simp [put_nil]⟩

theorem uniform_pure (x : α) : Uniform (pure x) := uniform_ofExcept (.ok x)

theorem uniform_throw (f : Fault) : Uniform (throw f : Writer α) := uniform_ofExcept (.error f)

theorem uniform_put (out : List UInt8) : Uniform (put out) := ⟨out, .ok (), bind_pure_unit.symm⟩

theorem uniform_bind {w : Writer α} {k : α → Writer β} (hw : Uniform w) (hk : ∀ x, Uniform (k x)) :
    Uniform (w >>= k) := by
  obtain ⟨out, r, rfl⟩ := hw
  cases r with
  | error f => exact ⟨out, .error f, by simp only [bind_assoc]; rfl⟩
  | ok x =>
    obtain ⟨out', r', hx⟩ := hk x
    refine ⟨out ++ out', r', ?_⟩
    rw [put_append, bind_assoc, bind_assoc]
    exact congrArg (put out >>= ·) (funext fun _ => hx)

theorem uniform_forM {f : α → Writer Unit} (hf : ∀ x, Uniform (f x)) (xs : List α) :
    Uniform (forM xs f) := by
  induction xs with
  | nil => exact uniform_pure ()
  | cons x xs ih => exact uniform_bind (hf x) fun _ => ih

theorem uniform_refuse {c : Prop} [Decidable c] {f : Fault} {w : Writer α} (hw : Uniform w) :
    Uniform (if c then throw f else w) := by
  split
  · exact uniform_throw f
  · exact hw

@[simp] theorem bytes_ofExcept (r : Except Fault Unit) : bytes (ofExcept r) = r.map fun _ => [] := by
  cases r <;> rfl

@[simp] theorem bytes_pure (x : Unit) : bytes (pure x) = .ok [] := rfl

@[simp] theorem bytes_put (out : List UInt8) : bytes (put out) = .ok out := by
  simp [bytes, runTo, put, Except.map]

@[simp] theorem bytes_ofExcept_bind (r : Except Fault α) (k : α → Writer Unit) :
    bytes (ofExcept r >>= k) = r >>= fun x => bytes (k x) := by
  cases r <;> rfl

theorem bytes_put_ofExcept (out : List UInt8) (r : Except Fault Unit) :
    bytes (put out >>= fun _ => ofExcept r) = r.map fun _ => out := by
  cases r <;> simp [bytes, runTo, put, Except.map]

theorem bytes_bind {w v : Writer Unit} (hw : Uniform w) (hv : Uniform v) :
    bytes (w >>= fun _ => v) = do
      let front ← bytes w
      let back ← bytes v
      return front ++ back := by
  obtain ⟨out, r, rfl⟩ := hw
  obtain ⟨out', r', rfl⟩ := hv
  rw [bytes_put_ofExcept, bytes_put_ofExcept]
  cases r with
  | error f => rw [bind_assoc]; exact bytes_put_ofExcept out (.error f)
  | ok x =>
    have hboth : (put out >>= fun _ => ofExcept (.ok x)) >>= (fun _ => put out' >>= fun _ => ofExcept r') =
        put (out ++ out') >>= fun _ => ofExcept r' := by
      rw [put_append, bind_assoc, bind_assoc]
      rfl
    rw [hboth, bytes_put_ofExcept]
    cases r' <;> rfl

theorem forM_put {f : α → Writer Unit} {image : α → List UInt8} {xs : List α}
    (h : ∀ x ∈ xs, f x = put (image x)) : forM xs f = put (xs.flatMap image) := by
  induction xs with
  | nil => exact put_nil.symm
  | cons x xs ih =>
    rw [List.forM_cons, h x (by simp), ih fun y hy => h y (by simp [hy]), List.flatMap_cons, put_append]

theorem bytes_forM {f : α → Writer Unit} (hf : ∀ x, Uniform (f x)) (xs : List α) :
    bytes (forM xs f) = List.flatten <$> xs.mapM fun x => bytes (f x) := by
  induction xs with
  | nil => exact bytes_pure ()
  | cons x xs ih =>
    rw [List.forM_cons, bytes_bind (hf x) (uniform_forM hf xs), ih, List.mapM_cons]
    cases bytes (f x) with
    | error e => rfl
    | ok front => cases xs.mapM fun x => bytes (f x) <;> rfl

theorem bytes_forM_eq_ok_iff {f : α → Writer Unit} (hf : ∀ x, Uniform (f x)) {xs : List α} {out : List UInt8} :
    bytes (forM xs f) = .ok out ↔ ∃ parts, xs.mapM (fun x => bytes (f x)) = .ok parts ∧ out = parts.flatten := by
  rw [bytes_forM hf, map_eq_ok_iff]
  simp only [eq_comm]

theorem bytes_forM_eq_error_iff {f : α → Writer Unit} (hf : ∀ x, Uniform (f x)) {xs : List α} {e : Fault} :
    bytes (forM xs f) = .error e ↔ xs.findSome? (fun x => error? (bytes (f x))) = some e := by
  rw [bytes_forM hf, map_eq_error_iff, ← error?_mapM, error?_eq_some_iff]

/-- Writes `out` where the check grants it, and fails as the check does where not. -/
structure Emits (w : Writer Unit) (check : Except Fault Unit) (out : List UInt8) : Prop where
  uniform : Uniform w
  bytes_eq : bytes w = (fun _ => out) <$> check

section Emits

variable {w v : Writer Unit} {c d : Except Fault Unit} {out back : List UInt8}

theorem Emits.bytes_eq_ok_iff (h : Emits w c out) {b : List UInt8} :
    bytes w = .ok b ↔ c = .ok () ∧ b = out := by
  rw [h.bytes_eq, map_eq_ok_iff]
  constructor
  · rintro ⟨_, hc, rfl⟩
    exact ⟨hc, rfl⟩
  · rintro ⟨hc, rfl⟩
    exact ⟨(), hc, rfl⟩

theorem Uniform.emits (hw : Uniform w) (hout : ∀ b, bytes w = .ok b → b = out) :
    Emits w (bytes w >>= fun _ => pure ()) out where
  uniform := hw
  bytes_eq := by
    cases hb : bytes w with
    | error f => rfl
    | ok b =>
      rw [hout b hb]
      rfl

theorem emits_put (out : List UInt8) : Emits (put out) (pure ()) out where
  uniform := uniform_put out
  bytes_eq := bytes_put out

theorem emits_pure : Emits (pure ()) (pure ()) [] where
  uniform := uniform_pure ()
  bytes_eq := rfl

theorem emits_ofExcept (c : Except Fault Unit) : Emits (ofExcept c) c [] where
  uniform := uniform_ofExcept c
  bytes_eq := bytes_ofExcept c

theorem Emits.bind (hw : Emits w c out) (hv : Emits v d back) :
    Emits (w >>= fun _ => v) (c >>= fun _ => d) (out ++ back) where
  uniform := uniform_bind hw.uniform fun _ => hv.uniform
  bytes_eq := by
    rw [bytes_bind hw.uniform hv.uniform, hw.bytes_eq, hv.bytes_eq]
    cases c <;> cases d <;> rfl

theorem Emits.forM {f : α → Writer Unit} {check : α → Except Fault Unit} {image : α → List UInt8}
    (h : ∀ x, Emits (f x) (check x) (image x)) (xs : List α) :
    Emits (forM xs f) (forM xs check) (xs.flatMap image) := by
  induction xs with
  | nil => exact emits_pure
  | cons x xs ih => exact (h x).bind ih

end Emits

/-! Writing to a sink of limited capacity. A uniform writer does the same there as without a limit until the sink is
full, so that the sink holds the first of its bytes, and it fails just when not all of them fit. -/

variable {w : Writer Unit}

/-- A sink of capacity `n` holds as many of the bytes `out` as fit when the writer is done with it, and the
writer succeeds just when all of them do. -/
structure HoldsFront (w : Writer Unit) (out : List UInt8) (n : Nat) : Prop where
  written : (w.runTo (some n)).1 = out.take n
  succeeds : (w.runTo (some n)).2 = .ok () ↔ out.length ≤ n
  fails : n < out.length → (w.runTo (some n)).2 = .error .sinkFull

theorem runTo_put_ofExcept (out : List UInt8) (r : Except Fault Unit) :
    (put out >>= fun _ => ofExcept r).runTo none = (out, r) := by
  cases r <;> simp [runTo, put]

theorem bytes_eq_ok_iff {out : List UInt8} : w.bytes = .ok out ↔ w.runTo none = (out, .ok ()) := by
  rw [bytes]
  obtain ⟨written, r⟩ := w.runTo none
  cases r <;> simp [Except.map]

/-- Whatever a uniform writer fails for without a limit, it fails for a full sink if that comes first. -/
theorem Uniform.runTo_some (hw : Uniform w) (n : Nat) :
    w.runTo (some n) = ((w.runTo none).1.take n,
      if (w.runTo none).1.length ≤ n then (w.runTo none).2 else .error .sinkFull) := by
  obtain ⟨out, r, rfl⟩ := hw
  rw [runTo_put_ofExcept]
  by_cases h : out.length ≤ n
  · cases r <;> simp [runTo, put, h, List.take_of_length_le h]
  · simp [runTo, put, h]

theorem Uniform.holdsFront (hw : Uniform w) {out : List UInt8} (h : w.bytes = .ok out) (n : Nat) :
    w.HoldsFront out n := by
  have hrun := hw.runTo_some n
  rw [bytes_eq_ok_iff.mp h] at hrun
  refine ⟨congrArg Prod.fst hrun, ?_, fun hn => ?_⟩
  · rw [hrun]
    by_cases hn : out.length ≤ n <;> simp [hn]
  · rw [hrun, if_neg (Nat.not_le_of_lt hn)]

end ClassCode.Writer
