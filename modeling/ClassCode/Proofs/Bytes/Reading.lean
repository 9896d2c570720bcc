import ClassCode.Bytes
import ClassCode.Proofs.Outcome

/-! Readers that accept. A reader recognizes an image when it answers with a value just where the bytes
begin with the image of that value, and leaves the bytes after it. -/
namespace ClassCode

namespace BigEndian

theorem foldl_value (bytes : List UInt8) (a : Nat) :
    bytes.foldl (fun n b => n * 256 + b.toNat) a = a * bound bytes.length + value bytes := by
  induction bytes generalizing a with
  | nil => simp [value, bound]
  | cons b bytes ih =>
    rw [value, List.foldl_cons, List.foldl_cons, ih, ih (0 * 256 + b.toNat), List.length_cons, bound]
    grind

theorem value_cons (b : UInt8) (bytes : List UInt8) :
    value (b :: bytes) = b.toNat * bound bytes.length + value bytes := by
  rw [value, List.foldl_cons, foldl_value]
  simp

theorem value_lt (bytes : List UInt8) : value bytes < bound bytes.length := by
  induction bytes with
  | nil => exact Nat.one_pos
  | cons b bytes ih =>
    have hb : b.toNat < 256 := b.toNat_lt
    rw [value_cons, List.length_cons, bound]
    calc b.toNat * bound bytes.length + value bytes
        < b.toNat * bound bytes.length + bound bytes.length := by omega
      _ = (b.toNat + 1) * bound bytes.length := by grind
      _ ≤ 256 * bound bytes.length := Nat.mul_le_mul_right _ hb

theorem octets_add_mul (n v k : Nat) : octets n (v + k * bound n) = octets n v := by
  induction n generalizing k with
  | zero => rfl
  | succ n ih =>
    have hcarry : v + k * bound (n + 1) = v + (k * 256) * bound n := by rw [bound, Nat.mul_assoc]
    have hdigit : ((v + k * 256 * bound n) / bound n).toUInt8 = (v / bound n).toUInt8 := by
      rw [Nat.add_mul_div_right _ _ (bound_pos n)]
      apply UInt8.toNat_inj.mp
      simp
    rw [octets, octets, hcarry, hdigit, ih]

theorem octets_value (bytes : List UInt8) : octets bytes.length (value bytes) = bytes := by
  induction bytes with
  | nil => rfl
  | cons b bytes ih =>
    have hfirst : (b.toNat * bound bytes.length + value bytes) / bound bytes.length = b.toNat := by
      rw [Nat.add_comm, Nat.add_mul_div_right _ _ (bound_pos _), Nat.div_eq_of_lt (value_lt bytes),
        Nat.zero_add]
    rw [value_cons, List.length_cons, octets, hfirst, Nat.add_comm, octets_add_mul, ih]
    simp

end BigEndian

namespace Reader

open BigEndian

variable {α β : Type} {bytes rest : List UInt8}

theorem bind_eq_ok_iff {r : Reader α} {f : α → Reader β} {y : β} :
    (r >>= f) bytes = .ok (y, rest) ↔
      ∃ x mid, r bytes = .ok (x, mid) ∧ f x mid = .ok (y, rest) := by
  change (r bytes >>= fun p => f p.1 p.2) = _ ↔ _
  rw [Outcome.bind_eq_ok_iff]
  exact Prod.exists

theorem bind_of_ok {r : Reader α} {x : α} {mid : List UInt8} (h : r bytes = .ok (x, mid))
    (f : α → Reader β) : (r >>= f) bytes = f x mid := by
  change (r bytes >>= fun p => f p.1 p.2) = _
  rw [h]
  rfl

theorem bind_of_error {r : Reader α} {e : Fault} (h : r bytes = .error e) (f : α → Reader β) :
    (r >>= f) bytes = .error e := by
  change (r bytes >>= fun p => f p.1 p.2) = _
  rw [h]
  rfl

theorem pure_eq_ok_iff {x y : α} :
    (pure x : Reader α) bytes = .ok (y, rest) ↔ x = y ∧ bytes = rest := by
  change Except.ok (x, bytes) = _ ↔ _
  simp

theorem throw_eq_ok_iff {f : Fault} {y : α} :
    (throw f : Reader α) bytes = .ok (y, rest) ↔ False := by
  change Except.error f = _ ↔ _
  simp

theorem malformed_eq_ok_iff {cause : Malformed} {y : α} :
    (malformed cause : Reader α) bytes = .ok (y, rest) ↔ False := throw_eq_ok_iff

theorem refuse_eq_ok_iff {c : Prop} [Decidable c] {cause : Malformed} {k : α → Reader β} {r : Reader β}
    {y : β} : (if c then malformed cause >>= k else r) bytes = .ok (y, rest) ↔
      ¬ c ∧ r bytes = .ok (y, rest) := by
  by_cases hc : c
  · simp only [hc, if_true, bind_eq_ok_iff, malformed_eq_ok_iff]
    simp
  · simp [hc]

theorem ofExcept_eq_ok_iff {e : Except Fault α} {y : α} :
    (ofExcept e : Reader α) bytes = .ok (y, rest) ↔ e = .ok y ∧ bytes = rest := by
  cases e with
  | error f => exact throw_eq_ok_iff.trans (by simp)
  | ok x => exact pure_eq_ok_iff.trans (by simp)

theorem take_eq_ok_iff {n : Nat} {front : List UInt8} :
    take n bytes = .ok (front, rest) ↔ front.length = n ∧ bytes = front ++ rest := by
  rw [take]
  constructor
  · intro h
    split at h
    · rename_i hn
      simp only [Except.ok.injEq, Prod.mk.injEq] at h
      obtain ⟨rfl, rfl⟩ := h
      exact ⟨hn, (List.take_append_drop n bytes).symm⟩
    · simp at h
  · rintro ⟨rfl, rfl⟩
    simp

theorem number_eq_ok_iff {n v : Nat} :
    number n bytes = .ok (v, rest) ↔ v < bound n ∧ bytes = octets n v ++ rest := by
  rw [number, bind_eq_ok_iff]
  simp only [pure_eq_ok_iff, take_eq_ok_iff]
  constructor
  · rintro ⟨front, _, ⟨rfl, rfl⟩, rfl, rfl⟩
    exact ⟨value_lt front, by rw [octets_value]⟩
  · rintro ⟨hv, rfl⟩
    exact ⟨octets n v, rest, by simp, by simp [Nat.mod_eq_of_lt hv]⟩

/-- Accepts the images of the values that fit, and no other bytes. -/
def Recognizes (r : Reader α) (fits : α → Prop) (image : α → List UInt8) : Prop :=
  ∀ bytes x rest, r bytes = .ok (x, rest) ↔ fits x ∧ bytes = image x ++ rest

variable {r : Reader α} {fits : α → Prop} {image : α → List UInt8}

theorem timesOnto_eq_ok_iff (h : r.Recognizes fits image) {n : Nat} {acc ys : List α} :
    timesOnto r acc n bytes = .ok (ys, rest) ↔
      ∃ xs, ys = acc.reverse ++ xs ∧ xs.length = n ∧ (∀ x ∈ xs, fits x) ∧
        bytes = xs.flatMap image ++ rest := by
  induction n generalizing acc bytes with
  | zero =>
    rw [timesOnto, pure_eq_ok_iff]
    constructor
    · rintro ⟨rfl, rfl⟩
      exact ⟨[], by simp⟩
    · rintro ⟨xs, rfl, hlen, -, rfl⟩
      rw [List.length_eq_zero_iff] at hlen
      simp [hlen]
  | succ n ih =>
    simp only [timesOnto, bind_eq_ok_iff, h _ _ _, ih]
    constructor
    · rintro ⟨x, _, ⟨hx, rfl⟩, xs, rfl, rfl, hxs, rfl⟩
      exact ⟨x :: xs, by simp, by simp, by simpa using ⟨hx, hxs⟩, by simp⟩
    · rintro ⟨xs, rfl, hlen, hxs, rfl⟩
      obtain ⟨x, xs, rfl⟩ := List.exists_cons_of_length_eq_add_one hlen
      simp only [List.mem_cons, forall_eq_or_imp] at hxs
      exact ⟨x, xs.flatMap image ++ rest, ⟨hxs.1, by simp⟩, xs, by simp, by simpa using hlen, hxs.2, rfl⟩

theorem times_eq_ok_iff (h : r.Recognizes fits image) {n : Nat} {xs : List α} :
    times r n bytes = .ok (xs, rest) ↔
      xs.length = n ∧ (∀ x ∈ xs, fits x) ∧ bytes = xs.flatMap image ++ rest := by
  rw [times, timesOnto_eq_ok_iff h]
  simp

end Reader

end ClassCode
