import ClassCode.Proofs.Code.Scanning
import ClassCode.Proofs.Code.Tracking
import ClassCode.Proofs.Layout.Search
import ClassCode.Proofs.Table

/-! The bytes of code. Code is encoded when all its jumps lead to instructions that are there and near
enough; then its bytes are those of its instructions, each at its offset. -/
namespace ClassCode

theorem Layout.mapM_placed {α β ε : Type} [Spans α Nat] [Spans β Nat] {f : Nat → α → Except ε β}
    (hspan : ∀ o x y, f o x = .ok y → ∀ o, span y o = span x o) {o : Nat} {xs : List α}
    {ps : List (Nat × β)} (h : ((placed o xs).mapM fun e => return (e.1, ← f e.1 e.2)) = .ok ps) :
    ∃ ys, ps = placed o ys ∧ ys.map span = xs.map span := by
  induction xs generalizing o ps with
  | nil =>
    obtain rfl : [] = ps := by simpa [placed] using h
    exact ⟨[], rfl, rfl⟩
  | cons x xs ih =>
    simp only [placed, List.mapM_cons, Outcome.bind_eq_ok_iff, Outcome.pure_eq_ok_iff] at h
    obtain ⟨_, ⟨y, hy, rfl⟩, qs, hqs, rfl⟩ := h
    obtain ⟨ys, rfl, hys⟩ := ih hqs
    have hy' := funext (hspan o x y hy)
    exact ⟨y :: ys, by rw [placed, hy'], by rw [List.map_cons, List.map_cons, hy', hys]⟩

namespace Code

open Std Outcome Writer

/-- The instructions with the offsets of those that they lead to. -/
def addressed (c : Code) : Except Fault (List (Nat × Instruction Nat)) :=
  c.toList.mapM fun e => return (e.1, ← c.place e.1 e.2.instruction)

def Writable (ps : List (Nat × Instruction Nat)) : Prop :=
  ∀ e ∈ ps, e.2.misfit? = none ∧ e.2.InReach e.1

theorem uniform_writeEntry (c : Code) (e : Nat × Node) : (do
    let i ← ofExcept (c.place e.1 e.2.instruction)
    i.write e.1 : Writer Unit).Uniform :=
  uniform_bind (uniform_ofExcept _) fun i => (Instruction.emits_write e.1 i).uniform

theorem bytes_writeAll_eq_ok_iff {c : Code} {es : List (Nat × Node)}
    {b : List UInt8} :
    (forM es fun e => do
        let i ← ofExcept (c.place e.1 e.2.instruction)
        i.write e.1 : Writer Unit).bytes = .ok b ↔
      ∃ ps, (es.mapM fun e => return (e.1, ← c.place e.1 e.2.instruction)) = .ok ps ∧
        Writable ps ∧ b = listing ps := by
  induction es generalizing b with
  | nil =>
    constructor
    · intro h
      exact ⟨[], rfl, by simp [Writable], by simpa using h.symm⟩
    · rintro ⟨ps, hps, -, rfl⟩
      obtain rfl : [] = ps := by simpa using hps
      rfl
  | cons e es ih =>
    rw [List.forM_cons, bytes_bind (uniform_writeEntry c e) (uniform_forM (uniform_writeEntry c) es)]
    simp only [bytes_ofExcept_bind, bind_eq_ok_iff, pure_eq_ok_iff, ih, List.mapM_cons,
      Instruction.bytes_write_eq_ok_iff]
    constructor
    · rintro ⟨_, ⟨i, hi, hfit, hreach, rfl⟩, _, ⟨ps, hps, hall, rfl⟩, rfl⟩
      exact ⟨(e.1, i) :: ps, ⟨_, ⟨i, hi, rfl⟩, ps, hps, rfl⟩,
        List.forall_mem_cons.mpr ⟨⟨hfit, hreach⟩, hall⟩, rfl⟩
    · rintro ⟨_, ⟨_, ⟨i, hi, rfl⟩, ps, hps, rfl⟩, hall, rfl⟩
      obtain ⟨⟨hfit, hreach⟩, hall⟩ := List.forall_mem_cons.mp hall
      exact ⟨_, ⟨i, hi, hfit, hreach, rfl⟩, _, ⟨ps, hps, hall, rfl⟩, rfl⟩

theorem Relisted.offset?_eq {c d : Code} (h : Relisted c d) : d.offset? = c.offset? := by
  funext t
  rw [offset?, offset?, position?, position?, h.positions, h.nodes]

theorem Relisted.positionOf_eq {c d : Code} (h : Relisted c d) : d.positionOf = c.positionOf := by
  funext t
  rw [positionOf, positionOf, position?, position?, h.positions]

theorem Relisted.encode_eq {c d : Code} (h : Relisted c d) : d.encode = c.encode := by
  have hplace : d.place = c.place := by
    funext o i
    rw [place, place, h.offset?_eq]
  rw [encode, encode, write, write, toList, toList, h.nodes, hplace]

theorem encode_eq_ok_iff {c : Code} {b : List UInt8} :
    c.encode = .ok b ↔ ∃ ps, c.addressed = .ok ps ∧ Writable ps ∧ b = listing ps :=
  bytes_writeAll_eq_ok_iff

end Code

end ClassCode
