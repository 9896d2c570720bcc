import ClassCode.Code.Wire
import ClassCode.Proofs.Instruction.Codec
import ClassCode.Proofs.Layout.Laid
import ClassCode.Proofs.Positions

/-! Instructions one after the other in bytes. Bytes are scanned when they are the images of some
instructions, each at the offset that those before it leave to it. -/
namespace ClassCode.Code

open Outcome

/-- The bytes of some instructions, each at its offset. -/
def listing (ps : List (Nat × Instruction Nat)) : List UInt8 := ps.flatMap fun e => e.2.image e.1

@[simp] theorem listing_nil : listing [] = [] := rfl

@[simp] theorem listing_cons (o : Nat) (i : Instruction Nat) (ps : List (Nat × Instruction Nat)) :
    listing ((o, i) :: ps) = i.image o ++ listing ps := rfl

def Legible (ps : List (Nat × Instruction Nat)) : Prop := ∀ e ∈ ps, e.2.Readable e.1

theorem past_eq_add_length_listing (o : Nat) (is : List (Instruction Nat)) :
    Layout.past o is = o + (listing (Layout.placed o is)).length := by
  induction is generalizing o with
  | nil => rfl
  | cons i is ih =>
    rw [Layout.past, ih, Layout.placed, listing_cons, List.length_append, Instruction.length_image,
      Nat.add_assoc]
    rfl

theorem length_listing_placed_le (o : Nat) (is : List (Instruction Nat)) :
    is.length ≤ (listing (Layout.placed o is)).length := by
  induction is generalizing o with
  | nil => simp [Layout.placed]
  | cons i is ih =>
    have hrest := ih (o + span i o)
    have hpos : 0 < (i.image o).length := i.length_image o ▸ i.width_pos o
    rw [Layout.placed, listing_cons, List.length_append, List.length_cons]
    omega

theorem drop_listing {is : List (Instruction Nat)} {e : Nat × Instruction Nat}
    (he : e ∈ Layout.placed 0 is) :
    ∃ rest, (listing (Layout.placed 0 is)).drop e.1 = e.2.image e.1 ++ rest := by
  obtain ⟨k, hk⟩ := List.mem_iff_getElem?.mp he
  rw [Layout.getElem?_placed] at hk
  obtain ⟨i, hi, rfl⟩ := Option.map_eq_some_iff.mp hk
  obtain ⟨before, after, rfl, rfl⟩ := exists_eq_append hi
  have hstart := past_eq_add_length_listing 0 before
  rw [Nat.zero_add] at hstart
  rw [List.take_left, Layout.placed_append, Layout.placed, listing, List.flatMap_append, ← listing, ← listing,
    listing_cons, hstart, List.drop_left]
  exact ⟨_, rfl⟩

section Scan

variable {fuel o : Nat} {acc ps : List (Nat × Instruction Nat)} {bytes : List UInt8}

theorem scan_nil_eq_ok_iff :
    scan fuel o acc [] = .ok ps ↔ ∃ is, ps = acc.reverse ++ Layout.placed o is ∧
      Legible (Layout.placed o is) ∧ [] = listing (Layout.placed o is) := by
  have hscan : scan fuel o acc [] = .ok acc.reverse := by cases fuel <;> rfl
  rw [hscan, Except.ok.injEq]
  constructor
  · rintro rfl
    exact ⟨[], by simp [Layout.placed], by simp [Legible, Layout.placed], rfl⟩
  · rintro ⟨is, rfl, -, hnil⟩
    have hle := length_listing_placed_le o is
    rw [← hnil, List.length_nil, Nat.le_zero, List.length_eq_zero_iff] at hle
    simp [hle, Layout.placed]

theorem scan_eq_ok_iff (hfuel : bytes.length ≤ fuel) :
    scan fuel o acc bytes = .ok ps ↔ ∃ is, ps = acc.reverse ++ Layout.placed o is ∧
      Legible (Layout.placed o is) ∧ bytes = listing (Layout.placed o is) := by
  induction fuel generalizing o acc bytes with
  | zero =>
    obtain rfl := List.length_eq_zero_iff.mp (Nat.le_zero.mp hfuel)
    exact scan_nil_eq_ok_iff
  | succ fuel ih =>
    cases bytes with
    | nil => exact scan_nil_eq_ok_iff
    | cons b bytes =>
      rw [scan, bind_eq_ok_iff]
      constructor
      · rintro ⟨⟨i, rest⟩, hread, hscan⟩
        obtain ⟨hi, hbytes⟩ := Instruction.readable_of_read hread
        have hpos : 0 < (i.image o).length := i.length_image o ▸ i.width_pos o
        have hlen := congrArg List.length hbytes
        simp only [List.length_append, List.length_cons] at hlen hfuel
        obtain ⟨is, rfl, his, rfl⟩ := (ih (by omega)).mp hscan
        exact ⟨i :: is, by simp [Layout.placed, span], List.forall_mem_cons.mpr ⟨hi, his⟩, hbytes⟩
      · rintro ⟨is, rfl, his, hbytes⟩
        cases is with
        | nil => simp [Layout.placed] at hbytes
        | cons i is =>
          obtain ⟨hi, his⟩ := List.forall_mem_cons.mp his
          have hpos : 0 < (i.image o).length := i.length_image o ▸ i.width_pos o
          rw [Layout.placed, listing_cons] at hbytes
          have hlen := congrArg List.length hbytes
          simp only [List.length_append, List.length_cons] at hlen hfuel
          refine ⟨(i, listing (Layout.placed (o + span i o) is)), ?_, ?_⟩
          · rw [hbytes]
            exact hi.read _
          · exact (ih (by omega)).mpr ⟨is, by simp [Layout.placed, span], his, rfl⟩

end Scan

theorem scanAll_eq_ok_iff {ps : List (Nat × Instruction Nat)} {bytes : List UInt8} :
    scanAll bytes = .ok ps ↔
      ∃ is, ps = Layout.placed 0 is ∧ Legible (Layout.placed 0 is) ∧
        bytes = listing (Layout.placed 0 is) := by
  rw [scanAll, scan_eq_ok_iff (Nat.le_refl _)]
  simp

end ClassCode.Code
