import ClassCode.Code.Wire
import ClassCode.Proofs.Code.Tracking
import ClassCode.Proofs.Instruction.Image
import ClassCode.Proofs.Layout.Search
import ClassCode.Proofs.Table

/-! Handles, positions and offsets. In code that tracks a list each of the three leads to the entry of one
instruction. -/
namespace ClassCode.Code

open Std Outcome

theorem rising_nodes (o : Nat) (ns : List Node) : Layout.Rising o ns :=
  Layout.rising_of_pos fun e _ => e.2.instruction.width_pos e.1

theorem rising_instructions {L : Type} (o : Nat) (is : List (Instruction L)) : Layout.Rising o is :=
  Layout.rising_of_pos fun e _ => e.2.width_pos e.1

section Entries

variable {c : Code} {ns : List Node} {p o : Nat} {n : Node} {h : Handle}

theorem offset?_eq_some_iff :
    c.offset? h = some o ↔ ∃ (p : Nat) (n : Node), c.positionOf h = .ok p ∧ c.toList[p]? = some (o, n) := by
  have hposition (p : Nat) : c.position? h = some p ↔ c.positionOf h = .ok p := by
    rw [positionOf]
    cases c.position? h <;> simp [unknown]
  simp only [offset?, ← Layout.get?_eq_getElem?_toList, toList, ← hposition]
  simp [Option.bind_eq_some_iff]

theorem place_label_eq_ok_iff {target : Nat} {l : Handle} :
    (match c.offset? l with
      | some o => return o
      | none => throw (.danglingTarget o l) : Except Fault Nat) = .ok target ↔
      c.offset? l = some target := by
  cases c.offset? l <;> simp

section Listed

variable (hc : c.Lists ns)
include hc

theorem Lists.getElem?_toList :
    c.toList[p]? = some (o, n) ↔ ns[p]? = some n ∧ Layout.past 0 (ns.take p) = o := by
  rw [hc.toList_eq, Layout.getElem?_placed]
  cases ns[p]? with
  | none => simp
  | some m => simp [and_comm]

theorem Lists.positionAtOffset?_eq_some_iff :
    c.positionAtOffset? o = some p ↔ ∃ n, c.toList[p]? = some (o, n) := by
  have hascending : c.nodes.Ascending := by
    rw [hc.laid]
    exact (rising_nodes 0 ns).ascending
  have hlocate (q : Nat) (m : Node) : c.nodes.locate o = .starts q m ↔ c.toList[q]? = some (o, m) := by
    rw [hascending.locate_eq_starts_iff, toList, Layout.toList, Array.getElem?_toList]
  constructor
  · intro hp
    cases hspot : c.nodes.locate o with
    | starts q m =>
      simp only [positionAtOffset?, hspot, Option.some.injEq] at hp
      exact ⟨m, hp ▸ (hlocate q m).mp hspot⟩
    | inside | outside => simp [positionAtOffset?, hspot] at hp
  · rintro ⟨n, hn⟩
    rw [positionAtOffset?, (hlocate p n).mpr hn]

theorem Lists.end_le_length {e : Nat × Node} (he : e ∈ c.toList) :
    e.1 + e.2.instruction.width e.1 ≤ c.length := by
  rw [hc.toList_eq] at he
  rw [hc.length_eq_past]
  exact (rising_nodes 0 ns).add_span_le_past he

theorem Lists.offset_lt_length (ho : c.offset? h = some o) : o < c.length := by
  obtain ⟨p, n, -, hn⟩ := offset?_eq_some_iff.mp ho
  have hend := hc.end_le_length (List.mem_of_getElem? hn)
  exact Nat.lt_of_lt_of_le (Nat.lt_add_of_pos_right (n.instruction.width_pos o)) hend

end Listed

section Tracked

variable (hc : c.Tracks ns)
include hc

theorem Tracks.positionOf_eq_ok_iff :
    c.positionOf h = .ok p ↔ ∃ (o : Nat) (n : Node), c.toList[p]? = some (o, n) ∧ n.handle = h := by
  have hposition : c.positionOf h = .ok p ↔ c.position? h = some p := by
    rw [positionOf]
    cases c.position? h <;> simp [unknown]
  rw [hposition, hc.position?_eq_some_iff]
  simp only [hc.getElem?_toList]
  constructor
  · rintro ⟨n, hn, hh⟩
    exact ⟨_, n, ⟨hn, rfl⟩, hh⟩
  · rintro ⟨_, n, ⟨hn, -⟩, hh⟩
    exact ⟨n, hn, hh⟩

theorem Tracks.offset?_eq_some_iff :
    c.offset? h = some o ↔ ∃ (p : Nat) (n : Node), c.toList[p]? = some (o, n) ∧ n.handle = h := by
  rw [Code.offset?_eq_some_iff]
  constructor
  · rintro ⟨p, n, hp, hn⟩
    obtain ⟨_, m, hm, hh⟩ := hc.positionOf_eq_ok_iff.mp hp
    obtain ⟨rfl, rfl⟩ := Prod.mk.inj (Option.some.inj (hn.symm.trans hm))
    exact ⟨p, n, hn, hh⟩
  · rintro ⟨p, n, hn, hh⟩
    exact ⟨p, n, hc.positionOf_eq_ok_iff.mpr ⟨o, n, hn, hh⟩, hn⟩

theorem Tracks.isSome_offset?_of_isLive (hh : c.isLive h) : (c.offset? h).isSome := by
  obtain ⟨n, hn, rfl⟩ := List.mem_map.mp ((hc.live h).mp (hc.isLive_iff.mp hh))
  obtain ⟨p, hp⟩ := List.mem_iff_getElem?.mp hn
  exact Option.isSome_of_eq_some (hc.offset?_eq_some_iff.mpr ⟨p, n, hc.getElem?_toList.mpr ⟨hp, rfl⟩, rfl⟩)

theorem Tracks.offset?_of_positionAtOffset? (hp : c.positionAtOffset? o = some p)
    (hn : c.nodeAt p = .ok n) : c.offset? n.handle = some o := by
  obtain ⟨m, hm⟩ := hc.positionAtOffset?_eq_some_iff.mp hp
  obtain rfl := Option.some.inj ((hc.nodeAt_eq_ok_iff.mp hn).symm.trans (hc.getElem?_toList.mp hm).1)
  exact hc.offset?_eq_some_iff.mpr ⟨p, n, hm, rfl⟩

end Tracked

end Entries

theorem getElem?_handlesOf {is : List (Instruction Nat)} {p o : Nat} {i : Instruction Nat}
    (h : (Layout.placed 0 is)[p]? = some (o, i)) :
    (handlesOf (Layout.placed 0 is))[o]? = some ⟨p⟩ := by
  let key (e : (Nat × Instruction Nat) × Nat) : Nat := e.1.1
  have hkeys : (Layout.placed 0 is).zipIdx.map key = (Layout.placed 0 is).map Prod.fst := by
    rw [show key = Prod.fst ∘ Prod.fst from rfl, ← List.map_map, List.zipIdx_map_fst]
  have hascending : (Layout.placed 0 is).Pairwise fun d e => d.1 < e.1 :=
    (rising_instructions 0 is).pairwise
  have hdistinct : ((Layout.placed 0 is).zipIdx.map key).Nodup := by
    rw [hkeys]
    exact List.pairwise_map.mpr (hascending.imp Nat.ne_of_lt)
  exact Table.getElem?_fill_of_mem key (fun e => (⟨e.2⟩ : Handle)) hdistinct
    (List.mem_zipIdx_iff_getElem?.mpr h : ((o, i), p) ∈ _)

end ClassCode.Code
