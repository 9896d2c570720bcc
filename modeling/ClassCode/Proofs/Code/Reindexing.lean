import ClassCode.Code.Edit
import ClassCode.Proofs.Layout.Laid
import ClassCode.Proofs.Table

/-! Recorded positions. Only those from the edited position on are recorded anew; the ones before it are
still right. -/
namespace ClassCode.Code

open Std

section Reindex

variable {c : Code} {ns : List Node} (hlaid : c.nodes = Layout.laid 0 ns)
  (hdistinct : (ns.map Node.handle).Nodup) (p : Nat)
include hlaid hdistinct

theorem positions_reindexFrom {h : Handle} {q : Nat} :
    (c.reindexFrom p).positions[h]? = some q ↔
      (p ≤ q ∧ (ns.map Node.handle)[q]? = some h) ∨
        (h ∉ (ns.drop p).map Node.handle ∧ c.positions[h]? = some q) := by
  let key (e : Nat × Node) : Handle := e.2.handle
  have hlist : c.nodes.entries.toList = Layout.placed 0 ns := by
    rw [hlaid]
    exact Layout.toList_laid 0 ns
  have hmoved : (c.nodes.entries.extract p c.size).toList = (Layout.placed 0 ns).drop p := by
    rw [Array.toList_extract, hlist, List.extract_eq_take_drop, size, Layout.size,
      ← Array.length_toList, hlist, ← List.length_drop, List.take_length]
  have hkeys : ((Layout.placed 0 ns).drop p).map key = (ns.drop p).map Node.handle := by
    rw [List.map_drop, List.map_drop, show key = Node.handle ∘ Prod.snd from rfl, ← List.map_map,
      Layout.map_snd_placed]
  have hd : (((Layout.placed 0 ns).drop p).map key).Nodup := by
    rw [hkeys]
    exact hdistinct.sublist ((List.drop_sublist p ns).map _)
  have hfill := Table.getElem?_fillPositions key (m := c.positions) (k := p) hd (a := h) (q := q)
  rw [hkeys, ← hmoved, ← Array.toList_zipIdx, Array.foldl_toList] at hfill
  refine hfill.trans (or_congr (and_congr_right fun hle => ?_) Iff.rfl)
  rw [List.map_drop, List.getElem?_drop, Nat.add_sub_cancel' hle]

/-- Positions are recorded right once those before `p` were, and no others but of what moved. -/
theorem placed_reindexFrom
    (hbelow : ∀ (h : Handle) q, q < p → (c.positions[h]? = some q ↔ (ns.map Node.handle)[q]? = some h))
    (habove : ∀ (h : Handle) q, p ≤ q → c.positions[h]? = some q → h ∈ (ns.drop p).map Node.handle)
    (h : Handle) (q : Nat) :
    (c.reindexFrom p).positions[h]? = some q ↔ (ns.map Node.handle)[q]? = some h := by
  rw [positions_reindexFrom hlaid hdistinct]
  rcases Nat.lt_or_ge q p with hlt | hle
  · rw [hbelow h q hlt]
    constructor
    · rintro (⟨hle, -⟩ | ⟨-, hq⟩)
      · exact absurd hle (Nat.not_le_of_lt hlt)
      · exact hq
    · intro hq
      refine .inr ⟨fun hmem => ?_, hq⟩
      rw [List.map_drop] at hmem
      obtain ⟨j, hj⟩ := List.mem_iff_getElem?.mp hmem
      rw [List.getElem?_drop] at hj
      have hsame := (List.getElem?_inj (List.getElem?_eq_some_iff.mp hq).1 hdistinct).mp (hq.trans hj.symm)
      omega
  · constructor
    · rintro (⟨-, hq⟩ | ⟨hnot, hq⟩)
      · exact hq
      · exact absurd (habove h q hle hq) hnot
    · exact fun hq => .inl ⟨hle, hq⟩

end Reindex

end ClassCode.Code
