import ClassCode.Proofs.Code.Encoding
import ClassCode.Proofs.Code.RoundTrip
import ClassCode.Proofs.Code.Stability

/-! Operands that go with their opcodes. Instructions are checked when they are put in, and edits change
labels only, so code that edits lead to has no others. Where all labels lead to instructions that are
there, such code can be written unless a jump is too far. -/
namespace ClassCode

open Outcome Run Writer

namespace Code

/-- The operands of every instruction go with its opcode. -/
def Fitting (c : Code) : Prop := ∀ n ∈ c.nodes.elements, n.instruction.misfit? = none

theorem Fitting.of_nodes_eq {c d : Code} (hc : c.Fitting) (h : d.nodes = c.nodes) : d.Fitting := by
  rw [Fitting, h]
  exact hc

theorem misfit?_of_validate {c : Code} {i : Instruction Handle} {u : Unit} (h : c.validate i = .ok u) :
    i.misfit? = none := by
  obtain ⟨_, hcheck, -⟩ := bind_eq_ok_iff.mp h
  exact Instruction.check_eq_ok_iff.mp hcheck

section Edits

variable {c : Code} (hc : c.Fitting)
include hc

theorem Fitting.inserted (p : Nat) {i : Instruction Handle} (hi : i.misfit? = none) :
    (c.inserted p i).Fitting := by
  rw [Fitting, nodes_inserted, Layout.elements_insert]
  exact forall_mem_spliced (x := ⟨c.fresh, i⟩) hc hi p p

theorem Fitting.replaced (p : Nat) (old : Node) {i : Instruction Handle} (hi : i.misfit? = none) :
    (c.replaced p old i).Fitting := by
  rw [Fitting, nodes_replaced, Layout.elements_replace]
  exact forall_mem_spliced (x := ⟨old.handle, i⟩) hc hi p (p + 1)

theorem Fitting.detached (p : Nat) (n : Node) : (c.detach p n).2.Fitting := by
  intro m hm
  rw [nodes_detach, Layout.elements_erase, ← List.eraseIdx_eq_take_drop_succ] at hm
  exact hc m (List.mem_of_mem_eraseIdx hm)

theorem Fitting.redirected (p : Nat) (source target : Handle) :
    Fitting { c with nodes := c.nodes.update p (redirectNode source target) } := by
  intro n hn
  rw [Layout.elements_update, List.mem_iff_getElem?] at hn
  obtain ⟨q, hq⟩ := hn
  rw [List.getElem?_modify, Option.map_eq_map, Option.map_eq_some_iff] at hq
  obtain ⟨m, hm, rfl⟩ := hq
  have hmfit := hc m (List.mem_of_getElem? hm)
  split
  · exact (Instruction.misfit?_map (redirect source target) m.instruction).trans hmfit
  · exact hmfit

end Edits

theorem stable_fitting : Stable Fitting where
  replaced hc _ hv := hc.replaced _ _ (misfit?_of_validate hv)
  detached hc _ := hc.detached _ _
  redirected p source target hc := hc.redirected p source target
  registered k hc _ := hc.of_nodes_eq (nodes_register k _ _)
  released k t hc := hc.of_nodes_eq (nodes_release k _ t)

theorem fitting_decode {bytes : List UInt8} {c : Code} (h : decode bytes = .ok c) : c.Fitting := by
  simp only [decode, bind_eq_ok_iff] at h
  obtain ⟨ps, hscan, hps⟩ := h
  obtain ⟨is, rfl, hlegible, -⟩ := scanAll_eq_ok_iff.mp hscan
  obtain ⟨ns, hns, rfl⟩ := ofInstructions_eq_ok_iff.mp hps
  intro n hn
  rw [(tracks_nodesOf hns).laid, Layout.elements_laid] at hn
  obtain ⟨k, hk⟩ := List.mem_iff_getElem?.mp hn
  obtain ⟨o, i, hi, -, htraverse⟩ := getElem?_nodesOf hns hk
  rw [Instruction.misfit?_of_traverse htraverse]
  exact (hlegible _ (List.mem_of_getElem? hi)).fitting

theorem Reachable.fitting {c : Code} (h : Reachable c) : c.Fitting := by
  induction h with
  | empty =>
    intro n hn
    cases hn
  | decoded h => exact fitting_decode h
  | edited _ r ih => exact stable_fitting.apply ih r fun p _ _ hv he => he ▸ ih.inserted p (misfit?_of_validate hv)

theorem Fitting.encode_eq_error {c : Code} (hc : c.Fitting)
    (hl : ∀ e ∈ c.toList, ∀ l ∈ e.2.instruction.labels, (c.offset? l).isSome) {f : Fault}
    (h : c.encode = .error f) : ∃ o t, f = .branchOverflow o t := by
  obtain ⟨e, he, hfail⟩ := List.exists_of_findSome?_eq_some
    ((bytes_forM_eq_error_iff (uniform_writeEntry c)).mp h)
  rw [error?_eq_some_iff] at hfail
  have hplace : ∃ i, c.place e.1 e.2.instruction = .ok i := Instruction.traverse_exists fun l hmem => by
    obtain ⟨o, ho⟩ := Option.isSome_iff_exists.mp (hl e he l hmem)
    exact ⟨o, place_label_eq_ok_iff.mpr ho⟩
  obtain ⟨i, hi⟩ := hplace
  have hfit : i.misfit? = none :=
    (Instruction.misfit?_of_traverse hi).trans (hc e.2 (List.mem_map_of_mem he))
  rw [hi, bytes_ofExcept_bind, ok_bind] at hfail
  obtain ⟨t, rfl⟩ := Instruction.bytes_write_eq_error hfit hfail
  exact ⟨e.1, t, rfl⟩

end Code

end ClassCode
