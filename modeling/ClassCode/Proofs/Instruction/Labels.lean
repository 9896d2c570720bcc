import ClassCode.Instruction.Basic
import ClassCode.Proofs.Outcome

/-! Labels of instructions. Sending the labels through a function keeps everything else about an
instruction, and two such passes are one. -/
namespace ClassCode.Instruction

open Outcome

variable {ε L M N : Type}

theorem labels_map (f : L → M) (i : Instruction L) : (i.map f).labels = i.labels.map f := by
  cases i <;> simp [map, traverse, labels, Function.comp_def]

theorem width_map (f : L → M) (i : Instruction L) (o : Nat) : (i.map f).width o = i.width o := by
  cases i <;> simp [map, traverse, width]

theorem misfit?_map (f : L → M) (i : Instruction L) : (i.map f).misfit? = i.misfit? := by
  cases i <;> simp [map, traverse, misfit?]

section Effects

variable {m : Type → Type} [Monad m] [LawfulMonad m]

theorem map_snd_mapM {K : Type} (f : L → m M) (ps : List (K × L)) :
    List.map Prod.snd <$> (ps.mapM fun p => return (p.1, ← f p.2)) = (ps.map Prod.snd).mapM f := by
  induction ps with
  | nil => simp
  | cons p ps ih =>
    rw [List.map_cons, List.mapM_cons, List.mapM_cons, ← ih]
    simp

/-- A pass over the labels has the effects of the same pass over their list, whatever these are. -/
theorem labels_traverse (f : L → m M) (i : Instruction L) : labels <$> i.traverse f = i.labels.mapM f := by
  cases i with
  | lookupSwitch d ps =>
    rw [labels, List.mapM_cons, traverse, ← map_snd_mapM]
    simp [labels]
  | _ => simp [labels, traverse]

theorem traverse_map (f : L → M) (i : Instruction L) : i.traverse (fun l => (pure (f l) : m M)) = pure (i.map f) := by
  cases i <;> simp [map, traverse]

end Effects

section Traverse

variable {f : L → Except ε M} {i : Instruction L} {j : Instruction M}

theorem labels_of_traverse (h : i.traverse f = .ok j) : i.labels.mapM f = .ok j.labels := by
  rw [← labels_traverse, h]
  rfl

/-- Two passes over the labels are one when each label meets the two steps of it. -/
theorem traverse_of_traverse (h : i.traverse f = .ok j) {g : M → Except ε N} {k : L → Except ε N}
    (hk : ∀ l ∈ i.labels, ∀ m, f l = .ok m → g m = k l) : j.traverse g = i.traverse k := by
  cases i <;> simp only [traverse, bind_eq_ok_iff, pure_eq_ok_iff] at h
  case jump o l | farJump o l =>
    obtain ⟨m, hm, rfl⟩ := h
    simp only [traverse, hk l (by simp [labels]) m hm]
  case tableSwitch d low ts =>
    obtain ⟨e, he, us, hus, rfl⟩ := h
    have hts := mapM_of_mapM hus fun l hl => hk l (by simp [labels, hl])
    simp only [traverse, hk d (by simp [labels]) e he, hts]
  case lookupSwitch d ps =>
    obtain ⟨e, he, qs, hqs, rfl⟩ := h
    have hps : (qs.mapM fun q => return (q.1, ← g q.2)) =
        ps.mapM fun p => return (p.1, ← k p.2) := by
      refine mapM_of_mapM hqs fun p hp q hq => ?_
      simp only [bind_eq_ok_iff, pure_eq_ok_iff] at hq
      obtain ⟨m, hm, rfl⟩ := hq
      have hl : p.2 ∈ (lookupSwitch d ps).labels := by
        simp only [labels, List.mem_cons, List.mem_map]
        exact .inr ⟨p, hp, rfl⟩
      rw [hk p.2 hl m hm]
    simp only [traverse, hk d (by simp [labels]) e he, hps]
  all_goals
    subst h
    rfl

theorem traverse_exists (h : ∀ l ∈ i.labels, ∃ m, f l = .ok m) : ∃ j, i.traverse f = .ok j := by
  cases i with
  | jump o l | farJump o l =>
    obtain ⟨m, hm⟩ := h l (by simp [labels])
    simp [traverse, hm]
  | tableSwitch d low ts =>
    obtain ⟨e, he⟩ := h d (by simp [labels])
    obtain ⟨us, hus⟩ := mapM_exists fun l (hl : l ∈ ts) => h l (by simp [labels, hl])
    simp [traverse, he, hus]
  | lookupSwitch d ps =>
    obtain ⟨e, he⟩ := h d (by simp [labels])
    have hps : ∃ qs, (ps.mapM fun p => return (p.1, ← f p.2)) = .ok qs := by
      refine mapM_exists fun p hp => ?_
      obtain ⟨m, hm⟩ := h p.2 (by simpa [labels] using .inr ⟨p.1, hp⟩)
      exact ⟨(p.1, m), by simp [hm]⟩
    obtain ⟨qs, hqs⟩ := hps
    exact ⟨lookupSwitch e qs, by simp only [traverse, he, hqs, ok_bind]; rfl⟩
  | _ => exact ⟨_, rfl⟩

theorem traverse_ok (f : L → M) (i : Instruction L) :
    i.traverse (fun l => Except.ok (ε := ε) (f l)) = .ok (i.map f) := traverse_map f i

/-- A pass over the labels keeps everything else. -/
theorem blank_of_traverse (h : i.traverse f = .ok j) : (j.map fun _ => ()) = i.map fun _ => () := by
  have hblank : j.traverse (fun _ => Except.ok ()) = i.traverse fun _ => .ok () :=
    traverse_of_traverse h fun _ _ _ _ => rfl
  rw [traverse_ok, traverse_ok] at hblank
  exact Except.ok.inj hblank

theorem width_of_traverse (h : i.traverse f = .ok j) (o : Nat) : j.width o = i.width o := by
  rw [← width_map (fun _ => ()) j, blank_of_traverse h, width_map]

theorem misfit?_of_traverse (h : i.traverse f = .ok j) : j.misfit? = i.misfit? := by
  rw [← misfit?_map (fun _ => ()) j, blank_of_traverse h, misfit?_map]

theorem map_map (f : L → M) (g : M → N) (i : Instruction L) : (i.map f).map g = i.map fun l => g (f l) := by
  cases i <;> simp [map, traverse]

theorem map_congr {f g : L → M} {i : Instruction L} (h : ∀ l ∈ i.labels, f l = g l) : i.map f = i.map g := by
  cases i with
  | lookupSwitch d ps =>
    simp only [labels, List.mem_cons, List.mem_map, forall_eq_or_imp] at h
    have hps : ∀ p ∈ ps, (p.1, f p.2) = (p.1, g p.2) := fun p hp => by rw [h.2 p.2 ⟨p, hp, rfl⟩]
    simpa [map, traverse, h.1] using hps
  | _ => simp_all [map, traverse, labels]

theorem map_id (i : Instruction L) : i.map (fun l => l) = i := by
  cases i <;> simp [map, traverse]

theorem traverse_pure (i : Instruction L) : i.traverse (Except.ok (ε := ε)) = .ok i :=
  (traverse_ok (fun l => l) i).trans (congrArg Except.ok i.map_id)

end Traverse

end ClassCode.Instruction
