import ClassCode.Proofs.Code.Registry
import ClassCode.Proofs.Code.Reindexing
import ClassCode.Proofs.Code.Stability
import ClassCode.Proofs.Instruction.Labels
import ClassCode.Proofs.Layout.Laid
import ClassCode.Proofs.Positions

/-! Code as a list of its instructions. Code lists instructions when it has them, laid out from offset zero; it
tracks them when also their handles are different and lead to their positions, and when the registrations of
each of them are its labels. Every edit of the code is an edit of the list. -/
namespace ClassCode.Code

open Std Outcome Run

def labelsOf (ns : List Node) (h : Handle) : List Handle :=
  ns.flatMap fun n => if n.handle = h then n.instruction.labels else []

@[simp] theorem labelsOf_nil (h : Handle) : labelsOf [] h = [] := rfl

@[simp] theorem labelsOf_cons (n : Node) (ns : List Node) (h : Handle) :
    labelsOf (n :: ns) h = (if n.handle = h then n.instruction.labels else []) ++ labelsOf ns h := by
  simp [labelsOf]

theorem labelsOf_eq_nil {ns : List Node} {h : Handle} (hh : h ∉ ns.map Node.handle) :
    labelsOf ns h = [] := by
  simp only [labelsOf, List.flatMap_eq_nil_iff]
  intro n hn
  have hne : n.handle ≠ h := fun he => hh (he ▸ List.mem_map_of_mem hn)
  simp [hne]

theorem labelsOf_of_mem {ns : List Node} (hd : (ns.map Node.handle).Nodup) {n : Node} (hn : n ∈ ns) :
    labelsOf ns n.handle = n.instruction.labels := by
  induction ns with
  | nil => simp at hn
  | cons m ns ih =>
    simp only [List.map_cons, List.nodup_cons] at hd
    rcases List.mem_cons.mp hn with rfl | hn
    · simp [labelsOf_eq_nil hd.1]
    · have hne : m.handle ≠ n.handle := fun he => hd.1 (he ▸ List.mem_map_of_mem hn)
      simp [hne, ih hd.2 hn]

theorem count_labelsOf_of_perm {ns ms : List Node} (h : ns.Perm ms) (j t : Handle) :
    (labelsOf ns j).count t = (labelsOf ms j).count t := (h.flatMap_right _).count_eq t

theorem count_map_redirect (source target t : Handle) (ls : List Handle) :
    (ls.map (redirect source target)).count t + (if source = t then ls.count source else 0) =
      ls.count t + if target = t then ls.count source else 0 := by
  induction ls with
  | nil => simp
  | cons l ls ih =>
    simp only [List.map_cons, List.count_cons, redirect, beq_iff_eq]
    by_cases hl : l = source
    · subst hl
      grind
    · grind

theorem count_map_redirect_eq (source target t : Handle) (ls : List Handle) :
    (ls.map (redirect source target)).count t =
      ls.count t - (if source = t then ls.count source else 0) +
        if target = t then ls.count source else 0 := by
  have hcount := count_map_redirect source target t ls
  by_cases hs : source = t
  · subst hs
    simp only [if_true] at hcount ⊢
    omega
  · simp only [hs, if_false] at hcount ⊢
    omega

section Edited

variable {ns : List Node} {p : Nat} {old : Node} (hp : ns[p]? = some old)
include hp

theorem count_labelsOf (j t : Handle) :
    (labelsOf ns j).count t = (if old.handle = j then old.instruction.labels.count t else 0) +
      (labelsOf (ns.eraseIdx p) j).count t := by
  rw [count_labelsOf_of_perm (perm_cons_eraseIdx hp), labelsOf_cons, List.count_append]
  split <;> simp

theorem count_labelsOf_set (i : Instruction Handle) (j t : Handle) :
    (labelsOf (ns.set p ⟨old.handle, i⟩) j).count t =
      (if old.handle = j then i.labels.count t else 0) + (labelsOf (ns.eraseIdx p) j).count t := by
  obtain ⟨hlt, -⟩ := List.getElem?_eq_some_iff.mp hp
  rw [count_labelsOf_of_perm (List.set_perm_cons_eraseIdx hlt _), labelsOf_cons, List.count_append]
  split <;> simp

theorem handles_set (i : Instruction Handle) :
    (ns.set p ⟨old.handle, i⟩).map Node.handle = ns.map Node.handle := by
  obtain ⟨hlt, rfl⟩ := List.getElem?_eq_some_iff.mp hp
  have hmap : p < (ns.map Node.handle).length := by simpa using hlt
  have hself : (ns.map Node.handle).set p (ns.map Node.handle)[p] = ns.map Node.handle :=
    List.set_getElem_self hmap
  rw [List.getElem_map] at hself
  rw [List.map_set]
  exact hself

end Edited

/-- `c` has the instructions `ns`. -/
structure Lists (c : Code) (ns : List Node) : Prop where
  laid : c.nodes = Layout.laid 0 ns

/-- `c` has the instructions `ns` at their positions, and they have the registrations that their labels ask
for. -/
structure Tracks (c : Code) (ns : List Node) : Prop extends Lists c ns where
  distinct : (ns.map Node.handle).Nodup
  placed : ∀ (h : Handle) (p : Nat), c.positions[h]? = some p ↔ (ns.map Node.handle)[p]? = some h
  live : ∀ h, h ∈ c.inbound ↔ h ∈ ns.map Node.handle
  ledger : c.Ledger
  counted : ∀ t j, c.registrations t (.entry j) = (labelsOf ns j).count t

theorem tracks_empty : Tracks Code.empty [] where
  laid := rfl
  distinct := List.nodup_nil
  placed := by simp [Code.empty]
  live := by simp [Code.empty]
  ledger := ⟨by simp [Code.empty], by simp [Code.empty], by simp [Code.empty], by simp [Code.empty]⟩
  counted := by simp [registrations, registered?, Code.empty]

section Instructions

variable {c : Code} {ns : List Node} (hc : c.Lists ns)
include hc

theorem Lists.nodeAt_eq_ok_iff {p : Nat} {n : Node} : c.nodeAt p = .ok n ↔ ns[p]? = some n := by
  rw [nodeAt, hc.laid, Layout.get?_laid]
  cases ns[p]? <;> simp

theorem Lists.toList_eq : c.toList = Layout.placed 0 ns := by
  rw [toList, hc.laid, Layout.toList_laid]

theorem Lists.size_eq : c.size = ns.length := by
  rw [size, hc.laid, Layout.size_laid]

theorem Lists.length_eq_past : c.length = Layout.past 0 ns := by
  rw [length, hc.laid, Layout.stop_laid]

theorem Lists.mem_of_mem_toList {e : Nat × Node} (he : e ∈ c.toList) : e.2 ∈ ns := by
  rw [← Layout.map_snd_placed 0 ns, ← hc.toList_eq]
  exact List.mem_map_of_mem he

theorem Lists.map_handle : ns.map Node.handle = c.toList.map fun e => e.2.handle := by
  rw [hc.toList_eq]
  conv_lhs => rw [← Layout.map_snd_placed 0 ns, List.map_map]
  rfl

/-! Edits of the list. -/

theorem Lists.inserted (p : Nat) (i : Instruction Handle) :
    (c.inserted p i).Lists (ns.take p ++ ⟨c.fresh, i⟩ :: ns.drop p) where
  laid := by rw [nodes_inserted, hc.laid, Layout.insert_laid]

theorem Lists.replaced {p : Nat} {old : Node} (hp : ns[p]? = some old) (i : Instruction Handle) :
    (c.replaced p old i).Lists (ns.set p ⟨old.handle, i⟩) where
  laid := by rw [nodes_replaced, hc.laid, Layout.replace_laid _ _ _ _ (List.getElem?_eq_some_iff.mp hp).1]

theorem Lists.detached (p : Nat) (n : Node) : (c.detach p n).2.Lists (ns.eraseIdx p) where
  laid := by rw [nodes_detach, hc.laid, Layout.erase_laid]

theorem Lists.redirected (p : Nat) (source target : Handle) :
    Lists { c with nodes := c.nodes.update p (redirectNode source target) }
      (ns.modify p (redirectNode source target)) where
  laid := by
    change c.nodes.update p _ = _
    rw [hc.laid, Layout.update_laid _ fun n o => Instruction.width_map _ _ o]

end Instructions

section Steps

variable {c : Code} {ns : List Node} (hc : c.Tracks ns)
include hc

theorem Tracks.position?_eq_some_iff {h : Handle} {p : Nat} :
    c.position? h = some p ↔ ∃ n, ns[p]? = some n ∧ n.handle = h := by
  rw [position?, hc.placed, List.getElem?_map, Option.map_eq_some_iff]

theorem Tracks.isLive_iff {h : Handle} : c.isLive h ↔ h ∈ c.inbound := by
  rw [isLive, ExtTreeMap.contains_eq_isSome_getElem?, Option.isSome_iff_exists, hc.live,
    List.mem_iff_getElem?]
  simp only [hc.placed]

/-- No label was ever made up: the instruction that it leads to is there, or the label is left on it. -/
theorem Tracks.knows_label {n : Node} (hn : n ∈ ns) {t : Handle} (ht : t ∈ n.instruction.labels) : c.Knows t := by
  by_contra hunknown
  have hnone := hc.counted t n.handle
  rw [registrations_of_not_knows hunknown, labelsOf_of_mem hc.distinct hn, eq_comm, List.count_eq_zero] at hnone
  exact hnone ht

theorem Tracks.count_labelsOf_eq_zero {t : Handle} (ht : ¬ c.Knows t) (j : Handle) :
    (labelsOf ns j).count t = 0 := by
  rw [← hc.counted, registrations_of_not_knows ht]

theorem Tracks.fresh_not_mem (hfresh : ¬ c.Knows c.fresh) : c.fresh ∉ ns.map Node.handle := fun hmem =>
  hfresh (.inl ((hc.live _).mpr hmem))

/-- Code in which only registrations from outside are new tracks the same list. -/
theorem Tracks.of_relisted {d : Code} (hd : Relisted c d)
    (hcount : ∀ t j, d.registrations t (.entry j) = c.registrations t (.entry j)) : d.Tracks ns where
  laid := hd.nodes.trans hc.laid
  distinct := hc.distinct
  placed := by rw [hd.positions]; exact hc.placed
  live h := (hd.live h).trans (hc.live h)
  ledger := hd.ledger
  counted t j := (hcount t j).trans (hc.counted t j)

theorem Tracks.registrations_inserted (hfresh : ¬ c.Knows c.fresh) (p : Nat) {i : Instruction Handle}
    (hi : ∀ l ∈ i.labels, l ∈ c.inbound) (t j : Handle) :
    (c.inserted p i).registrations t (.entry j) =
      c.registrations t (.entry j) + if c.fresh = j then i.labels.count t else 0 := by
  have hcount := registrations_registerAll hc.ledger (.entry c.fresh) hi
  have hnew := registrations_storeInbound (c := i.labels.foldl (register (.entry c.fresh)) c)
    (t := c.fresh) .empty t (.entry j)
  refine Eq.trans hnew ?_
  split
  · rename_i ht
    subst ht
    have hlabels : i.labels.count c.fresh = 0 := List.count_eq_zero.mpr fun hl => hfresh (.inl (hi _ hl))
    rw [hc.counted, hc.count_labelsOf_eq_zero hfresh j, hlabels]
    simp
  · rw [hcount]
    simp

theorem Tracks.placed_inserted {p : Nat} (hp : p ≤ ns.length) {i : Instruction Handle}
    (hi : ∀ l ∈ i.labels, l ∈ c.inbound)
    (hdistinct : ((ns.take p ++ ⟨c.fresh, i⟩ :: ns.drop p).map Node.handle).Nodup) (h : Handle) (q : Nat) :
    (c.inserted p i).positions[h]? = some q ↔
      ((ns.take p ++ ⟨c.fresh, i⟩ :: ns.drop p).map Node.handle)[q]? = some h := by
  have hd := relisted_registerAll hc.ledger (.entry c.fresh) hi
  have hlength : (ns.take p).length = p := List.length_take_of_le hp
  have hold (k : Handle) (r : Nat) :
      (i.labels.foldl (register (.entry c.fresh)) c).positions[k]? = some r ↔
        (ns.map Node.handle)[r]? = some k := by
    rw [hd.positions, hc.placed]
  refine placed_reindexFrom ?_ hdistinct p (fun k r hlt => ?_) (fun k r hle hr => ?_) h q
  · change Layout.insert _ p _ = _
    rw [hd.nodes, hc.laid, Layout.insert_laid]
  · refine (hold k r).trans ?_
    rw [List.map_append, List.getElem?_append_left (by rwa [List.length_map, hlength]),
      List.map_take, List.getElem?_take_of_lt hlt]
  · rw [List.drop_left' hlength, List.map_cons, List.map_drop]
    exact List.mem_cons_of_mem _ (mem_drop_of_getElem? ((hold k r).mp hr) hle)

theorem Tracks.inserted (hfresh : ¬ c.Knows c.fresh) {p : Nat} (hp : p ≤ ns.length) {i : Instruction Handle}
    (hi : ∀ l ∈ i.labels, l ∈ c.inbound) :
    (c.inserted p i).Tracks (ns.take p ++ ⟨c.fresh, i⟩ :: ns.drop p) := by
  have hd := relisted_registerAll hc.ledger (.entry c.fresh) hi
  have hperm : (ns.take p ++ ⟨c.fresh, i⟩ :: ns.drop p).Perm (⟨c.fresh, i⟩ :: ns) := by
    have hmiddle := @List.perm_middle Node ⟨c.fresh, i⟩ (ns.take p) (ns.drop p)
    rwa [List.take_append_drop] at hmiddle
  have hhandles := hperm.map Node.handle
  have hdistinct : ((ns.take p ++ ⟨c.fresh, i⟩ :: ns.drop p).map Node.handle).Nodup := by
    rw [hhandles.nodup_iff]
    exact List.nodup_cons.mpr ⟨hc.fresh_not_mem hfresh, hc.distinct⟩
  constructor
  case toLists => exact hc.toLists.inserted p i
  case distinct => exact hdistinct
  case placed => exact hc.placed_inserted hp hi hdistinct
  case live =>
    intro h
    rw [hhandles.mem_iff, List.map_cons, List.mem_cons, ← hc.live h, ← hd.live h]
    simp only [Code.inserted, reindexFrom, ExtTreeMap.mem_insert, LawfulEqCmp.compare_eq_iff_eq]
    exact or_congr eq_comm Iff.rfl
  case ledger =>
    have hnew := ledger_storeInbound (t := c.fresh) hd.ledger
      (fun hdang => hfresh (.inr (hd.gone _ hdang))) Holders.positive_empty
    exact hnew.of_eq rfl rfl
  case counted =>
    intro t j
    rw [hc.registrations_inserted hfresh p hi, hc.counted, count_labelsOf_of_perm hperm, labelsOf_cons,
      List.count_append]
    by_cases hj : (c.fresh : Handle) = j <;> simp [hj, Nat.add_comm]

/-- Code with the same registrations as the list asks for after one of its instructions was changed. -/
theorem Tracks.of_set {p : Nat} {old : Node} (hp : ns[p]? = some old) {i : Instruction Handle}
    {d : Code} (hlaid : d.nodes = Layout.laid 0 (ns.set p ⟨old.handle, i⟩))
    (hpositions : d.positions = c.positions) (hlive : ∀ h, h ∈ d.inbound ↔ h ∈ c.inbound)
    (hledger : d.Ledger)
    (hcount : ∀ t j, d.registrations t (.entry j) +
        (if old.handle = j then old.instruction.labels.count t else 0) =
      c.registrations t (.entry j) + if old.handle = j then i.labels.count t else 0) :
    d.Tracks (ns.set p ⟨old.handle, i⟩) where
  laid := hlaid
  distinct := by rw [handles_set hp]; exact hc.distinct
  placed := by rw [handles_set hp, hpositions]; exact hc.placed
  live h := by rw [handles_set hp]; exact (hlive h).trans (hc.live h)
  ledger := hledger
  counted t j := by
    have hd := hcount t j
    rw [hc.counted, count_labelsOf hp] at hd
    rw [count_labelsOf_set hp]
    omega

theorem Tracks.replaced {p : Nat} {old : Node} (hp : ns[p]? = some old) {i : Instruction Handle}
    (hi : ∀ l ∈ i.labels, l ∈ c.inbound) :
    (c.replaced p old i).Tracks (ns.set p ⟨old.handle, i⟩) := by
  have hin := relisted_registerAll hc.ledger (.entry old.handle) hi
  have hcountIn := registrations_registerAll hc.ledger (.entry old.handle) hi
  let d : Code := i.labels.foldl (register (.entry old.handle)) c
  let e : Code := { d with nodes := d.nodes.replace p ⟨old.handle, i⟩ }
  have he : e.Ledger := hin.ledger.of_eq rfl rfl
  have hout := relisted_releaseAll he (.entry old.handle) old.instruction.labels
  have hcountOut := registrations_releaseAll (c := e) (.entry old.handle) old.instruction.labels
  refine hc.of_set hp (hc.toLists.replaced hp i).laid (hout.positions.trans hin.positions)
    (fun h => (hout.live h).trans (hin.live h)) hout.ledger ?_
  intro t j
  have hold := hc.counted t j
  rw [count_labelsOf hp] at hold
  have hfinal : (c.replaced p old i).registrations t (.entry j) = d.registrations t (.entry j) -
      if Holder.entry old.handle = .entry j then old.instruction.labels.count t else 0 := hcountOut _ _
  rw [hfinal, hcountIn]
  by_cases hj : old.handle = j <;> simp only [hj, if_true, if_false, Holder.entry.injEq] at hold ⊢ <;> omega

theorem Tracks.redirected {p : Nat} {old : Node} (hp : ns[p]? = some old) (source : Handle)
    {target : Handle} (ht : target ∈ c.inbound) :
    (moved (.entry old.handle) source target (old.instruction.labels.count source)
      { c with nodes := c.nodes.update p (redirectNode source target) }).Tracks
      (ns.set p (redirectNode source target old)) := by
  let d : Code := { c with nodes := c.nodes.update p (redirectNode source target) }
  have hd : d.Ledger := hc.ledger.of_eq rfl rfl
  have hmove := relisted_moved hd (.entry old.handle) source ht (old.instruction.labels.count source)
  have hnodes : d.nodes = Layout.laid 0 (ns.set p (redirectNode source target old)) := by
    obtain ⟨hlt, rfl⟩ := List.getElem?_eq_some_iff.mp hp
    rw [(hc.toLists.redirected p source target).laid, List.modify_eq_take_cons_drop hlt,
      List.set_eq_take_append_cons_drop, if_pos hlt]
  have hregistered : d.registrations source (.entry old.handle) = old.instruction.labels.count source :=
    (hc.counted source old.handle).trans
      (congrArg _ (labelsOf_of_mem hc.distinct (List.mem_of_getElem? hp)))
  have hcount := registrations_moved hd (.entry old.handle) source ht (Nat.le_of_eq hregistered.symm)
  refine hc.of_set hp (hmove.nodes.trans hnodes) hmove.positions hmove.live hmove.ledger ?_
  intro t j
  have hother : d.registrations t (.entry j) = c.registrations t (.entry j) := rfl
  rw [hcount, hother, hc.counted, Instruction.labels_map]
  by_cases hj : old.handle = j
  · subst hj
    rw [labelsOf_of_mem hc.distinct (List.mem_of_getElem? hp), count_map_redirect_eq]
    simp only [and_true, if_true]
    omega
  · simp [hj]

theorem Tracks.placed_erased {p : Nat} {n : Node} (hp : ns[p]? = some n) (h : Handle) (q : Nat) :
    (c.erased p n).positions[h]? = some q ↔ ((ns.eraseIdx p).map Node.handle)[q]? = some h := by
  have hat : (ns.map Node.handle)[p]? = some n.handle := by rw [List.getElem?_map, hp]; rfl
  have hunique {r : Nat} (hr : (ns.map Node.handle)[r]? = some n.handle) : r = p :=
    (List.getElem?_inj (List.getElem?_eq_some_iff.mp hr).1 hc.distinct).mp (hr.trans hat.symm)
  have hold (k : Handle) (r : Nat) : (c.positions.erase n.handle)[k]? = some r ↔
      k ≠ n.handle ∧ (ns.map Node.handle)[r]? = some k := by
    simp only [ExtTreeMap.getElem?_erase, LawfulEqCmp.compare_eq_iff_eq, ← hc.placed]
    by_cases hk : k = n.handle
    · simp [hk]
    · simp [hk, Ne.symm hk]
  have hdistinct : ((ns.eraseIdx p).map Node.handle).Nodup :=
    hc.distinct.sublist ((List.eraseIdx_sublist ns p).map _)
  refine placed_reindexFrom ?_ hdistinct p (fun k r hlt => ?_) (fun k r hle hr => ?_) h q
  · change c.nodes.erase p = _
    rw [hc.laid, Layout.erase_laid]
  · refine (hold k r).trans ?_
    rw [← List.eraseIdx_map, List.getElem?_eraseIdx_of_lt hlt]
    refine and_iff_right_of_imp fun hr hk => ?_
    subst hk
    exact Nat.ne_of_lt hlt (hunique hr)
  · obtain ⟨hne, hr⟩ := (hold k r).mp hr
    have hlt : p < r := by
      refine Nat.lt_of_le_of_ne hle fun heq => hne ?_
      subst heq
      exact Option.some.inj (hr.symm.trans hat)
    have hmoved : ((ns.eraseIdx p).map Node.handle)[r - 1]? = some k := by
      rw [← List.eraseIdx_map, List.getElem?_eraseIdx_of_ge (by omega), Nat.sub_add_cancel (by omega)]
      exact hr
    rw [List.map_drop]
    exact mem_drop_of_getElem? hmoved (by omega)

theorem Tracks.relisted_released (p : Nat) (n : Node) : Relisted (c.erased p n) (c.released p n) := by
  have hledger : (c.erased p n).Ledger := hc.ledger.of_eq rfl rfl
  exact relisted_releaseAll hledger (.entry n.handle) n.instruction.labels

theorem Tracks.mem_inbound_released {p : Nat} {n : Node} (hp : ns[p]? = some n) :
    n.handle ∈ (c.released p n).inbound := by
  rw [(hc.relisted_released p n).live]
  exact (hc.live _).mpr (List.mem_map_of_mem (List.mem_of_getElem? hp))

theorem Tracks.mem_handles_eraseIdx {p : Nat} {n : Node} (hp : ns[p]? = some n) {h : Handle} :
    h ∈ (ns.eraseIdx p).map Node.handle ↔ h ≠ n.handle ∧ h ∈ ns.map Node.handle := by
  have hhandles := (perm_cons_eraseIdx hp).map Node.handle
  have hdistinct := hhandles.nodup_iff.mp hc.distinct
  rw [List.map_cons, List.nodup_cons] at hdistinct
  rw [hhandles.mem_iff, List.map_cons, List.mem_cons]
  exact ⟨fun hh => ⟨ne_of_mem_of_not_mem hh hdistinct.1, .inr hh⟩, fun hh => hh.2.resolve_left hh.1⟩

/-- What is left on an instruction that is taken out are the registrations of others. -/
theorem Tracks.detached {p : Nat} {n : Node} (hp : ns[p]? = some n) :
    (c.detach p n).2.Tracks (ns.eraseIdx p) := by
  have hout := hc.relisted_released p n
  have hmem := hc.mem_inbound_released hp
  constructor
  case toLists => exact hc.toLists.detached p n
  case distinct => exact hc.distinct.sublist ((List.eraseIdx_sublist ns p).map _)
  case placed =>
    intro h q
    change (c.released p n).positions[h]? = _ ↔ _
    rw [hout.positions, hc.placed_erased hp]
  case live =>
    intro h
    have hretire := mem_inbound_retire (c := c.released p n) n.handle h
    rw [hout.live] at hretire
    rw [hc.mem_handles_eraseIdx hp, ← hc.live]
    exact hretire
  case ledger => exact ledger_retire hout.ledger hmem
  case counted =>
    intro t j
    have hold := hc.counted t j
    rw [count_labelsOf hp] at hold
    refine (registrations_retire hout.ledger hmem t (.entry j)).trans ?_
    rw [released, registrations_releaseAll]
    change c.registrations t (.entry j) - _ = _
    by_cases hj : n.handle = j <;> simp only [hj, if_true, if_false, Holder.entry.injEq] at hold ⊢ <;> omega

end Steps

/-! The list split where the code is edited. -/
section Split

variable {c : Code} {as bs : List Node}

theorem Lists.inserted_between (hc : c.Lists (as ++ bs)) (i : Instruction Handle) :
    (c.inserted as.length i).Lists (as ++ ⟨c.fresh, i⟩ :: bs) := by
  have hd := hc.inserted as.length i
  rwa [List.take_left, List.drop_left] at hd

theorem Lists.detached_between {n : Node} (hc : c.Lists (as ++ n :: bs)) :
    (c.detach as.length n).2.Lists (as ++ bs) := by
  have hd := hc.detached as.length n
  rwa [List.eraseIdx_append_of_length_le (Nat.le_refl _), Nat.sub_self] at hd

theorem Tracks.inserted_between (hc : c.Tracks (as ++ bs)) (hfresh : ¬ c.Knows c.fresh)
    {i : Instruction Handle} (hi : ∀ l ∈ i.labels, l ∈ c.inbound) :
    (c.inserted as.length i).Tracks (as ++ ⟨c.fresh, i⟩ :: bs) := by
  have hp : as.length ≤ (as ++ bs).length := by
    rw [List.length_append]
    exact Nat.le_add_right _ _
  have hd := hc.inserted hfresh hp hi
  rwa [List.take_left, List.drop_left] at hd

theorem Tracks.detached_between {n : Node} (hc : c.Tracks (as ++ n :: bs)) :
    (c.detach as.length n).2.Tracks (as ++ bs) := by
  have hd := hc.detached (p := as.length) (n := n) (by simp)
  rwa [List.eraseIdx_append_of_length_le (Nat.le_refl _), Nat.sub_self] at hd

end Split

end ClassCode.Code
