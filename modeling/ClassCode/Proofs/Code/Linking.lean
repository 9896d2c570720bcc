import ClassCode.Code.Wire
import ClassCode.Proofs.Code.Tracking
import ClassCode.Proofs.Table

/-! Linking read code. Instructions get the handles 0, 1, 2, … in their order, jumps become handles, and
every instruction is registered on those that it leads to. -/
namespace ClassCode.Code

open Std Outcome

def Numbered (ns : List Node) : Prop := ns.map Node.handle = (List.range ns.length).map Handle.mk

theorem Numbered.mem_handles {ns : List Node} (hn : Numbered ns) {h : Handle} :
    h ∈ ns.map Node.handle ↔ h.number < ns.length := by
  rw [hn, List.mem_map]
  constructor
  · rintro ⟨k, hk, rfl⟩
    exact List.mem_range.mp hk
  · intro hlt
    exact ⟨h.number, List.mem_range.mpr hlt, rfl⟩

theorem Numbered.distinct {ns : List Node} (hn : Numbered ns) : (ns.map Node.handle).Nodup := by
  rw [hn]
  exact List.pairwise_map.mpr (List.nodup_range.imp fun hne he => hne (congrArg Handle.number he))

def linkNode (c : Code) (n : Node) : Code := n.instruction.labels.foldl (register (.entry n.handle)) c

section LinkNodes

variable {c : Code} (hc : c.Ledger) {ns : List Node}
  (hl : ∀ n ∈ ns, ∀ l ∈ n.instruction.labels, l ∈ c.inbound)
include hc hl

theorem relisted_linkNodes : Relisted c (ns.foldl linkNode c) := by
  induction ns generalizing c with
  | nil => exact .refl hc
  | cons n ns ih =>
    have hfirst := relisted_registerAll hc (.entry n.handle) (hl n (by simp))
    exact hfirst.trans (ih hfirst.ledger fun m hm l hlm =>
      (hfirst.live l).mpr (hl m (by simp [hm]) l hlm))

theorem registrations_linkNodes (t j : Handle) :
    (ns.foldl linkNode c).registrations t (.entry j) =
      c.registrations t (.entry j) + (labelsOf ns j).count t := by
  induction ns generalizing c with
  | nil => simp
  | cons n ns ih =>
    have hfirst := relisted_registerAll hc (.entry n.handle) (hl n (by simp))
    have hrest := ih hfirst.ledger fun m hm l hlm => (hfirst.live l).mpr (hl m (by simp [hm]) l hlm)
    rw [List.foldl_cons]
    refine hrest.trans ?_
    rw [registrations_registerAll hc _ (hl n (by simp)), labelsOf_cons, List.count_append]
    by_cases hj : n.handle = j <;> simp [hj, Nat.add_assoc]

end LinkNodes

section OfNodes

variable (ns : List Node)

theorem inbound_ofNodes {h : Handle} {s : Holders (Holder Handle)}
    (hs : (ofNodes ns).inbound[h]? = some s) : s = .empty ∧ h ∈ ns.map Node.handle := by
  rcases Table.of_getElem?_fill Node.handle (fun _ => Holders.empty) hs with ⟨n, hn, rfl, rfl⟩ | hnone
  · exact ⟨rfl, List.mem_map_of_mem hn⟩
  · simp at hnone

theorem mem_inbound_ofNodes (hd : (ns.map Node.handle).Nodup) (h : Handle) :
    h ∈ (ofNodes ns).inbound ↔ h ∈ ns.map Node.handle := by
  constructor
  · intro hmem
    obtain ⟨s, hs⟩ := exists_of_mem hmem
    exact (inbound_ofNodes ns hs).2
  · intro hmem
    obtain ⟨n, hn, rfl⟩ := List.mem_map.mp hmem
    exact mem_of_getElem? (Table.getElem?_fill_of_mem Node.handle (fun _ => Holders.empty) hd hn)

theorem positions_ofNodes (hd : (ns.map Node.handle).Nodup) (h : Handle) (p : Nat) :
    (ofNodes ns).positions[h]? = some p ↔ (ns.map Node.handle)[p]? = some h := by
  have hfill := Table.getElem?_fillPositions Node.handle (k := 0) (m := ∅) hd (a := h) (q := p)
  refine hfill.trans ?_
  simp

theorem ledger_ofNodes : (ofNodes ns).Ledger where
  separate _ _ := by simp [ofNodes]
  inbound_positive _ _ hs := (inbound_ofNodes ns hs).1 ▸ Holders.positive_empty
  dangling_positive _ _ hs := by simp [ofNodes] at hs
  dangling_nonempty _ _ hs := by simp [ofNodes] at hs

theorem registrations_ofNodes (t : Handle) (m : Holder Handle) :
    (ofNodes ns).registrations t m = 0 := by
  by_cases ht : t ∈ (ofNodes ns).inbound
  · obtain ⟨s, hs⟩ := exists_of_mem ht
    rw [registrations_of_inbound hs, (inbound_ofNodes ns hs).1, Holders.count_empty]
  · exact registrations_of_not_mem ht (by simp [ofNodes]) m

theorem link_ofNodes : (ofNodes ns).link = ns.foldl linkNode (ofNodes ns) := by
  have hlist : (ofNodes ns).toList = Layout.placed 0 ns := Layout.toList_laid 0 ns
  have hfold : ((Layout.placed 0 ns).map Prod.snd).foldl linkNode (ofNodes ns) =
      (Layout.placed 0 ns).foldl (fun c e => linkNode c e.2) (ofNodes ns) := List.foldl_map
  rw [Layout.map_snd_placed] at hfold
  rw [link, hlist]
  exact hfold.symm

variable {ns}

theorem tracks_linked (hn : Numbered ns)
    (hl : ∀ n ∈ ns, ∀ l ∈ n.instruction.labels, l.number < ns.length) :
    (ofNodes ns).link.Tracks ns := by
  have hlive := mem_inbound_ofNodes ns hn.distinct
  have hlabels : ∀ n ∈ ns, ∀ l ∈ n.instruction.labels, l ∈ (ofNodes ns).inbound :=
    fun n hmem l hmeml => (hlive l).mpr (hn.mem_handles.mpr (hl n hmem l hmeml))
  have hlink := relisted_linkNodes (ledger_ofNodes ns) hlabels
  rw [link_ofNodes]
  refine ⟨⟨hlink.nodes⟩, hn.distinct, ?_, fun h => (hlink.live h).trans (hlive h), hlink.ledger, ?_⟩
  · rw [hlink.positions]
    exact positions_ofNodes ns hn.distinct
  · intro t j
    rw [registrations_linkNodes (ledger_ofNodes ns) hlabels, registrations_ofNodes, Nat.zero_add]

end OfNodes

def nodesOf (ps : List (Nat × Instruction Nat)) : Except Fault (List Node) :=
  ps.zipIdx.mapM fun e => do
    let i ← e.1.2.traverse (resolve (handlesOf ps) e.1.1)
    return ⟨⟨e.2⟩, i⟩

theorem ofInstructions_eq_ok_iff {ps : List (Nat × Instruction Nat)} {c : Code} :
    ofInstructions ps = .ok c ↔ ∃ ns, nodesOf ps = .ok ns ∧ (ofNodes ns).link = c := by
  simp only [ofInstructions, nodesOf, bind_eq_ok_iff, pure_eq_ok_iff]

section NodesOf

variable {ps : List (Nat × Instruction Nat)} {ns : List Node} (h : nodesOf ps = .ok ns)
include h

theorem length_nodesOf : ns.length = ps.length := by
  simpa using length_of_mapM h

theorem getElem?_nodesOf {k : Nat} {n : Node} (hk : ns[k]? = some n) :
    ∃ o i, ps[k]? = some (o, i) ∧ n.handle = ⟨k⟩ ∧
      i.traverse (resolve (handlesOf ps) o) = .ok n.instruction := by
  obtain ⟨e, he, hok⟩ := mapM_getElem?_right h hk
  rw [List.getElem?_zipIdx] at he
  obtain ⟨q, hq, rfl⟩ := Option.map_eq_some_iff.mp he
  simp only [bind_eq_ok_iff, pure_eq_ok_iff, Nat.zero_add] at hok
  obtain ⟨i, hi, rfl⟩ := hok
  exact ⟨q.1, q.2, hq, rfl, hi⟩

theorem numbered_nodesOf : Numbered ns := by
  apply List.ext_getElem?
  intro k
  rw [List.getElem?_map, List.getElem?_map]
  cases hk : ns[k]? with
  | none => simp [List.getElem?_eq_none_iff.mp hk]
  | some n =>
    obtain ⟨_, _, _, hhandle, _⟩ := getElem?_nodesOf h hk
    obtain ⟨hlt, -⟩ := List.getElem?_eq_some_iff.mp hk
    simp [hhandle, hlt]

end NodesOf

theorem of_getElem?_handlesOf {ps : List (Nat × Instruction Nat)} {o : Nat} {h : Handle}
    (ho : (handlesOf ps)[o]? = some h) : ∃ i, ps[h.number]? = some (o, i) := by
  have hfill := Table.of_getElem?_fill (fun e : (Nat × Instruction Nat) × Nat => e.1.1)
    (fun e => (⟨e.2⟩ : Handle)) ho
  rcases hfill with ⟨e, he, rfl, rfl⟩ | hnone
  · have hget := List.mem_zipIdx_iff_getElem?.mp he
    exact ⟨e.1.2, hget⟩
  · simp at hnone

theorem resolve_eq_ok_iff {starts : ExtTreeMap Nat Handle} {o target : Nat} {h : Handle} :
    resolve starts o target = .ok h ↔ starts[target]? = some h := by
  rw [resolve]
  cases starts[target]? <;> simp

theorem tracks_nodesOf {ps : List (Nat × Instruction Nat)} {ns : List Node}
    (h : nodesOf ps = .ok ns) : (ofNodes ns).link.Tracks ns := by
  refine tracks_linked (numbered_nodesOf h) fun n hn l hl => ?_
  obtain ⟨k, hk⟩ := List.mem_iff_getElem?.mp hn
  obtain ⟨o, i, -, -, hi⟩ := getElem?_nodesOf h hk
  obtain ⟨target, -, htarget⟩ := mapM_forall_right (Instruction.labels_of_traverse hi) l hl
  obtain ⟨j, hj⟩ := of_getElem?_handlesOf (resolve_eq_ok_iff.mp htarget)
  rw [length_nodesOf h]
  exact (List.getElem?_eq_some_iff.mp hj).1

theorem tracks_decode {bytes : List UInt8} {c : Code} (h : decode bytes = .ok c) :
    ∃ ns, c.Tracks ns := by
  simp only [decode, bind_eq_ok_iff] at h
  obtain ⟨ps, -, hps⟩ := h
  obtain ⟨ns, hns, rfl⟩ := ofInstructions_eq_ok_iff.mp hps
  exact ⟨ns, tracks_nodesOf hns⟩

theorem stable_lists : Stable fun c => ∃ ns, c.Lists ns where
  replaced := fun ⟨_, hc⟩ hn _ => ⟨_, hc.replaced (hc.nodeAt_eq_ok_iff.mp hn) _⟩
  detached := fun ⟨_, hc⟩ _ => ⟨_, hc.detached _ _⟩
  redirected := fun p source target ⟨_, hc⟩ => ⟨_, hc.redirected p source target⟩
  registered := fun _ ⟨ns, hc⟩ _ => ⟨ns, ⟨hc.laid⟩⟩
  released := fun k t ⟨ns, hc⟩ => ⟨ns, ⟨(nodes_release k _ t).trans hc.laid⟩⟩

/-- Code that edits lead to is laid out without gaps, whatever handles it has. -/
theorem Reachable.lists {c : Code} (h : Reachable c) : ∃ ns, c.Lists ns := by
  induction h with
  | empty => exact ⟨[], tracks_empty.toLists⟩
  | decoded h =>
    obtain ⟨ns, hc⟩ := tracks_decode h
    exact ⟨ns, hc.toLists⟩
  | edited _ r ih =>
    refine stable_lists.apply ih r fun p i _ _ he => ?_
    obtain ⟨ns, hc⟩ := ih
    exact he ▸ ⟨_, hc.inserted p i⟩

end ClassCode.Code
