import ClassCode.Proofs.Code.References

/-! Registrations from outside. Edits of the instructions leave them alone, whatever they put in, exchange
or take out: they stay on instructions that are gone. They change only when someone outside asks for it,
and then they can be moved and undone, one by one, as often as they were made. -/
namespace ClassCode.Code

open Std Run

/-- `d` has the registrations from outside that `c` has. -/
def SameOutside (c d : Code) : Prop :=
  ∀ t e, d.registrations t (.external e) = c.registrations t (.external e)

theorem SameOutside.refl (c : Code) : c.SameOutside c := fun _ _ => rfl

theorem SameOutside.trans {c d e : Code} (hcd : c.SameOutside d) (hde : d.SameOutside e) :
    c.SameOutside e := fun t k => (hde t k).trans (hcd t k)

section OtherHolders

variable {k m : Holder Handle} (hm : k ≠ m) (c : Code)
include hm

theorem registrations_register_of_ne (t u : Handle) :
    (register k c t).registrations u m = c.registrations u m := by
  by_cases h : t = u
  · subst h
    cases hi : c.inbound[t]? <;> simp [register, registrations, registered?, hi, hm]
  · simp [register, registrations, registered?, ExtTreeMap.getElem?_modify, h]

theorem registrations_moved_of_ne (source target : Handle) (n : Nat) (u : Handle) :
    (moved k source target n c).registrations u m = c.registrations u m := by
  induction n generalizing c with
  | zero => rfl
  | succ n ih =>
    rw [moved, ih, registrations_register_of_ne hm, registrations_release, if_neg (fun h => hm h.2),
      Nat.sub_zero]

end OtherHolders

theorem outside_registerAll (h : Handle) (ts : List Handle) (c : Code) :
    c.SameOutside (ts.foldl (register (.entry h)) c) := by
  induction ts generalizing c with
  | nil => exact .refl c
  | cons t ts ih =>
    have hfirst : c.SameOutside (register (.entry h) c t) :=
      fun u e => registrations_register_of_ne (m := .external e) (by simp) c t u
    exact hfirst.trans (ih _)

theorem outside_releaseAll (h : Handle) (ts : List Handle) (c : Code) :
    c.SameOutside (ts.foldl (release (.entry h)) c) := by
  intro u e
  rw [registrations_releaseAll, if_neg (by simp), Nat.sub_zero]

theorem outside_replaced (p : Nat) (old : Node) (i : Instruction Handle) (c : Code) :
    c.SameOutside (c.replaced p old i) := by
  have hin : c.SameOutside { i.labels.foldl (register (.entry old.handle)) c with
      nodes := (i.labels.foldl (register (.entry old.handle)) c).nodes.replace p ⟨old.handle, i⟩ } :=
    outside_registerAll old.handle i.labels c
  exact hin.trans (outside_releaseAll old.handle old.instruction.labels _)

theorem outside_replace (p : Nat) (i : Instruction Handle) (c : Code) :
    c.SameOutside (leaves (Code.replace p i) c) := by
  rcases c.leaves_replace p i with he | ⟨old, -, -, he⟩ <;> rw [he]
  · exact .refl c
  · exact outside_replaced p old i c

section Fresh

variable {c : Code} (hfresh : ¬ c.Knows c.fresh)
include hfresh

theorem outside_inserted (p : Nat) (i : Instruction Handle) : c.SameOutside (c.inserted p i) := by
  intro t e
  have hnew := registrations_storeInbound (c := i.labels.foldl (register (.entry c.fresh)) c)
    (t := c.fresh) .empty t (.external e)
  refine Eq.trans hnew ?_
  split
  · rename_i ht
    subst ht
    rw [Holders.count_empty, registrations_of_not_knows hfresh]
  · exact outside_registerAll _ i.labels c t e

theorem outside_insert (p : Nat) (i : Instruction Handle) : c.SameOutside (leaves (Code.insert p i) c) := by
  rcases c.leaves_insert p i with he | ⟨-, -, he⟩ <;> rw [he]
  · exact .refl c
  · exact outside_inserted hfresh p i

theorem outside_push (i : Instruction Handle) : c.SameOutside (leaves (Code.push i) c) := by
  rw [leaves, push_apply]
  exact outside_insert hfresh c.size i

end Fresh

theorem outside_linkNodes (ns : List Node) (c : Code) : c.SameOutside (ns.foldl linkNode c) := by
  induction ns generalizing c with
  | nil => exact .refl c
  | cons n ns ih => exact (outside_registerAll n.handle n.instruction.labels c).trans (ih _)

theorem registrations_decode {bytes : List UInt8} {c : Code} (h : decode bytes = .ok c) (t : Handle)
    (e : ExternalId) : c.registrations t (.external e) = 0 := by
  simp only [decode, Outcome.bind_eq_ok_iff] at h
  obtain ⟨ps, -, hps⟩ := h
  obtain ⟨ns, -, rfl⟩ := ofInstructions_eq_ok_iff.mp hps
  rw [link_ofNodes, outside_linkNodes, registrations_ofNodes]

section Inside

variable {c : Code} {ns : List Node} (hc : c.Tracks ns)
include hc

theorem Tracks.outside_detach {p : Nat} {n : Node} (hp : ns[p]? = some n) :
    c.SameOutside (c.detach p n).2 := by
  intro t e
  refine (registrations_retire (hc.relisted_released p n).ledger (hc.mem_inbound_released hp) t
    (.external e)).trans ?_
  exact outside_releaseAll n.handle n.instruction.labels (c.erased p n) t e

theorem Tracks.outside_remove (p : Nat) : c.SameOutside (leaves (Code.remove p) c) := by
  rcases c.leaves_remove p with he | ⟨n, hn, he⟩ <;> rw [he]
  · exact .refl c
  · exact hc.outside_detach (hc.nodeAt_eq_ok_iff.mp hn)

theorem Tracks.outside_retarget (h source target : Handle) :
    c.SameOutside (leaves (Code.retarget (.entry h) source target) c) := by
  rcases c.leaves_retarget (.entry h) source target with
    he | ⟨ht, -, ⟨_, hk, -⟩ | ⟨_, p, _, n, -, -, -, he⟩⟩
  · rw [he]
    exact .refl c
  · cases hk
  · let d : Code := { c with nodes := c.nodes.update p (redirectNode source target) }
    have hd : d.Ledger := hc.ledger.of_eq rfl rfl
    rw [he, leaves, moveRegistrations_apply hd (.entry h) source (hc.isLive_iff.mp ht)]
    exact fun t e => registrations_moved_of_ne (m := .external e) (by simp) d source target _ t

end Inside

section Outside

variable {c : Code}

theorem registrations_of_release?_eq_none {k : Holder Handle} {t : Handle} (h : release? k c t = none) :
    c.registrations t k = 0 := by
  cases hi : c.inbound[t]? with
  | some s =>
    rw [release?, hi, Option.map_eq_none_iff, Holders.release?_eq_none_iff] at h
    rw [registrations_of_inbound hi, Holders.count_eq_zero_of_not_contains h]
  | none =>
    cases hd : c.dangling[t]? with
    | none => simp [registrations, registered?, hi, hd]
    | some s =>
      have hni : t ∉ c.inbound := by simp [ExtTreeMap.mem_iff_isSome_getElem?, hi]
      cases hs : s.release? k with
      | none =>
        rw [registrations_of_dangling hni hd]
        exact Holders.count_eq_zero_of_not_contains (Holders.release?_eq_none_iff.mp hs)
      | some r => simp [release?, hi, hd, hs] at h

theorem release?_eq_some_release {k : Holder Handle} {t : Handle} (h : 0 < c.registrations t k) :
    release? k c t = some (release k c t) := by
  cases hr : release? k c t with
  | some d => simp [release, hr]
  | none => exact absurd (registrations_of_release?_eq_none hr) (Nat.ne_of_gt h)

theorem forM_unregisterExternal_apply (id : ExternalId) {ts : List Handle}
    (hts : ∀ t, ts.count t ≤ c.registrations t (.external id)) :
    (forM ts (unregisterExternal id)) c = .ok () (ts.foldl (release (.external id)) c) := by
  induction ts generalizing c with
  | nil => rfl
  | cons t ts ih =>
    have hfirst := hts t
    rw [List.count_cons_self] at hfirst
    have hrelease := release?_eq_some_release (Nat.lt_of_lt_of_le (Nat.succ_pos _) hfirst)
    rw [List.forM_cons, bind_apply, unregisterExternal_apply, hrelease]
    refine ih fun u => ?_
    have hu := hts u
    rw [List.count_cons] at hu
    rw [registrations_release]
    by_cases htu : t = u <;> simp [htu] at hu ⊢ <;> omega

theorem forM_retarget_apply (hc : c.Ledger) (id : ExternalId) (source : Handle) {target : Handle}
    (hlive : c.isLive target) (ht : target ∈ c.inbound) {n : Nat}
    (hn : n ≤ c.registrations source (.external id)) :
    (forM (List.replicate n ()) fun _ => retarget (.external id) source target : Edit Unit) c =
      .ok () (moved (.external id) source target n c) := by
  induction n generalizing c with
  | zero => rfl
  | succ n ih =>
    have hregistered := (registered_contains_iff hc).mpr (Nat.lt_of_lt_of_le (Nat.succ_pos n) hn)
    have hone := relisted_moved hc (.external id) source ht 1
    have hleft := registrations_moved hc (.external id) source ht
      (Nat.le_trans (Nat.succ_le_succ (Nat.zero_le n)) hn) source (.external id)
    rw [List.replicate_succ, List.forM_cons, bind_apply, retarget_apply, if_pos hlive, if_pos hregistered]
    simp only [moveRegistrations_apply hc (.external id) source ht]
    refine ih hone.ledger ?_ ((hone.live target).mpr ht) ?_
    · rwa [isLive, hone.positions]
    · rw [hleft, if_pos ⟨rfl, rfl⟩]
      omega

end Outside

end ClassCode.Code
