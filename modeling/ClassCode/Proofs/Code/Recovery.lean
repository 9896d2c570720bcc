import ClassCode.Proofs.Code.Outside

/-! Recovering from a removal. The holders that are named when an instruction was taken out are those that
still have registrations on it. Each of them can be sent to another instruction, which moves all of its
registrations, whatever the others are and do. -/
namespace ClassCode.Code

open Std Outcome Run

section Registrations

variable {c d : Code} {h : Handle}

theorem Ledger.dangling_eq_none_iff (hc : c.Ledger) (hi : h ∉ c.inbound) :
    c.dangling[h]? = none ↔ ∀ k, c.registrations h k = 0 := by
  cases hs : c.dangling[h]? with
  | none =>
    have hnot : h ∉ c.dangling := by simp [ExtTreeMap.mem_iff_isSome_getElem?, hs]
    simp [registrations_of_not_mem hi hnot]
  | some s =>
    have hempty := Holders.isEmpty_iff (hc.dangling_positive h s hs)
    rw [hc.dangling_nonempty h s hs] at hempty
    simp only [registrations_of_dangling hi hs, ← hempty]
    simp

theorem Ledger.getElem?_eq (hc : c.Ledger) (hd : d.Ledger) (hlive : h ∈ c.inbound ↔ h ∈ d.inbound)
    (hsame : ∀ k, c.registrations h k = d.registrations h k) :
    c.inbound[h]? = d.inbound[h]? ∧ c.dangling[h]? = d.dangling[h]? := by
  by_cases hi : h ∈ c.inbound
  · obtain ⟨s, hs⟩ := exists_of_mem hi
    obtain ⟨t, ht⟩ := exists_of_mem (hlive.mp hi)
    have hst : s = t := Holders.ext_count (hc.inbound_positive h s hs) (hd.inbound_positive h t ht) fun k => by
      rw [← registrations_of_inbound hs, hsame, registrations_of_inbound ht]
    rw [hs, ht, hst, ExtTreeMap.getElem?_eq_none (hc.separate h hi),
      ExtTreeMap.getElem?_eq_none (hd.separate h (hlive.mp hi))]
    exact ⟨rfl, rfl⟩
  · have hi' : h ∉ d.inbound := fun hmem => hi (hlive.mpr hmem)
    refine ⟨by rw [ExtTreeMap.getElem?_eq_none hi, ExtTreeMap.getElem?_eq_none hi'], ?_⟩
    have hnone : c.dangling[h]? = none ↔ d.dangling[h]? = none := by
      rw [hc.dangling_eq_none_iff hi, hd.dangling_eq_none_iff hi']
      simp only [hsame]
    cases hs : c.dangling[h]? with
    | none => exact (hnone.mp hs).symm
    | some s =>
      obtain ⟨t, ht⟩ := Option.ne_none_iff_exists'.mp fun ht =>
        Option.some_ne_none s (hs.symm.trans (hnone.mpr ht))
      have hst : s = t :=
        Holders.ext_count (hc.dangling_positive h s hs) (hd.dangling_positive h t ht) fun k => by
          rw [← registrations_of_dangling hi hs, hsame, registrations_of_dangling hi' ht]
      rw [hst, ht]

end Registrations

theorem registrations_moved_away {c : Code} (hc : c.Ledger) (k : Holder Handle) {source target : Handle}
    (ht : target ∈ c.inbound) (hne : source ≠ target) (m : Holder Handle) :
    (moved k source target (c.registrations source k) c).registrations source m =
      if m = k then 0 else c.registrations source m := by
  rw [registrations_moved hc k source ht (Nat.le_refl _)]
  by_cases hm : k = m
  · subst hm
    simp [Ne.symm hne]
  · simp [hm, Ne.symm hm]

theorem redirect_redirect (source target l : Handle) :
    redirect source target (redirect source target l) = redirect source target l := by
  simp only [redirect]
  split <;> simp_all

theorem redirect_of_ne {source l : Handle} (target : Handle) (h : l ≠ source) : redirect source target l = l :=
  if_neg h

theorem redirectNode_redirectNode (source target : Handle) (n : Node) :
    redirectNode source target (redirectNode source target n) = redirectNode source target n := by
  simp only [redirectNode, Instruction.map_map, redirect_redirect]

theorem redirectNode_eq_self {source : Handle} (target : Handle) {n : Node}
    (h : source ∉ n.instruction.labels) : redirectNode source target n = n := by
  have hmap : n.instruction.map (redirect source target) = n.instruction.map fun l => l :=
    Instruction.map_congr fun l hl => redirect_of_ne target (ne_of_mem_of_not_mem hl h)
  rw [redirectNode, hmap, Instruction.map_id]

/-- Code is known from its instructions, the registrations and the next handle. -/
theorem Ledger.ext {c d : Code} (hc : c.Ledger) (hd : d.Ledger) (hnodes : c.nodes = d.nodes)
    (hpositions : c.positions = d.positions) (hnext : c.next = d.next)
    (hlive : ∀ h, h ∈ c.inbound ↔ h ∈ d.inbound)
    (hsame : ∀ t k, c.registrations t k = d.registrations t k) : c = d := by
  have hholders (h : Handle) := hc.getElem?_eq hd (hlive h) (hsame h)
  have hinbound : c.inbound = d.inbound := ExtTreeMap.ext_getElem? fun h => (hholders h).1
  have hdangling : c.dangling = d.dangling := ExtTreeMap.ext_getElem? fun h => (hholders h).2
  cases c
  cases d
  simp only at hnodes hpositions hinbound hdangling hnext
  subst hnodes hpositions hinbound hdangling hnext
  rfl

theorem Tracks.ext {c d : Code} {ns : List Node} (hc : c.Tracks ns) (hd : d.Tracks ns)
    (hnext : c.next = d.next) (hsame : ∀ t k, c.registrations t k = d.registrations t k) : c = d := by
  have hnodes : c.nodes = d.nodes := hc.laid.trans hd.laid.symm
  have hpositions : c.positions = d.positions := ExtTreeMap.ext_getElem? fun h =>
    Option.ext fun p => (hc.placed h p).trans (hd.placed h p).symm
  exact hc.ledger.ext hd.ledger hnodes hpositions hnext (fun h => (hc.live h).trans (hd.live h).symm) hsame

section Steps

variable {c : Code} {ns : List Node} (hc : c.Tracks ns)
include hc

/-- The holders that are left on an instruction that is taken out have registrations on it. -/
theorem Tracks.mem_left_iff {p : Nat} {n : Node} (hp : ns[p]? = some n) (k : Holder Handle) :
    k ∈ (c.detach p n).1.members ↔ 0 < (c.detach p n).2.registrations n.handle k := by
  have hledger := (hc.relisted_released p n).ledger
  have hmem := hc.mem_inbound_released hp
  obtain ⟨left, hleft⟩ := exists_of_mem hmem
  have hget : (c.detach p n).1 = left := by
    change (c.released p n).inbound.getD n.handle .empty = left
    simp [ExtTreeMap.getD_eq_getD_getElem?, hleft]
  have hretire : (c.detach p n).2 = (c.released p n).retire n.handle := rfl
  rw [hget, hretire, registrations_retire hledger hmem, registrations_of_inbound hleft]
  exact Holders.mem_members_iff (hledger.inbound_positive _ left hleft)

theorem Tracks.isEmpty_left {p : Nat} {n : Node} (hp : ns[p]? = some n)
    (hnone : ∀ k, (c.detach p n).2.registrations n.handle k = 0) : (c.detach p n).1.isEmpty := by
  have hmembers : (c.detach p n).1.members = [] := by
    refine List.eq_nil_iff_forall_not_mem.mpr fun k hk => ?_
    have hpos := (hc.mem_left_iff hp k).mp hk
    rw [hnone] at hpos
    exact Nat.lt_irrefl 0 hpos
  rw [Holders.isEmpty, ← Std.ExtTreeMap.isEmpty_keys, List.isEmpty_iff]
  exact hmembers

theorem Tracks.isLive_detached {p : Nat} {n : Node} (hp : ns[p]? = some n) {h : Handle} :
    (c.detach p n).2.isLive h ↔ h ≠ n.handle ∧ c.isLive h := by
  have hd := hc.detached hp
  rw [hd.isLive_iff, hd.live, hc.isLive_iff, hc.live]
  exact hc.mem_handles_eraseIdx hp

theorem Tracks.retarget_entry {source target h : Handle} (hlive : c.isLive target)
    (hheld : 0 < c.registrations source (.entry h)) :
    ∃ p n, ns[p]? = some n ∧ n.handle = h ∧
      n.instruction.labels.count source = c.registrations source (.entry h) ∧
      Code.retarget (.entry h) source target c = .ok ⟨⟩
        (moved (.entry n.handle) source target (n.instruction.labels.count source)
          { c with nodes := c.nodes.update p (redirectNode source target) }) := by
  have hmem : h ∈ ns.map Node.handle := by
    by_contra hnot
    rw [hc.counted, labelsOf_eq_nil hnot] at hheld
    exact Nat.lt_irrefl 0 hheld
  obtain ⟨n, hn, rfl⟩ := List.mem_map.mp hmem
  obtain ⟨p, hp⟩ := List.mem_iff_getElem?.mp hn
  have hposition : c.positionOf n.handle = .ok p := by
    rw [positionOf, hc.position?_eq_some_iff.mpr ⟨n, hp, rfl⟩]
    rfl
  have hentry : ∃ o, c.nodes.get? p = some (o, n) := by
    rw [hc.laid, Layout.get?_laid, hp]
    exact ⟨_, rfl⟩
  obtain ⟨o, ho⟩ := hentry
  have hledger : Ledger { c with nodes := c.nodes.update p (redirectNode source target) } :=
    hc.ledger.of_eq rfl rfl
  have happly := moveRegistrations_apply hledger (.entry n.handle) source (hc.isLive_iff.mp hlive)
    (n.instruction.labels.count source)
  refine ⟨p, n, hp, rfl, by rw [hc.counted, labelsOf_of_mem hc.distinct hn], ?_⟩
  rw [retarget_apply, if_pos hlive, if_pos ((registered_contains_iff hc.ledger).mpr hheld)]
  simp only [hposition, ho, happly]

end Steps

end ClassCode.Code
