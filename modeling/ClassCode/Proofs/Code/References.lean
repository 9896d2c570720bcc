import ClassCode.Proofs.Code.Supply

/-! References along a run of edits. Whatever was edited, granted or refused, the registrations of an
instruction are its labels, on instructions that are there and on those that were taken out. -/
namespace ClassCode.Code

open Std Outcome Run

theorem moveRegistrations_apply {c : Code} (hc : c.Ledger) (k : Holder Handle) (source : Handle)
    {target : Handle} (ht : target ∈ c.inbound) (n : Nat) :
    moveRegistrations k source target n c = .ok ⟨⟩ (moved k source target n c) := by
  induction n generalizing c with
  | zero => rfl
  | succ n ih =>
    have hout := relisted_release hc k source
    have hmem := (hout.live target).mpr ht
    have hin := relisted_register hout.ledger k hmem
    rw [moveRegistrations, bind_apply, modify_apply]
    simp only [bind_apply, registerOn_apply, hmem, if_true]
    exact ih hin.ledger ((hin.live target).mpr hmem)

section Steps

variable {c : Code} {ns : List Node} (hc : c.Tracks ns)
include hc

theorem Tracks.labels_live {i : Instruction Handle} {u : Unit} (h : c.validate i = .ok u) :
    ∀ l ∈ i.labels, l ∈ c.inbound := by
  obtain ⟨_, -, hall⟩ := bind_eq_ok_iff.mp h
  intro l hl
  have hlive := forM_eq_ok_iff.mp hall l hl
  rw [checkLive] at hlive
  by_cases hc' : c.isLive l
  · exact hc.isLive_iff.mp hc'
  · simp [hc', unknown] at hlive

theorem Tracks.insert (hfresh : ¬ c.Knows c.fresh) (p : Nat) (i : Instruction Handle) :
    ∃ ms, (leaves (Code.insert p i) c).Tracks ms := by
  rcases c.leaves_insert p i with he | ⟨hp, hv, he⟩ <;> rw [he]
  · exact ⟨ns, hc⟩
  · rw [hc.size_eq] at hp
    exact ⟨_, hc.inserted hfresh hp (hc.labels_live hv)⟩

theorem Tracks.replace (p : Nat) (i : Instruction Handle) :
    ∃ ms, (leaves (Code.replace p i) c).Tracks ms := by
  rcases c.leaves_replace p i with he | ⟨old, hn, hv, he⟩ <;> rw [he]
  · exact ⟨ns, hc⟩
  · exact ⟨_, hc.replaced (hc.nodeAt_eq_ok_iff.mp hn) (hc.labels_live hv)⟩

theorem Tracks.remove (p : Nat) : ∃ ms, (leaves (Code.remove p) c).Tracks ms := by
  rcases c.leaves_remove p with he | ⟨n, hn, he⟩ <;> rw [he]
  · exact ⟨ns, hc⟩
  · exact ⟨_, hc.detached (hc.nodeAt_eq_ok_iff.mp hn)⟩

theorem Tracks.registerExternal (id : ExternalId) (t : Handle) :
    ∃ ms, (leaves (Code.registerExternal id t) c).Tracks ms := by
  refine ⟨ns, ?_⟩
  rcases c.leaves_registerOn (.external id) t with he | ⟨ht, he⟩ <;> rw [Code.registerExternal, he]
  · exact hc
  · exact hc.of_relisted (relisted_register hc.ledger (.external id) ht) fun u j => by
      simp [registrations_register _ ht]

theorem Tracks.unregisterExternal (id : ExternalId) (t : Handle) :
    ∃ ms, (leaves (Code.unregisterExternal id t) c).Tracks ms := by
  refine ⟨ns, ?_⟩
  rw [leaves_unregisterExternal]
  exact hc.of_relisted (relisted_release hc.ledger (.external id) t) fun u j => by
    simp [registrations_release]

theorem Tracks.getElem?_of_get? {p : Nat} {e : Nat × Node} (h : c.nodes.get? p = some e) :
    ns[p]? = some e.2 := by
  rw [hc.laid, Layout.get?_laid, Option.map_eq_some_iff] at h
  obtain ⟨n, hn, rfl⟩ := h
  exact hn

theorem Tracks.handle_of_positionOf {h : Handle} {p : Nat} (hp : c.positionOf h = .ok p) {n : Node}
    (hn : ns[p]? = some n) : n.handle = h := by
  have hsome : c.position? h = some p := by
    rw [positionOf] at hp
    cases hq : c.position? h with
    | none => simp [hq, unknown] at hp
    | some q => simpa [hq] using hp
  obtain ⟨m, hm, rfl⟩ := hc.position?_eq_some_iff.mp hsome
  rw [hm] at hn
  simpa using congrArg Node.handle (Option.some.inj hn.symm)

theorem Tracks.retarget (k : Holder Handle) (source target : Handle) :
    ∃ ms, (leaves (Code.retarget k source target) c).Tracks ms := by
  rcases c.leaves_retarget k source target with he | ⟨ht, hk, ⟨e, rfl, he⟩ | ⟨h, p, o, n, rfl, hp, hn, he⟩⟩ <;>
    rw [he]
  · exact ⟨ns, hc⟩
  · have hmem : target ∈ c.inbound := hc.isLive_iff.mp ht
    have hpos := (registered_contains_iff hc.ledger).mp hk
    rw [leaves, moveRegistrations_apply hc.ledger (.external e) source hmem 1]
    exact ⟨ns, hc.of_relisted (relisted_moved hc.ledger (.external e) source hmem 1) fun u j => by
      simp [registrations_moved hc.ledger (.external e) source hmem hpos]⟩
  · have hmem : target ∈ c.inbound := hc.isLive_iff.mp ht
    have hat := hc.getElem?_of_get? hn
    have hledger : Ledger { c with nodes := c.nodes.update p (redirectNode source target) } :=
      hc.ledger.of_eq rfl rfl
    have hmoved := hc.redirected hat source hmem
    rw [hc.handle_of_positionOf hp hat] at hmoved
    rw [leaves, moveRegistrations_apply hledger (.entry h) source hmem]
    exact ⟨_, hmoved⟩

end Steps

theorem Tracks.apply {c : Code} {ns : List Node} (hc : c.Tracks ns) (hfresh : ¬ c.Knows c.fresh) (r : Request) :
    ∃ ms, (r.apply c).Tracks ms := by
  cases r with
  | insert p i => exact hc.insert hfresh p i
  | push i =>
    have hpush := hc.insert hfresh c.size i
    rwa [leaves, ← push_apply] at hpush
  | replace p i => exact hc.replace p i
  | remove p => exact hc.remove p
  | retarget k s t => exact hc.retarget k s t
  | registerExternal e t => exact hc.registerExternal e t
  | unregisterExternal e t => exact hc.unregisterExternal e t

theorem Supplied.tracks {c : Code} (h : Supplied c) : ∃ ns, c.Tracks ns := by
  induction h with
  | empty => exact ⟨[], tracks_empty⟩
  | decoded h _ => exact tracks_decode h
  | edited h r _ ih =>
    obtain ⟨ns, hc⟩ := ih
    exact hc.apply h.given.fresh r

/-- In every code that a run of edits leads to while handles do not run out, an instruction is registered on
another one, there or gone, as often as it has it for a label; what is not there is registered nowhere; there
are holders for just the instructions that are there, and some left for those that are gone and still known. -/
theorem registrations_match_labels {c : Code} (h : Supplied c) :
    (∀ e ∈ c.toList, ∀ t : Handle,
      c.registrations t (.entry e.2.handle) = e.2.instruction.labels.count t) ∧
    (∀ (t j : Handle) (s : Holders (Holder Handle)), c.inbound[t]? = some s ∨ c.dangling[t]? = some s →
      s.contains (.entry j) → ∃ e ∈ c.toList, e.2.handle = j) ∧
    (∀ t : Handle, t ∈ c.inbound ↔ ∃ e ∈ c.toList, e.2.handle = t) ∧
    (∀ (t : Handle) (s : Holders (Holder Handle)), c.dangling[t]? = some s →
      t.number < c.next.toNat ∧ (∀ e ∈ c.toList, e.2.handle ≠ t) ∧ s.isEmpty = false) := by
  obtain ⟨ns, hc⟩ := h.tracks
  have hthere (j : Handle) : j ∈ ns.map Node.handle ↔ ∃ e ∈ c.toList, e.2.handle = j := by
    rw [hc.map_handle, List.mem_map]
  refine ⟨?_, ?_, ?_, ?_⟩
  · intro e he t
    rw [hc.counted, labelsOf_of_mem hc.distinct (hc.mem_of_mem_toList he)]
  · intro t j s hs hj
    rw [← hthere]
    by_contra hnot
    have hcontained := (Holders.contains_iff (hc.ledger.positive_of_getElem? hs)).mp hj
    rw [← hc.ledger.registrations_of_getElem? hs, hc.counted, labelsOf_eq_nil hnot] at hcontained
    exact Nat.lt_irrefl 0 hcontained
  · intro t
    rw [hc.live, hthere]
  · intro t s hs
    have hd : t ∈ c.dangling := mem_of_getElem? hs
    refine ⟨h.given t (.inr hd), ?_, hc.ledger.dangling_nonempty t s hs⟩
    intro e he heq
    exact hc.ledger.separate t ((hc.live t).mpr ((hthere t).mpr ⟨e, he, heq⟩)) hd

/-- A jump stays registered on the instruction that it leads to when that one is taken out. -/
theorem registrations_of_jump_to_removed :
    let c := (Request.remove 0).apply
      ((Request.push (.jump ⟨0xa7⟩ ⟨0⟩)).apply ((Request.push (.plain ⟨0⟩)).apply empty))
    (⟨0⟩ : Handle) ∉ c.inbound ∧ c.registrations ⟨0⟩ (.entry ⟨1⟩) = 1 := by
  intro c
  have hc : Supplied c := ((Supplied.empty.edited _ (by decide +kernel)).edited _ (by decide +kernel)).edited _
    (by decide +kernel)
  obtain ⟨hcount, -, hlive, -⟩ := registrations_match_labels hc
  constructor
  · rw [hlive]
    decide
  · exact hcount (0, ⟨⟨1⟩, .jump ⟨0xa7⟩ ⟨0⟩⟩) (by decide) ⟨0⟩

end ClassCode.Code
