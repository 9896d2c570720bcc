import ClassCode.Proofs.Code.Registry
import ClassCode.Proofs.Code.Run

/-! Properties that edits keep. Every edit is made of a few kinds of changes, so a property that none of these
takes from code is one that no edit takes from it. Instructions that are put in are apart: they are the only
ones for which a handle is given out. -/
namespace ClassCode.Code

open Run

/-- A property that no change takes from code, unless an instruction is put in. -/
structure Stable (I : Code → Prop) : Prop where
  replaced : ∀ {c : Code} {i : Instruction Handle} {p : Nat} {old : Node}, I c → c.nodeAt p = .ok old →
    c.validate i = .ok () → I (c.replaced p old i)
  detached : ∀ {c : Code} {p : Nat} {n : Node}, I c → c.nodeAt p = .ok n → I (c.detach p n).2
  redirected : ∀ {c : Code} (p : Nat) (source target : Handle), I c →
    I { c with nodes := c.nodes.update p (redirectNode source target) }
  registered : ∀ {c : Code} {t : Handle} (k : Holder Handle), I c → t ∈ c.inbound → I (register k c t)
  released : ∀ {c : Code} (k : Holder Handle) (t : Handle), I c → I (release k c t)

theorem keeps_ask {α : Type} {I : Code → Prop} (question : Code → Except Fault α) : Keeps I (ask question) :=
  keeps_bind keeps_get fun c => keeps_ofExcept (question c)

namespace Stable

variable {I : Code → Prop} (hI : Stable I)
include hI

theorem keeps_replace (p : Nat) (i : Instruction Handle) : Keeps I (replace p i) := by
  intro c hc
  rcases c.leaves_replace p i with he | ⟨old, hn, hv, he⟩ <;> rw [he]
  · exact hc
  · exact hI.replaced hc hn hv

theorem keeps_remove (p : Nat) : Keeps I (remove p) := by
  intro c hc
  rcases c.leaves_remove p with he | ⟨n, hn, he⟩ <;> rw [he]
  · exact hc
  · exact hI.detached hc hn

theorem keeps_registerOn (k : Holder Handle) (t : Handle) : Keeps I (registerOn k t) := by
  intro c hc
  rcases c.leaves_registerOn k t with he | ⟨ht, he⟩ <;> rw [he]
  · exact hc
  · exact hI.registered k hc ht

theorem keeps_unregisterExternal (e : ExternalId) (t : Handle) : Keeps I (unregisterExternal e t) := by
  intro c hc
  rw [leaves_unregisterExternal]
  exact hI.released (.external e) t hc

theorem keeps_moveRegistrations (k : Holder Handle) (source target : Handle) (n : Nat) :
    Keeps I (moveRegistrations k source target n) := by
  induction n with
  | zero => exact keeps_pure PUnit.unit
  | succ n ih =>
    have hrelease : Keeps I (modify fun c => release k c source : Edit PUnit) :=
      keeps_modify fun _ hc => hI.released k source hc
    exact keeps_bind hrelease fun _ => keeps_bind (hI.keeps_registerOn k target) fun _ => ih

theorem keeps_retarget (k : Holder Handle) (source target : Handle) : Keeps I (retarget k source target) := by
  intro c hc
  rcases c.leaves_retarget k source target with he | ⟨-, -, ⟨_, -, he⟩ | ⟨_, p, _, n, -, -, -, he⟩⟩ <;> rw [he]
  · exact hc
  · exact hI.keeps_moveRegistrations k source target 1 c hc
  · exact hI.keeps_moveRegistrations k source target _ _ (hI.redirected p source target hc)

theorem apply {c : Code} (hc : I c) (r : Request)
    (hinserted : ∀ p i, p ≤ c.size → c.validate i = .ok () → r.apply c = c.inserted p i → I (r.apply c)) :
    I (r.apply c) := by
  cases r with
  | insert p i =>
    rcases c.leaves_insert p i with he | ⟨hp, hv, he⟩
    · rwa [Request.apply, he]
    · exact hinserted p i hp hv he
  | push i =>
    have hpush : (Request.push i).apply c = leaves (Code.insert c.size i) c := by
      rw [Request.apply, leaves, push_apply, leaves]
    rcases c.leaves_insert c.size i with he | ⟨hp, hv, he⟩
    · rwa [hpush, he]
    · exact hinserted c.size i hp hv (hpush.trans he)
  | replace p i => exact hI.keeps_replace p i c hc
  | remove p => exact hI.keeps_remove p c hc
  | retarget k s t => exact hI.keeps_retarget k s t c hc
  | registerExternal e t => exact hI.keeps_registerOn (.external e) t c hc
  | unregisterExternal e t => exact hI.keeps_unregisterExternal e t c hc

end Stable

/-! The instructions after a change. -/
section Nodes

variable (c : Code) (p : Nat)

theorem nodes_inserted (i : Instruction Handle) : (c.inserted p i).nodes = c.nodes.insert p ⟨c.fresh, i⟩ :=
  congrArg (fun l => Layout.insert l p _) (nodes_registerAll (.entry c.fresh) c i.labels)

theorem nodes_replaced (old : Node) (i : Instruction Handle) :
    (c.replaced p old i).nodes = c.nodes.replace p ⟨old.handle, i⟩ :=
  (nodes_releaseAll _ _ _).trans
    (congrArg (fun l => Layout.replace l p _) (nodes_registerAll (.entry old.handle) c i.labels))

theorem nodes_detach (n : Node) : (c.detach p n).2.nodes = c.nodes.erase p :=
  nodes_releaseAll (.entry n.handle) (c.erased p n) n.instruction.labels

end Nodes

end ClassCode.Code
