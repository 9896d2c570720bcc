import ClassCode.Proofs.Body.Reading
import ClassCode.Proofs.Body.Run
import ClassCode.Proofs.Code.Supply

/-! What edits of a body make of its code. Every one of them edits the code as a client of the code could, so what
no edit takes from code stays. -/
namespace ClassCode.Body

open Run

section Guards

variable {J : Body → Prop}

theorem keeps_removeGuard {id : ExternalId}
    (hcode : ∀ ts : List Handle, Keeps J (onCode (forM ts (Code.unregisterExternal id))))
    (herased : ∀ b p, J b → J { b with guards := b.guards.eraseIdxIfInBounds p }) : Keeps J (removeGuard id) := by
  refine keeps_bind keeps_get fun b => keeps_bind (keeps_ofExcept _) fun e => ?_
  refine keeps_bind (keeps_modify fun _ hb => herased _ _ hb) fun _ => ?_
  exact keeps_bind (hcode _) fun _ => keeps_pure _

theorem keeps_retargetGuard {id : ExternalId} {source target : Handle}
    (hask : Keeps J (onCode (Code.ask (Code.checkLive · target))))
    (hcode : ∀ n, Keeps J (onCode (forM (List.replicate n ()) fun _ => Code.retarget (.external id) source target)))
    (hsent : ∀ b p, J b → J { b with
      guards := b.guards.modify p (Guard.mapTargets (Code.redirect source target)) }) :
    Keeps J (retargetGuard id source target) := by
  refine keeps_bind keeps_get fun b => keeps_bind (keeps_ofExcept _) fun ⟨place, guard⟩ => ?_
  have hrest := keeps_bind hask fun _ => keeps_bind (hcode (guard.targets.count source)) fun _ =>
    keeps_modify fun b hb => hsent b place hb
  change Keeps _ (ite _ _ _)
  split
  · exact keeps_bind (keeps_throw _) fun _ => hrest
  · exact hrest

end Guards

section Code

variable {I : Code → Prop}

theorem keeps_onCode {α : Type} {edit : Code.Edit α} (h : Keeps I edit) :
    Keeps (fun b => I b.code) (onCode edit) := by
  intro b hb
  rw [leaves_onCode]
  exact h b.code hb

variable (hI : Code.Stable I)
include hI

theorem keeps_addGuard (start : Handle) (stop : Option Handle) (handler : Handle) (catches : PoolIndex) :
    Keeps (fun b => I b.code) (addGuard start stop handler catches) := by
  refine keeps_bind keeps_get fun b => keeps_bind (keeps_modify fun _ hb => hb) fun _ => ?_
  refine keeps_bind (keeps_onCode (keeps_forM (fun t => Code.keeps_ask _) _)) fun _ => ?_
  refine keeps_bind (keeps_onCode (keeps_forM (fun t => hI.keeps_registerOn _ t) _)) fun _ => ?_
  exact keeps_bind (keeps_modify fun _ hb => hb) fun _ => keeps_pure _

theorem code_apply {b : Body} (hb : I b.code) (r : Request)
    (hinserted : ∀ p i, b.code.validate i = .ok () → (r.apply b).code = b.code.inserted p i → I (r.apply b).code) :
    I (r.apply b).code := by
  have hcode (q : Code.Request) (hq : (r.apply b).code = q.apply b.code) : I (r.apply b).code := by
    rw [hq]
    exact hI.apply hb q fun p i _ hv he => hq ▸ hinserted p i hv (hq.trans he)
  cases r with
  | addGuard start stop handler catches => exact keeps_addGuard hI start stop handler catches b hb
  | removeGuard e =>
    exact keeps_removeGuard (fun _ => keeps_onCode (keeps_forM (hI.keeps_unregisterExternal e) _)) (fun _ _ => id)
      b hb
  | retarget k s t =>
    cases k with
    | entry h => exact hcode (.retarget (.entry h) s t) (congrArg Body.code (leaves_onCode _))
    | external e =>
      exact keeps_retargetGuard (keeps_onCode (Code.keeps_ask _))
        (fun _ => keeps_onCode (keeps_forM (fun _ => hI.keeps_retarget (.external e) s t) _)) (fun _ _ => id) b hb
  | insert p i => exact hcode (.insert p i) (congrArg Body.code (leaves_onCode _))
  | push i => exact hcode (.push i) (congrArg Body.code (leaves_onCode _))
  | replace p i => exact hcode (.replace p i) (congrArg Body.code (leaves_onCode _))
  | remove p => exact hcode (.remove p) (congrArg Body.code (leaves_onCode _))
  | setMaxStack | setMaxLocals | setAttributes => exact hb

theorem Reachable.code (hreach : ∀ c, Code.Reachable c → I c)
    (hinserted : ∀ {c : Code} {i : Instruction Handle} (p : Nat), c.validate i = .ok () → I c → I (c.inserted p i))
    {b : Body} (h : Reachable b) : I b.code := by
  induction h with
  | ofCode h _ _ _ => exact hreach _ h
  | ofRead h =>
    obtain ⟨maxStack, maxLocals, code, c, d, count, entries, mid, attributes, -, -, -, hdecode, hguards, -,
      rfl⟩ := read_body_eq_ok_iff.mp h
    have hd : I d.code := readGuards_run (I := fun _ b => I b.code)
      (fun _ b start stop handler catches hb => keeps_addGuard hI start stop handler catches b hb)
      (hreach c (.decoded hdecode)) hguards
    exact hd
  | edited _ r ih => exact code_apply hI ih r fun p i hv he => he ▸ hinserted p hv ih

end Code

/-- The code of a body is laid out without gaps, whatever handles it has. -/
theorem Reachable.lists {b : Body} (h : Reachable b) : ∃ ns, b.code.Lists ns :=
  h.code Code.stable_lists (fun _ hc => hc.lists) fun p _ ⟨_, hc⟩ => ⟨_, hc.inserted p _⟩

end ClassCode.Body
