import ClassCode.Body.Basic
import ClassCode.Proofs.Code.Run

/-! Adding guards. A guard is added when all its targets are there; it is then registered on each of them,
as often as it has it, and the instructions stay as they are. -/
namespace ClassCode

theorem Guard.mem_targets {g : Guard} {t : Handle} :
    t ∈ g.targets ↔ t = g.start ∨ g.stop = some t ∨ t = g.handler := by
  simp [targets]

theorem Guard.targets_mapTargets (f : Handle → Handle) (g : Guard) :
    (g.mapTargets f).targets = g.targets.map f := by
  cases hs : g.stop <;> simp [targets, mapTargets, hs]

theorem Guard.mapTargets_mapTargets (f k : Handle → Handle) (g : Guard) :
    (g.mapTargets f).mapTargets k = g.mapTargets fun t => k (f t) := by
  cases hs : g.stop <;> simp [mapTargets, hs]

theorem Guard.mapTargets_eq_self {f : Handle → Handle} {g : Guard} (h : ∀ t ∈ g.targets, f t = t) :
    g.mapTargets f = g := by
  obtain ⟨start, stop, handler, catches, id⟩ := g
  cases stop <;> simp_all [targets, mapTargets]

namespace Code

open Run Outcome

section Targets

variable {c : Code} (ts : List Handle)

theorem checkLive_eq_ok_iff {t : Handle} {u : Unit} : c.checkLive t = .ok u ↔ c.isLive t := by
  rw [checkLive]
  by_cases ht : c.isLive t <;> simp [ht, unknown]

theorem forM_ask_apply :
    (forM ts fun t => ask (checkLive · t) : Edit Unit) c =
      match forM ts c.checkLive with
      | .ok u => .ok u c
      | .error f => .error f c := by
  induction ts with
  | nil => rfl
  | cons t ts ih =>
    rw [List.forM_cons, List.forM_cons, bind_apply]
    cases ht : c.checkLive t with
    | error f => simp [ask, ht]; rfl
    | ok u => simpa [ask, ht] using ih

theorem forM_registerExternal_apply (id : ExternalId) (hts : ∀ t ∈ ts, t ∈ c.inbound) :
    (forM ts (registerExternal id)) c = .ok () (ts.foldl (register (.external id)) c) := by
  induction ts generalizing c with
  | nil => rfl
  | cons t ts ih =>
    have ht := hts t (by simp)
    rw [List.forM_cons, bind_apply, registerExternal, registerOn_apply]
    simp only [ht, if_true]
    exact ih fun s hs => Std.ExtTreeMap.mem_modify.mpr (hts s (by simp [hs]))

end Targets

end Code

namespace Body

open Run

variable (b : Body) (start : Handle) (stop : Option Handle) (handler : Handle) (catches : PoolIndex)

@[simp] theorem onCode_apply {α : Type} (edit : Code.Edit α) :
    onCode edit b = match edit b.code with
      | .ok x c => .ok x { b with code := c }
      | .error f c => .error f { b with code := c } := rfl

def newGuard : Guard := { start, stop, handler, catches, id := b.ids.fresh.1 }

theorem addGuard_apply (hheld : ∀ t, b.code.isLive t → t ∈ b.code.inbound) :
    addGuard start stop handler catches b =
      let g := b.newGuard start stop handler catches
      match forM g.targets b.code.checkLive with
      | .ok _ => .ok g.id { b with
          code := g.targets.foldl (Code.register (.external g.id)) b.code
          guards := b.guards.push g
          ids := b.ids.fresh.2 }
      | .error f => .error f { b with ids := b.ids.fresh.2 } := by
  have hask := Code.forM_ask_apply (c := b.code) (b.newGuard start stop handler catches).targets
  cases hlive : forM (b.newGuard start stop handler catches).targets b.code.checkLive with
  | error f =>
    rw [hlive] at hask
    simp only [newGuard] at hask hlive
    simp [addGuard, hask, newGuard, hlive]
  | ok u =>
    rw [hlive] at hask
    have hts := fun t ht => hheld t (Code.checkLive_eq_ok_iff.mp (Outcome.forM_eq_ok_iff.mp hlive t ht))
    have hregister := Code.forM_registerExternal_apply _ b.ids.fresh.1 hts
    simp only [newGuard] at hask hlive hregister
    simp [addGuard, hask, hregister, newGuard, hlive]

end Body

end ClassCode
