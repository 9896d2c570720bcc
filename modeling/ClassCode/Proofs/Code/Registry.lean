import ClassCode.Code.Edit
import ClassCode.Proofs.Holders.Count

/-! Registrations on instructions. Registering and releasing change the count of one holder on one
instruction by one and leave everything else alone, which instructions are there included. -/
namespace ClassCode.Code

open Std Holders

/-- No instruction is both there and gone, no count is zero, and an instruction that is gone is forgotten
with the last registration on it. -/
structure Ledger (c : Code) : Prop where
  separate : ∀ h, h ∈ c.inbound → h ∉ c.dangling
  inbound_positive : ∀ (h : Handle) s, c.inbound[h]? = some s → s.Positive
  dangling_positive : ∀ (h : Handle) s, c.dangling[h]? = some s → s.Positive
  dangling_nonempty : ∀ (h : Handle) s, c.dangling[h]? = some s → s.isEmpty = false

/-- An instruction is there, or something is left on it. -/
def Knows (c : Code) (h : Handle) : Prop := h ∈ c.inbound ∨ h ∈ c.dangling

theorem Ledger.of_eq {c d : Code} (hc : c.Ledger) (hi : d.inbound = c.inbound)
    (hd : d.dangling = c.dangling) : d.Ledger where
  separate := by rw [hi, hd]; exact hc.separate
  inbound_positive := by rw [hi]; exact hc.inbound_positive
  dangling_positive := by rw [hd]; exact hc.dangling_positive
  dangling_nonempty := by rw [hd]; exact hc.dangling_nonempty

/-- `d` is `c` with other registrations, on the same instructions; none of those that are gone is new. -/
structure Relisted (c d : Code) : Prop where
  nodes : d.nodes = c.nodes
  positions : d.positions = c.positions
  next : d.next = c.next
  live : ∀ h, h ∈ d.inbound ↔ h ∈ c.inbound
  gone : ∀ h, h ∈ d.dangling → h ∈ c.dangling
  ledger : d.Ledger

theorem Relisted.refl {c : Code} (hc : c.Ledger) : Relisted c c :=
  ⟨rfl, rfl, rfl, fun _ => Iff.rfl, fun _ h => h, hc⟩

theorem Relisted.trans {c d e : Code} (hcd : Relisted c d) (hde : Relisted d e) : Relisted c e where
  nodes := hde.nodes.trans hcd.nodes
  positions := hde.positions.trans hcd.positions
  next := hde.next.trans hcd.next
  live h := (hde.live h).trans (hcd.live h)
  gone h hh := hcd.gone h (hde.gone h hh)
  ledger := hde.ledger

theorem mem_of_getElem? {t : Handle} {m : Registry} {s : Holders (Holder Handle)}
    (h : m[t]? = some s) : t ∈ m := by
  rw [ExtTreeMap.mem_iff_isSome_getElem?, h]
  rfl

theorem exists_of_mem {t : Handle} {m : Registry} (h : t ∈ m) : ∃ s, m[t]? = some s :=
  Option.isSome_iff_exists.mp (ExtTreeMap.mem_iff_isSome_getElem?.mp h)

theorem of_getElem?_erase {t h : Handle} {m : Registry} {s : Holders (Holder Handle)}
    (hs : (m.erase t)[h]? = some s) : m[h]? = some s := by
  rw [ExtTreeMap.getElem?_erase] at hs
  split at hs
  · simp at hs
  · exact hs

theorem registrations_of_inbound {c : Code} {t : Handle} {s : Holders (Holder Handle)}
    (h : c.inbound[t]? = some s) (k : Holder Handle) : c.registrations t k = s.count k := by
  simp [registrations, registered?, h]

theorem registrations_of_dangling {c : Code} {t : Handle} {s : Holders (Holder Handle)}
    (hi : t ∉ c.inbound) (h : c.dangling[t]? = some s) (k : Holder Handle) :
    c.registrations t k = s.count k := by
  simp [registrations, registered?, ExtTreeMap.getElem?_eq_none hi, h]

theorem registrations_of_not_mem {c : Code} {t : Handle} (hi : t ∉ c.inbound) (hd : t ∉ c.dangling)
    (k : Holder Handle) : c.registrations t k = 0 := by
  simp [registrations, registered?, ExtTreeMap.getElem?_eq_none hi, ExtTreeMap.getElem?_eq_none hd]

theorem registrations_of_not_knows {c : Code} {t : Handle} (h : ¬ c.Knows t) (k : Holder Handle) :
    c.registrations t k = 0 :=
  registrations_of_not_mem (fun hi => h (.inl hi)) (fun hd => h (.inr hd)) k

section Stored

variable {c : Code} (hc : c.Ledger) {t : Handle} {s : Holders (Holder Handle)}
  (hs : c.inbound[t]? = some s ∨ c.dangling[t]? = some s)
include hc hs

theorem Ledger.positive_of_getElem? : s.Positive :=
  hs.elim (hc.inbound_positive t s) (hc.dangling_positive t s)

theorem Ledger.registrations_of_getElem? (k : Holder Handle) : c.registrations t k = s.count k := by
  rcases hs with hi | hd
  · exact registrations_of_inbound hi k
  · exact registrations_of_dangling (fun hi => hc.separate t hi (mem_of_getElem? hd)) hd k

end Stored

theorem registered_contains_iff {c : Code} (hc : c.Ledger) {t : Handle} {k : Holder Handle} :
    ((c.registered? t).any fun s => s.contains k) ↔ 0 < c.registrations t k := by
  cases hr : c.registered? t with
  | none => simp [registrations, hr]
  | some s =>
    have hs := (Option.or_eq_some_iff.mp hr).imp_right And.right
    simpa [registrations, hr] using contains_iff (hc.positive_of_getElem? hs)

/-! Other holders on one instruction. -/

section Store

variable {c : Code} {t : Handle} (r : Holders (Holder Handle)) (u : Handle) (m : Holder Handle)

theorem registrations_storeInbound :
    ({ c with inbound := c.inbound.insert t r } : Code).registrations u m =
      if t = u then r.count m else c.registrations u m := by
  by_cases h : t = u
  · subst h
    simp [registrations, registered?]
  · simp [registrations, registered?, ExtTreeMap.getElem?_insert, h]

theorem registrations_storeDangling (ht : t ∉ c.inbound) :
    ({ c with dangling := c.dangling.insert t r } : Code).registrations u m =
      if t = u then r.count m else c.registrations u m := by
  by_cases h : t = u
  · subst h
    simp [registrations, registered?, ExtTreeMap.getElem?_eq_none ht]
  · simp [registrations, registered?, ExtTreeMap.getElem?_insert, h]

theorem registrations_forget (ht : t ∉ c.inbound) :
    ({ c with dangling := c.dangling.erase t } : Code).registrations u m =
      if t = u then 0 else c.registrations u m := by
  by_cases h : t = u
  · subst h
    simp [registrations, registered?, ExtTreeMap.getElem?_eq_none ht]
  · simp [registrations, registered?, ExtTreeMap.getElem?_erase, h]

variable (hc : c.Ledger)
include hc

variable {r} in
theorem ledger_storeInbound (ht : t ∉ c.dangling) (hr : r.Positive) :
    Ledger { c with inbound := c.inbound.insert t r } where
  separate h hh := by
    simp only [ExtTreeMap.mem_insert, LawfulEqCmp.compare_eq_iff_eq] at hh
    exact hh.elim (fun he => he ▸ ht) (hc.separate h)
  inbound_positive h s hs := by
    by_cases he : t = h
    · subst he
      simp only [ExtTreeMap.getElem?_insert_self, Option.some.injEq] at hs
      exact hs ▸ hr
    · simp [ExtTreeMap.getElem?_insert, he] at hs
      exact hc.inbound_positive h s hs
  dangling_positive := hc.dangling_positive
  dangling_nonempty := hc.dangling_nonempty

variable {r} in
theorem relisted_storeInbound (ht : t ∈ c.inbound) (hr : r.Positive) :
    Relisted c { c with inbound := c.inbound.insert t r } where
  nodes := rfl
  positions := rfl
  next := rfl
  live h := by
    simp only [ExtTreeMap.mem_insert, LawfulEqCmp.compare_eq_iff_eq]
    exact ⟨fun hh => hh.elim (fun he => he ▸ ht) id, .inr⟩
  gone _ hh := hh
  ledger := ledger_storeInbound hc (hc.separate t ht) hr

variable {r} in
theorem ledger_storeDangling (ht : t ∉ c.inbound) (hr : r.Positive) (hne : r.isEmpty = false) :
    Ledger { c with dangling := c.dangling.insert t r } := by
  have hcases : ∀ (h : Handle) s, (c.dangling.insert t r)[h]? = some s →
      s = r ∨ c.dangling[h]? = some s := by
    intro h s hs
    by_cases he : t = h
    · subst he
      simp only [ExtTreeMap.getElem?_insert_self, Option.some.injEq] at hs
      exact .inl hs.symm
    · simp [ExtTreeMap.getElem?_insert, he] at hs
      exact .inr hs
  refine ⟨fun h hh hd => ?_, hc.inbound_positive, fun h s hs => ?_, fun h s hs => ?_⟩
  · simp only [ExtTreeMap.mem_insert, LawfulEqCmp.compare_eq_iff_eq] at hd
    exact hd.elim (fun he => ht (he ▸ hh)) (hc.separate h hh)
  · rcases hcases h s hs with rfl | hs
    · exact hr
    · exact hc.dangling_positive h s hs
  · rcases hcases h s hs with rfl | hs
    · exact hne
    · exact hc.dangling_nonempty h s hs

variable {r} in
theorem relisted_storeDangling (ht : t ∈ c.dangling) (hr : r.Positive) (hne : r.isEmpty = false) :
    Relisted c { c with dangling := c.dangling.insert t r } where
  nodes := rfl
  positions := rfl
  next := rfl
  live _ := Iff.rfl
  gone h := by
    simp only [ExtTreeMap.mem_insert, LawfulEqCmp.compare_eq_iff_eq]
    exact fun hh => hh.elim (fun he => he ▸ ht) id
  ledger := ledger_storeDangling hc (fun hi => hc.separate t hi ht) hr hne

omit r in
theorem relisted_forget : Relisted c { c with dangling := c.dangling.erase t } := by
  have hgone : ∀ h, h ∈ c.dangling.erase t → h ∈ c.dangling := fun _ =>
    ExtTreeMap.mem_of_mem_erase
  refine ⟨rfl, rfl, rfl, fun _ => Iff.rfl, hgone, ?_⟩
  exact ⟨fun h hh hd => hc.separate h hh (hgone h hd), hc.inbound_positive,
    fun h s hs => hc.dangling_positive h s (of_getElem?_erase hs),
    fun h s hs => hc.dangling_nonempty h s (of_getElem?_erase hs)⟩

end Store

/-! An instruction that is taken out. -/

section Unlink

variable {c : Code} (t : Handle)

theorem registrations_unlink (ht : t ∉ c.dangling) (u : Handle) (m : Holder Handle) :
    ({ c with inbound := c.inbound.erase t } : Code).registrations u m =
      if t = u then 0 else c.registrations u m := by
  by_cases h : t = u
  · subst h
    simp [registrations, registered?, ExtTreeMap.getElem?_eq_none ht]
  · simp [registrations, registered?, ExtTreeMap.getElem?_erase, h]

theorem ledger_unlink (hc : c.Ledger) : Ledger { c with inbound := c.inbound.erase t } where
  separate h hh := hc.separate h (ExtTreeMap.mem_of_mem_erase hh)
  inbound_positive h s hs := hc.inbound_positive h s (of_getElem?_erase hs)
  dangling_positive := hc.dangling_positive
  dangling_nonempty := hc.dangling_nonempty

/-- Code without the instruction `t`, whose registrations stay if there are any. -/
def retire (c : Code) (t : Handle) : Code :=
  let left := c.inbound.getD t .empty
  { c with
    inbound := c.inbound.erase t
    dangling := if left.isEmpty then c.dangling else c.dangling.insert t left }

theorem mem_inbound_retire (h : Handle) : h ∈ (c.retire t).inbound ↔ h ≠ t ∧ h ∈ c.inbound := by
  simp only [retire, ExtTreeMap.mem_erase, Ne, LawfulEqCmp.compare_eq_iff_eq]
  exact and_congr_left' (not_congr eq_comm)

theorem knows_of_retire {h : Handle} (hh : (c.retire t).Knows h) : c.Knows h := by
  rcases hh with hi | hd
  · exact .inl ((c.mem_inbound_retire t h).mp hi).2
  · simp only [retire] at hd
    split at hd
    · exact .inr hd
    · rename_i hleft
      rw [ExtTreeMap.mem_insert, LawfulEqCmp.compare_eq_iff_eq] at hd
      rcases hd with rfl | hd
      · by_cases hi : t ∈ c.inbound
        · exact .inl hi
        · rw [ExtTreeMap.getD_eq_getD_getElem?, ExtTreeMap.getElem?_eq_none hi] at hleft
          exact absurd rfl hleft
      · exact .inr hd

variable {t} in
theorem ledger_retire (hc : c.Ledger) (ht : t ∈ c.inbound) : (c.retire t).Ledger := by
  obtain ⟨left, hleft⟩ := exists_of_mem ht
  have hget : c.inbound.getD t .empty = left := by simp [ExtTreeMap.getD_eq_getD_getElem?, hleft]
  have hunlinked := ledger_unlink t hc
  simp only [retire, hget]
  split
  · exact hunlinked
  · rename_i hne
    exact ledger_storeDangling (c := { c with inbound := c.inbound.erase t }) hunlinked (by simp)
      (hc.inbound_positive t left hleft) (by simpa using hne)

variable {t} in
theorem registrations_retire (hc : c.Ledger) (ht : t ∈ c.inbound) (u : Handle) (m : Holder Handle) :
    (c.retire t).registrations u m = c.registrations u m := by
  obtain ⟨left, hleft⟩ := exists_of_mem ht
  have hget : c.inbound.getD t .empty = left := by simp [ExtTreeMap.getD_eq_getD_getElem?, hleft]
  have hunlinked := registrations_unlink t (hc.separate t ht) u m
  simp only [retire, hget]
  split
  · rename_i hempty
    rw [hunlinked]
    split
    · rename_i he
      rw [← he, registrations_of_inbound hleft, count_eq_zero_of_isEmpty hempty]
    · rfl
  · rw [registrations_storeDangling (c := { c with inbound := c.inbound.erase t }) left u m (by simp),
      hunlinked]
    split
    · rename_i he
      rw [← he, registrations_of_inbound hleft]
    · rfl

end Unlink

def moved (holder : Holder Handle) (source target : Handle) : (n : Nat) → Code → Code
  | 0, c => c
  | n + 1, c => moved holder source target n (register holder (release holder c source) target)

section Change

variable {c : Code} (hc : c.Ledger) (k : Holder Handle)

theorem register_eq_store {t : Handle} {s : Holders (Holder Handle)} (ht : c.inbound[t]? = some s) :
    register k c t = { c with inbound := c.inbound.insert t (s.register k) } := by
  have hmap : (c.inbound.modify t fun s => s.register k) = c.inbound.insert t (s.register k) := by
    apply ExtTreeMap.ext_getElem?
    intro h
    by_cases he : t = h
    · subst he
      simp [ht]
    · simp [ExtTreeMap.getElem?_modify, ExtTreeMap.getElem?_insert, he]
  rw [register, hmap]

include hc

theorem relisted_register {t : Handle} (ht : t ∈ c.inbound) : Relisted c (register k c t) := by
  obtain ⟨s, hs⟩ := exists_of_mem ht
  rw [register_eq_store k hs]
  exact relisted_storeInbound hc ht (positive_register (hc.inbound_positive t s hs) k)

omit hc in
theorem registrations_register {t : Handle} (ht : t ∈ c.inbound) (u : Handle) (m : Holder Handle) :
    (register k c t).registrations u m = c.registrations u m + if t = u ∧ k = m then 1 else 0 := by
  obtain ⟨s, hs⟩ := exists_of_mem ht
  rw [register_eq_store k hs, registrations_storeInbound]
  by_cases he : t = u
  · subst he
    simp [registrations_of_inbound hs]
  · simp [he]

omit hc in
/-- What a release makes of the code: nothing, or fewer registrations on the instruction. -/
theorem release_cases (t : Handle) :
    (release k c t = c ∧ c.registrations t k = 0) ∨
    (∃ s, c.inbound[t]? = some s ∧
      release k c t = { c with inbound := c.inbound.insert t (s.release k) }) ∨
    (t ∉ c.inbound ∧ ∃ s, c.dangling[t]? = some s ∧
      release k c t = { c with
        dangling :=
          if (s.release k).isEmpty then c.dangling.erase t
          else c.dangling.insert t (s.release k) }) := by
  cases hi : c.inbound[t]? with
  | some s =>
    cases hk : s.contains k with
    | false =>
      refine .inl ⟨by simp [release, release?, hi, release?_eq_none_iff.mpr hk], ?_⟩
      rw [registrations_of_inbound hi, count_eq_zero_of_not_contains hk]
    | true => exact .inr (.inl ⟨s, rfl, by simp [release, release?, hi, release?_eq_some hk]⟩)
  | none =>
    have hni : t ∉ c.inbound := by simp [ExtTreeMap.mem_iff_isSome_getElem?, hi]
    cases hd : c.dangling[t]? with
    | none =>
      refine .inl ⟨by simp [release, release?, hi, hd], ?_⟩
      simp [registrations, registered?, hi, hd]
    | some s =>
      cases hk : s.contains k with
      | false =>
        refine .inl ⟨by simp [release, release?, hi, hd, release?_eq_none_iff.mpr hk], ?_⟩
        rw [registrations_of_dangling hni hd, count_eq_zero_of_not_contains hk]
      | true =>
        exact .inr (.inr ⟨hni, s, rfl, by simp [release, release?, hi, hd, release?_eq_some hk]⟩)

theorem relisted_release (t : Handle) : Relisted c (release k c t) := by
  rcases release_cases k t (c := c) with ⟨he, -⟩ | ⟨s, hs, he⟩ | ⟨-, s, hs, he⟩
  · rw [he]
    exact .refl hc
  · rw [he]
    exact relisted_storeInbound hc (mem_of_getElem? hs)
      (positive_release (hc.inbound_positive t s hs) k)
  · rw [he]
    split
    · exact relisted_forget hc
    · rename_i hne
      exact relisted_storeDangling hc (mem_of_getElem? hs)
        (positive_release (hc.dangling_positive t s hs) k) (by simpa using hne)

omit hc in
theorem registrations_release (t u : Handle) (m : Holder Handle) :
    (release k c t).registrations u m = c.registrations u m - if t = u ∧ k = m then 1 else 0 := by
  rcases release_cases k t (c := c) with ⟨he, hzero⟩ | ⟨s, hs, he⟩ | ⟨hni, s, hs, he⟩
  · rw [he]
    split
    · rename_i h
      rw [← h.1, ← h.2, hzero]
    · rfl
  · rw [he, registrations_storeInbound]
    by_cases hu : t = u
    · subst hu
      simp [registrations_of_inbound hs, count_release]
    · simp [hu]
  · rw [he]
    by_cases hu : t = u
    · subst hu
      have hcount := count_release s k m
      split
      · rename_i hempty
        rw [registrations_forget _ _ hni, registrations_of_dangling hni hs]
        rw [count_eq_zero_of_isEmpty hempty] at hcount
        simp only [if_true, true_and]
        omega
      · rw [registrations_storeDangling _ _ _ hni, registrations_of_dangling hni hs]
        simp [hcount]
    · split
      · simp [registrations_forget _ _ hni, hu]
      · simp [registrations_storeDangling _ _ _ hni, hu]

theorem relisted_registerAll {ts : List Handle} (hts : ∀ t ∈ ts, t ∈ c.inbound) :
    Relisted c (ts.foldl (register k) c) := by
  induction ts generalizing c with
  | nil => exact .refl hc
  | cons t ts ih =>
    have hfirst := relisted_register hc k (hts t (by simp))
    exact hfirst.trans (ih hfirst.ledger fun u hu => (hfirst.live u).mpr (hts u (by simp [hu])))

theorem registrations_registerAll {ts : List Handle} (hts : ∀ t ∈ ts, t ∈ c.inbound) (u : Handle)
    (m : Holder Handle) :
    (ts.foldl (register k) c).registrations u m =
      c.registrations u m + if k = m then ts.count u else 0 := by
  induction ts generalizing c with
  | nil => simp
  | cons t ts ih =>
    have hfirst := relisted_register hc k (hts t (by simp))
    have hrest := ih hfirst.ledger fun u hu => (hfirst.live u).mpr (hts u (by simp [hu]))
    rw [List.foldl_cons, hrest, registrations_register k (hts t (by simp)), List.count_cons]
    by_cases hk : k = m <;> by_cases hu : t = u <;> simp [hk, hu, Nat.add_assoc, Nat.add_comm 1]

theorem relisted_releaseAll (ts : List Handle) : Relisted c (ts.foldl (release k) c) := by
  induction ts generalizing c with
  | nil => exact .refl hc
  | cons t ts ih =>
    have hfirst := relisted_release hc k t
    exact hfirst.trans (ih hfirst.ledger)

omit hc in
theorem registrations_releaseAll (ts : List Handle) (u : Handle) (m : Holder Handle) :
    (ts.foldl (release k) c).registrations u m =
      c.registrations u m - if k = m then ts.count u else 0 := by
  induction ts generalizing c with
  | nil => simp
  | cons t ts ih =>
    rw [List.foldl_cons, ih, registrations_release, List.count_cons]
    by_cases hk : k = m <;> by_cases hu : t = u <;> simp [hk, hu, Nat.sub_sub, Nat.add_comm 1]

theorem relisted_moved (source : Handle) {target : Handle} (ht : target ∈ c.inbound) (n : Nat) :
    Relisted c (moved k source target n c) := by
  induction n generalizing c with
  | zero => exact .refl hc
  | succ n ih =>
    have hout := relisted_release hc k source
    have hin := hout.trans (relisted_register hout.ledger k ((hout.live target).mpr ht))
    exact hin.trans (ih hin.ledger ((hin.live target).mpr ht))

theorem registrations_moved (source : Handle) {target : Handle} (ht : target ∈ c.inbound) {n : Nat}
    (hn : n ≤ c.registrations source k) (u : Handle) (m : Holder Handle) :
    (moved k source target n c).registrations u m =
      c.registrations u m - (if source = u ∧ k = m then n else 0) +
        if target = u ∧ k = m then n else 0 := by
  induction n generalizing c with
  | zero => simp [moved]
  | succ n ih =>
    have hout := relisted_release hc k source
    have hin := relisted_register hout.ledger k ((hout.live target).mpr ht)
    have hstep : ∀ v j, (register k (release k c source) target).registrations v j =
        c.registrations v j - (if source = v ∧ k = j then 1 else 0) +
          if target = v ∧ k = j then 1 else 0 := by
      intro v j
      rw [registrations_register k ((hout.live target).mpr ht), registrations_release]
    rw [moved, ih hin.ledger ((hin.live target).mpr ((hout.live target).mpr ht)), hstep]
    · by_cases hs : source = u ∧ k = m
      · obtain ⟨rfl, rfl⟩ := hs
        by_cases htu : target = source <;> simp [htu] <;> omega
      · by_cases htu : target = u ∧ k = m
        · simp only [if_neg hs, if_pos htu]
          omega
        · simp [hs, htu]
    · rw [hstep]
      by_cases hs : target = source <;> simp [hs] <;> omega

end Change

/-! Registrations are apart from the instructions. -/

section Nodes

variable (k : Holder Handle) (c : Code)

theorem nodes_register (t : Handle) : (register k c t).nodes = c.nodes := rfl

theorem nodes_release (t : Handle) : (release k c t).nodes = c.nodes := by
  rcases release_cases k t (c := c) with ⟨he, -⟩ | ⟨_, -, he⟩ | ⟨-, _, -, he⟩ <;> rw [he]

theorem nodes_registerAll (ts : List Handle) : (ts.foldl (register k) c).nodes = c.nodes := by
  induction ts generalizing c with
  | nil => rfl
  | cons t ts ih => rw [List.foldl_cons, ih, nodes_register]

theorem nodes_releaseAll (ts : List Handle) : (ts.foldl (release k) c).nodes = c.nodes := by
  induction ts generalizing c with
  | nil => rfl
  | cons t ts ih => rw [List.foldl_cons, ih, nodes_release]

end Nodes

end ClassCode.Code
