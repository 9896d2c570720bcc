import ClassCode.Proofs.Pool.Distinct

/-! Growing pools. To add a constant is to take nothing from what is there: every index leads to the constant
that it led to, and no registration goes. Along a run of requests that takes no constant out, whatever was
found is found where it was. -/
namespace ClassCode.Pool

open Holders Run

/-- `q` has all that `p` has, and nothing outside holds more of it than before. -/
structure Grows (p q : Pool) : Prop where
  entries : p.entries <+: q.entries
  constants : ∀ i c, p.constantAt i none = .ok c → q.constantAt i none = .ok c
  registered : ∀ i h, (p.registrationsAt i).count h ≤ (q.registrationsAt i).count h
  external : ∀ i id,
    (q.registrationsAt i).count (.external id) = (p.registrationsAt i).count (.external id)

theorem Grows.refl (p : Pool) : Grows p p :=
  ⟨List.prefix_refl _, fun _ _ h => h, fun _ _ => Nat.le_refl _, fun _ _ => rfl⟩

theorem Grows.trans {p q r : Pool} (hpq : Grows p q) (hqr : Grows q r) : Grows p r where
  entries := hpq.entries.trans hqr.entries
  constants i c h := hqr.constants i c (hpq.constants i c h)
  registered i h := (hpq.registered i h).trans (hqr.registered i h)
  external i id := (hqr.external i id).trans (hpq.external i id)

theorem Tracks.constantAt_of_prefix {p q : Pool} {cs ds : List Constant} (hp : p.Tracks cs) (hq : q.Tracks ds)
    (h : p.entries <+: q.entries) {i : PoolIndex} {c : Constant} (hc : p.constantAt i none = .ok c) :
    q.constantAt i none = .ok c := by
  rw [hp.constantAt_eq_ok_iff, ← hp.counts.lists.entries_eq] at hc
  rw [hq.constantAt_eq_ok_iff, ← hq.counts.lists.entries_eq]
  exact h.subset hc

section Added

variable {p : Pool} {cs : List Constant} (hp : p.Tracks cs) {c : Constant} (hroom : Roomy (cs ++ [c]))
  (hrefs : ∀ r ∈ c.references, r ∈ indices cs)
include hp hroom hrefs

theorem Tracks.count_registrationsAt_added (i : PoolIndex) (h : Holder PoolIndex) :
    ((p.added c).registrationsAt i).count h =
      (p.registrationsAt i).count h + if h = .entry p.next then c.references.count i else 0 := by
  have hq := hp.added hroom hrefs
  have hnext : p.next = indexAt (Layout.past 1 cs) := congrArg indexAt hp.counts.lists.count_eq
  have hheld {k : Nat} (hk : (indices (cs ++ [c]))[k]? = some i) :
      ((p.added c).registrationsAt i).count h =
        (if k < cs.length then p.holdersAt k else .empty).count h +
          if h = .entry p.next then c.references.count i else 0 := by
    rw [hq.registrationsAt_eq hk, count_toList, Pool.added, register_eq_touch,
      (hp.counts.lists.append c).holdersAt_foldl_touch _ hroom _ hk, count_repeat_register,
      hp.counts.lists.holdersAt_append]
    simp only [eq_comm]
  by_cases hi : i ∈ indices cs
  · obtain ⟨k, hk⟩ := List.mem_iff_getElem?.mp hi
    have hlt : k < cs.length := by
      rw [← length_indices cs]
      exact (List.getElem?_eq_some_iff.mp hk).1
    have hk' : (indices (cs ++ [c]))[k]? = some i := by
      rw [indices_append, List.getElem?_append_left (by simpa using hlt), hk]
    rw [hheld hk', if_pos hlt, hp.registrationsAt_eq hk, count_toList]
  · have hunheld : c.references.count i = 0 := List.count_eq_zero.mpr fun hmem => hi (hrefs i hmem)
    rw [hp.registrationsAt_of_not_mem hi, hunheld]
    -- what it refers to was there before, so its own index is not among that
    by_cases hnew : i = p.next
    · have hk : (indices (cs ++ [c]))[cs.length]? = some i := by
        rw [indices_append, List.getElem?_append_right (by simp), hnew, hnext]
        simp
      rw [hheld hk, if_neg (Nat.lt_irrefl _), hunheld]
      simp
    · rw [hq.registrationsAt_of_not_mem]
      · simp
      · rw [indices_append, ← hnext, List.mem_append, List.mem_singleton]
        exact fun hmem => hmem.elim hi hnew

omit hroom hrefs in
theorem Tracks.entries_added : (p.added c).entries = p.entries ++ [(p.next, c)] := by
  have hlists : (p.added c).Lists (cs ++ [c]) := (hp.counts.lists.append c).foldl_touch _ _
  rw [hlists.entries_eq, listed_append, hp.counts.lists.entries_eq, ← hp.counts.lists.count_eq]
  rfl

theorem Tracks.grows_added : Grows p (p.added c) where
  entries := by
    rw [hp.entries_added]
    exact List.prefix_append _ _
  constants i d hd := by
    refine hp.constantAt_of_prefix (hp.added hroom hrefs) ?_ hd
    rw [hp.entries_added]
    exact List.prefix_append _ _
  registered i h := by
    rw [hp.count_registrationsAt_added hroom hrefs]
    exact Nat.le_add_right _ _
  external i id := by
    rw [hp.count_registrationsAt_added hroom hrefs]
    simp

end Added

section Interning

variable {p : Pool} {cs : List Constant} (hp : p.Settled cs) {c : Constant} (hc : Addable p cs c)
include hp hc

theorem Settled.added : (p.added c).Settled (cs ++ [c]) := by
  have hchange : Change (fun _ => True) p cs (p.added c) (cs ++ [c]) :=
    .added trivial hc.unfound hc.short
  exact hp.change (hp.tracks.added hc.roomy hc.live) hchange

theorem Settled.indexOf?_added : (p.added c).indexOf? c = some p.next := by
  rw [(hp.added hc).interns, firstIndex?_append, ← hp.interns, hc.unfound, Option.none_or, if_pos rfl,
    ← hp.tracks.counts.lists.count_eq]
  rfl

end Interning

/-- The pools that runs of requests lead to from `p` in which no removal is granted. -/
inductive Later (p : Pool) : Pool → Prop where
  | here : Later p p
  | edited {q : Pool} (h : Later p q) (r : Request)
    (hkept : ∀ i, r = .remove i → answer? (Pool.remove i) q = none) : Later p (r.apply q)

section Runs

variable {p : Pool} (hp : Reachable p)
include hp

theorem Reachable.grows_intern (c : Constant) : Grows p (leaves (Pool.intern c) p) := by
  obtain ⟨cs, hcs⟩ := hp.settled
  rw [leaves]
  rcases hcs.tracks.intern_cases c with ⟨i, -, hr⟩ | ⟨f, hr⟩ | ⟨hadd, hr⟩
  · rw [hr]
    exact Grows.refl p
  · rw [hr]
    exact Grows.refl p
  · rw [hr]
    exact hcs.tracks.grows_added hadd.roomy hadd.live

/-- A request that takes nothing out leaves the constants, and adds some after them. -/
theorem Reachable.prefix_apply {r : Request} (hkept : ∀ i, r = .remove i → answer? (Pool.remove i) p = none) :
    p.entries <+: (r.apply p).entries := by
  by_cases hremove : ∃ i, r = .remove i
  · obtain ⟨i, rfl⟩ := hremove
    obtain ⟨cs, hcs⟩ := hp.settled
    have hrefused := hkept i rfl
    rw [answer?] at hrefused
    rw [Request.apply, leaves]
    cases hr : Pool.remove i p with
    | ok removal q => simp [hr] at hrefused
    | error f q =>
      obtain rfl := hcs.tracks.eq_of_remove_eq_error hr
      exact List.prefix_refl _
  · have hsame {q s : Pool} (h : s.constants = q.constants) (hpq : p.entries <+: q.entries) :
        p.entries <+: s.entries := by
      rw [entries, entries, h]
      exact hpq
    have hintern (c : Constant) (_ : True) :
        Run.Keeps (fun q => Reachable q ∧ p.entries <+: q.entries) (Pool.intern c) :=
      fun q hq => ⟨hq.1.edited (.intern c), hq.2.trans (hq.1.grows_intern c).entries⟩
    exact (Request.keeps hintern (fun _ => trivial) (fun _ _ => trivial) (fun i hi => absurd ⟨i, hi⟩ hremove)
      (fun id i q hq =>
        ⟨hq.1.edited (.registerExternal id i), hsame (constants_registerExternal q id i) hq.2⟩)
      (fun id i q hq =>
        ⟨hq.1.edited (.unregisterExternal id i), hsame (constants_unregisterExternal q id i) hq.2⟩)
      (fun _ _ => trivial) ⟨hp, List.prefix_refl _⟩).2

theorem Later.reachable {q : Pool} (h : Later p q) : Reachable q := by
  induction h with
  | here => exact hp
  | edited _ r _ ih => exact ih.edited r

theorem Later.entries {q : Pool} (h : Later p q) : p.entries <+: q.entries := by
  induction h with
  | here => exact List.prefix_refl _
  | edited h r hkept ih => exact ih.trans ((h.reachable hp).prefix_apply hkept)

theorem Reachable.constantAt_of_indexOf? {i : PoolIndex} {c : Constant} (hi : p.indexOf? c = some i) :
    p.constantAt i none = .ok c := by
  obtain ⟨cs, hcs⟩ := hp.settled
  rw [hcs.interns, hcs.tracks.counts.roomy.firstIndex?_eq_some_iff] at hi
  exact hcs.tracks.constantAt_eq_ok_iff.mpr hi.1

theorem Reachable.indexOf?_of_prefix {q : Pool} (hq : Reachable q) (h : p.entries <+: q.entries) {i : PoolIndex}
    {c : Constant} (hi : p.indexOf? c = some i) : q.indexOf? c = some i := by
  obtain ⟨cs, hcs⟩ := hp.settled
  obtain ⟨ds, hds⟩ := hq.settled
  obtain ⟨es, hes⟩ := h
  rw [hcs.tracks.counts.lists.entries_eq, hds.tracks.counts.lists.entries_eq] at hes
  rw [hcs.interns, firstIndex?] at hi
  rw [hds.interns, firstIndex?, ← hes, List.find?_append, Option.map_or, hi, Option.some_or]

section Answered

variable {q : Pool} {c : Constant} {i : PoolIndex} (h : Pool.intern c p = .ok i q)
include h

theorem Reachable.of_intern : Reachable q := by
  have hq := hp.edited (.intern c)
  rw [Request.apply, leaves, h] at hq
  exact hq

theorem Reachable.prefix_of_intern : p.entries <+: q.entries := by
  have hgrows := hp.grows_intern c
  rw [leaves, h] at hgrows
  exact hgrows.entries

theorem Reachable.indexOf?_of_intern : q.indexOf? c = some i := by
  obtain ⟨cs, hcs⟩ := hp.settled
  rcases hcs.tracks.intern_cases c with ⟨j, hj, hr⟩ | ⟨f, hr⟩ | ⟨hadd, hr⟩
  · obtain ⟨rfl, rfl⟩ := EStateM.Result.ok.inj (hr.symm.trans h)
    exact hj
  · cases hr.symm.trans h
  · obtain ⟨rfl, rfl⟩ := EStateM.Result.ok.inj (hr.symm.trans h)
    exact hcs.indexOf?_added hadd

end Answered

end Runs

end ClassCode.Pool
