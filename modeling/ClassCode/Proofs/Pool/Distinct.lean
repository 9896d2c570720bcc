import ClassCode.Proofs.Pool.Interning
import ClassCode.Proofs.Pool.Refusals
import Mathlib.Data.Set.Function

/-! Equal constants. No edit makes two constants equal that were not: one is added only if it is not there,
and references to different constants stay different when they are renumbered. So only a pool that was
read can have a constant twice, and what is interned is the first of them. -/
namespace ClassCode

open Run

theorem Constant.injOn_mapReferences {f : PoolIndex → PoolIndex} {s : Set PoolIndex} (hf : s.InjOn f) :
    Set.InjOn (Constant.mapReferences f) {c : Constant | ∀ r ∈ c.references, r ∈ s} := by
  have hback {c : Constant} (hc : ∀ r ∈ c.references, r ∈ s) :
      (c.mapReferences f).mapReferences (Function.invFunOn f s) = c := by
    rw [c.mapReferences_mapReferences]
    exact (mapReferences_congr fun r hr => hf.leftInvOn_invFunOn (hc r hr)).trans c.mapReferences_id
  intro c hc d hd h
  rw [← hback hc, ← hback hd, h]

namespace Pool

section First

variable {cs : List Constant} {c : Constant}

theorem firstIndex?_eq_none_iff : firstIndex? cs c = none ↔ c ∉ cs := by
  rw [firstIndex?, Option.map_eq_none_iff, List.find?_eq_none]
  constructor
  · intro h hc
    obtain ⟨i, hi⟩ := exists_mem_listed hc
    exact h _ hi (by simp)
  · intro h e he heq
    have hmem := snd_mem_of_mem_listed he
    rw [of_decide_eq_true heq] at hmem
    exact h hmem

theorem Roomy.firstIndex?_eq_some_iff (hroom : Roomy cs) {i : PoolIndex} :
    firstIndex? cs c = some i ↔ (i, c) ∈ listed cs ∧ ∀ j, (j, c) ∈ listed cs → i.slot ≤ j.slot := by
  have hleast {i : PoolIndex} (h : firstIndex? cs c = some i) :
      (i, c) ∈ listed cs ∧ ∀ j, (j, c) ∈ listed cs → i.slot ≤ j.slot := by
    obtain ⟨⟨_, d⟩, hfound, rfl⟩ := Option.map_eq_some_iff.mp h
    obtain ⟨hd, before, after, hes, hbefore⟩ := List.find?_eq_some_iff_append.mp hfound
    obtain rfl : d = c := by simpa using hd
    have hordered := hroom.pairwise_listed
    rw [hes] at hordered ⊢
    obtain ⟨-, hfrom, -⟩ := List.pairwise_append.mp hordered
    refine ⟨by simp, fun j hj => ?_⟩
    rcases List.mem_append.mp hj with hmem | hmem
    · simpa using hbefore _ hmem
    · rcases List.mem_cons.mp hmem with heq | hafter
      · exact UInt16.le_of_eq (congrArg (fun e => e.1.slot) heq.symm)
      · exact UInt16.le_of_lt ((List.pairwise_cons.mp hfrom).1 _ hafter)
  refine ⟨hleast, fun ⟨hi, hbelow⟩ => ?_⟩
  cases h : firstIndex? cs c with
  | none => exact absurd (snd_mem_of_mem_listed hi) (firstIndex?_eq_none_iff.mp h)
  | some j =>
    obtain ⟨hj, hfirst⟩ := hleast h
    have hslot := UInt16.le_antisymm (hfirst i hi) (hbelow j hj)
    exact congrArg some (PoolIndex.slot_toNat_inj (congrArg UInt16.toNat hslot))

end First

def Twins (p : Pool) (i j : PoolIndex) (c : Constant) : Prop :=
  i ≠ j ∧ (i, c) ∈ p.entries ∧ (j, c) ∈ p.entries

/-- Constants with the references that `f` leads them to; those that it leads nowhere stay. -/
def sent (f : PoolIndex → Option PoolIndex) (c : Constant) : Constant := c.mapReferences fun r => (f r).getD r

/-- Whatever is equal in `q` was equal in `p`, under the indices that `f` brought there. -/
def Inherits (f : PoolIndex → Option PoolIndex) (p q : Pool) : Prop :=
  ∀ i j c, q.Twins i j c → ∃ a b d, p.Twins a b d ∧ f a = some i ∧ f b = some j ∧ sent f d = c

def lowered? (i : PoolIndex) (slots : Nat) (j : PoolIndex) : Option PoolIndex :=
  if j = i then none else some (lowered i slots j)

def Request.renames (r : Request) (p : Pool) : PoolIndex → Option PoolIndex :=
  match r with
  | .remove i => (answer? (Pool.remove i) p).elim some fun removal => lowered? i removal.constant.slots
  | _ => some

section Inherits

variable {p q : Pool}

theorem inherits_of_twins (h : ∀ i j c, q.Twins i j c → p.Twins i j c) : Inherits some p q :=
  fun i j c hc => ⟨i, j, c, h i j c hc, rfl, rfl, c.mapReferences_id⟩

theorem inherits_of_constants_eq (h : q.constants = p.constants) : Inherits some p q := by
  refine inherits_of_twins fun i j c hc => ?_
  rw [Twins, entries, h] at hc
  exact hc

theorem Inherits.twins (h : Inherits some p q) {i j : PoolIndex} {c : Constant} (hc : q.Twins i j c) :
    p.Twins i j c := by
  obtain ⟨a, b, d, hd, hi, hj, hcd⟩ := h i j c hc
  obtain rfl : d = c := d.mapReferences_id.symm.trans hcd
  rwa [← Option.some.inj hi, ← Option.some.inj hj]

theorem Inherits.trans {s : Pool} (hpq : Inherits some p q) (hqs : Inherits some q s) : Inherits some p s :=
  inherits_of_twins fun _ _ _ h => hpq.twins (hqs.twins h)

theorem Inherits.nodup {f : PoolIndex → Option PoolIndex} (h : Inherits f p q) {ds : List Constant}
    (hq : q.Tracks ds) (hp : (p.entries.map Prod.snd).Nodup) : (q.entries.map Prod.snd).Nodup := by
  have hapart : q.entries.Pairwise fun d e => d.1 ≠ e.1 := by
    rw [hq.counts.lists.entries_eq]
    exact List.pairwise_map.mp hq.counts.roomy.nodup_indices
  refine List.pairwise_map.mpr (hapart.imp_of_mem fun {d e} hd he hne heq => ?_)
  have hd' : (d.1, e.2) ∈ q.entries := heq ▸ hd
  obtain ⟨a, b, x, ⟨hab, ha, hb⟩, -⟩ := h d.1 e.1 e.2 ⟨hne, hd', he⟩
  exact hab (congrArg Prod.fst (List.inj_on_of_nodup_map hp ha hb rfl))

end Inherits

section Steps

variable {p : Pool} {cs : List Constant} (hp : p.Settled cs)
include hp

theorem Settled.inherits_added {c : Constant} (hc : p.indexOf? c = none) :
    Inherits some p (p.added c) := by
  have hnew : c ∉ cs := firstIndex?_eq_none_iff.mp ((hp.interns c).symm.trans hc)
  have hlists : (p.added c).Lists (cs ++ [c]) := (hp.tracks.counts.lists.append c).foldl_touch _ _
  have hold {i j : PoolIndex} {d : Constant} (hij : i ≠ j) (hi : (i, d) ∈ (p.added c).entries)
      (hj : (j, d) ∈ (p.added c).entries) : (i, d) ∈ p.entries := by
    rw [hlists.entries_eq, listed_append, List.mem_append, List.mem_singleton] at hi hj
    rw [hp.tracks.counts.lists.entries_eq]
    refine hi.resolve_right fun hlast => ?_
    obtain ⟨rfl, rfl⟩ := Prod.mk.inj hlast
    rcases hj with hj | hj
    · exact hnew (snd_mem_of_mem_listed hj)
    · exact hij (congrArg Prod.fst hj).symm
  exact inherits_of_twins fun i j d ⟨hij, hi, hj⟩ => ⟨hij, hold hij hi hj, hold hij.symm hj hi⟩

theorem Settled.inherits_intern (c : Constant) : Inherits some p (leaves (Pool.intern c) p) := by
  rw [leaves]
  rcases hp.tracks.intern_cases c with ⟨i, -, hr⟩ | ⟨f, hr⟩ | ⟨hadd, hr⟩
  · rw [hr]
    exact inherits_of_constants_eq rfl
  · rw [hr]
    exact inherits_of_constants_eq rfl
  · rw [hr]
    exact hp.inherits_added hadd.unfound

/-- What stays refers to what stays, and the indices of that are lowered to different ones. -/
theorem Settled.inherits_removed {k : Nat} {i : PoolIndex} {c : Constant} (hk : (listed cs)[k]? = some (i, c))
    (hempty : ((p.unlinked i c).holdersAt k).isEmpty) :
    Inherits (lowered? i c.slots) p ((p.unlinked i c).close i k c) := by
  have hroom := hp.tracks.counts.roomy
  have hq := hp.tracks.removed hk hempty
  have hclosed := hp.tracks.closed_eraseIdx hk hempty
  have hapart : Set.InjOn (lowered i c.slots) {a | a ∈ (indices cs).eraseIdx k} := by
    have hd := hq.counts.roomy.nodup_indices
    rw [indices_without hroom hk, shift_eq_lowered (slot_pos hroom hk)] at hd
    exact fun a ha b hb => List.inj_on_of_nodup_map hd ha hb
  have hstays {e : PoolIndex × Constant} (he : e ∈ (listed cs).eraseIdx k) :
      e.1 ∈ (indices cs).eraseIdx k ∧ e.2 ∈ cs.eraseIdx k := by
    have hconstants : ((listed cs).eraseIdx k).map Prod.snd = cs.eraseIdx k := by
      rw [← List.eraseIdx_map, map_snd_listed]
    rw [indices, List.eraseIdx_map, ← hconstants]
    exact ⟨List.mem_map_of_mem he, List.mem_map_of_mem he⟩
  -- the removed index itself is no index any more, so nothing is brought from there
  have hgone : i ∉ (indices cs).eraseIdx k := by
    have hperm := perm_cons_eraseIdx (getElem?_indices.mpr ⟨c, hk⟩)
    exact (List.nodup_cons.mp (hperm.nodup_iff.mp hroom.nodup_indices)).1
  have hsent {a : PoolIndex} (ha : a ∈ (indices cs).eraseIdx k) :
      lowered? i c.slots a = some (lowered i c.slots a) := if_neg (ne_of_mem_of_not_mem ha hgone)
  rintro i' j' c' ⟨hne, hi', hj'⟩
  rw [hq.counts.lists.entries_eq, listed_without hroom hk, shift_eq_lowered (slot_pos hroom hk),
    List.mem_map] at hi' hj'
  obtain ⟨⟨a, d⟩, ha, had⟩ := hi'
  obtain ⟨⟨b, e⟩, hb, hbe⟩ := hj'
  obtain ⟨rfl, rfl⟩ := Prod.mk.inj had
  obtain ⟨rfl, heq⟩ := Prod.mk.inj hbe
  obtain rfl : e = d :=
    Constant.injOn_mapReferences hapart (hclosed e (hstays hb).2) (hclosed d (hstays ha).2) heq
  refine ⟨a, b, e, ⟨fun hab => hne (congrArg _ hab), ?_, ?_⟩, hsent (hstays ha).1, hsent (hstays hb).1,
    Constant.mapReferences_congr fun r hr => congrArg (Option.getD · r) (hsent (hclosed e (hstays hb).2 r hr))⟩
  · rw [hp.tracks.counts.lists.entries_eq]
    exact List.mem_of_mem_eraseIdx ha
  · rw [hp.tracks.counts.lists.entries_eq]
    exact List.mem_of_mem_eraseIdx hb

theorem Settled.inherits_remove (i : PoolIndex) :
    Inherits ((Request.remove i).renames p) p ((Request.remove i).apply p) := by
  rw [Request.renames, Request.apply, leaves, answer?]
  cases hr : Pool.remove i p with
  | ok removal q =>
    obtain ⟨k, c, hfind, hempty, rfl, rfl⟩ := remove_eq_ok_iff.mp hr
    exact hp.inherits_removed (hp.tracks.find_eq_ok_iff.mp hfind) hempty
  | error f q =>
    exact inherits_of_constants_eq (congrArg Pool.constants (hp.tracks.eq_of_remove_eq_error hr))

end Steps

section Runs

variable {p : Pool} (hp : Reachable p)
include hp

theorem Reachable.inherits (r : Request) : Inherits (r.renames p) p (r.apply p) := by
  by_cases hremove : ∃ i, r = .remove i
  · obtain ⟨i, rfl⟩ := hremove
    obtain ⟨cs, hcs⟩ := hp.settled
    exact hcs.inherits_remove i
  · have hkept : r.renames p = some := by
      cases r with
      | remove i => exact absurd ⟨i, rfl⟩ hremove
      | _ => rfl
    rw [hkept]
    -- any other request adds constants and registers, one step after the other
    have hintern (c : Constant) (_ : True) :
        Run.Keeps (fun q => Reachable q ∧ Inherits some p q) (Pool.intern c) := by
      rintro q ⟨hq, hpq⟩
      obtain ⟨ds, hds⟩ := hq.settled
      exact ⟨hq.edited (.intern c), hpq.trans (hds.inherits_intern c)⟩
    exact (Request.keeps hintern (fun _ => trivial) (fun _ _ => trivial) (fun i hi => absurd ⟨i, hi⟩ hremove)
      (fun id i q ⟨hq, hpq⟩ =>
        ⟨hq.edited (.registerExternal id i),
          hpq.trans (inherits_of_constants_eq (constants_registerExternal q id i))⟩)
      (fun id i q ⟨hq, hpq⟩ =>
        ⟨hq.edited (.unregisterExternal id i),
          hpq.trans (inherits_of_constants_eq (constants_unregisterExternal q id i))⟩)
      (fun _ _ => trivial) ⟨hp, inherits_of_constants_eq rfl⟩).2

theorem Reachable.nodup_foldl_apply (hd : (p.entries.map Prod.snd).Nodup) (rs : List Request) :
    ((rs.foldl (fun p r => r.apply p) p).entries.map Prod.snd).Nodup := by
  induction rs generalizing p with
  | nil => exact hd
  | cons r rs ih =>
    obtain ⟨ds, hq⟩ := (hp.edited r).tracked
    exact ih (hp.edited r) ((hp.inherits r).nodup hq hd)

end Runs

/-- In every pool that a run of edits leads to, a constant is found at the least index at which it is, and
only if it is somewhere. From the empty pool no run of edits leads to a pool with a constant twice; and
from any pool, no edit makes two constants equal that were not, neither by adding one nor by renumbering
the references to the others. -/
theorem interning_exact {p : Pool} (hp : Reachable p) :
    (∀ c i, p.indexOf? c = some i ↔ (i, c) ∈ p.entries ∧ ∀ j, (j, c) ∈ p.entries → i.slot ≤ j.slot) ∧
    (∀ c, p.indexOf? c = none ↔ ∀ i, (i, c) ∉ p.entries) ∧
    (∀ rs : List Request, ((rs.foldl (fun q r => r.apply q) empty).entries.map Prod.snd).Nodup) ∧
    ∀ (r : Request) (i j : PoolIndex) (c : Constant), (r.apply p).Twins i j c →
      ∃ a b d, p.Twins a b d ∧ r.renames p a = some i ∧ r.renames p b = some j ∧ sent (r.renames p) d = c := by
  obtain ⟨cs, hcs⟩ := hp.settled
  have hentries := hcs.tracks.counts.lists.entries_eq
  refine ⟨fun c i => ?_, fun c => ?_, Reachable.empty.nodup_foldl_apply List.nodup_nil, hp.inherits⟩
  · rw [hcs.interns c, hentries]
    exact hcs.tracks.counts.roomy.firstIndex?_eq_some_iff
  · rw [hcs.interns c, hentries, firstIndex?_eq_none_iff]
    exact ⟨fun h i hi => h (snd_mem_of_mem_listed hi), fun h hc => (exists_mem_listed hc).elim h⟩

/-- A pool that has a text twice when it is read, each with a class that it names. A number before them is
taken out, then the first class and its text. The second text was found nowhere and is found now, at
the index that the first one had, and the two classes never were the same. -/
theorem interning_exact_of_text_read_twice :
    let bytes : List UInt8 := [0, 6, 3, 0, 0, 0, 5, 1, 0, 1, 0x61, 1, 0, 1, 0x61, 7, 0, 2, 7, 0, 3]
    ∃ p rest, read bytes = .ok (p, rest) ∧ p.indexOf? (.utf8 [0x61]) = some ⟨2⟩ ∧
      (∀ c, ¬ ((Request.remove ⟨1⟩).apply p).Twins ⟨3⟩ ⟨4⟩ c) ∧
      ([Request.remove ⟨1⟩, .remove ⟨3⟩, .remove ⟨1⟩].foldl (fun q r => r.apply q) p).indexOf?
        (.utf8 [0x61]) = some ⟨1⟩ := by
  intro bytes
  let rs : List Request := [.remove ⟨1⟩, .remove ⟨3⟩, .remove ⟨1⟩]
  have hold : (read bytes).toOption.map (fun r => r.1.entries) = some [(⟨1⟩, .integer 5),
      (⟨2⟩, .utf8 [0x61]), (⟨3⟩, .utf8 [0x61]), (⟨4⟩, .classInfo ⟨2⟩), (⟨5⟩, .classInfo ⟨3⟩)] := by
    decide +kernel
  have hnew : (read bytes).toOption.map (fun r => (rs.foldl (fun q r => r.apply q) r.1).entries) =
      some [(⟨1⟩, .utf8 [0x61]), (⟨2⟩, .classInfo ⟨1⟩)] := by decide +kernel
  have hrenames : (read bytes).toOption.map (fun r =>
      [1, 2, 3, 4, 5].map fun slot => (Request.remove ⟨1⟩).renames r.1 ⟨slot⟩) =
        some [none, some ⟨1⟩, some ⟨2⟩, some ⟨3⟩, some ⟨4⟩] := by decide +kernel
  cases hread : read bytes with
  | error f => simp [hread, Except.toOption] at hold
  | ok r =>
    obtain ⟨p, rest⟩ := r
    simp only [hread, Except.toOption, Option.map_some, Option.some.injEq] at hold hnew hrenames
    have hp := Reachable.read hread
    obtain ⟨hindex, -, -, hinherits⟩ := interning_exact hp
    obtain ⟨hlater, -⟩ := interning_exact (hp.foldl_apply rs)
    refine ⟨p, rest, rfl, ?_, fun c hc => ?_, ?_⟩
    · rw [hindex, hold]
      simp
    · obtain ⟨a, b, d, ⟨hab, ha, hb⟩, hai, -⟩ := hinherits (.remove ⟨1⟩) _ _ c hc
      simp only [hold, List.mem_cons, Prod.mk.injEq, List.not_mem_nil, or_false] at ha hb
      -- only the class that came from index 4 is at index 3 now, and no other one was like it
      rcases ha with ⟨rfl, -⟩ | ⟨rfl, -⟩ | ⟨rfl, -⟩ | ⟨rfl, rfl⟩ | ⟨rfl, -⟩
      · simp [hai] at hrenames
      · simp [hai] at hrenames
      · simp [hai] at hrenames
      · have hsame : b = ⟨4⟩ := by simpa using hb
        exact hab hsame.symm
      · simp [hai] at hrenames
    · rw [hlater, hnew]
      simp

end Pool

end ClassCode
