import ClassCode.Proofs.Pool.Tracking

/-! Linking a pool. Constants that nothing holds are registered one after the other on what they refer to, or
the first reference that leads to no constant is reported. -/
namespace ClassCode.Pool

open Outcome

structure Blank (p : Pool) (cs : List Constant) : Prop where
  lists : p.Lists cs
  unheld : ∀ k, p.holdersAt k = .empty

theorem blank_empty : Pool.empty.Blank [] := ⟨⟨rfl, rfl⟩, fun _ => rfl⟩

theorem Blank.append {p : Pool} {cs : List Constant} (hp : p.Blank cs) (c : Constant) :
    (p.append c).Blank (cs ++ [c]) where
  lists := hp.lists.append c
  unheld k := by rw [hp.lists.holdersAt_append, hp.unheld, ite_self]

theorem Blank.foldl_append {p : Pool} {cs : List Constant} (hp : p.Blank cs) (ds : List Constant) :
    (ds.foldl Pool.append p).Blank (cs ++ ds) := by
  induction ds generalizing p cs with
  | nil =>
    rw [List.append_nil]
    exact hp
  | cons d ds ih =>
    rw [List.append_cons]
    exact ih (hp.append d)

def ofConstants (cs : List Constant) : Pool := cs.foldl Pool.append Pool.empty

theorem blank_ofConstants (cs : List Constant) : (ofConstants cs).Blank cs := blank_empty.foldl_append cs

def links (es : List (PoolIndex × Constant)) : List (PoolIndex × PoolIndex) :=
  es.flatMap fun e => e.2.references.map fun r => (e.1, r)

/-- The first reference to no constant of a list, after the index of the constant that has it. -/
def dangling? (cs : List Constant) : Option (PoolIndex × PoolIndex) :=
  (links (listed cs)).find? fun l => l.2 ∉ indices cs

theorem mem_links {es : List (PoolIndex × Constant)} {l : PoolIndex × PoolIndex} :
    l ∈ links es ↔ ∃ c, (l.1, c) ∈ es ∧ l.2 ∈ c.references := by
  simp only [links, List.mem_flatMap, List.mem_map]
  constructor
  · rintro ⟨⟨i, c⟩, he, r, hr, rfl⟩
    exact ⟨c, he, hr⟩
  · rintro ⟨c, he, hr⟩
    exact ⟨(l.1, c), he, l.2, hr, rfl⟩

theorem dangling?_eq_none_iff {cs : List Constant} :
    dangling? cs = none ↔ ∀ c ∈ cs, ∀ r ∈ c.references, r ∈ indices cs := by
  rw [dangling?, List.find?_eq_none]
  simp only [decide_eq_true_eq, Decidable.not_not]
  constructor
  · intro h c hc r hr
    obtain ⟨i, hi⟩ := exists_mem_listed hc
    exact h (i, r) (mem_links.mpr ⟨c, hi, hr⟩)
  · intro h l hl
    obtain ⟨c, he, hr⟩ := mem_links.mp hl
    exact h c (snd_mem_of_mem_listed he) l.2 hr

/-- Register every constant on those that it refers to, as far as they are there. -/
def registerAll (es : List (PoolIndex × Constant)) (p : Pool) : Pool :=
  es.foldl (fun p e => e.2.references.foldl (register (.entry e.1)) p) p

section Lists

variable {p : Pool} {cs : List Constant} (hp : p.Lists cs) (hroom : Roomy cs)
include hp hroom

theorem Lists.linkTo_eq (i r : PoolIndex) :
    linkTo i p r =
      if r ∈ indices cs then .ok (register (.entry i) p r)
      else .error (.malformed (.danglingReference i r)) := by
  have hfound := hp.exists_find_iff hroom (r := r)
  rw [linkTo, register]
  cases h : p.find r with
  | error f =>
    rw [if_neg fun hmem => by simpa [h] using hfound.mpr hmem]
    rfl
  | ok found =>
    rw [if_pos (hfound.mp ⟨_, _, h⟩)]
    rfl

theorem Lists.foldlM_linkTo (i : PoolIndex) (targets : List PoolIndex) :
    targets.foldlM (linkTo i) p =
      match targets.find? fun r => r ∉ indices cs with
      | none => .ok (targets.foldl (register (.entry i)) p)
      | some r => .error (.malformed (.danglingReference i r)) := by
  induction targets generalizing p with
  | nil => rfl
  | cons r targets ih =>
    rw [List.foldlM_cons, hp.linkTo_eq hroom]
    by_cases hr : r ∈ indices cs
    · rw [if_pos hr, List.find?_cons_of_neg (by simpa using hr)]
      exact ih (hp.touch _ r)
    · rw [if_neg hr, List.find?_cons_of_pos (by simpa using hr)]
      rfl

theorem Lists.foldlM_link (es : List (PoolIndex × Constant)) :
    es.foldlM (fun p e => e.2.references.foldlM (linkTo e.1) p) p =
      match (links es).find? fun l => l.2 ∉ indices cs with
      | none => .ok (registerAll es p)
      | some l => .error (.malformed (.danglingReference l.1 l.2)) := by
  induction es generalizing p with
  | nil => rfl
  | cons e es ih =>
    have hlinks : links (e :: es) = e.2.references.map (fun r => (e.1, r)) ++ links es := rfl
    rw [List.foldlM_cons, hp.foldlM_linkTo hroom, hlinks, List.find?_append, List.find?_map]
    simp only [Function.comp_def]
    cases e.2.references.find? fun r => r ∉ indices cs with
    | none => exact ih (hp.foldl_touch _ e.2.references)
    | some r => rfl

theorem Lists.count_external_registerAll (es : List (PoolIndex × Constant)) {k : Nat} {r : PoolIndex}
    (hk : (indices cs)[k]? = some r) (id : ExternalId) :
    ((registerAll es p).holdersAt k).count (.external id) = (p.holdersAt k).count (.external id) := by
  induction es generalizing p with
  | nil => rfl
  | cons e es ih =>
    rw [registerAll, List.foldl_cons, ← registerAll, register_eq_touch, ih (hp.foldl_touch _ _),
      hp.holdersAt_foldl_touch _ hroom _ hk, Holders.count_repeat_register]
    simp

end Lists

section Linked

variable {p : Pool} {cs : List Constant}

theorem Counts.registerAll {done : List (PoolIndex × Constant)} (es : List (PoolIndex × Constant))
    (hp : p.Counts cs done) (hd : ((done ++ es).map Prod.fst).Nodup) :
    (Pool.registerAll es p).Counts cs (done ++ es) := by
  induction es generalizing p done with
  | nil =>
    rw [List.append_nil]
    exact hp
  | cons e es ih =>
    have hfresh : e.1 ∉ done.map Prod.fst := by
      rw [List.map_append, List.map_cons] at hd
      exact fun hin => (List.disjoint_of_nodup_append hd) hin List.mem_cons_self
    rw [List.append_cons] at hd ⊢
    exact ih (hp.link hfresh e.2) hd

variable (hp : p.Blank cs) (hroom : Roomy cs)
include hp hroom

theorem Blank.link_eq :
    p.link =
      match dangling? cs with
      | none => .ok (registerAll (listed cs) p)
      | some l => .error (.malformed (.danglingReference l.1 l.2)) := by
  rw [link, hp.lists.entries_eq]
  exact hp.lists.foldlM_link hroom (listed cs)

theorem Blank.tracks (hclosed : ∀ c ∈ cs, ∀ r ∈ c.references, r ∈ indices cs) :
    (registerAll (listed cs) p).Tracks cs := by
  have hblank : p.Counts cs [] := by
    refine ⟨hp.lists, hroom, fun k r _ => ?_⟩
    rw [hp.unheld]
    exact records_empty (by simp)
  exact ⟨hblank.registerAll (listed cs) hroom.nodup_indices, hclosed⟩

theorem Blank.count_external_registerAll {k : Nat} {r : PoolIndex} (hk : (indices cs)[k]? = some r)
    (id : ExternalId) : ((registerAll (listed cs) p).holdersAt k).count (.external id) = 0 := by
  rw [hp.lists.count_external_registerAll hroom (listed cs) hk, hp.unheld, Holders.count_empty]

end Linked

end ClassCode.Pool
