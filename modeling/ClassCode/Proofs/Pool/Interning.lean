import ClassCode.Proofs.Pool.Changing
import ClassCode.Proofs.Pool.Reading
import ClassCode.Proofs.Table

/-! Interning along a run of edits. However constants were added, taken out and shifted, what is interned is
the first index of each of them, and no text among them is too long to be written. -/
namespace ClassCode.Pool

open Std

def firstIndex? (cs : List Constant) (c : Constant) : Option PoolIndex :=
  ((listed cs).find? fun e => e.2 = c).map Prod.fst

theorem firstIndex?_append (cs : List Constant) (c d : Constant) :
    firstIndex? (cs ++ [c]) d =
      (firstIndex? cs d).or (if c = d then some (indexAt (Layout.past 1 cs)) else none) := by
  rw [firstIndex?, listed_append, List.find?_append, Option.map_or, ← firstIndex?]
  by_cases h : c = d <;> simp [h]

def Interns (p : Pool) (cs : List Constant) : Prop := ∀ c, p.indexOf? c = firstIndex? cs c

theorem interns_empty : Pool.empty.Interns [] := fun _ => ExtTreeMap.getElem?_empty

theorem Interns.of_interned_eq {p q : Pool} {cs : List Constant} (hp : p.Interns cs)
    (h : q.interned = p.interned) : q.Interns cs := by
  intro c
  rw [← hp c, indexOf?, indexOf?, h]

section Lists

variable {p : Pool} {cs : List Constant} (hp : p.Lists cs) (hfirst : p.Interns cs)
include hp hfirst

theorem Lists.interns_append (c : Constant) : (p.append c).Interns (cs ++ [c]) := by
  intro d
  have hnext : p.next = indexAt (Layout.past 1 cs) := congrArg indexAt hp.count_eq
  have hold : p.interned[d]? = firstIndex? cs d := hfirst d
  have hinterned : (p.append c).interned = p.interned.insertIfNew c p.next := by
    rw [Pool.append]
  rw [firstIndex?_append, ← hold, ← hnext, indexOf?, hinterned, ExtTreeMap.getElem?_insertIfNew]
  by_cases h : c = d
  · subst h
    by_cases hmem : c ∈ p.interned <;> simp [hmem]
  · simp [h]

end Lists

theorem Interns.foldl_append {p : Pool} {cs : List Constant} (hfirst : p.Interns cs) (hp : p.Lists cs)
    (ds : List Constant) : (ds.foldl Pool.append p).Interns (cs ++ ds) := by
  induction ds generalizing p cs with
  | nil =>
    rw [List.append_nil]
    exact hfirst
  | cons d ds ih =>
    rw [List.append_cons]
    exact ih (hp.interns_append hfirst d) (hp.append d)

theorem interned_registerAll (es : List (PoolIndex × Constant)) (p : Pool) :
    (registerAll es p).interned = p.interned := by
  induction es generalizing p with
  | nil => rfl
  | cons e es ih =>
    rw [registerAll, List.foldl_cons, ← registerAll, ih, register_eq_touch, interned_foldl_touch]

theorem Lists.interns_close {q : Pool} {cs : List Constant} {i : PoolIndex} {k : Nat} {c : Constant}
    (hp : (q.close i k c).Lists cs) : (q.close i k c).Interns cs := by
  intro d
  have hinterned : (q.close i k c).interned = internedOf (q.close i k c).constants := by
    rw [Pool.close]
  rw [indexOf?, hinterned, hp.laid, internedOf, ← Array.foldl_toList, Table.getElem?_fillIfNew, ← Layout.toList,
    Layout.toList_laid, firstIndex?, listed, List.find?_map, Option.map_map, ExtTreeMap.getElem?_empty]
  rfl

/-- `p` has the constants `cs`, all of them short enough to be written and each of them interned. -/
structure Settled (p : Pool) (cs : List Constant) : Prop where
  tracks : p.Tracks cs
  short : ∀ c ∈ cs, c.isShort
  interns : p.Interns cs

theorem settled_empty : Pool.empty.Settled [] := ⟨tracks_empty, by simp, interns_empty⟩

theorem settled_registerAll {cs : List Constant} (hcs : ∀ c ∈ cs, c.isShort) (hroom : Roomy cs)
    (hclosed : ∀ c ∈ cs, ∀ r ∈ c.references, r ∈ indices cs) :
    (registerAll (listed cs) (ofConstants cs)).Settled cs where
  tracks := (blank_ofConstants cs).tracks hroom hclosed
  short := hcs
  interns := (interns_empty.foldl_append blank_empty.lists cs).of_interned_eq
    (interned_registerAll (listed cs) (ofConstants cs))

theorem settled_read {bytes rest : List UInt8} {p : Pool} (h : read bytes = .ok (p, rest)) :
    ∃ cs, p.Settled cs := by
  obtain ⟨cs, hcs, hroom, hlinked, rfl, -⟩ := of_read h
  exact ⟨cs, settled_registerAll (fun c hc => (hcs c hc).1) hroom (dangling?_eq_none_iff.mp hlinked)⟩

/-- Whatever a change does, the pool stays settled. -/
theorem Settled.change {wanted : Constant → Prop} {p q : Pool} {cs ds : List Constant} (hp : p.Settled cs)
    (hq : q.Tracks ds) (h : Change wanted p cs q ds) : q.Settled ds := by
  have hshort := h.forall_mem (fun _ _ hc => hc) (fun f c hc => by simpa using hc) hp.short
  refine ⟨hq, hshort, ?_⟩
  cases h with
  | held _ hinterned => exact hp.interns.of_interned_eq hinterned
  | @added c =>
    have happend := hp.tracks.counts.lists.interns_append hp.interns c
    refine happend.of_interned_eq ?_
    rw [Pool.added, register_eq_touch, interned_foldl_touch]
  | removed => exact hq.counts.lists.interns_close

theorem Reachable.settled {p : Pool} (h : Reachable p) : ∃ cs, p.Settled cs := by
  induction h with
  | empty => exact ⟨[], settled_empty⟩
  | read h => exact settled_read h
  | edited _ r ih =>
    obtain ⟨cs, hp⟩ := ih
    obtain ⟨ds, -, hq⟩ := r.keeps_tracks Settled (fun _ => True) (fun _ hp hq h => hp.change hq h)
      (fun _ => trivial) (fun _ _ => trivial) (fun _ _ => trivial) ⟨cs, hp.tracks, hp⟩
    exact ⟨ds, hq⟩

end ClassCode.Pool
