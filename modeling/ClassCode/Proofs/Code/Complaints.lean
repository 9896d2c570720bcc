import ClassCode.Proofs.Code.Fitting
import ClassCode.Proofs.Code.Restarting
import ClassCode.Proofs.Code.Whereabouts
import Mathlib.Data.List.Find

/-! Code that cannot be written. Writing stops at the first instruction that leads to one which was taken out,
or too far away, and complains of the first such label of it; nothing else can go wrong. -/
namespace ClassCode

open Outcome Writer

def Instruction.Fits {L : Type} (i : Instruction L) (d : Int) : Prop := -i.reach - 1 ≤ d ∧ d ≤ i.reach

instance {L : Type} (i : Instruction L) (d : Int) : Decidable (i.Fits d) := inferInstanceAs (Decidable (_ ∧ _))

theorem Instruction.reach_of_traverse {ε L M : Type} {f : L → Except ε M} {i : Instruction L} {j : Instruction M}
    (h : i.traverse f = .ok j) : j.reach = i.reach := by
  rw [← reach_map (fun _ => ()) j, blank_of_traverse h, reach_map]

theorem Instruction.error?_write {i : Instruction Nat} (hfit : i.misfit? = none) (o : Nat) :
    error? (i.write o).bytes = (i.firstFar? o).map (.branchOverflow o) := by
  rw [(emits_write o i).bytes_eq, error?_map, check_eq_ok_iff (u := ()).mpr hfit, ok_bind, checkReach_eq]
  cases i.firstFar? o <;> rfl

namespace Code

variable (c : Code)

instance (h : Handle) : Decidable (Retired h c) :=
  decidable_of_iff (h.number < c.next.toNat ∧ h ∉ c.inbound) ⟨fun hh => ⟨hh.1, hh.2⟩, fun hh => ⟨hh.given, hh.absent⟩⟩

/-- The first label that leads to an instruction which was taken out. -/
def firstRetired? (i : Instruction Handle) : Option Handle := i.labels.find? fun l => Retired l c

def firstFarOffset? (offset : Nat) (i : Instruction Handle) : Option Nat :=
  (i.labels.filterMap c.offset?).find? fun target => ¬ i.Fits (Layout.distance target offset)

/-- What keeps an instruction from being written at its offset, if anything does. -/
def complaint? (e : Nat × Node) : Option Fault :=
  match c.firstRetired? e.2.instruction with
  | some l => some (.danglingTarget e.1 l)
  | none => (c.firstFarOffset? e.1 e.2.instruction).map (.branchOverflow e.1)

variable {c : Code}

theorem error?_place (o : Nat) (i : Instruction Handle) :
    error? (c.place o i) = (i.labels.find? fun l => (c.offset? l).isNone).map (.danglingTarget o) := by
  rw [place, ← error?_map Instruction.labels, Instruction.labels_traverse, error?_mapM, ← List.findSome?_guard,
    List.map_findSome?]
  congr 1
  funext l
  cases hl : c.offset? l <;> simp [hl, Option.guard]

/-- What is too far away from an instruction is so before and after its labels are placed. -/
theorem firstFar?_of_place {o : Nat} {i : Instruction Handle} {j : Instruction Nat} (h : c.place o i = .ok j) :
    j.firstFar? o = c.firstFarOffset? o i := by
  have hlabels : i.labels.filterMap c.offset? = j.labels := by
    have hall := congrArg (List.filterMap Except.toOption) (mapM_eq_ok_iff.mp (Instruction.labels_of_traverse h))
    rw [List.filterMap_map, List.filterMap_map] at hall
    calc
      i.labels.filterMap c.offset? = i.labels.filterMap (Except.toOption ∘ _) :=
        List.filterMap_congr fun l _ => by cases hl : c.offset? l <;> simp [hl] <;> rfl
      _ = j.labels.filterMap (Except.toOption ∘ Except.ok) := hall
      _ = j.labels := List.filterMap_some
  have hreach := Instruction.reach_of_traverse h
  rw [Instruction.firstFar?, firstFarOffset?, hlabels]
  refine List.find?_congr fun target _ => ?_
  rw [decide_eq_decide, Instruction.Reaches, hreach]
  exact Iff.rfl

section Entries

variable {ns : List Node} (hc : c.Tracks ns) (hgiven : c.Given) (hfit : c.Fitting) {e : Nat × Node}
  (he : e ∈ c.toList)
include hc hgiven he

theorem Tracks.offset?_label_eq_none_iff {l : Handle} (hl : l ∈ e.2.instruction.labels) :
    c.offset? l = none ↔ Retired l c := by
  constructor
  · intro hnone
    refine ⟨hgiven l (hc.knows_label (hc.mem_of_mem_toList he) hl), fun hmem => ?_⟩
    have hsome := hc.isSome_offset?_of_isLive (hc.isLive_iff.mpr hmem)
    simp [hnone] at hsome
  · intro hretired
    refine Option.eq_none_iff_forall_ne_some.mpr fun o ho => hretired.absent ?_
    obtain ⟨p, n, hn, rfl⟩ := hc.offset?_eq_some_iff.mp ho
    exact (hc.live _).mpr (hc.mem_handles_iff.mpr ⟨_, List.mem_of_getElem? hn, rfl⟩)

include hfit in
theorem Tracks.error?_write_entry :
    error? (c.place e.1 e.2.instruction >>= fun i => (i.write e.1).bytes) = c.complaint? e := by
  have hgone : (e.2.instruction.labels.find? fun l => (c.offset? l).isNone) = c.firstRetired? e.2.instruction :=
    List.find?_congr fun l hl => by
      rw [Bool.eq_iff_iff, Option.isNone_iff_eq_none, hc.offset?_label_eq_none_iff hgiven he hl, decide_eq_true_iff]
  have hplace := c.error?_place e.1 e.2.instruction
  rw [hgone] at hplace
  rw [complaint?]
  cases hfirst : c.firstRetired? e.2.instruction with
  | some l =>
    rw [hfirst, Option.map_some, error?_eq_some_iff] at hplace
    rw [hplace]
    rfl
  | none =>
    rw [hfirst, Option.map_none, error?_eq_none_iff] at hplace
    obtain ⟨i, hi⟩ := hplace
    have hfits : i.misfit? = none :=
      (Instruction.misfit?_of_traverse hi).trans (hfit e.2 (List.mem_map_of_mem he))
    rw [hi, ok_bind, Instruction.error?_write hfits, firstFar?_of_place hi]

/-- Nothing keeps an instruction from being written whose labels all lead to instructions that are near enough. -/
theorem Tracks.complaint?_eq_none_iff :
    c.complaint? e = none ↔ ∀ l ∈ e.2.instruction.labels, ¬ Retired l c ∧
      ∃ target, c.offset? l = some target ∧ e.2.instruction.Fits (Layout.distance target e.1) := by
  have hgone : c.firstRetired? e.2.instruction = none ↔ ∀ l ∈ e.2.instruction.labels, ¬ Retired l c := by
    simp [firstRetired?]
  have hfar : c.firstFarOffset? e.1 e.2.instruction = none ↔ ∀ l ∈ e.2.instruction.labels, ∀ target,
      c.offset? l = some target → e.2.instruction.Fits (Layout.distance target e.1) := by
    rw [firstFarOffset?, List.find?_eq_none]
    simp only [List.mem_filterMap, decide_not, Bool.not_eq_true', decide_eq_false_iff_not, not_not]
    exact ⟨fun h l hl target htarget => h target ⟨l, hl, htarget⟩, fun h target ⟨l, hl, ht⟩ => h l hl target ht⟩
  have hnone : c.complaint? e = none ↔
      c.firstRetired? e.2.instruction = none ∧ c.firstFarOffset? e.1 e.2.instruction = none := by
    rw [complaint?]
    cases c.firstRetired? e.2.instruction <;> simp
  rw [hnone, hgone, hfar]
  constructor
  · rintro ⟨hthere, hnear⟩ l hl
    obtain ⟨target, htarget⟩ := Option.ne_none_iff_exists'.mp
      (mt (hc.offset?_label_eq_none_iff hgiven he hl).mp (hthere l hl))
    exact ⟨hthere l hl, target, htarget, hnear l hl target htarget⟩
  · intro hall
    refine ⟨fun l hl => (hall l hl).1, fun l hl target htarget => ?_⟩
    obtain ⟨-, other, hother, hfits⟩ := hall l hl
    exact Option.some.inj (hother.symm.trans htarget) ▸ hfits

end Entries

theorem Supplied.error?_encode (hc : Supplied c) : error? c.encode = c.toList.findSome? c.complaint? := by
  obtain ⟨ns, hns⟩ := hc.tracks
  have hcode : c.encode = List.flatten <$> c.toList.mapM fun e =>
      c.place e.1 e.2.instruction >>= fun i => (i.write e.1).bytes := by
    refine (bytes_forM (uniform_writeEntry c) c.toList).trans ?_
    simp only [bytes_ofExcept_bind]
  rw [hcode, error?_map, error?_mapM, ← List.head?_filterMap, ← List.head?_filterMap]
  exact congrArg List.head? (List.filterMap_congr fun e he => hns.error?_write_entry hc.given hc.reachable.fitting he)

/-- Code can be written just when no label leads to an instruction that was taken out, and the distances to all
others fit into the bytes that there are for them. Otherwise the first instruction that is in the way is
named, with its first label that leads to what was taken out, or else the first one too far away. It is
never said that operands do not go with their opcode. -/
theorem encode_complains_of_first (hc : Supplied c) :
    ((∃ bytes, c.encode = .ok bytes) ↔ ∀ e ∈ c.toList, ∀ l ∈ e.2.instruction.labels, ¬ Retired l c ∧
      ∃ target, c.offset? l = some target ∧ e.2.instruction.Fits (Layout.distance target e.1)) ∧
    (∀ f, c.encode = .error f ↔ c.toList.findSome? c.complaint? = some f) ∧
    ∀ o m, c.encode ≠ .error (.misfit o m) := by
  obtain ⟨ns, hns⟩ := hc.tracks
  have hcomplaint (f : Fault) : c.encode = .error f ↔ c.toList.findSome? c.complaint? = some f := by
    rw [← hc.error?_encode, error?_eq_some_iff]
  refine ⟨?_, hcomplaint, fun o m hmisfit => ?_⟩
  · rw [← error?_eq_none_iff, hc.error?_encode, List.findSome?_eq_none_iff]
    exact forall₂_congr fun e he => hns.complaint?_eq_none_iff hc.given he
  · obtain ⟨e, -, he⟩ := List.exists_of_findSome?_eq_some ((hcomplaint _).mp hmisfit)
    rw [complaint?] at he
    cases hfirst : c.firstRetired? e.2.instruction <;> simp [hfirst] at he

/-- The counter has started over behind a jump back to the first instruction, and what was then put in with the
handle of that one was taken out again. The first instruction is still there, and close, but writing complains
of the jump. -/
theorem encode_complains_of_there_of_restarted :
    let rs := [Request.push (.plain ⟨0⟩), .push (.jump ⟨0xa7⟩ ⟨0⟩)]
    let c := { rs.foldl (fun c r => r.apply c) empty with next := 0 }
    let d := (Request.remove 2).apply ((Request.insert 2 (.plain ⟨0xb1⟩)).apply c)
    Reachable d ∧ d.toList = [(0, ⟨⟨0⟩, .plain ⟨0⟩⟩), (1, ⟨⟨1⟩, .jump ⟨0xa7⟩ ⟨0⟩⟩)] ∧
      d.encode = .error (.danglingTarget 1 ⟨0⟩) := by
  intro rs c d
  have hrs : Supplies rs empty := by decide +kernel
  have hc : Reachable c := (Supplied.empty.foldl_apply hrs).reachable_restarted
  exact ⟨(hc.edited _).edited _, by decide +kernel⟩

/-- Of two instructions that lead to ones which were taken out, and of two such labels, the first is named. -/
theorem encode_complains_of_first_of_two_removed :
    let c := (Request.remove 1).apply ((Request.remove 1).apply ((Request.push (.jump ⟨0xa7⟩ ⟨1⟩)).apply
      ((Request.push (.lookupSwitch ⟨0⟩ [(7, ⟨2⟩), (8, ⟨1⟩)])).apply ((Request.push (.plain ⟨0⟩)).apply
        ((Request.push (.plain ⟨0⟩)).apply ((Request.push (.plain ⟨0⟩)).apply empty))))))
    c.encode = .error (.danglingTarget 1 ⟨2⟩) := by
  intro c
  have hc : Supplied c := ((((((Supplied.empty.edited _ (by decide +kernel)).edited _ (by decide +kernel)).edited
    _ (by decide +kernel)).edited _ (by decide +kernel)).edited _ (by decide +kernel)).edited
    _ (by decide +kernel)).edited _ (by decide +kernel)
  exact ((encode_complains_of_first hc).2.1 _).mpr (by decide +kernel)

end Code

end ClassCode
