import ClassCode.Proofs.Code.Restarting
import ClassCode.Proofs.Code.RoundTrip

/-! Splicing. Edits put instructions into the list of instructions, exchange them or take them out. Jumps
stay with the instructions that they lead to: as positions, the labels past the edited one move along,
and all others stay. This is also what is read from the bytes of the edited code. -/
namespace ClassCode.Code

open Outcome Run

/-- The instructions with the positions that they lead to in the place of handles. -/
def positioned (c : Code) : Except Fault (List (Instruction Nat)) :=
  c.toList.mapM fun e => e.2.instruction.traverse c.positionOf

def raised (p k : Nat) : Nat := if k < p then k else k + 1

def lowered (p k : Nat) : Nat := if p < k then k - 1 else k

theorem raised_ne (p k : Nat) : raised p k ≠ p := by
  unfold raised
  split <;> omega

section Positions

variable {as : List Handle} (hd : as.Nodup) {p q r : Nat} {a h : Handle}
include hd

theorem eq_raised_of_getElem? (ha : a ∉ as) (hp : p ≤ as.length) (hq : as[q]? = some h)
    (hr : (as.take p ++ a :: as.drop p)[r]? = some h) : r = raised p q := by
  have hlength : (as.take p).length = p := List.length_take_of_le hp
  have hlt := (List.getElem?_eq_some_iff.mp hq).1
  have hsame {s : Nat} (hs : as[s]? = some h) : q = s :=
    (List.getElem?_inj hlt hd).mp (hq.trans hs.symm)
  unfold raised
  rcases Nat.lt_trichotomy r p with hrp | rfl | hrp
  · rw [List.getElem?_append_left (by omega), List.getElem?_take_of_lt hrp] at hr
    have hqr := hsame hr
    rw [if_pos (by omega), hqr]
  · rw [List.getElem?_append_right (by omega), hlength, Nat.sub_self] at hr
    obtain rfl : a = h := Option.some.inj hr
    exact absurd (List.mem_of_getElem? hq) ha
  · obtain ⟨s, rfl⟩ : ∃ s, r = p + (s + 1) := ⟨r - p - 1, by omega⟩
    rw [List.getElem?_append_right (by omega), hlength, Nat.add_sub_cancel_left,
      List.getElem?_cons_succ, List.getElem?_drop] at hr
    have hqs := hsame hr
    rw [if_neg (by omega), hqs]
    rfl

theorem eq_lowered_of_getElem? (hq : as[q]? = some h) (hr : (as.eraseIdx p)[r]? = some h) :
    q ≠ p ∧ r = lowered p q := by
  have hlt := (List.getElem?_eq_some_iff.mp hq).1
  have hsame {s : Nat} (hs : as[s]? = some h) : q = s :=
    (List.getElem?_inj hlt hd).mp (hq.trans hs.symm)
  rw [List.getElem?_eraseIdx] at hr
  unfold lowered
  split at hr
  · have hqr := hsame hr
    rw [if_neg (by omega)]
    omega
  · have hqr := hsame hr
    rw [if_pos (by omega)]
    omega

end Positions

section Tracks

variable {c : Code} {ns : List Node} (hc : c.Tracks ns)
include hc

theorem Tracks.positionOf_iff_handle {h : Handle} {q : Nat} :
    c.positionOf h = .ok q ↔ (ns.map Node.handle)[q]? = some h := by
  rw [← hc.placed, positionOf, position?]
  cases c.positions[h]? <;> simp [unknown]

theorem Tracks.positioned_eq : c.positioned = ns.mapM fun n => n.instruction.traverse c.positionOf := by
  apply mapM_congr_map
  conv_rhs => rw [← Layout.map_snd_placed 0 ns, List.map_map]
  rw [hc.toList_eq]
  rfl

theorem Tracks.traverse_positionOf {i : Instruction Handle} (hi : ∀ l ∈ i.labels, l ∈ c.inbound) :
    ∃ j, i.traverse c.positionOf = .ok j := by
  refine Instruction.traverse_exists fun l hl => ?_
  obtain ⟨q, hq⟩ := List.mem_iff_getElem?.mp ((hc.live l).mp (hi l hl))
  exact ⟨q, hc.positionOf_iff_handle.mpr hq⟩

theorem Tracks.positioned_of_live (hlive : ∀ e ∈ c.toList, ∀ l ∈ e.2.instruction.labels, c.isLive l) :
    ∃ is, c.positioned = .ok is := by
  exact mapM_exists fun e he => hc.traverse_positionOf fun l hl => hc.isLive_iff.mp (hlive e he l hl)

theorem Tracks.positioned_decoded (hfew : ∀ n ∈ ns, n.instruction.FewPairs) {bytes : List UInt8}
    (hb : c.encode = .ok bytes) :
    ∃ d is, decode bytes = .ok d ∧ c.positioned = .ok is ∧ d.positioned = .ok is := by
  have hlisted {d : Code} {l : List (Nat × Instruction Nat)} (hl : d.outline = .ok l) :
      d.positioned = .ok (l.map Prod.snd) := by
    refine mapM_eq_ok_map hl fun e _ z hz => ?_
    simp only [bind_eq_ok_iff, pure_eq_ok_iff] at hz
    obtain ⟨i, hi, rfl⟩ := hz
    exact hi
  obtain ⟨_, _, haddressed, hnodes, hdecode⟩ :=
    hc.decode_of_encode hb fun e he => hfew e.2 (hc.mem_of_mem_toList he)
  obtain ⟨l, hl⟩ := outline_exists haddressed
  exact ⟨_, _, hdecode, hlisted hl, hlisted ((hc.outline_rewritten haddressed hnodes).trans hl)⟩

/-- Instructions that edits lead to lead where they led before, at the positions that `f` sends those to. -/
theorem Tracks.positioned_edited {d : Code} {ms : List Node} (hd : d.Tracks ms) {f : Nat → Nat}
    (hf : ∀ h q r, (ns.map Node.handle)[q]? = some h → (ms.map Node.handle)[r]? = some h → r = f q)
    {is js : List (Instruction Nat)} (his : (ms.mapM fun n => n.instruction.traverse c.positionOf) = .ok is)
    (hjs : d.positioned = .ok js) : js = is.map (Instruction.map f) := by
  rw [hd.positioned_eq] at hjs
  have hmoved : (ms.mapM fun n => n.instruction.traverse d.positionOf) =
      .ok (is.map (Instruction.map f)) := by
    refine mapM_eq_ok_map his fun n hn y hy => ?_
    obtain ⟨z, -, hz⟩ := mapM_forall hjs n hn
    rw [← Instruction.traverse_ok f y]
    refine (Instruction.traverse_of_traverse hy fun l hl q hq => ?_).symm
    obtain ⟨r, -, hr⟩ := mapM_forall (Instruction.labels_of_traverse hz) l hl
    rw [hr, hf l q r (hc.positionOf_iff_handle.mp hq) (hd.positionOf_iff_handle.mp hr)]
  rw [hmoved] at hjs
  exact (Except.ok.inj hjs).symm

end Tracks

section Splice

variable {c d : Code} {ns : List Node} (hc : c.Tracks ns) {is : List (Instruction Nat)}
  (his : c.positioned = .ok is) (hfew : ∀ n ∈ ns, n.instruction.FewPairs) {p : Nat} {bytes : List UInt8}
include hc his hfew

theorem Tracks.positioned_insert (hfresh : ¬ c.Knows c.fresh) {x : Instruction Handle} {h : Handle} (hx : x.FewPairs)
    (hedit : Code.insert p x c = .ok h d) (hb : d.encode = .ok bytes) :
    ∃ y e, x.traverse c.positionOf = .ok y ∧ decode bytes = .ok e ∧
      e.positioned = .ok ((is.take p ++ y :: is.drop p).map (Instruction.map (raised p))) := by
  obtain ⟨hp, hvalid, -, rfl⟩ := insert_eq_ok_iff.mp hedit
  have hlength : p ≤ ns.length := by rwa [hc.size_eq] at hp
  have hlabels := hc.labels_live hvalid
  have hd := hc.inserted hfresh hlength hlabels
  obtain ⟨y, hy⟩ := hc.traverse_positionOf hlabels
  have hfewAll : ∀ n ∈ ns.take p ++ ⟨c.fresh, x⟩ :: ns.drop p, n.instruction.FewPairs :=
    forall_mem_spliced (x := ⟨c.fresh, x⟩) hfew hx p p
  obtain ⟨e, js, hdecode, hjs, he⟩ := hd.positioned_decoded hfewAll hb
  refine ⟨y, e, hy, hdecode, ?_⟩
  rw [he]
  refine congrArg _ (hc.positioned_edited hd (fun h q r hq hr => ?_) ?_ hjs)
  · rw [List.map_append, List.map_cons, List.map_take, List.map_drop] at hr
    exact eq_raised_of_getElem? hc.distinct (hc.fresh_not_mem hfresh) (by simpa using hlength) hq hr
  · rw [hc.positioned_eq, mapM_eq_ok_iff] at his
    rw [mapM_eq_ok_iff]
    simp only [List.map_append, List.map_cons, List.map_take, List.map_drop, his, hy]

theorem Tracks.positioned_replace {x old : Instruction Handle} (hx : x.FewPairs)
    (hedit : Code.replace p x c = .ok old d) (hb : d.encode = .ok bytes) :
    ∃ y e, x.traverse c.positionOf = .ok y ∧ decode bytes = .ok e ∧ e.positioned = .ok (is.set p y) := by
  obtain ⟨n, hn, hvalid, -, rfl⟩ := replace_eq_ok_iff.mp hedit
  have hp := hc.nodeAt_eq_ok_iff.mp hn
  have hlabels := hc.labels_live hvalid
  have hd := hc.replaced hp hlabels
  obtain ⟨y, hy⟩ := hc.traverse_positionOf hlabels
  have hfewAll : ∀ m ∈ ns.set p ⟨n.handle, x⟩, m.instruction.FewPairs := by
    intro m hm
    rcases List.mem_or_eq_of_mem_set hm with hm | rfl
    · exact hfew m hm
    · exact hx
  obtain ⟨e, js, hdecode, hjs, he⟩ := hd.positioned_decoded hfewAll hb
  have hkept : js = (is.set p y).map (Instruction.map fun k => k) := by
    refine hc.positioned_edited hd (fun h q r hq hr => ?_) ?_ hjs
    · rw [handles_set hp] at hr
      exact (List.getElem?_inj (List.getElem?_eq_some_iff.mp hr).1 hc.distinct).mp (hr.trans hq.symm)
    · rw [hc.positioned_eq, mapM_eq_ok_iff] at his
      rw [mapM_eq_ok_iff, List.map_set, his, List.map_set, hy]
  have hsame : Instruction.map (fun k : Nat => k) = id := funext Instruction.map_id
  refine ⟨y, e, hy, hdecode, ?_⟩
  rw [he, hkept, hsame, List.map_id]

theorem Tracks.positioned_remove {old : Instruction Handle} (hedit : Code.remove p c = .ok old d)
    (hb : d.encode = .ok bytes) :
    ∃ e, decode bytes = .ok e ∧ (∀ i ∈ is.eraseIdx p, p ∉ i.labels) ∧
      e.positioned = .ok ((is.eraseIdx p).map (Instruction.map (lowered p))) := by
  obtain ⟨n, hn, -, -, rfl⟩ := remove_eq_ok_iff.mp hedit
  have hd := hc.detached (hc.nodeAt_eq_ok_iff.mp hn)
  have hmoved (h : Handle) (q r : Nat) (hq : (ns.map Node.handle)[q]? = some h)
      (hr : ((ns.eraseIdx p).map Node.handle)[r]? = some h) : q ≠ p ∧ r = lowered p q := by
    rw [← List.eraseIdx_map] at hr
    exact eq_lowered_of_getElem? hc.distinct hq hr
  obtain ⟨e, js, hdecode, hjs, he⟩ :=
    hd.positioned_decoded (fun m hm => hfew m (List.mem_of_mem_eraseIdx hm)) hb
  have hleft : ((ns.eraseIdx p).mapM fun n => n.instruction.traverse c.positionOf) =
      .ok (is.eraseIdx p) := by
    rw [hc.positioned_eq, mapM_eq_ok_iff] at his
    rw [mapM_eq_ok_iff, ← List.eraseIdx_map, his, List.eraseIdx_map]
  refine ⟨e, hdecode, fun i hi hlabel => ?_, ?_⟩
  · -- a label that led to the instruction that was taken out could not have been written
    rw [hd.positioned_eq] at hjs
    obtain ⟨m, hm, hmi⟩ := mapM_forall_right hleft i hi
    obtain ⟨j, -, hj⟩ := mapM_forall hjs m hm
    obtain ⟨l, hl, hlp⟩ := mapM_forall_right (Instruction.labels_of_traverse hmi) p hlabel
    obtain ⟨r, -, hr⟩ := mapM_forall (Instruction.labels_of_traverse hj) l hl
    exact (hmoved l p r (hc.positionOf_iff_handle.mp hlp) (hd.positionOf_iff_handle.mp hr)).1 rfl
  · rw [he]
    exact congrArg _ (hc.positioned_edited hd (fun h q r hq hr => (hmoved h q r hq hr).2) hleft hjs)

end Splice

/-- What is read from the bytes of code after an edit is what the code was, with the edit made to the list of
its instructions. An instruction that is put in raises the labels from its position on, so that nothing
leads to it; one that is put in the place of another one changes no label; one that is taken out lowers
the labels past it, and no label led to it. -/
theorem decode_encode_of_edit {c : Code} (h : Supplied c)
    (hlive : ∀ e ∈ c.toList, ∀ l ∈ e.2.instruction.labels, c.isLive l)
    (hfew : ∀ e ∈ c.toList, e.2.instruction.FewPairs) (p : Nat) :
    ∃ is, c.positioned = .ok is ∧
      (∀ (x : Instruction Handle) (t : Handle) (d : Code) (bytes : List UInt8), x.FewPairs →
        insert p x c = .ok t d → d.encode = .ok bytes →
        ∃ y e, x.traverse c.positionOf = .ok y ∧ decode bytes = .ok e ∧
          e.positioned = .ok ((is.take p ++ y :: is.drop p).map (Instruction.map (raised p))) ∧
          ∀ i ∈ (is.take p ++ y :: is.drop p).map (Instruction.map (raised p)), p ∉ i.labels) ∧
      (∀ (x old : Instruction Handle) (d : Code) (bytes : List UInt8), x.FewPairs →
        replace p x c = .ok old d → d.encode = .ok bytes →
        ∃ y e, x.traverse c.positionOf = .ok y ∧ decode bytes = .ok e ∧
          e.positioned = .ok (is.set p y)) ∧
      ∀ (old : Instruction Handle) (d : Code) (bytes : List UInt8),
        remove p c = .ok old d → d.encode = .ok bytes →
        ∃ e, decode bytes = .ok e ∧ (∀ i ∈ is.eraseIdx p, p ∉ i.labels) ∧
          e.positioned = .ok ((is.eraseIdx p).map (Instruction.map (lowered p))) := by
  obtain ⟨ns, hc⟩ := h.tracks
  obtain ⟨is, his⟩ := hc.positioned_of_live hlive
  have hfewNodes : ∀ n ∈ ns, n.instruction.FewPairs := by
    intro n hn
    rw [← Layout.map_snd_placed 0 ns, ← hc.toList_eq] at hn
    obtain ⟨e, he, rfl⟩ := List.mem_map.mp hn
    exact hfew e he
  refine ⟨is, his, fun x t d bytes hx hedit hb => ?_, fun x old d bytes hx hedit hb => ?_,
    fun old d bytes hedit hb => ?_⟩
  · obtain ⟨y, e, hy, hdecode, he⟩ := hc.positioned_insert his hfewNodes h.given.fresh hx hedit hb
    refine ⟨y, e, hy, hdecode, he, fun i hi hlabel => ?_⟩
    obtain ⟨j, -, rfl⟩ := List.mem_map.mp hi
    rw [Instruction.labels_map] at hlabel
    obtain ⟨k, -, hk⟩ := List.mem_map.mp hlabel
    exact raised_ne p k hk
  · exact hc.positioned_replace his hfewNodes hx hedit hb
  · exact hc.positioned_remove his hfewNodes hedit hb

/-- The counter has started over behind a jump back to the first instruction. What is put in at the end gets the
handle of that one, and in the bytes the jump leads to it. -/
theorem decode_encode_of_edit_of_restarted :
    let rs := [Request.push (.plain ⟨0⟩), .push (.jump ⟨0xa7⟩ ⟨0⟩)]
    let c := { rs.foldl (fun c r => r.apply c) empty with next := 0 }
    Reachable c ∧ c.positioned = .ok [.plain ⟨0⟩, .jump ⟨0xa7⟩ 0] ∧
      ∃ d, insert 2 (.plain ⟨0xb1⟩) c = .ok ⟨0⟩ d ∧ d.encode = .ok [0, 0xa7, 0, 3, 0xb1] ∧
        (decode [0, 0xa7, 0, 3, 0xb1] >>= positioned) = .ok [.plain ⟨0⟩, .jump ⟨0xa7⟩ 2, .plain ⟨0xb1⟩] := by
  intro rs c
  have hrs : Supplies rs empty := by decide +kernel
  have hc : Reachable c := (Supplied.empty.foldl_apply hrs).reachable_restarted
  exact ⟨hc, by decide +kernel, _, insert_eq_ok_iff.mpr ⟨by decide +kernel, by decide +kernel, rfl, rfl⟩,
    by decide +kernel, by decide +kernel⟩

/-- Two jumps over the second instruction, one forward and one back: the edits at that position change the
distances of both, and each jump still leads to the instruction that it led to. -/
theorem decode_encode_of_edit_between_jumps :
    let c := (Request.replace 0 (.jump ⟨0xa7⟩ ⟨2⟩)).apply ((Request.push (.jump ⟨0xa7⟩ ⟨0⟩)).apply
      ((Request.push (.plain ⟨0xb1⟩)).apply ((Request.push (.plain ⟨0⟩)).apply
        ((Request.push (.plain ⟨0⟩)).apply empty))))
    (∃ d bytes e, insert 1 (.pushShort 258) c = .ok ⟨4⟩ d ∧ d.encode = .ok bytes ∧ decode bytes = .ok e ∧
      bytes = [0xa7, 0, 7, 0x11, 1, 2, 0, 0xb1, 0xa7, 0xff, 0xf8] ∧
      e.positioned = .ok [.jump ⟨0xa7⟩ 3, .pushShort 258, .plain ⟨0⟩, .plain ⟨0xb1⟩, .jump ⟨0xa7⟩ 0]) ∧
    (∃ d bytes e, replace 1 (.pushShort 258) c = .ok (.plain ⟨0⟩) d ∧ d.encode = .ok bytes ∧
      decode bytes = .ok e ∧ bytes = [0xa7, 0, 6, 0x11, 1, 2, 0xb1, 0xa7, 0xff, 0xf9] ∧
      e.positioned = .ok [.jump ⟨0xa7⟩ 2, .pushShort 258, .plain ⟨0xb1⟩, .jump ⟨0xa7⟩ 0]) ∧
    ∃ d bytes e, remove 1 c = .ok (.plain ⟨0⟩) d ∧ d.encode = .ok bytes ∧ decode bytes = .ok e ∧
      bytes = [0xa7, 0, 3, 0xb1, 0xa7, 0xff, 0xfc] ∧
      e.positioned = .ok [.jump ⟨0xa7⟩ 1, .plain ⟨0xb1⟩, .jump ⟨0xa7⟩ 0] := by
  intro c
  have hsupplied : Supplied c := ((((Supplied.empty.edited _ (by decide +kernel)).edited _ (by decide +kernel)).edited
    _ (by decide +kernel)).edited _ (by decide +kernel)).edited _ (by decide +kernel)
  have hlist : c.toList = [(0, ⟨⟨0⟩, .jump ⟨0xa7⟩ ⟨2⟩⟩), (3, ⟨⟨1⟩, .plain ⟨0⟩⟩),
      (4, ⟨⟨2⟩, .plain ⟨0xb1⟩⟩), (5, ⟨⟨3⟩, .jump ⟨0xa7⟩ ⟨0⟩⟩)] := by decide +kernel
  have hlive : ∀ e ∈ c.toList, ∀ l ∈ e.2.instruction.labels, c.isLive l := by decide +kernel
  have hfew : ∀ e ∈ c.toList, e.2.instruction.FewPairs := by
    rw [hlist]
    simp [Instruction.FewPairs]
  have hpositioned : c.positioned = .ok [.jump ⟨0xa7⟩ 2, .plain ⟨0⟩, .plain ⟨0xb1⟩, .jump ⟨0xa7⟩ 0] := by
    decide +kernel
  obtain ⟨is, his, hinsert, hreplace, hremove⟩ := decode_encode_of_edit hsupplied hlive hfew 1
  obtain rfl := Except.ok.inj (hpositioned.symm.trans his)
  refine ⟨?_, ?_, ?_⟩
  · have hedit : insert 1 (.pushShort 258) c = .ok ⟨4⟩ (c.inserted 1 (.pushShort 258)) :=
      insert_eq_ok_iff.mpr ⟨by decide +kernel, by decide +kernel, by decide +kernel, rfl⟩
    have hb : (c.inserted 1 (.pushShort 258)).encode =
        .ok [0xa7, 0, 7, 0x11, 1, 2, 0, 0xb1, 0xa7, 0xff, 0xf8] := by decide +kernel
    obtain ⟨y, e, hy, he, hmoved, -⟩ := hinsert (.pushShort 258) _ _ _ trivial hedit hb
    obtain rfl : .pushShort 258 = y := Except.ok.inj hy
    exact ⟨_, _, e, hedit, hb, he, rfl, hmoved⟩
  · have hedit : replace 1 (.pushShort 258) c =
        .ok (.plain ⟨0⟩) (c.replaced 1 ⟨⟨1⟩, .plain ⟨0⟩⟩ (.pushShort 258)) :=
      replace_eq_ok_iff.mpr ⟨_, by decide +kernel, by decide +kernel, rfl, rfl⟩
    have hb : (c.replaced 1 ⟨⟨1⟩, .plain ⟨0⟩⟩ (.pushShort 258)).encode =
        .ok [0xa7, 0, 6, 0x11, 1, 2, 0xb1, 0xa7, 0xff, 0xf9] := by decide +kernel
    obtain ⟨y, e, hy, he, hkept⟩ := hreplace (.pushShort 258) _ _ _ trivial hedit hb
    obtain rfl : .pushShort 258 = y := Except.ok.inj hy
    exact ⟨_, _, e, hedit, hb, he, rfl, hkept⟩
  · have hedit : remove 1 c = .ok (.plain ⟨0⟩) (c.detach 1 ⟨⟨1⟩, .plain ⟨0⟩⟩).2 :=
      remove_eq_ok_iff.mpr ⟨_, by decide +kernel, by decide +kernel, rfl, rfl⟩
    have hb : (c.detach 1 ⟨⟨1⟩, .plain ⟨0⟩⟩).2.encode = .ok [0xa7, 0, 3, 0xb1, 0xa7, 0xff, 0xfc] := by
      decide +kernel
    obtain ⟨e, he, -, hmoved⟩ := hremove _ _ _ hedit hb
    exact ⟨_, _, e, hedit, hb, he, rfl, hmoved⟩

end ClassCode.Code
