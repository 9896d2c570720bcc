import ClassCode.Proofs.Body.Reading
import ClassCode.Proofs.Body.Registrations
import ClassCode.Proofs.Body.RoundTrip
import ClassCode.Proofs.Body.Writing
import Mathlib.Algebra.Group.Nat.Defs

/-! Reading what was written. A body is read back as it was, but for handles: they are given out anew, in the
order of the instructions. So instructions and guards are compared by the positions that they refer to. -/
namespace ClassCode

open Outcome

structure GuardOutline where
  start : Nat
  stop : Option Nat
  handler : Nat
  catches : PoolIndex
deriving DecidableEq

def Guard.outline (c : Code) (g : Guard) : Except Fault GuardOutline := do
  let start ← c.positionOf g.start
  let stop ← g.stop.mapM c.positionOf
  let handler ← c.positionOf g.handler
  return { start, stop, handler, catches := g.catches }

namespace Body

/-- A body with positions in the place of handles. -/
structure Outline where
  maxStack : UInt16
  maxLocals : UInt16
  instructions : List (Nat × Instruction Nat)
  guards : List GuardOutline
  attributes : List Attribute
deriving DecidableEq

def outline (b : Body) : Except Fault Outline := do
  let instructions ← b.code.outline
  let guards ← b.guards.toList.mapM (Guard.outline b.code)
  return {
    maxStack := b.maxStack
    maxLocals := b.maxLocals
    instructions
    guards
    attributes := b.attributes }

theorem outline_of_parts {b : Body} {instructions : List (Nat × Instruction Nat)} {guards : List GuardOutline}
    (hcode : b.code.outline = .ok instructions)
    (hguards : b.guards.toList.mapM (Guard.outline b.code) = .ok guards) :
    b.outline = .ok ⟨b.maxStack, b.maxLocals, instructions, guards, b.attributes⟩ := by
  rw [outline, hcode, hguards]
  rfl

theorem outline_of_guarded {c : Code} {maxStack maxLocals : UInt16} {d : Body} {gs : List Guard}
    (hd : Guarded c (ofCode maxStack maxLocals c) d gs) {instructions : List (Nat × Instruction Nat)}
    {guards : List GuardOutline} (hcode : c.outline = .ok instructions)
    (hguards : gs.mapM (Guard.outline c) = .ok guards) (attributes : List Attribute) :
    ({ d with attributes } : Body).outline = .ok ⟨maxStack, maxLocals, instructions, guards, attributes⟩ := by
  have hpositions : Guard.outline d.code = Guard.outline c := by
    funext g
    rw [Guard.outline, Guard.outline, hd.relisted.positionOf_eq]
  have hlist : d.guards.toList.mapM (Guard.outline d.code) = .ok guards := by
    rw [hd.guards, hpositions]
    exact hguards
  obtain ⟨rfl, rfl⟩ : d.maxStack = maxStack ∧ d.maxLocals = maxLocals := ⟨hd.maxStack, hd.maxLocals⟩
  exact outline_of_parts (b := { d with attributes }) (hd.relisted.outline_eq.trans hcode) hlist

section Rewritten

variable {c : Code} {ns ms : List Node} {is : List (Instruction Nat)} (hc : c.Lists ns)
  (his : c.addressed = .ok (Layout.placed 0 is)) (hms : Code.nodesOf (Layout.placed 0 is) = .ok ms)
  (hshort : c.length ≤ maxCodeLength) {b : Body} (hb : (Code.ofNodes ms).link.Relisted b.code)
include hc his hms hshort hb

theorem handleAt_of_offset? {t : Handle} (ht : (c.offset? t).isSome) :
    ∃ (pc : UInt16) (h : Handle), pcImage c.offset? t = LawfulWire.image pc ∧ pc.toNat < c.length ∧
      c.renumbered t = .ok h ∧ b.handleAt pc = .ok h := by
  obtain ⟨o, ho⟩ := Option.isSome_iff_exists.mp ht
  have hlt := hc.offset_lt_length ho
  have hpc : o.toUInt16.toNat = o :=
    UInt16.toNat_ofNat_of_lt' (Nat.lt_of_lt_of_le hlt (Nat.le_succ_of_le hshort))
  obtain ⟨p, n, hp, hn⟩ := Code.offset?_eq_some_iff.mp ho
  obtain ⟨j, hj, -⟩ := hc.getElem?_rewritten his hms hn
  have hd := Code.tracks_nodesOf hms
  refine ⟨o.toUInt16, ⟨p⟩, by rw [pcImage, ho]; rfl, by rwa [hpc], ?_, ?_⟩
  · rw [Code.renumbered, hp]
    rfl
  · rw [handleAt_eq_ok_iff hd hb, hpc]
    exact hd.offset?_eq_some_iff.mpr ⟨p, _, hj, rfl⟩

omit hshort hb in
theorem outline_of_renumbered {g x : Guard} (hg : ∀ t ∈ g.targets, (c.offset? t).isSome)
    (hstart : c.renumbered g.start = .ok x.start)
    (hstop : g.stop.mapM c.renumbered = .ok x.stop) (hhandler : c.renumbered g.handler = .ok x.handler)
    (hcatches : x.catches = g.catches) :
    ∃ o, g.outline c = .ok o ∧ x.outline (Code.ofNodes ms).link = .ok o := by
  have hposition {l m : Handle} (hmem : l ∈ g.targets) (hl : c.renumbered l = .ok m) :
      ∃ p, c.positionOf l = .ok p ∧ (Code.ofNodes ms).link.positionOf m = .ok p := by
    have hsame := hc.positionOf_renumbered his hms (hg l hmem) hl
    obtain ⟨p, hp, -⟩ := map_eq_ok_iff.mp hl
    exact ⟨p, hp, hsame.trans hp⟩
  have hend : ∃ p, g.stop.mapM c.positionOf = .ok p ∧
      x.stop.mapM (Code.ofNodes ms).link.positionOf = .ok p := by
    cases hs : g.stop with
    | none =>
      rw [hs] at hstop
      obtain hx : none = x.stop := by simpa using hstop
      exact ⟨none, rfl, by rw [← hx]; rfl⟩
    | some t =>
      rw [hs, Option.mapM_some, map_eq_ok_iff] at hstop
      obtain ⟨h, hh, hx⟩ := hstop
      obtain ⟨p, hp, hq⟩ := hposition (Guard.mem_targets.mpr (.inr (.inl hs))) hh
      exact ⟨some p, by simp [hp], by simp [← hx, hq]⟩
  obtain ⟨p, hp, hp'⟩ := hposition (Guard.mem_targets.mpr (.inl rfl)) hstart
  obtain ⟨q, hq, hq'⟩ := hend
  obtain ⟨r, hr, hr'⟩ := hposition (Guard.mem_targets.mpr (.inr (.inr rfl))) hhandler
  exact ⟨⟨p, q, r, g.catches⟩, by simp [Guard.outline, hp, hq, hr, pure, Except.pure],
    by simp [Guard.outline, hp', hq', hr', hcatches, pure, Except.pure]⟩

variable {length : UInt32} (hlength : length.toNat = c.length)
include hlength

/-- What was written for the end of a guard is the length of the code just when there is no instruction. -/
theorem stop_of_image {stop : Option Handle} (hstop : ∀ t ∈ stop, (c.offset? t).isSome) :
    ∃ (pc : UInt16) (stop' : Option Handle),
      stop.elim (LawfulWire.image c.length.toUInt16) (pcImage c.offset?) = LawfulWire.image pc ∧
      stop.mapM c.renumbered = .ok stop' ∧
      (if pc.toNat = length.toNat then pure none else some <$> b.handleAt pc) = .ok stop' := by
  cases stop with
  | none =>
    have hpc : c.length.toUInt16.toNat = c.length := UInt16.toNat_ofNat_of_lt' (Nat.lt_succ_of_le hshort)
    exact ⟨c.length.toUInt16, none, rfl, rfl, by rw [if_pos (hpc.trans hlength.symm)]; rfl⟩
  | some t =>
    obtain ⟨pc, h, himage, hlt, hh, hat⟩ := handleAt_of_offset? hc his hms hshort hb (hstop t rfl)
    refine ⟨pc, some h, himage, by simp [hh], ?_⟩
    rw [if_neg (by rw [hlength]; exact Nat.ne_of_lt hlt), hat]
    rfl

theorem readGuard_guardImage {g : Guard} (hg : ∀ t ∈ g.targets, (c.offset? t).isSome) (rest : List UInt8) :
    ∃ d x, b.readGuard length (guardImage c.offset? c.length g ++ rest) = .ok (d, rest) ∧
      Guarded (Code.ofNodes ms).link b d [x] ∧
      ∃ o, g.outline c = .ok o ∧ x.outline (Code.ofNodes ms).link = .ok o := by
  have hd := Code.tracks_nodesOf hms
  obtain ⟨startPc, start, hstartImage, -, hstart, hstartAt⟩ :=
    handleAt_of_offset? hc his hms hshort hb (hg g.start (Guard.mem_targets.mpr (.inl rfl)))
  obtain ⟨stopPc, stop, hstopImage, hstop, hstopAt⟩ :=
    stop_of_image hc his hms hshort hb hlength fun t ht => hg t (Guard.mem_targets.mpr (.inr (.inl ht)))
  obtain ⟨handlerPc, handler, hhandlerImage, -, hhandler, hhandlerAt⟩ :=
    handleAt_of_offset? hc his hms hshort hb (hg g.handler (Guard.mem_targets.mpr (.inr (.inr rfl))))
  have hlength' : length.toNat = (Code.ofNodes ms).link.length :=
    hlength.trans (hc.length_rewritten his hms).symm
  obtain ⟨d, hadd, hguarded⟩ := guarded_addGuard hd hb g.catches (pcImage_of_handleAt hd hb hstartAt).1
    (stopImage_of_read hd hb hlength' hstopAt).1 (pcImage_of_handleAt hd hb hhandlerAt).1
  refine ⟨d, _, readGuard_eq_ok_iff.mpr ⟨startPc, stopPc, handlerPc, g.catches, ?_, start, stop, handler, _,
    hstartAt, hstopAt, hhandlerAt, hadd⟩, hguarded, ?_⟩
  · rw [guardImage, hstartImage, hstopImage, hhandlerImage]
    simp only [List.append_assoc]
  · exact outline_of_renumbered hc his hms hg hstart hstop hhandler rfl

theorem readGuards_guardImages {gs : List Guard} (hgs : ∀ g ∈ gs, ∀ t ∈ g.targets, (c.offset? t).isSome)
    (rest : List UInt8) :
    ∃ d xs, readGuards length gs.length b (gs.flatMap (guardImage c.offset? c.length) ++ rest) =
        .ok (d, rest) ∧
      Guarded (Code.ofNodes ms).link b d xs ∧
      ∃ os, gs.mapM (Guard.outline c) = .ok os ∧ xs.mapM (Guard.outline (Code.ofNodes ms).link) = .ok os := by
  induction gs generalizing b with
  | nil => exact ⟨b, [], rfl, .refl hb, [], rfl, rfl⟩
  | cons g gs ih =>
    obtain ⟨hg, hgs⟩ := List.forall_mem_cons.mp hgs
    obtain ⟨d, x, hread, hd, o, ho, hx⟩ := readGuard_guardImage hc his hms hshort hb hlength hg
      (gs.flatMap (guardImage c.offset? c.length) ++ rest)
    obtain ⟨e, xs, hreads, he, os, hos, hxs⟩ := ih hd.relisted hgs
    refine ⟨e, x :: xs, ?_, hd.trans he, o :: os, by simp [ho, hos], by simp [hx, hxs]⟩
    rw [List.flatMap_cons, List.append_assoc]
    exact Reader.bind_eq_ok_iff.mpr ⟨d, _, hread, hreads⟩

end Rewritten

theorem fewPairs_of_length_le {c : Code} {ns : List Node} (hc : c.Lists ns)
    (hshort : c.length ≤ maxCodeLength) : ∀ e ∈ c.toList, e.2.instruction.FewPairs := by
  intro e he
  have hend := hc.end_le_length he
  refine Instruction.fewPairs_of_width_le (o := e.1) ?_
  simp only [maxCodeLength, maxInt32] at hshort ⊢
  omega

/-- A body that edits lead to and that was written is read back from the front of any bytes that begin with
what was written, as the same body: the same sizes, instructions and attributes, and the same guards in
the same order, each on the instructions at the same positions, up to the end of the code just when it
went up to the end. -/
theorem read_of_write {b : Body} (h : Reachable b) (hguards : b.guards.size ≤ 65535)
    (hattributes : b.attributes.length ≤ 65535) (hinfo : ∀ a ∈ b.attributes, a.info.length < 2 ^ 32)
    {out : List UInt8} (hw : b.write.bytes = .ok out) (rest : List UInt8) :
    ∃ d o, read (out ++ rest) = .ok (d, rest) ∧ b.outline = .ok o ∧ d.outline = .ok o := by
  obtain ⟨ns, hc⟩ := h.lists
  obtain ⟨code, hcode, hne, hmax, hknown, rfl⟩ := bytes_write_eq_ok_iff.mp hw
  have hlength : b.code.length = code.length := (hc.length_of_encode hcode).symm
  have hshort : b.code.length ≤ maxCodeLength := Nat.le_trans (Nat.le_of_eq hlength) hmax
  obtain ⟨is, ms, his, hms, hdecode⟩ := hc.decode_of_encode hcode (fewPairs_of_length_le hc hshort)
  have hnumber : code.length.toUInt32.toNat = b.code.length := by
    rw [hlength]
    exact UInt32.toNat_ofNat_of_lt' (Nat.lt_of_le_of_lt hmax (by decide))
  have hcount : b.guards.size.toUInt16.toNat = b.guards.toList.length :=
    UInt16.toNat_ofNat_of_lt' (Nat.lt_succ_of_le hguards)
  obtain ⟨d, xs, hread, hd, os, hos, hxs⟩ := readGuards_guardImages hc his hms hshort
    (b := ofCode b.maxStack b.maxLocals (Code.ofNodes ms).link) (.refl (Code.tracks_nodesOf hms).ledger)
    hnumber hknown (countedImage Attribute.image b.attributes ++ rest)
  have hrest : (Wire.read : Reader (List Attribute)) (countedImage Attribute.image b.attributes ++ rest) =
      .ok (b.attributes, rest) :=
    (recognizes_counted Attribute.image Attribute.recognizes_read _ _ _).mpr
      ⟨⟨Nat.lt_succ_of_le hattributes, hinfo⟩, rfl⟩
  have hbytes : b.image code ++ rest = LawfulWire.image b.maxStack ++ (LawfulWire.image b.maxLocals ++
      (LawfulWire.image code.length.toUInt32 ++ (code ++ (LawfulWire.image b.guards.size.toUInt16 ++
        (b.guards.toList.flatMap (guardImage b.code.offset? b.code.length) ++
          (countedImage Attribute.image b.attributes ++ rest)))))) := by
    rw [image, hlength]
    simp only [List.append_assoc]
  obtain ⟨l, hl⟩ := Code.outline_exists his
  refine ⟨{ d with attributes := b.attributes }, _, ?_, outline_of_parts hl hos,
    outline_of_guarded hd ((hc.outline_rewritten his hms).trans hl) hxs b.attributes⟩
  exact read_body_eq_ok_iff.mpr ⟨b.maxStack, b.maxLocals, code, _, d, b.guards.size.toUInt16, _, _,
    b.attributes, hbytes, hne, hmax, hdecode, by rwa [hcount], hrest, rfl⟩

/-- An instruction that a guard starts with is taken out, and the guard is retargeted. The other guard goes
up to the end, and is read back so. -/
theorem read_of_write_of_retargeted_guard :
    let b := (Request.setAttributes [⟨⟨7⟩, [42]⟩]).apply ((Request.retarget (.external ⟨0⟩) ⟨0⟩ ⟨1⟩).apply
      ((Request.remove 0).apply ((Request.addGuard ⟨1⟩ none ⟨1⟩ .absent).apply
        ((Request.addGuard ⟨0⟩ (some ⟨2⟩) ⟨2⟩ ⟨3⟩).apply ((Request.push (.plain ⟨0xb1⟩)).apply
          ((Request.push (.plain ⟨0⟩)).apply ((Request.push (.plain ⟨0⟩)).apply (ofCode 1 0 Code.empty))))))))
    ∃ out d, b.write.bytes = .ok out ∧ read (out ++ [9]) = .ok (d, [9]) ∧
      d.outline = .ok ⟨1, 0, [(0, .plain ⟨0⟩), (1, .plain ⟨0xb1⟩)],
        [⟨0, some 1, 1, ⟨3⟩⟩, ⟨0, none, 0, .absent⟩], [⟨⟨7⟩, [42]⟩]⟩ := by
  intro b
  have hreach : Reachable b := ((((((((reachable_empty 1 0).edited _).edited _).edited _).edited _).edited
    _).edited _).edited _).edited _
  have hwrite : b.write.bytes = .ok [0, 1, 0, 0, 0, 0, 0, 2, 0, 0xb1, 0, 2, 0, 0, 0, 1, 0, 1, 0, 3,
      0, 0, 0, 2, 0, 0, 0, 0, 0, 1, 0, 7, 0, 0, 0, 1, 42] := by decide +kernel
  have hinfo : ∀ a ∈ b.attributes, a.info.length < 2 ^ 32 := by decide +kernel
  obtain ⟨d, o, hread, hb, hd⟩ :=
    read_of_write hreach (by decide +kernel) (by decide +kernel) hinfo hwrite [9]
  have houtline : b.outline = .ok ⟨1, 0, [(0, .plain ⟨0⟩), (1, .plain ⟨0xb1⟩)],
      [⟨0, some 1, 1, ⟨3⟩⟩, ⟨0, none, 0, .absent⟩], [⟨⟨7⟩, [42]⟩]⟩ := by decide +kernel
  exact ⟨_, d, hwrite, hread, hd.trans (hb.symm.trans houtline)⟩

end Body

end ClassCode
