import ClassCode.Proofs.Body.Writing
import ClassCode.Proofs.Body.Reading

/-! Reading a body and writing it. Nothing that is read gets lost: the code and the guards are written as
the bytes that they were read from, a guard up to the end of the code with the length of the code. -/
namespace ClassCode.Body

open Reader LawfulWire

/-- `d` is `b` with the guards `gs` after its own, all of whose instructions are there. The code is still
`c`, up to registrations. -/
structure Guarded (c : Code) (b d : Body) (gs : List Guard) : Prop where
  relisted : c.Relisted d.code
  maxStack : d.maxStack = b.maxStack
  maxLocals : d.maxLocals = b.maxLocals
  guards : d.guards.toList = b.guards.toList ++ gs
  known : ∀ g ∈ gs, ∀ t ∈ g.targets, (c.offset? t).isSome

theorem Guarded.refl {c : Code} {b : Body} (hb : c.Relisted b.code) : Guarded c b b [] :=
  ⟨hb, rfl, rfl, by simp, by simp⟩

theorem Guarded.trans {c : Code} {b d e : Body} {gs hs : List Guard} (hd : Guarded c b d gs)
    (he : Guarded c d e hs) : Guarded c b e (gs ++ hs) where
  relisted := he.relisted
  maxStack := he.maxStack.trans hd.maxStack
  maxLocals := he.maxLocals.trans hd.maxLocals
  guards := by rw [he.guards, hd.guards, List.append_assoc]
  known g hg := (List.mem_append.mp hg).elim (hd.known g) (he.known g)

section ReadGuards

variable {c : Code} {ns : List Node} (hc : c.Tracks ns) {b d : Body} (hb : c.Relisted b.code)
  {bytes rest : List UInt8}
include hc hb

theorem handleAt_eq_ok_iff {pc : UInt16} {t : Handle} :
    b.handleAt pc = .ok t ↔ c.offset? t = some pc.toNat := by
  have hat : b.handleAt pc = .ok t ↔ ∃ p n, c.positionAtOffset? pc.toNat = some p ∧ c.nodeAt p = .ok n ∧
      n.handle = t := by
    rw [handleAt, Code.positionAtOffset?, hb.nodes, ← Code.positionAtOffset?]
    cases c.positionAtOffset? pc.toNat with
    | none => simp
    | some p =>
      have hnode : b.code.nodeAt p = c.nodeAt p := by
        rw [Code.nodeAt, Code.nodeAt, Code.size, Code.size, hb.nodes]
      simp [hnode]
  rw [hat]
  constructor
  · rintro ⟨p, n, hp, hn, rfl⟩
    exact hc.offset?_of_positionAtOffset? hp hn
  · intro ho
    obtain ⟨p, n, hn, hh⟩ := hc.offset?_eq_some_iff.mp ho
    exact ⟨p, n, hc.positionAtOffset?_eq_some_iff.mpr ⟨n, hn⟩,
      hc.nodeAt_eq_ok_iff.mpr (hc.getElem?_toList.mp hn).1, hh⟩

theorem pcImage_of_handleAt {pc : UInt16} {t : Handle} (h : b.handleAt pc = .ok t) :
    (c.offset? t).isSome ∧ pcImage c.offset? t = LawfulWire.image pc := by
  rw [pcImage, (handleAt_eq_ok_iff hc hb).mp h]
  exact ⟨rfl, congrArg LawfulWire.image UInt16.ofNat_toNat⟩

theorem mem_inbound_of_isLive (t : Handle) (ht : b.code.isLive t) : t ∈ b.code.inbound := by
  rw [Code.isLive, hb.positions, ← Code.isLive] at ht
  exact (hb.live t).mpr (hc.isLive_iff.mp ht)

theorem guarded_addGuard {start : Handle} {stop : Option Handle} {handler : Handle} (catches : PoolIndex)
    (hstart : (c.offset? start).isSome) (hstop : ∀ t ∈ stop, (c.offset? t).isSome)
    (hhandler : (c.offset? handler).isSome) :
    ∃ d, addGuard start stop handler catches b = .ok (b.newGuard start stop handler catches).id d ∧
      Guarded c b d [b.newGuard start stop handler catches] := by
  have hknown : ∀ t ∈ (b.newGuard start stop handler catches).targets, (c.offset? t).isSome := by
    intro t ht
    rcases Guard.mem_targets.mp ht with rfl | ht | rfl
    · exact hstart
    · exact hstop t ht
    · exact hhandler
  have hheld := mem_inbound_of_isLive hc hb
  have hlive : ∀ t ∈ (b.newGuard start stop handler catches).targets, b.code.isLive t := by
    intro t ht
    obtain ⟨o, ho⟩ := Option.isSome_iff_exists.mp (hknown t ht)
    obtain ⟨p, hp, -⟩ := Option.bind_eq_some_iff.mp ho
    rw [Code.isLive, hb.positions, Std.ExtTreeMap.contains_eq_isSome_getElem?]
    exact Option.isSome_of_eq_some hp
  have hcheck := Outcome.forM_eq_ok_iff.mpr fun t ht => Code.checkLive_eq_ok_iff.mpr (hlive t ht)
  rw [addGuard_apply _ _ _ _ _ hheld]
  simp only [hcheck]
  refine ⟨_, rfl, ?_, rfl, rfl, by simp, by simpa using hknown⟩
  exact hb.trans (Code.relisted_registerAll hb.ledger _ fun t ht => hheld t (hlive t ht))

variable {length : UInt32} (hlength : length.toNat = c.length)
include hlength

theorem stopImage_of_read {pc : UInt16} {stop : Option Handle}
    (h : (if pc.toNat = length.toNat then pure none else some <$> b.handleAt pc) = .ok stop) :
    (∀ t ∈ stop, (c.offset? t).isSome) ∧
      stop.elim (LawfulWire.image c.length.toUInt16) (pcImage c.offset?) = LawfulWire.image pc := by
  split at h
  · rename_i hend
    obtain rfl : none = stop := by simpa using h
    refine ⟨by simp, congrArg LawfulWire.image ?_⟩
    rw [← hlength, ← hend]
    exact UInt16.ofNat_toNat
  · obtain ⟨t, ht, rfl⟩ := Outcome.map_eq_ok_iff.mp h
    simpa using pcImage_of_handleAt hc hb ht

theorem guarded_of_readGuard (h : b.readGuard length bytes = .ok (d, rest)) :
    ∃ g, Guarded c b d [g] ∧ bytes = guardImage c.offset? c.length g ++ rest := by
  obtain ⟨startPc, stopPc, handlerPc, catches, rfl, start, stop, handler, id, hstart, hstop, hhandler,
    hadd⟩ := readGuard_eq_ok_iff.mp h
  obtain ⟨hstartKnown, hstartImage⟩ := pcImage_of_handleAt hc hb hstart
  obtain ⟨hstopKnown, hstopImage⟩ := stopImage_of_read hc hb hlength hstop
  obtain ⟨hhandlerKnown, hhandlerImage⟩ := pcImage_of_handleAt hc hb hhandler
  obtain ⟨e, hadded, hguarded⟩ := guarded_addGuard hc hb catches hstartKnown hstopKnown hhandlerKnown
  obtain ⟨-, rfl⟩ := EStateM.Result.ok.inj (hadd.symm.trans hadded)
  refine ⟨b.newGuard start stop handler catches, hguarded, ?_⟩
  simp [guardImage, newGuard, hstartImage, hstopImage, hhandlerImage]

theorem guarded_of_readGuards {n : Nat} (h : readGuards length n b bytes = .ok (d, rest)) :
    ∃ gs, gs.length = n ∧ Guarded c b d gs ∧
      bytes = gs.flatMap (guardImage c.offset? c.length) ++ rest := by
  induction n generalizing b bytes with
  | zero =>
    obtain ⟨rfl, rfl⟩ := pure_eq_ok_iff.mp h
    exact ⟨[], rfl, .refl hb, rfl⟩
  | succ n ih =>
    obtain ⟨e, mid, hfirst, hrest⟩ := bind_eq_ok_iff.mp h
    obtain ⟨g, hg, rfl⟩ := guarded_of_readGuard hc hb hlength hfirst
    obtain ⟨gs, rfl, hgs, rfl⟩ := ih hg.relisted hrest
    exact ⟨g :: gs, rfl, hg.trans hgs, by simp⟩

end ReadGuards

/-- A body that was read is written as just the bytes that it was read from. -/
theorem write_of_read {bytes rest : List UInt8} {b : Body} (h : read bytes = .ok (b, rest)) :
    ∃ out, b.write.bytes = .ok out ∧ out ++ rest = bytes := by
  simp only [read, bind_eq_ok_iff, read_eq_ok_iff, ofExcept_eq_ok_iff, refuse_eq_ok_iff, take_eq_ok_iff,
    pure_eq_ok_iff] at h
  obtain ⟨maxStack, _, rfl, maxLocals, _, rfl, length, _, rfl, hrange, code, _, ⟨hcode, rfl⟩,
    c, _, ⟨hdecode, rfl⟩, count, _, rfl, d, _, hguards, attributes, _, hattributes, rfl, rfl⟩ := h
  obtain ⟨ns, hc⟩ := Code.tracks_decode hdecode
  have hlength : length.toNat = c.length := hcode.symm.trans (Code.length_of_decode hdecode).symm
  obtain ⟨gs, hcount, hd, rfl⟩ := guarded_of_readGuards hc (.refl hc.ledger) hlength hguards
  obtain ⟨-, rfl⟩ := (recognizes_counted Attribute.image Attribute.recognizes_read _ _ _).mp hattributes
  rw [not_or, Nat.not_lt] at hrange
  have hencode : d.code.encode = .ok code := by
    rw [hd.relisted.encode_eq, Code.encode_of_decode hdecode]
  have hoffsets := hd.relisted.offset?_eq
  have hlist : d.guards.toList = gs := by rw [hd.guards]; rfl
  have hsize : d.guards.size.toUInt16 = count := by
    rw [← Array.length_toList, hlist, hcount]
    exact UInt16.ofNat_toNat
  have hnumber : code.length.toUInt32 = length := by
    rw [hcode]
    exact UInt32.ofNat_toNat
  have hne : code ≠ [] := by
    rintro rfl
    exact hrange.1 (UInt32.toNat_inj.mp hcode.symm)
  let b : Body := { d with attributes }
  have hwrite : b.write = Writer.put (b.image code) := by
    refine write_eq_put hencode hne (hcode ▸ hrange.2) fun g hg => ?_
    rw [hoffsets]
    exact hd.known g (by rwa [← hlist])
  refine ⟨b.image code, by rw [hwrite, Writer.bytes_put], ?_⟩
  simp [b, image, hoffsets, hlist, hsize, hnumber, hd.maxStack, hd.maxLocals,
    Code.length_of_decode hdecode, ofCode]

/-- A body of one instruction, with a guard from there up to the end of the code. -/
theorem write_of_read_of_guarded_return :
    let bytes : List UInt8 := [0, 1, 0, 0, 0, 0, 0, 1, 0xb1, 0, 1, 0, 0, 0, 1, 0, 0, 0, 0, 0, 0]
    ∃ b, read (bytes ++ [7]) = .ok (b, [7]) ∧ b.write.bytes = .ok bytes := by
  intro bytes
  have hrest : (read (bytes ++ [7])).toOption.map Prod.snd = some [7] := by decide
  cases hread : read (bytes ++ [7]) with
  | error f => simp [hread, Except.toOption] at hrest
  | ok r =>
    obtain ⟨b, rest⟩ := r
    obtain rfl : rest = [7] := by simpa [hread, Except.toOption] using hrest
    obtain ⟨out, hout, happend⟩ := write_of_read hread
    exact ⟨b, rfl, by rw [hout, List.append_cancel_right happend]⟩

end ClassCode.Body
