import ClassCode.Proofs.Code.Addresses
import ClassCode.Proofs.Code.Encoding
import ClassCode.Proofs.Code.References

/-! Code and its bytes. Writing turns handles into distances and reading turns distances into handles; both
keep the position that a jump leads to. -/
namespace ClassCode.Code

open Std Outcome

/-- The instructions, each with its offset and with the positions that it leads to in the place of
handles. -/
def outline (c : Code) : Except Fault (List (Nat × Instruction Nat)) :=
  c.toList.mapM fun e => return (e.1, ← e.2.instruction.traverse c.positionOf)

theorem Relisted.outline_eq {c d : Code} (h : Relisted c d) : d.outline = c.outline := by
  rw [outline, outline, toList, toList, h.nodes, h.positionOf_eq]

/-- The handle that an instruction has after its code was written and read. -/
def renumbered (c : Code) (h : Handle) : Except Fault Handle := Handle.mk <$> c.positionOf h

section Linked

variable {is : List (Instruction Nat)} {ns : List Node} (hns : nodesOf (Layout.placed 0 is) = .ok ns)
include hns

theorem map_span_nodesOf : ns.map span = is.map span := by
  apply List.ext_getElem?
  intro p
  rw [List.getElem?_map, List.getElem?_map]
  cases hn : ns[p]? with
  | none =>
    have hlen := length_nodesOf hns
    rw [Layout.length_placed] at hlen
    rw [List.getElem?_eq_none_iff] at hn
    have hi : is[p]? = none := List.getElem?_eq_none_iff.mpr (by omega)
    rw [hi]
    rfl
  | some n =>
    obtain ⟨o, i, hi, -, hj⟩ := getElem?_nodesOf hns hn
    rw [Layout.getElem?_placed] at hi
    obtain ⟨k, hk, he⟩ := Option.map_eq_some_iff.mp hi
    obtain rfl : k = i := (Prod.mk.inj he).2
    rw [hk]
    exact congrArg some (funext fun q => Instruction.width_of_traverse hj q)

theorem offsets_linked :
    (ofNodes ns).link.toList.map Prod.fst = (Layout.placed 0 is).map Prod.fst := by
  rw [(tracks_nodesOf hns).toList_eq]
  exact (Layout.offsets_congr (map_span_nodesOf hns) 0).1

theorem getElem?_linked {p o : Nat} {i : Instruction Nat} (hi : (Layout.placed 0 is)[p]? = some (o, i)) :
    ∃ j, (ofNodes ns).link.toList[p]? = some (o, ⟨⟨p⟩, j⟩) ∧
      i.traverse (resolve (handlesOf (Layout.placed 0 is)) o) = .ok j := by
  obtain ⟨hlt, -⟩ := List.getElem?_eq_some_iff.mp hi
  obtain ⟨⟨h, j⟩, hn⟩ : ∃ n, ns[p]? = some n :=
    ⟨_, List.getElem?_eq_getElem (length_nodesOf hns ▸ hlt)⟩
  obtain ⟨_, k, hk, rfl, hj⟩ := getElem?_nodesOf hns hn
  rw [hi, Option.some.injEq, Prod.mk.injEq] at hk
  obtain ⟨rfl, rfl⟩ := hk
  have hoffset := congrArg (fun os => os[p]?) (offsets_linked hns)
  have hentry := (tracks_nodesOf hns).getElem?_toList.mpr ⟨hn, rfl⟩
  simp only [List.getElem?_map, hentry, hi, Option.map_some, Option.some.injEq] at hoffset
  exact ⟨j, hoffset ▸ hentry, hj⟩

theorem addressed_linked : (ofNodes ns).link.addressed = .ok (Layout.placed 0 is) := by
  have hd := tracks_nodesOf hns
  rw [addressed, mapM_eq_ok_iff]
  apply List.ext_getElem?
  intro p
  rw [List.getElem?_map, List.getElem?_map]
  cases hi : (Layout.placed 0 is)[p]? with
  | none =>
    have hoffset := congrArg (fun os => os[p]?) (offsets_linked hns)
    simpa [List.getElem?_map, hi] using hoffset
  | some e =>
    obtain ⟨j, hentry, hj⟩ := getElem?_linked hns hi
    have hplace : (ofNodes ns).link.place e.1 j = e.2.traverse Except.ok := by
      refine Instruction.traverse_of_traverse hj fun target _ h hh => place_label_eq_ok_iff.mpr ?_
      obtain ⟨i, hstart⟩ := of_getElem?_handlesOf (resolve_eq_ok_iff.mp hh)
      obtain ⟨k, hk, -⟩ := getElem?_linked hns hstart
      exact hd.offset?_eq_some_iff.mpr ⟨h.number, _, hk, rfl⟩
    rw [hentry]
    simp [hplace, Instruction.traverse_pure]

end Linked

theorem encode_of_decode {bytes : List UInt8} {c : Code} (h : decode bytes = .ok c) :
    c.encode = .ok bytes := by
  rw [decode, bind_eq_ok_iff] at h
  obtain ⟨ps, hscan, hps⟩ := h
  obtain ⟨is, rfl, hlegible, rfl⟩ := scanAll_eq_ok_iff.mp hscan
  obtain ⟨ns, hns, rfl⟩ := ofInstructions_eq_ok_iff.mp hps
  exact encode_eq_ok_iff.mpr ⟨_, addressed_linked hns,
    fun e he => ⟨(hlegible e he).fitting, (hlegible e he).near⟩, rfl⟩

theorem length_of_decode {bytes : List UInt8} {c : Code} (h : decode bytes = .ok c) :
    c.length = bytes.length := by
  rw [decode, bind_eq_ok_iff] at h
  obtain ⟨ps, hscan, hps⟩ := h
  obtain ⟨is, rfl, -, rfl⟩ := scanAll_eq_ok_iff.mp hscan
  obtain ⟨ns, hns, rfl⟩ := ofInstructions_eq_ok_iff.mp hps
  rw [(tracks_nodesOf hns).length_eq_past, (Layout.offsets_congr (map_span_nodesOf hns) 0).2,
    past_eq_add_length_listing, Nat.zero_add]

theorem decodeAt_placed {is : List (Instruction Nat)} (hlegible : Legible (Layout.placed 0 is))
    {e : Nat × Instruction Nat} (he : e ∈ Layout.placed 0 is) :
    Instruction.decodeAt (listing (Layout.placed 0 is)) e.1 e.1 = .ok (e.2, e.2.width e.1) := by
  obtain ⟨rest, hdrop⟩ := drop_listing he
  have hread := (hlegible e he).read rest
  have hwidth : (e.2.image e.1 ++ rest).length - rest.length = e.2.width e.1 := by
    rw [List.length_append, Nat.add_sub_cancel, Instruction.length_image]
  simp only [Instruction.decodeAt, hdrop, hread, Except.map, hwidth]

theorem label_mem_of_nodesOf {is : List (Instruction Nat)} {ns : List Node}
    (hns : nodesOf (Layout.placed 0 is) = .ok ns) {e : Nat × Instruction Nat} (he : e ∈ Layout.placed 0 is)
    {l : Nat} (hl : l ∈ e.2.labels) : l ∈ (Layout.placed 0 is).map Prod.fst := by
  obtain ⟨p, hp⟩ := List.mem_iff_getElem?.mp he
  obtain ⟨j, -, hj⟩ := getElem?_linked hns hp
  obtain ⟨h, -, hresolve⟩ := mapM_forall (Instruction.labels_of_traverse hj) l hl
  obtain ⟨i, hi⟩ := of_getElem?_handlesOf (resolve_eq_ok_iff.mp hresolve)
  exact List.mem_map_of_mem (List.mem_of_getElem? hi)

section Written

variable {c : Code} {ps : List (Nat × Instruction Nat)} (hps : c.addressed = .ok ps) {p o : Nat}
include hps

theorem getElem?_addressed {n : Node} (hn : c.toList[p]? = some (o, n)) :
    ∃ i, ps[p]? = some (o, i) ∧ c.place o n.instruction = .ok i := by
  obtain ⟨e, he, hok⟩ := mapM_getElem? hps hn
  simp only [bind_eq_ok_iff, pure_eq_ok_iff] at hok
  obtain ⟨i, hi, rfl⟩ := hok
  exact ⟨i, he, hi⟩

theorem getElem?_addressed_right {i : Instruction Nat} (hi : ps[p]? = some (o, i)) :
    ∃ n, c.toList[p]? = some (o, n) ∧ c.place o n.instruction = .ok i := by
  obtain ⟨e, he, hok⟩ := mapM_getElem?_right hps hi
  simp only [bind_eq_ok_iff, pure_eq_ok_iff, Prod.mk.injEq] at hok
  obtain ⟨j, hj, rfl, rfl⟩ := hok
  exact ⟨e.2, he, hj⟩

theorem legible_of_writable (hw : Writable ps)
    (hfew : ∀ e ∈ c.toList, e.2.instruction.FewPairs) : Legible ps := by
  intro e he
  obtain ⟨hfit, hreach⟩ := hw e he
  obtain ⟨p, hp⟩ := List.mem_iff_getElem?.mp he
  obtain ⟨n, hn, hplace⟩ := getElem?_addressed_right hps hp
  exact ⟨hfit, hreach, Instruction.fewPairs_of_traverse hplace (hfew _ (List.mem_of_getElem? hn))⟩

omit hps in
theorem isSome_offset?_of_place {i : Instruction Handle} {j : Instruction Nat} (h : c.place o i = .ok j)
    {l : Handle} (hl : l ∈ i.labels) : (c.offset? l).isSome := by
  obtain ⟨target, -, ht⟩ := mapM_forall (Instruction.labels_of_traverse h) l hl
  exact Option.isSome_of_eq_some (place_label_eq_ok_iff.mp ht)

omit hps in
theorem traverse_renumbered {n : Node} {i : Instruction Nat} (hi : c.place o n.instruction = .ok i) :
    ∃ j, n.instruction.traverse c.renumbered = .ok j := by
  refine Instruction.traverse_exists fun l hl => ?_
  obtain ⟨target, htarget⟩ := Option.isSome_iff_exists.mp (isSome_offset?_of_place hi hl)
  obtain ⟨q, _, hq, -⟩ := offset?_eq_some_iff.mp htarget
  exact ⟨⟨q⟩, by rw [renumbered, hq]; rfl⟩

theorem outline_exists : ∃ l, c.outline = .ok l := by
  refine mapM_exists fun e he => ?_
  obtain ⟨p, hp⟩ := List.mem_iff_getElem?.mp he
  obtain ⟨i, -, hplace⟩ := getElem?_addressed hps hp
  have hposition (l : Handle) (hl : l ∈ e.2.instruction.labels) : ∃ q, c.positionOf l = .ok q := by
    obtain ⟨o, ho⟩ := Option.isSome_iff_exists.mp (isSome_offset?_of_place hplace hl)
    obtain ⟨q, _, hq, -⟩ := offset?_eq_some_iff.mp ho
    exact ⟨q, hq⟩
  obtain ⟨k, hk⟩ := Instruction.traverse_exists hposition
  exact ⟨(e.1, k), by rw [hk]; rfl⟩

variable {ns : List Node} (hc : c.Lists ns)
include hc

theorem Lists.addressed_placed : ∃ is, ps = Layout.placed 0 is ∧ is.map span = ns.map span := by
  rw [addressed, hc.toList_eq] at hps
  have hwidth (o : Nat) (n : Node) (i : Instruction Nat)
      (h : c.place o n.instruction = .ok i) (q : Nat) : span i q = span n q :=
    Instruction.width_of_traverse h q
  exact Layout.mapM_placed hwidth hps

/-- A label that was written is read as the handle of the position that it led to. -/
theorem Lists.resolve_of_place {l : Handle} {target : Nat} (hl : c.offset? l = some target) :
    resolve (handlesOf ps) o target = c.renumbered l := by
  obtain ⟨is, rfl, -⟩ := hc.addressed_placed hps
  obtain ⟨q, m, hq, hm⟩ := offset?_eq_some_iff.mp hl
  obtain ⟨i, hi, -⟩ := getElem?_addressed hps hm
  rw [renumbered, hq, resolve, getElem?_handlesOf hi]
  rfl

theorem Lists.traverse_resolve {n : Node} {i : Instruction Nat}
    (hi : c.place o n.instruction = .ok i) :
    i.traverse (resolve (handlesOf ps) o) = n.instruction.traverse c.renumbered :=
  Instruction.traverse_of_traverse hi fun _ _ _ ht =>
    hc.resolve_of_place hps (place_label_eq_ok_iff.mp ht)

theorem Lists.nodesOf_addressed : ∃ ms, nodesOf ps = .ok ms := by
  refine mapM_exists fun e he => ?_
  obtain ⟨n, -, hi⟩ := getElem?_addressed_right hps (List.mem_zipIdx_iff_getElem?.mp he)
  obtain ⟨j, hj⟩ := traverse_renumbered hi
  rw [hc.traverse_resolve hps hi, hj]
  exact ⟨_, rfl⟩

end Written

section Rewritten

variable {c : Code} {ns ms : List Node} {is : List (Instruction Nat)} (hc : c.Lists ns)
  (his : c.addressed = .ok (Layout.placed 0 is)) (hms : nodesOf (Layout.placed 0 is) = .ok ms)
include hc his hms

theorem Lists.getElem?_rewritten {p o : Nat} {n : Node} (hn : c.toList[p]? = some (o, n)) :
    ∃ j, (ofNodes ms).link.toList[p]? = some (o, ⟨⟨p⟩, j⟩) ∧
      n.instruction.traverse c.renumbered = .ok j := by
  obtain ⟨i, hi, hplace⟩ := getElem?_addressed his hn
  obtain ⟨j, hj, htraverse⟩ := getElem?_linked hms hi
  rw [hc.traverse_resolve his hplace] at htraverse
  exact ⟨j, hj, htraverse⟩

theorem Lists.positionOf_renumbered {l m : Handle} (hthere : (c.offset? l).isSome)
    (hl : c.renumbered l = .ok m) : (ofNodes ms).link.positionOf m = c.positionOf l := by
  obtain ⟨o, ho⟩ := Option.isSome_iff_exists.mp hthere
  obtain ⟨q, n, hq, hn⟩ := offset?_eq_some_iff.mp ho
  obtain ⟨j, hj, -⟩ := hc.getElem?_rewritten his hms hn
  rw [renumbered, hq] at hl
  obtain rfl : ⟨q⟩ = m := Except.ok.inj hl
  rw [hq]
  exact (tracks_nodesOf hms).positionOf_eq_ok_iff.mpr ⟨o, _, hj, rfl⟩

theorem Lists.map_span_rewritten : ms.map span = ns.map span := by
  obtain ⟨is', heq, hspan⟩ := hc.addressed_placed his
  obtain rfl : is = is' := by
    simpa using congrArg (List.map Prod.snd) heq
  exact (map_span_nodesOf hms).trans hspan

theorem Lists.offsets_rewritten :
    (ofNodes ms).link.toList.map Prod.fst = c.toList.map Prod.fst := by
  rw [(tracks_nodesOf hms).toList_eq, hc.toList_eq]
  exact (Layout.offsets_congr (hc.map_span_rewritten his hms) 0).1

theorem Lists.length_rewritten : (ofNodes ms).link.length = c.length := by
  rw [(tracks_nodesOf hms).length_eq_past, hc.length_eq_past]
  exact (Layout.offsets_congr (hc.map_span_rewritten his hms) 0).2

theorem Lists.outline_rewritten : (ofNodes ms).link.outline = c.outline := by
  apply mapM_congr_map
  apply List.ext_getElem?
  intro q
  rw [List.getElem?_map, List.getElem?_map]
  cases hn : c.toList[q]? with
  | none =>
    have hoffset := congrArg (fun os => os[q]?) (hc.offsets_rewritten his hms)
    simpa [List.getElem?_map, hn] using hoffset
  | some e =>
    obtain ⟨j, hentry, htraverse⟩ := hc.getElem?_rewritten his hms hn
    obtain ⟨i, -, hplace⟩ := getElem?_addressed his hn
    have houtline := Instruction.traverse_of_traverse htraverse fun _ hl _ hm =>
      hc.positionOf_renumbered his hms (isSome_offset?_of_place hplace hl) hm
    rw [hentry]
    simp only [Option.map_some, houtline]

end Rewritten

section Encoded

variable {c : Code} {ns : List Node} (hc : c.Lists ns) {bytes : List UInt8} (hb : c.encode = .ok bytes)
include hc hb

theorem Lists.length_of_encode : bytes.length = c.length := by
  obtain ⟨ps, hps, -, rfl⟩ := encode_eq_ok_iff.mp hb
  obtain ⟨is, rfl, hspan⟩ := hc.addressed_placed hps
  have hpast := past_eq_add_length_listing 0 is
  rw [Nat.zero_add, (Layout.offsets_congr hspan 0).2] at hpast
  rw [← hpast, hc.length_eq_past]

/-- Bytes that were written are read: they link to the instructions that they were written from. -/
theorem Lists.decode_of_encode (hfew : ∀ e ∈ c.toList, e.2.instruction.FewPairs) :
    ∃ is ms, c.addressed = .ok (Layout.placed 0 is) ∧ nodesOf (Layout.placed 0 is) = .ok ms ∧
      decode bytes = .ok (ofNodes ms).link := by
  obtain ⟨ps, hps, hw, rfl⟩ := encode_eq_ok_iff.mp hb
  have hlegible := legible_of_writable hps hw hfew
  obtain ⟨ms, hms⟩ := hc.nodesOf_addressed hps
  obtain ⟨is, rfl, -⟩ := hc.addressed_placed hps
  refine ⟨is, ms, hps, hms, ?_⟩
  rw [decode, scanAll_eq_ok_iff.mpr ⟨is, rfl, hlegible, rfl⟩]
  exact ofInstructions_eq_ok_iff.mpr ⟨ms, hms, rfl⟩

end Encoded

end ClassCode.Code
