import ClassCode.Proofs.Bytes.Writing
import ClassCode.Proofs.Pool.Interning
import ClassCode.Proofs.Pool.Renumbering
import ClassCode.Proofs.Text.Units

/-! Reading and writing a pool. What is read is written as the same bytes, and what a run of edits leads to is
written and read back, except for texts that were put in although they are not well-formed. -/
namespace ClassCode.Pool

open Holders

theorem Lists.write_eq_put {p : Pool} {cs : List Constant} (hp : p.Lists cs) (hcs : ∀ c ∈ cs, c.isShort) :
    p.write = Writer.put (image cs) := by
  have hshort : ∀ e ∈ Layout.placed 1 cs, e.2.write = Writer.put e.2.image := by
    intro e he
    refine Constant.write_eq_put (hcs e.2 ?_)
    rw [← Layout.map_snd_placed 1 cs]
    exact List.mem_map_of_mem he
  have himages : (Layout.placed 1 cs).flatMap (fun e => e.2.image) = cs.flatMap Constant.image := by
    rw [← List.flatMap_map, Layout.map_snd_placed]
  rw [write, LawfulWire.write_eq_put, hp.count_eq, hp.laid, Layout.toList_laid, List.forM_eq_forM,
    Writer.forM_put hshort, himages, image, Writer.put_append]

/-- Nothing that is read gets lost: a pool is written as the bytes that it was read from. -/
theorem bytes_write_of_read {bytes rest : List UInt8} {p : Pool} (h : read bytes = .ok (p, rest)) :
    ∃ out, p.write.bytes = .ok out ∧ out ++ rest = bytes := by
  obtain ⟨cs, hcs, hroom, hlinked, rfl, rfl⟩ := of_read h
  have hsettled := settled_registerAll (fun c hc => (hcs c hc).1) hroom (dangling?_eq_none_iff.mp hlinked)
  refine ⟨image cs, ?_, rfl⟩
  rw [hsettled.tracks.counts.lists.write_eq_put hsettled.short, Writer.bytes_put]

/-- A text twice, in a form that is too long, then a lone surrogate, two numbers that are none, a name and
type that refers to itself and to a class after it, and the class, which refers back. -/
theorem bytes_write_of_read_of_cycle :
    let bytes : List UInt8 := [0, 9, 1, 0, 2, 0xc1, 0x81, 1, 0, 2, 0xc1, 0x81, 1, 0, 3, 0xed, 0xa0, 0x80,
      4, 0x7f, 0xa0, 0, 1, 6, 0x7f, 0xf4, 0, 0, 0, 0, 0, 1, 0xc, 0, 8, 0, 7, 7, 0, 7]
    ∃ p, read (bytes ++ [0xff, 0]) = .ok (p, [0xff, 0]) ∧ p.write.bytes = .ok bytes := by
  intro bytes
  have hrest : (read (bytes ++ [0xff, 0])).toOption.map Prod.snd = some [0xff, 0] := by decide +kernel
  cases hread : read (bytes ++ [0xff, 0]) with
  | error f => simp [hread, Except.toOption] at hrest
  | ok r =>
    obtain ⟨p, rest⟩ := r
    obtain rfl : rest = [0xff, 0] := by simpa [hread, Except.toOption] using hrest
    obtain ⟨out, hout, happend⟩ := bytes_write_of_read hread
    exact ⟨p, rfl, by rw [hout, List.append_cancel_right happend]⟩

section First

variable {cs pre post : List Constant} {c : Constant}

theorem Roomy.slot_le_of_mem (hroom : Roomy (pre ++ c :: post)) {e : PoolIndex × Constant}
    (he : e ∈ listed (pre ++ c :: post)) (hpre : e.2 ∉ pre) :
    (indexAt (Layout.past 1 pre)).slot ≤ e.1.slot := by
  have hordered := hroom.pairwise_listed
  rw [listed_append_cons] at hordered he
  obtain ⟨-, hfrom, -⟩ := List.pairwise_append.mp hordered
  rcases List.mem_append.mp he with hbefore | hmem
  · exact absurd (snd_mem_of_mem_listed hbefore) hpre
  · rcases List.mem_cons.mp hmem with rfl | hafter
    · exact UInt16.le_refl _
    · exact UInt16.le_of_lt ((List.pairwise_cons.mp hfrom).1 e hafter)

theorem mem_listed_append_cons : (indexAt (Layout.past 1 pre), c) ∈ listed (pre ++ c :: post) := by
  rw [listed_append_cons]
  exact List.mem_append_right _ List.mem_cons_self

theorem exists_first_not_isFormed (h : ¬ ∀ c ∈ cs, c.isFormed) :
    ∃ pre c post, cs = pre ++ c :: post ∧ c.isFormed = false ∧ ∀ d ∈ pre, d.isFormed := by
  cases hfirst : cs.find? fun c => !c.isFormed with
  | none => exact absurd (by simpa using hfirst) h
  | some c =>
    obtain ⟨hc, pre, post, rfl, hpre⟩ := List.find?_eq_some_iff_append.mp hfirst
    exact ⟨pre, c, post, rfl, by simpa using hc, by simpa using hpre⟩

end First

section Again

variable {p q : Pool} {cs : List Constant} (hp : p.Tracks cs)
include hp

theorem Tracks.count_registrationsAt_eq (hq : q.Tracks cs) (i h : PoolIndex) :
    (p.registrationsAt i).count (.entry h) = (q.registrationsAt i).count (.entry h) := by
  by_cases hi : i ∈ indices cs
  · obtain ⟨k, hk⟩ := List.mem_iff_getElem?.mp hi
    rw [hp.registrationsAt_eq hk, hq.registrationsAt_eq hk, count_toList, count_toList]
    exact (hp.counts.recorded k i hk).count_eq (hq.counts.recorded k i hk) h
  · rw [hp.registrationsAt_of_not_mem hi, hq.registrationsAt_of_not_mem hi]

end Again

theorem not_mem_registrationsAt_registerAll {cs : List Constant} (hroom : Roomy cs)
    (hclosed : ∀ c ∈ cs, ∀ r ∈ c.references, r ∈ indices cs) (i : PoolIndex) (id : ExternalId) :
    .external id ∉ (registerAll (listed cs) (ofConstants cs)).registrationsAt i := by
  have hblank := blank_ofConstants cs
  have hq := hblank.tracks hroom hclosed
  by_cases hi : i ∈ indices cs
  · obtain ⟨k, hk⟩ := List.mem_iff_getElem?.mp hi
    rw [hq.registrationsAt_eq hk, ← List.count_eq_zero, count_toList,
      hblank.count_external_registerAll hroom hk]
  · rw [hq.registrationsAt_of_not_mem hi]
    exact List.not_mem_nil

def Formed (p : Pool) : Prop := ∀ e ∈ p.entries, e.2.isFormed

theorem Lists.formed_iff {p : Pool} {cs : List Constant} (hp : p.Lists cs) :
    p.Formed ↔ ∀ c ∈ cs, c.isFormed := by
  rw [Formed, hp.entries_eq]
  constructor
  · intro h c hc
    obtain ⟨i, hi⟩ := exists_mem_listed hc
    exact h (i, c) hi
  · intro h e he
    exact h e.2 (snd_mem_of_mem_listed he)

section Requests

variable {p : Pool} {cs : List Constant} (hp : p.Tracks cs)
include hp

/-- No request makes a text that is not well-formed, unless it names the constant to add. -/
theorem Tracks.formed_apply (hformed : p.Formed) {r : Request} (hr : ∀ c, r = .intern c → c.isFormed) :
    (r.apply p).Formed := by
  have hcs := hp.counts.lists.formed_iff.mp hformed
  have hother (c : Constant) (hc : c.tag ≠ .utf8) : c.isFormed := by
    cases c with
    | utf8 bytes => exact absurd rfl hc
    | _ => rfl
  obtain ⟨ds, hq, hds⟩ := r.keeps_tracks (fun _ cs => ∀ c ∈ cs, c.isFormed) (fun c => c.isFormed)
    (fun _ hcs _ h => h.forall_mem (fun _ hc _ => hc) (fun f c hc => by simpa using hc) hcs)
    ModifiedUtf8.isWellFormed_ofString hother hr ⟨cs, hp, hcs⟩
  exact hq.counts.lists.formed_iff.mpr hds

theorem Tracks.intern_utf8 {bytes : List UInt8} (hnew : p.indexOf? (.utf8 bytes) = none)
    (hshort : bytes.length ≤ maxTextLength) (hroom : p.count < maxPoolCount) :
    ∃ i q, intern (.utf8 bytes) p = .ok i q ∧ (i, .utf8 bytes) ∈ q.entries := by
  have hroomy : Roomy (cs ++ [.utf8 bytes]) := by
    rw [Roomy, Layout.past_append, ← hp.counts.lists.count_eq]
    exact hroom
  have htext : (Constant.utf8 bytes).isShort := decide_eq_true hshort
  have hcheck : checkRoom p (.utf8 bytes) = .ok () := hp.checkRoom_eq_ok_iff.mpr ⟨htext, hroomy⟩
  have hrefs : checkReferences p (.utf8 bytes) = .ok () :=
    hp.checkReferences_eq_ok_iff.mpr (by simp [Constant.references])
  have hq := hp.added hroomy (by simp [Constant.references])
  refine ⟨p.next, p.added (.utf8 bytes), ?_, ?_⟩
  · rw [intern_apply, hnew]
    simp only [hrefs, hcheck]
  · rw [hq.counts.lists.entries_eq, Pool.next, hp.counts.lists.count_eq]
    exact mem_listed_append_cons

end Requests

/-- Every pool that a run of edits leads to is written, and it is read back if its texts are well-formed: the
same constants at the same indices, found at the same index, held by the same constants as often, and by
nothing outside. If they are not, the first one that is not is reported. No request puts in such a text,
unless it names the constant to add; then nothing is checked but its length. -/
theorem read_bytes_write {p : Pool} (h : Reachable p) :
    (∃ out, p.write.bytes = .ok out ∧ ∀ rest,
      (p.Formed → ∃ q, read (out ++ rest) = .ok (q, rest) ∧ q.entries = p.entries ∧
        (∀ c, q.indexOf? c = p.indexOf? c) ∧ ∀ i,
          (∀ j, (q.registrationsAt i).count (.entry j) = (p.registrationsAt i).count (.entry j)) ∧
          ∀ id, .external id ∉ q.registrationsAt i) ∧
      (¬ p.Formed → ∃ i c, (i, c) ∈ p.entries ∧ c.isFormed = false ∧
        (∀ e ∈ p.entries, e.2.isFormed = false → i.slot ≤ e.1.slot) ∧
        read (out ++ rest) = .error (.malformed (.text i)))) ∧
    (p.Formed → ∀ r : Request, (∀ c, r = .intern c → c.isFormed) → (r.apply p).Formed) ∧
    ∀ bytes, p.indexOf? (.utf8 bytes) = none → bytes.length ≤ maxTextLength → p.count < maxPoolCount →
      ∃ i q, intern (.utf8 bytes) p = .ok i q ∧ (i, .utf8 bytes) ∈ q.entries := by
  obtain ⟨cs, hp⟩ := h.settled
  have hlists := hp.tracks.counts.lists
  have hroom := hp.tracks.counts.roomy
  have hclosed := hp.tracks.closed
  refine ⟨⟨image cs, ?_, fun rest => ⟨fun hformed => ?_, fun hnot => ?_⟩⟩,
    fun hformed r hr => hp.tracks.formed_apply hformed hr,
    fun bytes hnew hshort hcount => hp.tracks.intern_utf8 hnew hshort hcount⟩
  · rw [hlists.write_eq_put hp.short, Writer.bytes_put]
  · have hcs := hlists.formed_iff.mp hformed
    have hq := settled_registerAll hp.short hroom hclosed
    refine ⟨registerAll (listed cs) (ofConstants cs), ?_, ?_, fun c => ?_,
      fun i => ⟨fun j => ?_, fun id => ?_⟩⟩
    · exact (read_image_eq_ok_iff (fun c hc => ⟨hp.short c hc, hcs c hc⟩) hroom).mpr ⟨hclosed, rfl, rfl⟩
    · rw [hq.tracks.counts.lists.entries_eq, hlists.entries_eq]
    · rw [hq.interns, hp.interns]
    · exact hq.tracks.count_registrationsAt_eq hp.tracks i j
    · exact not_mem_registrationsAt_registerAll hroom hclosed i id
  · rw [hlists.formed_iff] at hnot
    obtain ⟨pre, c, post, rfl, hbad, hpre⟩ := exists_first_not_isFormed hnot
    rw [hlists.entries_eq]
    refine ⟨_, c, mem_listed_append_cons, hbad, fun e he hebad => ?_, ?_⟩
    · refine hroom.slot_le_of_mem he fun hmem => ?_
      exact absurd (hpre e.2 hmem) (ne_true_of_eq_false hebad)
    · exact read_image_of_not_isFormed
        (fun d hd => ⟨hp.short d (List.mem_append_left _ hd), hpre d hd⟩)
        (hp.short c (List.mem_append_right _ List.mem_cons_self)) hbad hroom rest

/-- A class that something outside holds, after a wide constant before it was taken out; it is read back with
no holder. With a zero byte, put in as a text, the pool is written all the same, but not read back. -/
theorem read_bytes_write_of_zero_byte :
    let p := (Request.registerExternal ⟨7⟩ ⟨2⟩).apply ((Request.remove ⟨1⟩).apply
      ((Request.intern (.classInfo ⟨3⟩)).apply ((Request.intern (.utf8 [0x78])).apply
        ((Request.long 5).apply empty))))
    let q := (Request.intern (.utf8 [0])).apply p
    p.registrationsAt ⟨2⟩ = [.external ⟨7⟩] ∧
    (∃ out, p.write.bytes = .ok out ∧ ∀ rest, ∃ s, read (out ++ rest) = .ok (s, rest) ∧
      s.entries = [(⟨1⟩, .utf8 [0x78]), (⟨2⟩, .classInfo ⟨1⟩)] ∧ s.registrationsAt ⟨2⟩ = []) ∧
    ∃ out, q.write.bytes = .ok out ∧ ∀ rest, read (out ++ rest) = .error (.malformed (.text ⟨3⟩)) := by
  intro p q
  have hp : Reachable p := ((((Reachable.empty.edited _).edited _).edited _).edited _).edited _
  have hentries : p.entries = [(⟨1⟩, .utf8 [0x78]), (⟨2⟩, .classInfo ⟨1⟩)] := by decide +kernel
  have hmore : q.entries = [(⟨1⟩, .utf8 [0x78]), (⟨2⟩, .classInfo ⟨1⟩), (⟨3⟩, .utf8 [0])] := by
    decide +kernel
  have hheld : p.registrationsAt ⟨2⟩ = [.external ⟨7⟩] := by decide +kernel
  have hformed : p.Formed := by
    rw [Formed, hentries]
    decide
  have hnot : ¬ q.Formed := by
    rw [Formed, hmore]
    decide
  obtain ⟨⟨out, hout, hread⟩, -, -⟩ := read_bytes_write hp
  obtain ⟨⟨out', hout', hread'⟩, -, -⟩ := read_bytes_write (hp.edited (.intern (.utf8 [0])))
  refine ⟨hheld, ⟨out, hout, fun rest => ?_⟩, out', hout', fun rest => ?_⟩
  · obtain ⟨s, hs, hsame, -, hregistered⟩ := (hread rest).1 hformed
    obtain ⟨hcount, hexternal⟩ := hregistered ⟨2⟩
    refine ⟨s, hs, hsame.trans hentries, List.eq_nil_iff_forall_not_mem.mpr fun h => ?_⟩
    cases h with
    | entry j => rw [← List.count_eq_zero, hcount, hheld]; rfl
    | external id => exact hexternal id
  · obtain ⟨i, c, hmem, hbad, -, herror⟩ := (hread' rest).2 hnot
    have hlast : i = ⟨3⟩ := by
      change (i, c) ∈ q.entries at hmem
      rw [hmore] at hmem
      simp only [List.mem_cons, Prod.mk.injEq, List.not_mem_nil, or_false] at hmem
      rcases hmem with ⟨-, rfl⟩ | ⟨-, rfl⟩ | ⟨rfl, -⟩
      · exact absurd hbad (by decide)
      · exact absurd hbad (by decide)
      · rfl
    rw [herror, hlast]

end ClassCode.Pool
