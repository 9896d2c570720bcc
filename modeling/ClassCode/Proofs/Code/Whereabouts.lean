import ClassCode.Proofs.Code.Addresses
import ClassCode.Proofs.Code.References
import ClassCode.Proofs.Code.Stability

/-! Where instructions are. Whatever was edited, handles, positions and offsets lead to the same instructions,
and a handle whose instruction was taken out never leads to one again. -/
namespace ClassCode.Code

open Std Outcome Run

section Entries

variable {c : Code} {ns : List Node} (hc : c.Tracks ns) {p o : Nat} {d e : Nat × Node} {n : Node} {h : Handle}
include hc

theorem Tracks.nodeAt_eq_ok_iff_toList : c.nodeAt p = .ok n ↔ ∃ o, c.toList[p]? = some (o, n) := by
  rw [hc.nodeAt_eq_ok_iff]
  simp only [hc.getElem?_toList]
  exact ⟨fun hn => ⟨_, hn, rfl⟩, fun ⟨_, hn, _⟩ => hn⟩

theorem Tracks.offset_first (he : c.toList[0]? = some e) : e.1 = 0 := (hc.getElem?_toList.mp he).2.symm

theorem Tracks.offset_next (hd : c.toList[p]? = some d) (he : c.toList[p + 1]? = some e) :
    e.1 = d.1 + d.2.instruction.width d.1 := by
  obtain ⟨hnd, hod⟩ := hc.getElem?_toList.mp hd
  obtain ⟨-, hoe⟩ := hc.getElem?_toList.mp he
  rw [← hoe, ← hod]
  exact Layout.past_take_succ 0 hnd

theorem Tracks.length_eq : c.length = (c.toList.getLast?.map fun e => e.1 + e.2.instruction.width e.1).getD 0 := by
  rw [hc.length_eq_past, List.getLast?_eq_getElem?]
  cases hlast : c.toList[c.toList.length - 1]? with
  | none =>
    have hnil : ns = [] := by
      rw [hc.toList_eq, Layout.length_placed] at hlast
      have hle := List.getElem?_eq_none_iff.mp hlast
      rw [Layout.length_placed] at hle
      exact List.eq_nil_of_length_eq_zero (by omega)
    rw [hnil]
    rfl
  | some e =>
    obtain ⟨hn, ho⟩ := hc.getElem?_toList.mp hlast
    have hlength : c.toList.length = ns.length := by rw [hc.toList_eq, Layout.length_placed]
    have hpos := (List.getElem?_eq_some_iff.mp hn).1
    have hpast := Layout.past_take_succ 0 hn
    rw [ho, Nat.sub_add_cancel (by omega), hlength, List.take_length] at hpast
    exact hpast

theorem Tracks.mem_handles_iff : h ∈ ns.map Node.handle ↔ ∃ e ∈ c.toList, e.2.handle = h := by
  rw [hc.map_handle, List.mem_map]

theorem Tracks.positionOf_of_mem (hh : h ∈ ns.map Node.handle) : ∃ p, c.positionOf h = .ok p := by
  obtain ⟨e, he, heh⟩ := hc.mem_handles_iff.mp hh
  obtain ⟨p, hp⟩ := List.mem_iff_getElem?.mp he
  exact ⟨p, hc.positionOf_eq_ok_iff.mpr ⟨e.1, e.2, hp, heh⟩⟩

theorem Tracks.unknown_of_not_mem (hh : h ∉ ns.map Node.handle) :
    c.positionOf h = unknown h ∧ c.offsetOf h = unknown h ∧ c.holders h = unknown h := by
  have hposition : c.position? h = none := by
    refine Option.eq_none_iff_forall_ne_some.mpr fun p hp => hh ?_
    obtain ⟨n, hn, rfl⟩ := hc.position?_eq_some_iff.mp hp
    exact List.mem_map_of_mem (List.mem_of_getElem? hn)
  have hoffset : c.offset? h = none := by simp [offset?, hposition]
  have hinbound : c.inbound[h]? = none := ExtTreeMap.getElem?_eq_none (mt (hc.live h).mp hh)
  simp [positionOf, offsetOf, holders, hposition, hoffset, hinbound]

theorem Tracks.holders_of_mem (hh : h ∈ ns.map Node.handle) : ∃ ks, c.holders h = .ok ks := by
  obtain ⟨s, hs⟩ := exists_of_mem ((hc.live h).mpr hh)
  exact ⟨s.members, by simp [holders, hs]⟩

end Entries

theorem Tracks.retired_remove {c : Code} {ns : List Node} (hc : c.Tracks ns) (hgiven : c.Given) {p : Nat} {n : Node}
    (hn : c.nodeAt p = .ok n) : Retired n.handle ((Request.remove p).apply c) := by
  have hp := hc.nodeAt_eq_ok_iff.mp hn
  have hlive : n.handle ∈ c.inbound := (hc.live _).mpr (List.mem_map_of_mem (List.mem_of_getElem? hp))
  rw [Request.apply, leaves_remove_of_nodeAt _ _ hn]
  refine ⟨?_, fun hh => ?_⟩
  · rw [(frugal_detach c p n).next]
    exact hgiven _ (.inl hlive)
  · exact ((hc.mem_handles_eraseIdx hp).mp (((hc.detached hp).live _).mp hh)).1 rfl

/-- Instructions follow one another from offset zero on, and the handle, the position and the offset of each of
them lead to it and no others lead anywhere. -/
structure Coherent (c : Code) : Prop where
  distinct : (c.toList.map fun e => e.2.handle).Nodup
  first : ∀ e, c.toList[0]? = some e → e.1 = 0
  next : ∀ (p : Nat) (d e : Nat × Node), c.toList[p]? = some d → c.toList[p + 1]? = some e →
    e.1 = d.1 + d.2.instruction.width d.1
  last : c.length = (c.toList.getLast?.map fun e => e.1 + e.2.instruction.width e.1).getD 0
  found : ∀ p < c.size, ∃ (o : Nat) (n : Node), c.toList[p]? = some (o, n) ∧ c.nodeAt p = .ok n ∧
    c.positionOf n.handle = .ok p ∧ c.offsetOf n.handle = .ok o ∧ c.positionAtOffset? o = some p
  known : ∀ e ∈ c.toList, (∃ p, c.positionOf e.2.handle = .ok p) ∧ ∃ ks, c.holders e.2.handle = .ok ks
  unknown : ∀ h, (∀ e ∈ c.toList, e.2.handle ≠ h) → c.positionOf h = unknown h ∧ c.holders h = unknown h
  between : ∀ o, (∀ e ∈ c.toList, e.1 ≠ o) → c.positionAtOffset? o = none

theorem Tracks.coherent {c : Code} {ns : List Node} (hc : c.Tracks ns) : c.Coherent where
  distinct := hc.map_handle ▸ hc.distinct
  first _ he := hc.offset_first he
  next _ _ _ hd he := hc.offset_next hd he
  last := hc.length_eq
  found p hp := by
    obtain ⟨⟨o, n⟩, hget⟩ : ∃ e, c.toList[p]? = some e :=
      ⟨_, List.getElem?_eq_getElem (by simpa [size, Layout.size, toList, Layout.toList] using hp)⟩
    have hoffset : c.offset? n.handle = some o := hc.offset?_eq_some_iff.mpr ⟨p, n, hget, rfl⟩
    exact ⟨o, n, hget, hc.nodeAt_eq_ok_iff_toList.mpr ⟨o, hget⟩,
      hc.positionOf_eq_ok_iff.mpr ⟨o, n, hget, rfl⟩, by rw [offsetOf, hoffset]; rfl,
      hc.positionAtOffset?_eq_some_iff.mpr ⟨n, hget⟩⟩
  known e he := by
    have hmem := hc.mem_handles_iff.mpr ⟨e, he, rfl⟩
    exact ⟨hc.positionOf_of_mem hmem, hc.holders_of_mem hmem⟩
  unknown h hh := by
    have hmem : h ∉ ns.map Node.handle := by
      rw [hc.mem_handles_iff]
      rintro ⟨e, he, heh⟩
      exact hh e he heh
    obtain ⟨hposition, -, hholders⟩ := hc.unknown_of_not_mem hmem
    exact ⟨hposition, hholders⟩
  between o ho := by
    refine Option.eq_none_iff_forall_ne_some.mpr fun p hp => ?_
    obtain ⟨n, hn⟩ := hc.positionAtOffset?_eq_some_iff.mp hp
    exact ho (o, n) (List.mem_of_getElem? hn) rfl

/-- In every code that edits lead to, handles, positions and offsets lead to the same instructions, and the
handle of an instruction that is taken out leads nowhere from then on. -/
theorem whereabouts_agree {c : Code} (hc : Supplied c) :
    c.Coherent ∧ ∀ (p : Nat) (n : Node), c.nodeAt p = .ok n → ∀ rs : List Request,
      Supplies rs ((Request.remove p).apply c) →
      let d := rs.foldl (fun c r => r.apply c) ((Request.remove p).apply c)
      d.positionOf n.handle = unknown n.handle ∧ d.offsetOf n.handle = unknown n.handle ∧
        d.holders n.handle = unknown n.handle := by
  obtain ⟨ns, hns⟩ := hc.tracks
  refine ⟨hns.coherent, fun p n hn rs hrs => ?_⟩
  have hretired := (hns.retired_remove hc.given hn).foldl_apply hrs
  have hroom : c.next ≤ ((Request.remove p).apply c).next := by
    rw [Request.apply, leaves_remove_of_nodeAt _ _ hn, (frugal_detach c p n).next]
    exact UInt32.le_refl _
  obtain ⟨ms, hms⟩ := ((hc.edited (.remove p) hroom).foldl_apply hrs).tracks
  exact hms.unknown_of_not_mem (mt (hms.live _).mpr hretired.absent)

/-- A switch that has one byte of padding less since an instruction was put in front of everything, and the
handle of this instruction after it was taken out and another one was added. -/
theorem whereabouts_agree_of_moved_switch :
    let c := (Request.insert 0 (.plain ⟨0⟩)).apply ((Request.push (.tableSwitch ⟨0⟩ 0 [⟨0⟩])).apply
      ((Request.push (.plain ⟨0⟩)).apply empty))
    let d := (Request.push (.plain ⟨0⟩)).apply ((Request.remove 0).apply c)
    (c.toList.map fun e => (e.1, e.2.handle)) = [(0, ⟨2⟩), (1, ⟨0⟩), (2, ⟨1⟩)] ∧ c.length = 20 ∧
      c.positionAtOffset? 3 = none ∧ d.positionOf ⟨2⟩ = unknown ⟨2⟩ ∧ d.holders ⟨2⟩ = unknown ⟨2⟩ := by
  intro c d
  have hc : Supplied c := ((Supplied.empty.edited _ (by decide +kernel)).edited _ (by decide +kernel)).edited _
    (by decide +kernel)
  obtain ⟨hcoherent, hremoved⟩ := whereabouts_agree hc
  have hn : c.nodeAt 0 = .ok ⟨⟨2⟩, .plain ⟨0⟩⟩ := by decide +kernel
  obtain ⟨hposition, -, hholders⟩ := hremoved 0 _ hn [.push (.plain ⟨0⟩)] ⟨by decide +kernel, trivial⟩
  exact ⟨by decide +kernel, hcoherent.last.trans (by decide +kernel), hcoherent.between 3 (by decide +kernel),
    hposition, hholders⟩

end ClassCode.Code
