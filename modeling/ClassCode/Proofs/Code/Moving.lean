import ClassCode.Proofs.Code.References
import ClassCode.Proofs.Instruction.Relocation

/-! Making room. What is put in moves the instructions behind it by its width, the first switch among them
too. There the padding makes up for what the width is off a multiple of four, so all that comes after moves
by such a multiple, and its own padding stays. Taking an instruction out moves the others back as far. -/
namespace ClassCode

/-- A switch that moves from `o` by `w` passes on `k` to what comes after it: as much more or less as its padding
grows or shrinks, which makes it a multiple of four. -/
structure PassesOn (o w k : Nat) : Prop where
  padded : k + switchPadding o = w + switchPadding (o + w)
  aligned : 4 ∣ k
  least : w ≤ k + 3
  most : k ≤ w + 3

theorem exists_passesOn (o : Nat) {w : Nat} (hw : 0 < w) : ∃ k, PassesOn o w k := by
  have hle : switchPadding o ≤ w + switchPadding (o + w) := by
    simp only [switchPadding]
    omega
  refine ⟨w + switchPadding (o + w) - switchPadding o, Nat.sub_add_cancel hle, ?_, ?_, ?_⟩ <;>
    simp only [switchPadding] <;> omega

namespace Instruction

variable {L : Type} {i : Instruction L}

theorem add_width_of_passesOn {o w k : Nat} (hi : i.isSwitch) (hk : PassesOn o w k) :
    o + w + i.width (o + w) = o + i.width o + k := by
  have hwidth := width_of_isSwitch hi (o + w) o
  have hpadded := hk.padded
  omega

end Instruction

namespace Code

open Run

def ahead (w : Nat) (e : Nat × Node) : Nat × Node := (e.1 + w, e.2)

/-- `d` is `c` with the entry `x`, which is `w` wide, at position `p`. Everything from there to the end moves by
`w`; or, if there is a switch, everything up to the first one does, and all the rest moves by what it passes
on. -/
structure MakesRoom (c : Code) (p w : Nat) (x : Nat × Node) (d : Code) : Prop where
  straight : ∀ front back, c.toList = front ++ back → front.length = p →
    (∀ e ∈ back, ¬ e.2.instruction.isSwitch) →
    d.toList = front ++ x :: back.map (ahead w) ∧ d.length = c.length + w
  passed : ∀ front near s far, c.toList = front ++ (near ++ s :: far) → front.length = p →
    (∀ e ∈ near, ¬ e.2.instruction.isSwitch) → s.2.instruction.isSwitch →
    ∃ k, PassesOn s.1 w k ∧ d.toList = front ++ x :: ((near ++ [s]).map (ahead w) ++ far.map (ahead k)) ∧
      d.length = c.length + k

section Laid

variable {o w : Nat} {ns : List Node}

theorem forall_mem_placed {P : Node → Prop} : (∀ e ∈ Layout.placed o ns, P e.2) ↔ ∀ n ∈ ns, P n := by
  conv_rhs => rw [← Layout.map_snd_placed o ns, List.forall_mem_map]

theorem placed_straight (hns : ∀ n ∈ ns, ¬ n.instruction.isSwitch) :
    Layout.placed (o + w) ns = (Layout.placed o ns).map (ahead w) ∧
      Layout.past (o + w) ns = Layout.past o ns + w := by
  have hspan : ∀ n ∈ ns, ∀ o, span n (o + w) = span n o := fun n hn o =>
    Instruction.width_of_not_isSwitch (hns n hn) (o + w) o
  exact ⟨Layout.placed_add hspan o, Layout.past_add hspan o⟩

/-- The first switch takes up what the width is off a multiple of four. -/
theorem placed_passed {s : Node} (fs : List Node) {k : Nat} (hns : ∀ n ∈ ns, ¬ n.instruction.isSwitch)
    (hs : s.instruction.isSwitch) (hk : PassesOn (Layout.past o ns) w k) :
    let q := Layout.past o ns
    Layout.placed (o + w) (ns ++ s :: fs) =
        (Layout.placed o ns ++ [(q, s)]).map (ahead w) ++ (Layout.placed (q + span s q) fs).map (ahead k) ∧
      Layout.past (o + w) (ns ++ s :: fs) = Layout.past o (ns ++ s :: fs) + k := by
  intro q
  obtain ⟨hplaced, hpast⟩ := placed_straight (o := o) (w := w) hns
  have hnext : q + w + span s (q + w) = q + span s q + k := Instruction.add_width_of_passesOn hs hk
  have hspan : ∀ n ∈ fs, ∀ o, span n (o + k) = span n o := fun n _ => n.instruction.width_add hk.aligned
  have hfar := Layout.placed_add hspan (q + span s q)
  have hend := Layout.past_add hspan (q + span s q)
  rw [← hnext] at hfar hend
  constructor
  · rw [Layout.placed_append, hplaced, hpast, Layout.placed, hfar]
    simp [ahead, q]
  · rw [Layout.past_append, hpast, Layout.past, hend, Layout.past_append]
    rfl

end Laid

theorem Lists.makesRoom {c d : Code} {as bs : List Node} {x : Node} (hc : c.Lists (as ++ bs))
    (hd : d.Lists (as ++ x :: bs)) :
    MakesRoom c as.length (x.instruction.width (Layout.past 0 as)) (Layout.past 0 as, x) d := by
  let o := Layout.past 0 as
  let w := x.instruction.width o
  have hlist : c.toList = Layout.placed 0 as ++ Layout.placed o bs := by rw [hc.toList_eq, Layout.placed_append]
  have hroom : d.toList = Layout.placed 0 as ++ (o, x) :: Layout.placed (o + w) bs := by
    rw [hd.toList_eq, Layout.placed_append]
    rfl
  have hlength : c.length = Layout.past o bs := by rw [hc.length_eq_past, Layout.past_append]
  have hlonger : d.length = Layout.past (o + w) bs := by
    rw [hd.length_eq_past, Layout.past_append]
    rfl
  have hsplit {front back : List (Nat × Node)} (hsame : c.toList = front ++ back)
      (hp : front.length = as.length) : front = Layout.placed 0 as ∧ back = Layout.placed o bs :=
    List.append_inj (hsame.symm.trans hlist) (by rw [hp, Layout.length_placed])
  constructor
  case straight =>
    intro front back hsame hp hback
    obtain ⟨rfl, rfl⟩ := hsplit hsame hp
    obtain ⟨hplaced, hpast⟩ := placed_straight (w := w) (forall_mem_placed.mp hback)
    rw [hroom, hlonger, hlength, hplaced, hpast]
    exact ⟨rfl, rfl⟩
  case passed =>
    intro front near s far hsame hp hnear hs
    obtain ⟨rfl, hback⟩ := hsplit hsame hp
    obtain ⟨ns, ms, rfl, rfl, hms⟩ := Layout.placed_eq_append_iff.mp hback.symm
    obtain ⟨n, fs, rfl, rfl, rfl⟩ := Layout.placed_eq_cons_iff.mp hms
    obtain ⟨k, hk⟩ := exists_passesOn (Layout.past o ns) (x.instruction.width_pos o)
    obtain ⟨hplaced, hpast⟩ := placed_passed fs (forall_mem_placed.mp hnear) hs hk
    refine ⟨k, hk, ?_, ?_⟩
    · rw [hroom, hplaced]
    · rw [hlonger, hlength, hpast]

theorem Lists.getElem?_between {c : Code} {as bs : List Node} {n : Node} (hc : c.Lists (as ++ n :: bs)) :
    c.toList[as.length]? = some (Layout.past 0 as, n) := by
  rw [hc.toList_eq, Layout.getElem?_placed]
  simp

/-- What is put in moves the instructions behind it. What is taken out, whether anything still refers to it or
not, moves them back as far as it would move them if it were put in there; and if it is put in there again, all
are where they were. -/
theorem room_made_and_closed {c : Code} (hc : Reachable c) (p : Nat) :
    (∀ x h d, insert p x c = .ok h d →
      ∃ o, d.toList[p]? = some (o, ⟨h, x⟩) ∧ MakesRoom c p (x.width o) (o, ⟨h, x⟩) d) ∧
    ∀ o n, c.toList[p]? = some (o, n) →
      let d := leaves (remove p) c
      MakesRoom d p (n.instruction.width o) (o, n) c ∧
        ∀ h e, insert p n.instruction d = .ok h e → e.toList.map Prod.fst = c.toList.map Prod.fst := by
  obtain ⟨ns, hns⟩ := hc.lists
  constructor
  · intro x h d hedit
    obtain ⟨hp, hvalid, rfl, rfl⟩ := insert_eq_ok_iff.mp hedit
    rw [hns.size_eq] at hp
    obtain ⟨as, bs, rfl, rfl⟩ := exists_append_of_le hp
    have hd := hns.inserted_between x
    exact ⟨_, hd.getElem?_between, hns.makesRoom hd⟩
  · intro o n hn d
    rw [hns.toList_eq, Layout.getElem?_placed, Option.map_eq_some_iff] at hn
    obtain ⟨m, hm, heq⟩ := hn
    obtain ⟨as, bs, rfl, rfl⟩ := exists_eq_append hm
    rw [List.take_left] at heq
    obtain ⟨rfl, rfl⟩ := Prod.mk.inj heq
    have hd : d.Lists (as ++ bs) := by
      have hleaves : d = (c.detach as.length m).2 :=
        c.leaves_remove_of_nodeAt as.length (hns.nodeAt_eq_ok_iff.mpr hm)
      rw [hleaves]
      exact hns.detached_between
    refine ⟨hd.makesRoom hns, fun h e hedit => ?_⟩
    obtain ⟨-, hvalid, rfl, rfl⟩ := insert_eq_ok_iff.mp hedit
    have he := hd.inserted_between m.instruction
    rw [he.toList_eq, hns.toList_eq]
    refine (Layout.offsets_congr ?_ 0).1
    rw [List.map_append, List.map_append]
    rfl

/-- In front of a switch at 1 a jump takes three bytes, and what comes after the switch moves by four. Taking out
the instruction at 0, to which the switch leads, moves the switch back and nothing else. -/
theorem room_made_for_jump_and_closed :
    let c := (Request.push (.plain ⟨0⟩)).apply ((Request.push (.tableSwitch ⟨0⟩ 0 [⟨0⟩])).apply
      ((Request.push (.plain ⟨0⟩)).apply empty))
    c.toList.map Prod.fst = [0, 1, 20] ∧
    (∃ d, insert 0 (.jump ⟨0xa7⟩ ⟨0⟩) c = .ok ⟨3⟩ d ∧ d.toList.map Prod.fst = [0, 3, 4, 24] ∧ d.length = 25) ∧
    (leaves (remove 0) c).toList.map Prod.fst = [0, 20] ∧
    MakesRoom (leaves (remove 0) c) 0 1 (0, ⟨⟨0⟩, .plain ⟨0⟩⟩) c := by
  intro c
  have hc : Reachable c := ((Reachable.empty.edited _).edited _).edited _
  have hinsert : insert 0 (.jump ⟨0xa7⟩ ⟨0⟩) c = .ok ⟨3⟩ (c.inserted 0 (.jump ⟨0xa7⟩ ⟨0⟩)) :=
    insert_eq_ok_iff.mpr ⟨Nat.zero_le _, by decide +kernel, by decide +kernel, rfl⟩
  refine ⟨by decide +kernel, ⟨_, hinsert, ?_⟩, by decide +kernel, ?_⟩
  · obtain ⟨o, hat, hroom⟩ := (room_made_and_closed hc 0).1 _ _ _ hinsert
    have hfirst : (c.inserted 0 (.jump ⟨0xa7⟩ ⟨0⟩)).toList[0]? = some (0, ⟨⟨3⟩, .jump ⟨0xa7⟩ ⟨0⟩⟩) := by
      decide +kernel
    obtain rfl : o = 0 := congrArg Prod.fst (Option.some.inj (hat.symm.trans hfirst))
    obtain ⟨k, hk, hlist, hlength⟩ := hroom.passed [] [(0, ⟨⟨0⟩, .plain ⟨0⟩⟩)]
      (1, ⟨⟨1⟩, .tableSwitch ⟨0⟩ 0 [⟨0⟩]⟩) [(20, ⟨⟨2⟩, .plain ⟨0⟩⟩)] (by decide +kernel) rfl (by decide) rfl
    have hpadding : 3 + switchPadding (1 + 3) = 4 + switchPadding 1 := rfl
    obtain rfl : k = 4 := Nat.add_right_cancel (hk.padded.trans hpadding)
    have hold : c.length = 21 := by decide +kernel
    rw [hlength, hlist, hold]
    exact ⟨rfl, rfl⟩
  · exact ((room_made_and_closed hc 0).2 0 ⟨⟨0⟩, .plain ⟨0⟩⟩ (by decide +kernel)).1

end Code

end ClassCode
