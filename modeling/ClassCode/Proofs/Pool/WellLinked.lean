import ClassCode.Proofs.Pool.Interning

/-! Which pools can be read. Constants that were written one after the other are read as a pool just where
each of their references leads to one of them, and every constant is then held by those that refer to it. -/
namespace ClassCode.Pool

open BigEndian Holders

section Linked

variable {cs : List Constant} (hroom : Roomy cs)
  (hclosed : ∀ c ∈ cs, ∀ r ∈ c.references, r ∈ indices cs)
include hroom hclosed

theorem count_registerAll_pos_iff {k : Nat} {j : PoolIndex} (hk : (indices cs)[k]? = some j)
    (h : Holder PoolIndex) :
    0 < ((registerAll (listed cs) (ofConstants cs)).holdersAt k).count h ↔
      h ∈ ((listed cs).filter fun e => j ∈ e.2.references).map fun e => .entry e.1 := by
  have hblank := blank_ofConstants cs
  have hrecord := (hblank.tracks hroom hclosed).counts.recorded k j hk
  cases h with
  | external id => simp [hblank.count_external_registerAll hroom hk]
  | entry i =>
    simp only [List.mem_map, List.mem_filter, decide_eq_true_eq, Holder.entry.injEq]
    constructor
    · intro hpos
      obtain ⟨e, he, rfl⟩ := List.mem_map.mp
        (hrecord.mem_of_contains ((contains_iff hrecord.positive).mpr hpos))
      rw [hrecord.held e he] at hpos
      exact ⟨e, ⟨he, List.count_pos_iff.mp hpos⟩, rfl⟩
    · rintro ⟨e, ⟨he, hr⟩, rfl⟩
      rw [hrecord.held e he]
      exact List.count_pos_iff.mpr hr

theorem holders_registerAll {j : PoolIndex} (hj : j ∈ indices cs) :
    (registerAll (listed cs) (ofConstants cs)).holders j =
      .ok (((listed cs).filter fun e => j ∈ e.2.references).map fun e => .entry e.1) := by
  have hp := (blank_ofConstants cs).tracks hroom hclosed
  obtain ⟨k, hk⟩ := List.mem_iff_getElem?.mp hj
  obtain ⟨c, hc⟩ := getElem?_indices.mp hk
  have hordered : (((listed cs).filter fun e => j ∈ e.2.references).map fun e =>
      (.entry e.1 : Holder PoolIndex)).Pairwise fun a b => compare a b = .lt := by
    refine List.pairwise_map.mpr ((hroom.pairwise_listed.filter _).imp fun {d e} hlt => ?_)
    have hslots : compare d.1.slot e.1.slot = .lt := Std.compare_eq_lt.mpr hlt
    exact hslots
  rw [holders, hp.find_eq_ok_iff.mpr hc]
  refine congrArg Except.ok (members_eq (hp.counts.recorded k j hk).positive hordered fun h => ?_)
  exact (count_registerAll_pos_iff hroom hclosed hk h).symm

end Linked

/-- Constants that take up to 65534 slots, whose texts are well-formed and not too long, are read after the
number of their slots if every reference among them is the index of one of them, and whatever comes after
them is left. Then they are found at their indices, the first one of equal ones is the one that is interned,
and each is held by those that refer to it, in index order. Else the first reference that leads nowhere
is reported, after the index of the constant that has it. -/
theorem read_iff_references_found {cs : List Constant} (hcs : ∀ c ∈ cs, c.Legible)
    (hslots : slotCount cs ≤ 65534) :
    ∃ body, (cs.forM Constant.write).bytes = .ok body ∧ ∀ rest,
      let input := octets 2 (slotCount cs + 1) ++ body ++ rest
      ((∃ p s, read input = .ok (p, s)) ↔ ∀ c ∈ cs, ∀ r ∈ c.references, r ∈ indices cs) ∧
      (∀ p s, read input = .ok (p, s) → s = rest ∧ p.entries = listed cs ∧
        (∀ c, p.indexOf? c = firstIndex? cs c) ∧
        ∀ j ∈ indices cs, p.holders j =
          .ok (((listed cs).filter fun e => j ∈ e.2.references).map fun e => .entry e.1)) ∧
      ((¬ ∀ c ∈ cs, ∀ r ∈ c.references, r ∈ indices cs) → ∃ i t, dangling? cs = some (i, t) ∧
        read input = .error (.malformed (.danglingReference i t))) := by
  have hroom : Roomy cs := by
    rw [Roomy, past_eq, maxPoolCount]
    omega
  have hbody : cs.forM Constant.write = Writer.put (cs.flatMap Constant.image) :=
    Writer.forM_put fun c hc => Constant.write_eq_put (hcs c hc).1
  refine ⟨cs.flatMap Constant.image, by rw [hbody, Writer.bytes_put], fun rest => ?_⟩
  have himage : octets 2 (slotCount cs + 1) ++ cs.flatMap Constant.image ++ rest = image cs ++ rest := by
    rw [image, ← hroom.toNat_past]
    rfl
  rw [himage]
  refine ⟨⟨fun haccepts => ?_, fun hclosed => ?_⟩, fun p s hp => ?_, fun hnot => ?_⟩
  · obtain ⟨p, s, hp⟩ := haccepts
    exact ((read_image_eq_ok_iff hcs hroom).mp hp).1
  · exact ⟨_, rest, (read_image_eq_ok_iff hcs hroom).mpr ⟨hclosed, rfl, rfl⟩⟩
  · obtain ⟨hclosed, rfl, rfl⟩ := (read_image_eq_ok_iff hcs hroom).mp hp
    have hsettled := settled_registerAll (fun c hc => (hcs c hc).1) hroom hclosed
    exact ⟨rfl, hsettled.tracks.counts.lists.entries_eq, hsettled.interns,
      fun j hj => holders_registerAll hroom hclosed hj⟩
  · rw [← dangling?_eq_none_iff] at hnot
    obtain ⟨l, hl⟩ := Option.ne_none_iff_exists'.mp hnot
    refine ⟨l.1, l.2, hl, ?_⟩
    rw [read_image hcs hroom, hl]

/-- A name and type that refers to itself and to a text, which is in a form that is too long, and two equal
classes, one of them before the text. A reference to the second slot of the wide constant in front leads
nowhere. -/
theorem read_iff_references_found_of_second_slot :
    let cs (t : PoolIndex) : List Constant :=
      [.long 5, .classInfo ⟨4⟩, .utf8 [0xc1, 0x81], .nameAndType ⟨5⟩ t, .classInfo ⟨4⟩]
    (∃ body, ((cs ⟨4⟩).forM Constant.write).bytes = .ok body ∧ ∀ rest, ∃ p,
      read (octets 2 7 ++ body ++ rest) = .ok (p, rest) ∧ p.indexOf? (.classInfo ⟨4⟩) = some ⟨3⟩ ∧
      p.holders ⟨4⟩ = .ok [.entry ⟨3⟩, .entry ⟨5⟩, .entry ⟨6⟩] ∧ p.holders ⟨5⟩ = .ok [.entry ⟨5⟩]) ∧
    ∃ body, ((cs ⟨2⟩).forM Constant.write).bytes = .ok body ∧ ∀ rest,
      read (octets 2 7 ++ body ++ rest) = .error (.malformed (.danglingReference ⟨5⟩ ⟨2⟩)) := by
  intro cs
  have hlegible : ∀ c ∈ cs ⟨4⟩, c.Legible := by decide
  have hlegible' : ∀ c ∈ cs ⟨2⟩, c.Legible := by decide
  have hlinked : ∀ c ∈ cs ⟨4⟩, ∀ r ∈ c.references, r ∈ indices (cs ⟨4⟩) := by decide
  have hnot : ¬ ∀ c ∈ cs ⟨2⟩, ∀ r ∈ c.references, r ∈ indices (cs ⟨2⟩) := by decide
  have hfirst : dangling? (cs ⟨2⟩) = some (⟨5⟩, ⟨2⟩) := by decide
  obtain ⟨body, hbody, hread⟩ := read_iff_references_found hlegible (by decide)
  obtain ⟨body', hbody', hread'⟩ := read_iff_references_found hlegible' (by decide)
  refine ⟨⟨body, hbody, fun rest => ?_⟩, body', hbody', fun rest => ?_⟩
  · obtain ⟨haccepts, hmeans, -⟩ := hread rest
    obtain ⟨p, s, hp⟩ := haccepts.mpr hlinked
    obtain ⟨rfl, -, hinterned, hheld⟩ := hmeans p s hp
    refine ⟨p, hp, (hinterned _).trans (by decide), (hheld ⟨4⟩ (by decide)).trans (by decide),
      (hheld ⟨5⟩ (by decide)).trans (by decide)⟩
  · obtain ⟨-, -, hrefused⟩ := hread' rest
    obtain ⟨i, t, hit, herror⟩ := hrefused hnot
    rw [hfirst] at hit
    obtain ⟨rfl, rfl⟩ := Prod.mk.inj (Option.some.inj hit)
    exact herror

end ClassCode.Pool
