import ClassCode.Proofs.Constant.Image
import ClassCode.Proofs.Pool.Linking

/-! Reading a pool. A list of constants has an image, and a pool is read just where such an image is: its
constants go into their slots first, held by nothing, and then they are linked. -/
namespace ClassCode.Pool

open Outcome

/-- The bytes of a pool with the given constants: the number of slots, slot 0 included, and the constants. -/
def image (cs : List Constant) : List UInt8 :=
  LawfulWire.image (Layout.past 1 cs).toUInt16 ++ cs.flatMap Constant.image

section Slots

variable {cs : List Constant} {bytes rest : List UInt8}

theorem readSlots_images (hcs : ∀ c ∈ cs, c.Legible) (n : Nat) (p : Pool) (rest : List UInt8) :
    readSlots (slotCount cs + n) p (cs.flatMap Constant.image ++ rest) =
      readSlots n (cs.foldl append p) rest := by
  induction cs generalizing p with
  | nil => simp [slotCount]
  | cons c cs ih =>
    obtain ⟨hc, hcs⟩ := List.forall_mem_cons.mp hcs
    have hread : Constant.read p.next (c.image ++ (cs.flatMap Constant.image ++ rest)) =
        .ok (c, cs.flatMap Constant.image ++ rest) :=
      (Constant.recognizes_read p.next _ _ _).mpr ⟨hc, rfl⟩
    rw [List.flatMap_cons, List.append_assoc, List.foldl_cons, ← ih hcs, slotCount, Constant.slots]
    cases hwide : c.isWide with
    | false =>
      have hslots : 1 + slotCount cs + n = (slotCount cs + n) + 1 := by omega
      simp only [Bool.false_eq_true, if_false, hslots]
      rw [readSlots, Reader.bind_of_ok hread, if_neg (by simp [hwide])]
    | true =>
      have hslots : 2 + slotCount cs + n = (slotCount cs + n + 1) + 1 := by omega
      simp only [if_true, hslots]
      rw [readSlots, Reader.bind_of_ok hread, if_pos hwide]

theorem of_readSlots {n : Nat} {p q : Pool} (h : readSlots n p bytes = .ok (q, rest)) :
    ∃ cs : List Constant, (∀ c ∈ cs, c.Legible) ∧ cs.foldl append p = q ∧
      bytes = cs.flatMap Constant.image ++ rest := by
  induction n using Nat.strongRecOn generalizing p bytes with
  | ind n ih =>
    cases n with
    | zero =>
      obtain ⟨rfl, rfl⟩ := Reader.pure_eq_ok_iff.mp h
      exact ⟨[], by simp, rfl, rfl⟩
    | succ n =>
      rw [readSlots, Reader.bind_eq_ok_iff] at h
      obtain ⟨c, mid, hread, h⟩ := h
      obtain ⟨hc, rfl⟩ := (Constant.recognizes_read p.next _ _ _).mp hread
      have hrest : ∃ m ≤ n, readSlots m (p.append c) mid = .ok (q, rest) := by
        split at h
        · split at h
          · exact ⟨0, Nat.zero_le _, h⟩
          · rename_i m
            exact ⟨m, Nat.le_succ m, h⟩
        · exact ⟨n, Nat.le_refl n, h⟩
      obtain ⟨m, hm, hrest⟩ := hrest
      obtain ⟨cs, hcs, hfold, rfl⟩ := ih m (Nat.lt_succ_of_le hm) hrest
      refine ⟨c :: cs, List.forall_mem_cons.mpr ⟨hc, hcs⟩, hfold, ?_⟩
      rw [List.flatMap_cons, List.append_assoc]

end Slots

section Read

variable {cs : List Constant}

theorem Roomy.toNat_past (hroom : Roomy cs) :
    (Layout.past 1 cs).toUInt16.toNat = slotCount cs + 1 := by
  have hmax : Layout.past 1 cs ≤ 65535 := hroom
  rw [past_eq] at hmax ⊢
  rw [UInt16.toNat_ofNat_of_lt' (Nat.lt_succ_of_le hmax), Nat.add_comm]

/-- What becomes of the slots of a pool decides what becomes of it. -/
theorem read_image_eq (hroom : Roomy cs) (bytes : List UInt8) :
    read (LawfulWire.image (Layout.past 1 cs).toUInt16 ++ bytes) =
      (do
        let p ← readSlots (slotCount cs) empty
        if p.count ≠ Layout.past 1 cs then Reader.malformed (.poolCount (Layout.past 1 cs).toUInt16)
        ofExcept p.link : Reader Pool) bytes := by
  have hcount := hroom.toNat_past
  have hne : (Layout.past 1 cs).toUInt16 ≠ 0 := by
    intro heq
    rw [heq] at hcount
    exact Nat.succ_ne_zero _ hcount.symm
  rw [read, Reader.bind_of_ok (LawfulWire.read_eq_ok_iff.mpr rfl), if_neg hne, hcount, past_eq,
    Nat.add_comm 1]
  rfl

theorem read_image (hcs : ∀ c ∈ cs, c.Legible) (hroom : Roomy cs) (rest : List UInt8) :
    read (image cs ++ rest) =
      match dangling? cs with
      | none => .ok (registerAll (listed cs) (ofConstants cs), rest)
      | some l => .error (.malformed (.danglingReference l.1 l.2)) := by
  have hblank := blank_ofConstants cs
  have hslots : readSlots (slotCount cs) empty (cs.flatMap Constant.image ++ rest) =
      .ok (ofConstants cs, rest) := readSlots_images hcs 0 empty rest
  rw [image, List.append_assoc, read_image_eq hroom, Reader.bind_of_ok hslots,
    if_neg (by simpa using hblank.lists.count_eq), hblank.link_eq hroom]
  cases dangling? cs <;> rfl

theorem read_image_eq_ok_iff (hcs : ∀ c ∈ cs, c.Legible) (hroom : Roomy cs) {p : Pool}
    {rest left : List UInt8} :
    read (image cs ++ rest) = .ok (p, left) ↔ (∀ c ∈ cs, ∀ r ∈ c.references, r ∈ indices cs) ∧
      registerAll (listed cs) (ofConstants cs) = p ∧ rest = left := by
  rw [read_image hcs hroom, ← dangling?_eq_none_iff]
  cases dangling? cs <;> simp

theorem read_image_of_not_isFormed {c : Constant} {ds : List Constant} (hcs : ∀ c ∈ cs, c.Legible)
    (hshort : c.isShort) (hformed : c.isFormed = false) (hroom : Roomy (cs ++ c :: ds))
    (rest : List UInt8) :
    read (image (cs ++ c :: ds) ++ rest) =
      .error (.malformed (.text (indexAt (Layout.past 1 cs)))) := by
  have hnext : (ofConstants cs).next = indexAt (Layout.past 1 cs) :=
    congrArg indexAt (blank_ofConstants cs).lists.count_eq
  have hpos : slotCount (c :: ds) = (c.slots - 1 + slotCount ds) + 1 := by
    have hc := c.slots_pos
    rw [slotCount]
    omega
  have hslots : readSlots (slotCount (cs ++ c :: ds)) empty
      ((cs ++ c :: ds).flatMap Constant.image ++ rest) =
        .error (.malformed (.text (indexAt (Layout.past 1 cs)))) := by
    rw [slotCount_append, List.flatMap_append, List.append_assoc, readSlots_images hcs, hpos, readSlots,
      List.flatMap_cons, List.append_assoc, ← hnext]
    exact Reader.bind_of_error (Constant.read_of_not_isFormed hshort hformed) _
  rw [image, List.append_assoc, read_image_eq hroom]
  exact Reader.bind_of_error hslots _

theorem of_read {bytes rest : List UInt8} {p : Pool} (h : read bytes = .ok (p, rest)) :
    ∃ cs : List Constant, (∀ c ∈ cs, c.Legible) ∧ Roomy cs ∧ dangling? cs = none ∧
      registerAll (listed cs) (ofConstants cs) = p ∧ bytes = image cs ++ rest := by
  simp only [read, Reader.bind_eq_ok_iff, Reader.refuse_eq_ok_iff, Reader.ofExcept_eq_ok_iff,
    LawfulWire.read_eq_ok_iff] at h
  obtain ⟨count, _, rfl, -, q, rest, hslots, hcount, hlink, rfl⟩ := h
  obtain ⟨cs, hcs, rfl, rfl⟩ := of_readSlots hslots
  have hblank : (cs.foldl append empty).Blank cs := blank_ofConstants cs
  have hpast : Layout.past 1 cs = count.toNat := by
    rw [← hblank.lists.count_eq]
    exact Decidable.not_not.mp hcount
  have hroom : Roomy cs := by
    have hlt := count.toNat_lt
    rw [Roomy, hpast, maxPoolCount]
    omega
  rw [hblank.link_eq hroom] at hlink
  have himage : LawfulWire.image count ++ (cs.flatMap Constant.image ++ rest) = image cs ++ rest := by
    have hnumber : (Layout.past 1 cs).toUInt16 = count := by
      rw [hpast]
      exact UInt16.ofNat_toNat
    rw [image, hnumber, List.append_assoc]
  cases hlinked : dangling? cs with
  | none =>
    rw [hlinked] at hlink
    exact ⟨cs, hcs, hroom, hlinked, Except.ok.inj hlink, himage⟩
  | some l =>
    rw [hlinked] at hlink
    cases hlink

theorem tracks_read {bytes rest : List UInt8} {p : Pool} (h : read bytes = .ok (p, rest)) :
    ∃ cs, p.Tracks cs := by
  obtain ⟨cs, -, hroom, hlinked, rfl, -⟩ := of_read h
  exact ⟨cs, (blank_ofConstants cs).tracks hroom (dangling?_eq_none_iff.mp hlinked)⟩

end Read

end ClassCode.Pool
