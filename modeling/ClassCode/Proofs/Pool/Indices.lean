import ClassCode.Pool.Edit
import ClassCode.Proofs.Constant.Shifting
import ClassCode.Proofs.Layout.Search
import ClassCode.Proofs.Outcome
import ClassCode.Proofs.Positions

/-! Indices of a pool. The constants of a pool are a list, laid out from slot 1 on; as long as there is room
for them, every constant has an index of its own and is found there. -/
namespace ClassCode

namespace Pool

/-- The constants of a list with the indices that they get in a pool. -/
def listed (cs : List Constant) : List (PoolIndex × Constant) :=
  (Layout.placed 1 cs).map fun e => (indexAt e.1, e.2)

def indices (cs : List Constant) : List PoolIndex := (listed cs).map Prod.fst

@[simp] theorem map_snd_listed (cs : List Constant) : (listed cs).map Prod.snd = cs := by
  rw [listed, List.map_map]
  exact Layout.map_snd_placed 1 cs

@[simp] theorem length_indices (cs : List Constant) : (indices cs).length = cs.length := by
  simp [indices, listed]

theorem snd_mem_of_mem_listed {cs : List Constant} {e : PoolIndex × Constant} (he : e ∈ listed cs) :
    e.2 ∈ cs := by
  rw [← map_snd_listed cs]
  exact List.mem_map_of_mem he

theorem exists_mem_listed {cs : List Constant} {c : Constant} (hc : c ∈ cs) : ∃ i, (i, c) ∈ listed cs := by
  rw [← map_snd_listed cs] at hc
  obtain ⟨⟨i, d⟩, he, rfl⟩ := List.mem_map.mp hc
  exact ⟨i, he⟩

theorem getElem?_listed {cs : List Constant} {k : Nat} {r : PoolIndex} {c : Constant} :
    (listed cs)[k]? = some (r, c) ↔ cs[k]? = some c ∧ indexAt (Layout.past 1 (cs.take k)) = r := by
  rw [listed, List.getElem?_map, Layout.getElem?_placed]
  cases cs[k]? with
  | none => simp
  | some d => simp [and_comm]

theorem getElem?_indices {cs : List Constant} {k : Nat} {r : PoolIndex} :
    (indices cs)[k]? = some r ↔ ∃ c, (listed cs)[k]? = some (r, c) := by
  rw [indices, List.getElem?_map, Option.map_eq_some_iff]
  constructor
  · rintro ⟨⟨_, c⟩, hc, rfl⟩
    exact ⟨c, hc⟩
  · rintro ⟨c, hc⟩
    exact ⟨(r, c), hc, rfl⟩

theorem indexAt_toNat {o : Nat} (ho : o < 65536) : (indexAt o).slot.toNat = o :=
  UInt16.toNat_ofNat_of_lt' ho

theorem rising_constants (o : Nat) (cs : List Constant) : Layout.Rising o cs :=
  Layout.rising_of_pos fun e _ => e.2.slots_pos

def slotCount : List Constant → Nat
  | [] => 0
  | c :: cs => c.slots + slotCount cs

theorem slotCount_append (cs ds : List Constant) : slotCount (cs ++ ds) = slotCount cs + slotCount ds := by
  induction cs with
  | nil => simp [slotCount]
  | cons c cs ih => simp [slotCount, ih, Nat.add_assoc]

theorem past_eq (o : Nat) (cs : List Constant) : Layout.past o cs = o + slotCount cs := by
  induction cs generalizing o with
  | nil => rfl
  | cons c cs ih =>
    have hrest := ih (o + c.slots)
    rw [slotCount, ← Nat.add_assoc]
    exact hrest

/-- There are slots for all the constants. -/
def Roomy (cs : List Constant) : Prop := Layout.past 1 cs ≤ maxPoolCount

section Roomy

variable {cs : List Constant} (hroom : Roomy cs)
include hroom

theorem Roomy.offset_lt {e : Nat × Constant} (he : e ∈ Layout.placed 1 cs) : e.1 < 65535 := by
  have hend := (rising_constants 1 cs).add_span_le_past he
  have hpos := e.2.slots_pos
  have hmax : Layout.past 1 cs ≤ 65535 := hroom
  change e.1 + e.2.slots ≤ _ at hend
  omega

theorem Roomy.getElem?_placed_iff {k : Nat} {r : PoolIndex} {c : Constant} :
    (Layout.placed 1 cs)[k]? = some (r.slot.toNat, c) ↔ (listed cs)[k]? = some (r, c) := by
  rw [listed, List.getElem?_map, Option.map_eq_some_iff]
  constructor
  · intro h
    exact ⟨_, h, by simp [indexAt]⟩
  · rintro ⟨⟨o, d⟩, he, heq⟩
    obtain ⟨rfl, rfl⟩ := Prod.mk.inj heq
    have hlt := hroom.offset_lt (List.mem_of_getElem? he)
    rw [he, indexAt_toNat (Nat.lt_succ_of_lt hlt)]

theorem Roomy.pairwise_listed : (listed cs).Pairwise fun d e => d.1.slot < e.1.slot := by
  have hascending := (rising_constants 1 cs).pairwise
  refine List.pairwise_map.mpr (hascending.imp_of_mem fun {d e} hd he hlt => ?_)
  rw [UInt16.lt_iff_toNat_lt, indexAt_toNat (Nat.lt_succ_of_lt (hroom.offset_lt hd)),
    indexAt_toNat (Nat.lt_succ_of_lt (hroom.offset_lt he))]
  exact hlt

theorem Roomy.slot_lt_iff {k m : Nat} {a b : PoolIndex} (ha : (indices cs)[k]? = some a)
    (hb : (indices cs)[m]? = some b) : a.slot < b.slot ↔ k < m := by
  have hordered : (indices cs).Pairwise fun a b => a.slot < b.slot :=
    List.pairwise_map.mpr hroom.pairwise_listed
  rw [List.pairwise_iff_getElem] at hordered
  obtain ⟨hk, rfl⟩ := List.getElem?_eq_some_iff.mp ha
  obtain ⟨hm, rfl⟩ := List.getElem?_eq_some_iff.mp hb
  refine ⟨fun hlt => Nat.lt_of_not_le fun hle => ?_, hordered k m hk hm⟩
  rcases Nat.eq_or_lt_of_le hle with rfl | hmk
  · exact UInt16.lt_irrefl _ hlt
  · exact UInt16.lt_asymm hlt (hordered m k hm hk hmk)

theorem Roomy.nodup_indices : (indices cs).Nodup := by
  refine List.pairwise_map.mpr (hroom.pairwise_listed.imp fun {d e} hlt heq => ?_)
  rw [heq] at hlt
  exact UInt16.lt_irrefl _ hlt

end Roomy

/-- `p` has the constants `cs`, and a place for the holders of each of them. -/
structure Lists (p : Pool) (cs : List Constant) : Prop where
  laid : p.constants = Layout.laid 1 cs
  sized : p.inbound.size = cs.length

section Lists

variable {p : Pool} {cs : List Constant} (hp : p.Lists cs)
include hp

theorem Lists.entries_eq : p.entries = listed cs := by
  rw [entries, hp.laid, Layout.toList_laid, listed]

theorem Lists.count_eq : p.count = Layout.past 1 cs := by
  rw [count, hp.laid, Layout.stop_laid]

theorem Lists.find_eq_ok_iff (hroom : Roomy cs) {r : PoolIndex} {k : Nat} {c : Constant} :
    p.find r = .ok (k, c) ↔ (listed cs)[k]? = some (r, c) := by
  have hascending := (rising_constants 1 cs).ascending
  have hlocate : p.constants.locate r.slot.toNat = .starts k c ↔
      (Layout.placed 1 cs)[k]? = some (r.slot.toNat, c) := by
    rw [hp.laid, hascending.locate_eq_starts_iff, ← Layout.toList_laid, Layout.toList,
      Array.getElem?_toList]
  constructor
  · intro h
    rw [find] at h
    split at h
    · simp at h
    · split at h
      · rename_i k' c' hspot
        obtain ⟨rfl, rfl⟩ := Prod.mk.inj (Outcome.pure_eq_ok_iff.mp h)
        exact hroom.getElem?_placed_iff.mp (hlocate.mp hspot)
      · simp at h
      · simp at h
  · intro h
    have hslot := hroom.getElem?_placed_iff.mpr h
    have hne : r ≠ .absent := by
      rintro rfl
      have hle := (rising_constants 1 cs).le_of_mem_placed (List.mem_of_getElem? hslot)
      exact absurd hle (Nat.not_succ_le_zero 0)
    rw [find, if_neg hne, hlocate.mpr hslot]
    rfl

theorem Lists.exists_find_iff (hroom : Roomy cs) {r : PoolIndex} :
    (∃ k c, p.find r = .ok (k, c)) ↔ r ∈ indices cs := by
  simp only [hp.find_eq_ok_iff hroom, List.mem_iff_getElem?, getElem?_indices]

theorem Lists.append (c : Constant) : (p.append c).Lists (cs ++ [c]) where
  laid := by
    change p.constants.push c = _
    rw [hp.laid, Layout.push_laid]
  sized := by
    change (p.inbound.push .empty).size = _
    rw [Array.size_push, hp.sized, List.length_append]
    rfl

theorem Lists.holdersAt_append (c : Constant) (k : Nat) :
    (p.append c).holdersAt k = if k < cs.length then p.holdersAt k else .empty := by
  have hsize := hp.sized
  simp only [holdersAt, Pool.append, Array.getD_eq_getD_getElem?, Array.getElem?_push, hsize]
  by_cases hlt : k < cs.length
  · simp [hlt, Nat.ne_of_lt hlt]
  · by_cases heq : k = cs.length <;> simp [hlt, heq, hsize]

end Lists

/-! Closing a gap: the constants past one that is taken out come down by its slots, and so does what
refers to them. -/

theorem shift_indexAt {i : PoolIndex} {o w : Nat} (hi : i.slot.toNat < o + w) (ho : o + w < 65536) :
    PoolIndex.shift i w.toUInt16 (indexAt (o + w)) = indexAt o := by
  rw [PoolIndex.shift, if_pos]
  · simp [indexAt]
  · rw [UInt16.lt_iff_toNat_lt, indexAt_toNat ho]
    exact hi

theorem Roomy.eraseIdx {cs : List Constant} (hroom : Roomy cs) {k : Nat} {c : Constant}
    (h : cs[k]? = some c) : Roomy (cs.eraseIdx k) := by
  obtain ⟨pre, post, rfl, rfl⟩ := exists_eq_append h
  unfold Roomy at hroom ⊢
  rw [List.eraseIdx_append_of_length_le (Nat.le_refl _)]
  simp only [past_eq, slotCount_append, slotCount, Nat.sub_self, List.eraseIdx_zero,
    List.tail_cons] at hroom ⊢
  omega

theorem listed_append_cons (pre post : List Constant) (c : Constant) :
    listed (pre ++ c :: post) = listed pre ++ (indexAt (Layout.past 1 pre), c) ::
      (Layout.placed (Layout.past 1 pre) post).map fun e => (indexAt (e.1 + c.slots), e.2) := by
  have hspan : ∀ x ∈ post, ∀ o, span x (o + c.slots) = span x o := fun _ _ _ => rfl
  have hpost := Layout.placed_add hspan (Layout.past 1 pre)
  rw [listed, Layout.placed_append, List.map_append, ← listed]
  change _ ++ (_, c) :: (Layout.placed (Layout.past 1 pre + c.slots) post).map _ = _
  rw [hpost, List.map_map]
  rfl

theorem listed_append (cs : List Constant) (c : Constant) :
    listed (cs ++ [c]) = listed cs ++ [(indexAt (Layout.past 1 cs), c)] := listed_append_cons cs [] c

theorem indices_append (cs : List Constant) (c : Constant) :
    indices (cs ++ [c]) = indices cs ++ [indexAt (Layout.past 1 cs)] := by
  rw [indices, listed_append, List.map_append]
  rfl

/-- Indices that were given before the gap stay, those past it shift. -/
theorem listed_eraseIdx {cs : List Constant} (hroom : Roomy cs) {k : Nat} {i : PoolIndex} {c : Constant}
    (h : (listed cs)[k]? = some (i, c)) :
    listed (cs.eraseIdx k) =
      ((listed cs).eraseIdx k).map fun e => (PoolIndex.shift i c.slots.toUInt16 e.1, e.2) := by
  obtain ⟨hc, rfl⟩ := getElem?_listed.mp h
  obtain ⟨pre, post, rfl, rfl⟩ := exists_eq_append hc
  have hend : Layout.past 1 pre + c.slots + slotCount post ≤ 65535 := by
    have hall : Layout.past 1 (pre ++ c :: post) ≤ 65535 := hroom
    rw [past_eq] at hall ⊢
    rw [slotCount_append, slotCount] at hall
    omega
  have hgap : (indexAt (Layout.past 1 pre)).slot.toNat = Layout.past 1 pre :=
    indexAt_toNat (by omega)
  have hlen : (listed pre).length = pre.length := by simp [listed]
  rw [List.take_left, listed_append_cons, ← hlen, List.eraseIdx_append_of_length_le (Nat.le_refl _),
    hlen, List.eraseIdx_append_of_length_le (Nat.le_refl _)]
  simp only [Nat.sub_self, List.eraseIdx_zero, List.tail_cons]
  rw [List.map_append, listed, Layout.placed_append, List.map_append, ← listed]
  congr 1
  · rw [listed, List.map_map]
    refine List.map_congr_left fun e he => ?_
    have hbefore := (rising_constants _ _).add_span_le_past he
    have hslot := indexAt_toNat (o := e.1) (by omega)
    simp only [Function.comp_apply]
    rw [PoolIndex.shift_of_le]
    omega
  · rw [List.map_map]
    refine List.map_congr_left fun e he => ?_
    have hfrom := (rising_constants _ _).le_of_mem_placed he
    have hto := (rising_constants _ _).add_span_le_past he
    rw [past_eq] at hto
    have hpos := c.slots_pos
    simp only [Function.comp_apply]
    rw [shift_indexAt] <;> omega

theorem listed_map (f : PoolIndex → PoolIndex) (cs : List Constant) :
    listed (cs.map (Constant.mapReferences f)) =
      (listed cs).map fun e => (e.1, e.2.mapReferences f) := by
  have hspan : ∀ (c : Constant) (o : Nat), span (c.mapReferences f) o = span c o :=
    fun c _ => c.slots_mapReferences f
  rw [listed, Layout.placed_map _ hspan, listed, List.map_map, List.map_map]
  rfl

end Pool

end ClassCode
