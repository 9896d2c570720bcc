import ClassCode.Proofs.Pool.Naming

/-! Adding to a pool. What is there is not added again, even if there is no room. Anything else is refused for the
first of three causes, and the pool stays as it is; or else it comes to stand behind all that is there. -/
namespace ClassCode.Pool

open Outcome Run

def Live (p : Pool) (i : PoolIndex) : Prop := ∃ c, p.constantAt i none = .ok c

/-- What a constant that is nowhere in a pool is refused for: a reference that leads nowhere, the first of them;
with all of them live, a text that is too long; with a short text or none, a lack of slots. -/
inductive Refuses (p : Pool) : Constant → Fault → Prop where
  | reference {c : Constant} {before after : List PoolIndex} {r : PoolIndex} {u : Unresolved}
    (href : c.references = before ++ r :: after) (hlive : ∀ s ∈ before, p.Live s)
    (hdead : p.constantAt r none = .error (.unresolved u)) : Refuses p c (.unresolved u)
  | length {bytes : List UInt8} (hlong : maxTextLength < bytes.length) :
    Refuses p (.utf8 bytes) (.textTooLong bytes.length)
  | room {c : Constant} (hlive : ∀ r ∈ c.references, p.Live r) (hshort : c.isShort)
    (hfull : maxPoolCount < p.count + c.slots) : Refuses p c (.poolOverflow c p.next.slot)

section Checks

variable {p : Pool} {c : Constant} {f : Fault}

theorem exists_unresolved_of_find {i : PoolIndex} (h : p.find i = .error f) : ∃ u, f = .unresolved u := by
  rw [find] at h
  split at h
  · exact ⟨_, (throw_eq_error_iff.mp h).symm⟩
  · split at h
    · simp at h
    · exact ⟨_, (throw_eq_error_iff.mp h).symm⟩
    · exact ⟨_, (throw_eq_error_iff.mp h).symm⟩

theorem constantAt_none (p : Pool) (i : PoolIndex) : p.constantAt i none = Prod.snd <$> p.find i := by
  rw [constantAt]
  cases p.find i <;> rfl

theorem error?_checkReferences (p : Pool) (c : Constant) :
    error? (checkReferences p c) = c.references.findSome? fun r => error? (p.constantAt r none) := by
  have hstep (r : PoolIndex) : error? (discard (p.find r) : Except Fault Unit) =
      error? (p.constantAt r none) := by
    rw [constantAt_none, discard, error?_map]
    exact error?_map _ _
  rw [checkReferences, List.forM_eq_forM, error?_forM]
  exact congrArg (List.findSome? · _) (funext hstep)

theorem checkReferences_eq_error_iff : checkReferences p c = .error f ↔
    ∃ before r after, c.references = before ++ r :: after ∧ p.constantAt r none = .error f ∧
      ∀ s ∈ before, p.Live s := by
  rw [← error?_eq_some_iff, error?_checkReferences, List.findSome?_eq_some_iff]
  simp only [error?_eq_some_iff, error?_eq_none_iff, Live]

theorem checkReferences_eq_ok_iff : checkReferences p c = .ok () ↔ ∀ r ∈ c.references, p.Live r := by
  have hok : checkReferences p c = .ok () ↔ error? (checkReferences p c) = none := by
    rw [error?_eq_none_iff]
    exact ⟨fun h => ⟨(), h⟩, fun ⟨_, h⟩ => h⟩
  rw [hok, error?_checkReferences, List.findSome?_eq_none_iff]
  simp only [error?_eq_none_iff, Live]

/-- The checks fail for what they should, in their order. -/
theorem refuses_iff : Refuses p c f ↔
    checkReferences p c = .error f ∨ checkReferences p c = .ok () ∧ checkRoom p c = .error f := by
  constructor
  · intro h
    cases h with
    | @reference _ before after r u href hlive hdead =>
      exact .inl (checkReferences_eq_error_iff.mpr ⟨before, r, after, href, hdead, hlive⟩)
    | length hlong => exact .inr ⟨rfl, checkRoom_of_long hlong⟩
    | room hlive hshort hfull =>
      exact .inr ⟨checkReferences_eq_ok_iff.mpr hlive, (checkRoom_of_isShort hshort).trans (if_pos hfull)⟩
  · rintro (hr | ⟨hr, hroom⟩)
    · obtain ⟨before, r, after, href, hdead, hlive⟩ := checkReferences_eq_error_iff.mp hr
      rw [constantAt_none, map_eq_error_iff] at hdead
      obtain ⟨u, rfl⟩ := exists_unresolved_of_find hdead
      exact .reference href hlive (by rw [constantAt_none, hdead]; rfl)
    · by_cases hshort : c.isShort
      · rw [checkRoom_of_isShort hshort] at hroom
        split at hroom
        · rename_i hfull
          obtain rfl := Except.error.inj hroom
          exact .room (checkReferences_eq_ok_iff.mp hr) hshort hfull
        · cases hroom
      · obtain ⟨bytes, rfl, hlong⟩ := Constant.exists_long_of_not_isShort hshort
        rw [checkRoom_of_long hlong] at hroom
        obtain rfl := Except.error.inj hroom
        exact .length hlong

theorem intern_eq_error_iff (hc : p.indexOf? c = none) {q : Pool} :
    intern c p = .error f q ↔ q = p ∧ Refuses p c f := by
  rw [intern_apply, hc, refuses_iff]
  cases hr : checkReferences p c with
  | error e => simp [eq_comm, and_comm]
  | ok _ => cases checkRoom p c <;> simp [eq_comm, and_comm]

end Checks

section Additions

variable {p : Pool} (hp : Reachable p)
include hp

theorem Reachable.intern_of_mem {c : Constant} {i : PoolIndex} (hi : (i, c) ∈ p.entries)
    (hfirst : ∀ j, (j, c) ∈ p.entries → i.slot ≤ j.slot) : Pool.intern c p = .ok i p := by
  obtain ⟨cs, hcs⟩ := hp.settled
  rw [hcs.tracks.counts.lists.entries_eq] at hi hfirst
  refine intern_of_indexOf? ?_
  rw [hcs.interns, hcs.tracks.counts.roomy.firstIndex?_eq_some_iff]
  exact ⟨hi, hfirst⟩

theorem Reachable.indexOf?_of_not_mem {c : Constant} (hc : ∀ i, (i, c) ∉ p.entries) : p.indexOf? c = none := by
  obtain ⟨cs, hcs⟩ := hp.settled
  rw [hcs.interns, firstIndex?_eq_none_iff]
  intro hmem
  obtain ⟨i, hi⟩ := exists_mem_listed hmem
  rw [← hcs.tracks.counts.lists.entries_eq] at hi
  exact hc i hi

/-- What nothing speaks against is put behind all that is there, and registered as often as it refers. -/
theorem Reachable.intern_added {c : Constant} (hc : ∀ i, (i, c) ∉ p.entries) (hnone : ∀ f, ¬ Refuses p c f) :
    ∃ q, Pool.intern c p = .ok p.next q ∧ p.next.slot.toNat = p.count ∧
      q.entries = p.entries ++ [(p.next, c)] ∧
      ∀ i h, (q.registrationsAt i).count h =
        (p.registrationsAt i).count h + if h = .entry p.next then c.references.count i else 0 := by
  have hnew := hp.indexOf?_of_not_mem hc
  obtain ⟨cs, hcs⟩ := hp.settled
  rcases hcs.tracks.intern_cases c with ⟨i, hi, -⟩ | ⟨f, hr⟩ | ⟨hadd, hr⟩
  · rw [hnew] at hi
    cases hi
  · exact absurd ((intern_eq_error_iff hnew).mp hr).2 (hnone f)
  · have hcount : p.count < 65536 := by
      rw [hcs.tracks.counts.lists.count_eq]
      exact Nat.lt_succ_of_le hcs.tracks.counts.roomy
    exact ⟨p.added c, hr, indexAt_toNat hcount, hcs.tracks.entries_added,
      hcs.tracks.count_registrationsAt_added hadd.roomy hadd.live⟩

end Additions

/-- To add to a pool, granted or refused, disturbs nothing in it: no index leads elsewhere, no registration goes,
and none from outside comes. A constant that is there is answered by its first index, and nothing changes. Another
one is refused for the first cause that there is, and nothing changes; if there is none, it gets the next
slot. What is interned from texts and is refused has added some of its parts, and nothing else. -/
theorem additions_disturb_nothing {p : Pool} (hp : Reachable p) :
    (∀ c, Grows p (leaves (intern c) p)) ∧ (∀ m : Meaning, Grows p (leaves m.intern p)) ∧
    (∀ c i, (i, c) ∈ p.entries → (∀ j, (j, c) ∈ p.entries → i.slot ≤ j.slot) → intern c p = .ok i p) ∧
    (∀ c, (∀ i, (i, c) ∉ p.entries) →
      (∀ f q, intern c p = .error f q ↔ q = p ∧ Refuses p c f) ∧
      ((∀ f, ¬ Refuses p c f) → ∃ q, intern c p = .ok p.next q ∧ p.next.slot.toNat = p.count ∧
        q.entries = p.entries ++ [(p.next, c)] ∧
        ∀ i h, (q.registrationsAt i).count h =
          (p.registrationsAt i).count h + if h = .entry p.next then c.references.count i else 0)) ∧
    ∀ (m : Meaning) f q, m.intern p = .error f q → ∃ es ms, q.entries = p.entries ++ es ∧ ms.Sublist m.parts ∧
      List.Forall₂ (fun e part => q.meaning? e.1 = some part) es ms := by
  refine ⟨hp.grows_intern, fun m => (hp.gives m).grows, fun c i hi hfirst => hp.intern_of_mem hi hfirst,
    fun c hc => ⟨fun f q => intern_eq_error_iff (hp.indexOf?_of_not_mem hc), hp.intern_added hc⟩,
    fun m f q hq => ?_⟩
  have hgives := hp.gives m
  rw [Gives, hq] at hgives
  exact hgives.exists_meaning?

theorem ofString_replicate (n : Nat) :
    ModifiedUtf8.ofString (String.ofList (List.replicate n 'c')) = List.replicate n 0x63 := by
  have hunit : Utf16.ofChar 'c' = [0x63] := by decide
  have hbyte : ModifiedUtf8.ofUnit 0x63 = [0x63] := by decide
  rw [ModifiedUtf8.ofString, String.toList_ofList, ModifiedUtf8.encode, Utf16.encode, List.flatMap_replicate,
    hunit, List.flatten_replicate_singleton, List.flatMap_replicate, hbyte, List.flatten_replicate_singleton]

/-- A pool of a text and a wide number. A name and type of the number's second slot and of an index past the end is
refused for the first of them. A method with a descriptor that is too long is refused, and the class and
the name that were added for it stay. -/
theorem additions_disturb_nothing_of_two_causes :
    let p := [Request.utf8 "a", .long 7].foldl (fun p r => r.apply p) empty
    let m := Meaning.member .method "a" "b" (String.ofList (List.replicate 65536 'c'))
    intern (.nameAndType ⟨3⟩ ⟨9⟩) p = .error (.unresolved (.secondSlot ⟨3⟩)) p ∧
      intern (.utf8 [0x61]) p = .ok ⟨1⟩ p ∧
      ∃ q, m.intern p = .error (.textTooLong 65536) q ∧ Grows p q ∧
        q.entries = p.entries ++ [(⟨4⟩, .classInfo ⟨1⟩), (⟨5⟩, .utf8 [0x62])] := by
  intro p m
  have hp : Reachable p := Reachable.empty.foldl_apply _
  have hentries : p.entries = [(⟨1⟩, .utf8 [0x61]), (⟨2⟩, .long 7)] := by decide +kernel
  obtain ⟨-, hgrows, hfound, hrefused, -⟩ := additions_disturb_nothing hp
  refine ⟨?_, ?_, ?_⟩
  · have href : (Constant.nameAndType ⟨3⟩ ⟨9⟩).references = [] ++ ⟨3⟩ :: [⟨9⟩] := rfl
    have hdead : p.constantAt ⟨3⟩ none = .error (.unresolved (.secondSlot ⟨3⟩)) := by decide +kernel
    refine ((hrefused _ fun i hi => ?_).1 _ _).mpr ⟨rfl, .reference href (by simp) hdead⟩
    simp [hentries] at hi
  · refine hfound _ _ (by simp [hentries]) fun j hj => ?_
    obtain rfl : j = ⟨1⟩ := by simpa [hentries] using hj
    exact UInt16.le_refl _
  · let q₁ := (Request.classNamed "a").apply p
    let q := (Request.utf8 "b").apply q₁
    have hq : Reachable q := (hp.edited _).edited _
    have hlist : q.entries =
        [(⟨1⟩, .utf8 [0x61]), (⟨2⟩, .long 7), (⟨4⟩, .classInfo ⟨1⟩), (⟨5⟩, .utf8 [0x62])] := by decide +kernel
    have howner : (Meaning.named .classInfo "a").intern p = .ok ⟨4⟩ q₁ :=
      answer?_eq_some_iff.mp (by decide +kernel)
    have hname : (Meaning.text "b").intern q₁ = .ok ⟨5⟩ q :=
      answer?_eq_some_iff.mp (by decide +kernel)
    obtain ⟨-, -, -, hrefused, -⟩ := additions_disturb_nothing hq
    have hfails {s : String} (hs : (ModifiedUtf8.ofString s).length = 65536) :
        (Meaning.member .method "a" "b" s).intern p = .error (.textTooLong 65536) q := by
      have hdescriptor : (Meaning.text s).intern q = .error (.textTooLong 65536) q := by
        refine ((hrefused _ fun i hi => ?_).1 _ _).mpr ⟨rfl, ?_⟩
        · simp only [hlist, List.mem_cons, Prod.mk.injEq, Constant.utf8.injEq, reduceCtorEq, and_false,
            List.not_mem_nil, or_false, false_or] at hi
          rcases hi with ⟨-, hi⟩ | ⟨-, hi⟩ <;> simp [hi] at hs
        · rw [← hs]
          exact .length (by rw [hs]; decide)
      simp only [Meaning.intern_member, Meaning.intern_nameAndType, bind_apply, howner, hname, hdescriptor]
    have hlength : (ModifiedUtf8.ofString (String.ofList (List.replicate 65536 'c'))).length = 65536 := by
      rw [ofString_replicate, List.length_replicate]
    have hrun : m.intern p = .error (.textTooLong 65536) q := hfails hlength
    have hleft := hgrows m
    rw [leaves, hrun] at hleft
    exact ⟨q, hrun, hleft, by rw [hlist, hentries]; rfl⟩

end ClassCode.Pool
