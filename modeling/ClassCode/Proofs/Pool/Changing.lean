import ClassCode.Proofs.Constant.Image
import ClassCode.Proofs.Pool.Closing

/-! What an edit can do. Whatever is asked for, granted or refused, a pool changes its registrations only, or
it gets a constant that it did not have, or it loses one; and a request comes down to such changes. -/
namespace ClassCode.Pool

open Holders Outcome Run

/-- What can be added to `p`, a pool of `cs`: a short constant that is nowhere in it, refers to what is there and
has room. -/
structure Addable (p : Pool) (cs : List Constant) (c : Constant) : Prop where
  unfound : p.indexOf? c = none
  live : ∀ r ∈ c.references, r ∈ indices cs
  short : c.isShort
  roomy : Roomy (cs ++ [c])

/-- What an edit can make of a pool of the constants `cs`, and of these constants. The ones that it adds are
`wanted`. -/
inductive Change (wanted : Constant → Prop) (p : Pool) (cs : List Constant) :
    Pool → List Constant → Prop where
  | held {q : Pool} (hconstants : q.constants = p.constants) (hinterned : q.interned = p.interned) :
    Change wanted p cs q cs
  | added {c : Constant} (hwanted : wanted c) (hnew : p.indexOf? c = none) (hshort : c.isShort) :
    Change wanted p cs (p.added c) (cs ++ [c])
  | removed {k : Nat} {i : PoolIndex} {c : Constant} (hk : (listed cs)[k]? = some (i, c)) :
    Change wanted p cs ((p.unlinked i c).close i k c) (without cs k i c)

section Touch

variable (f : Holders (Holder PoolIndex) → Holders (Holder PoolIndex)) (p : Pool)

@[simp] theorem constants_touch (i : PoolIndex) : (p.touch f i).constants = p.constants := by
  rw [touch]
  cases p.find i <;> rfl

@[simp] theorem interned_touch (i : PoolIndex) : (p.touch f i).interned = p.interned := by
  rw [touch]
  cases p.find i <;> rfl

@[simp] theorem constants_foldl_touch (is : List PoolIndex) :
    (is.foldl (touch f) p).constants = p.constants := by
  induction is generalizing p with
  | nil => rfl
  | cons i is ih => rw [List.foldl_cons, ih, constants_touch]

@[simp] theorem interned_foldl_touch (is : List PoolIndex) :
    (is.foldl (touch f) p).interned = p.interned := by
  induction is generalizing p with
  | nil => rfl
  | cons i is ih => rw [List.foldl_cons, ih, interned_touch]

end Touch

theorem checkRoom_of_long {p : Pool} {bytes : List UInt8} (h : maxTextLength < bytes.length) :
    checkRoom p (.utf8 bytes) = .error (.textTooLong bytes.length) := by
  simp only [checkRoom, if_pos h]
  rfl

theorem checkRoom_of_isShort {p : Pool} {c : Constant} (h : c.isShort) : checkRoom p c =
    if maxPoolCount < p.count + c.slots then .error (.poolOverflow c p.next.slot) else .ok () := by
  cases c with
  | utf8 bytes =>
    have hshort : ¬ maxTextLength < bytes.length := Nat.not_lt.mpr (of_decide_eq_true h)
    simp only [checkRoom, if_neg hshort]
    rfl
  | _ => rfl

section Steps

variable {p : Pool} {cs : List Constant} (hp : p.Tracks cs) {wanted : Constant → Prop}
include hp

theorem Tracks.find_eq_ok_iff {i : PoolIndex} {k : Nat} {c : Constant} :
    p.find i = .ok (k, c) ↔ (listed cs)[k]? = some (i, c) :=
  hp.counts.lists.find_eq_ok_iff hp.counts.roomy

theorem Tracks.checkReferences_eq_ok_iff {c : Constant} {u : Unit} :
    checkReferences p c = .ok u ↔ ∀ r ∈ c.references, r ∈ indices cs := by
  have hfound (r : PoolIndex) : (discard (p.find r) : Except Fault Unit) = .ok () ↔ r ∈ indices cs := by
    rw [← hp.counts.lists.exists_find_iff hp.counts.roomy]
    cases p.find r <;> simp [discard, Functor.mapConst, Except.map, Prod.ext_iff]
  rw [checkReferences, List.forM_eq_forM, forM_eq_ok_iff]
  simp only [hfound]

theorem Tracks.checkRoom_eq_ok_iff {c : Constant} {u : Unit} :
    checkRoom p c = .ok u ↔ c.isShort ∧ Roomy (cs ++ [c]) := by
  have hroom : Roomy (cs ++ [c]) ↔ ¬ maxPoolCount < p.count + c.slots := by
    rw [Roomy, Layout.past_append, ← hp.counts.lists.count_eq, Nat.not_lt]
    rfl
  by_cases hshort : c.isShort
  · rw [checkRoom_of_isShort hshort, hroom]
    split <;> simp_all
  · obtain ⟨bytes, rfl, hlong⟩ := Constant.exists_long_of_not_isShort hshort
    rw [checkRoom_of_long hlong]
    simp [hshort]

/-- To intern a constant is to find it, to be refused, or to add it. -/
theorem Tracks.intern_cases (c : Constant) :
    (∃ i, p.indexOf? c = some i ∧ intern c p = .ok i p) ∨ (∃ f, intern c p = .error f p) ∨
      Addable p cs c ∧ intern c p = .ok p.next (p.added c) := by
  rw [intern_apply]
  cases hi : p.indexOf? c with
  | some i => exact .inl ⟨i, rfl, rfl⟩
  | none =>
    cases hr : checkReferences p c with
    | error f => exact .inr (.inl ⟨f, rfl⟩)
    | ok _ =>
      cases hroom : checkRoom p c with
      | error f => exact .inr (.inl ⟨f, rfl⟩)
      | ok _ =>
        obtain ⟨hshort, hroomy⟩ := hp.checkRoom_eq_ok_iff.mp hroom
        exact .inr (.inr ⟨⟨hi, hp.checkReferences_eq_ok_iff.mp hr, hshort, hroomy⟩, rfl⟩)

theorem Tracks.change_intern {c : Constant} (hc : wanted c) :
    ∃ ds, (leaves (intern c) p).Tracks ds ∧ Change wanted p cs (leaves (intern c) p) ds := by
  rw [leaves]
  rcases hp.intern_cases c with ⟨i, -, hr⟩ | ⟨f, hr⟩ | ⟨hadd, hr⟩
  · rw [hr]
    exact ⟨cs, hp, .held rfl rfl⟩
  · rw [hr]
    exact ⟨cs, hp, .held rfl rfl⟩
  · rw [hr]
    exact ⟨_, hp.added hadd.roomy hadd.live, .added hc hadd.unfound hadd.short⟩

theorem Tracks.change_remove (i : PoolIndex) :
    ∃ ds, (leaves (remove i) p).Tracks ds ∧ Change wanted p cs (leaves (remove i) p) ds := by
  rw [leaves, remove_apply]
  cases hi : p.find i with
  | error f => exact ⟨cs, hp, .held rfl rfl⟩
  | ok found =>
    obtain ⟨k, c⟩ := found
    have hk := hp.find_eq_ok_iff.mp hi
    by_cases hempty : ((p.unlinked i c).holdersAt k).isEmpty
    · simpa [hempty] using ⟨_, hp.removed hk hempty, .removed hk⟩
    · have hheld : Change wanted p cs (c.references.foldl (register (.entry i)) (p.unlinked i c)) cs := by
        rw [Pool.unlinked, register_eq_touch, release_eq_touch]
        exact .held (by simp) (by simp)
      simpa [hempty] using ⟨cs, hp.relinked hk, hheld⟩

theorem Tracks.touch {f : Holders (Holder PoolIndex) → Holders (Holder PoolIndex)}
    (hpos : ∀ s, s.Positive → (f s).Positive)
    (hcount : ∀ s h, (f s).count (.entry h) = s.count (.entry h)) (i : PoolIndex) :
    (p.touch f i).Tracks cs := ⟨hp.counts.touch hpos hcount i, hp.closed⟩

theorem Tracks.change_registerExternal (id : ExternalId) (i : PoolIndex) :
    ∃ ds, (leaves (registerExternal id i) p).Tracks ds ∧
      Change wanted p cs (leaves (registerExternal id i) p) ds := by
  rw [leaves, registerExternal_apply]
  cases hi : p.find i with
  | error f => exact ⟨cs, hp, .held rfl rfl⟩
  | ok found =>
    have htouch := hp.touch (fun s hs => positive_register hs (.external id)) (fun s h => by simp) i
    rw [Pool.touch, hi] at htouch
    exact ⟨cs, htouch, .held rfl rfl⟩

theorem Tracks.change_unregisterExternal (id : ExternalId) (i : PoolIndex) :
    ∃ ds, (leaves (unregisterExternal id i) p).Tracks ds ∧
      Change wanted p cs (leaves (unregisterExternal id i) p) ds := by
  rw [leaves, unregisterExternal_apply]
  cases hi : p.find i with
  | error f => exact ⟨cs, hp, .held rfl rfl⟩
  | ok found =>
    have htouch := hp.touch (fun s hs => positive_release hs (.external id))
      (fun s h => by simp [count_release]) i
    rw [Pool.touch, hi] at htouch
    by_cases hc : (p.holdersAt found.1).contains (.external id)
    · simpa [hc] using ⟨cs, htouch, .held rfl rfl⟩
    · simpa [hc] using ⟨cs, hp, .held rfl rfl⟩

end Steps

theorem Change.forall_mem {wanted P : Constant → Prop} {p q : Pool} {cs ds : List Constant}
    (h : Change wanted p cs q ds) (hnew : ∀ c, wanted c → c.isShort → P c)
    (hmap : ∀ f c, P c → P (c.mapReferences f)) (hcs : ∀ c ∈ cs, P c) : ∀ d ∈ ds, P d := by
  cases h with
  | held => exact hcs
  | added hwanted _ hshort =>
    intro d hd
    rcases List.mem_append.mp hd with hold | hlast
    · exact hcs d hold
    · obtain rfl := List.mem_singleton.mp hlast
      exact hnew d hwanted hshort
  | removed =>
    intro d hd
    obtain ⟨e, he, rfl⟩ := List.mem_map.mp hd
    exact hmap _ e (hcs e (List.mem_of_mem_eraseIdx he))

section Requests

variable {I : Pool → Prop} {wanted : Constant → Prop}
  (hintern : ∀ c, wanted c → Keeps I (Pool.intern c)) (htext : ∀ s, wanted (.utf8 (ModifiedUtf8.ofString s)))
  (hother : ∀ c, c.tag ≠ .utf8 → wanted c)
include hintern htext

theorem keeps_utf8 (s : String) : Keeps I (utf8 s) := hintern _ (htext s)

include hother

theorem keeps_named (s : String) (kind : PoolIndex → Constant) (hkind : ∀ i, (kind i).tag ≠ .utf8) :
    Keeps I (utf8 s >>= fun i => Pool.intern (kind i)) :=
  keeps_bind (keeps_utf8 hintern htext s) fun i => hintern _ (hother _ (hkind i))

theorem keeps_nameAndType (a b : String) : Keeps I (nameAndType a b) :=
  keeps_bind (keeps_utf8 hintern htext a) fun _ => keeps_bind (keeps_utf8 hintern htext b) fun _ =>
    hintern _ (hother _ (by simp [Constant.tag]))

theorem keeps_typed (a b : String) (kind : PoolIndex → Constant) (hkind : ∀ i, (kind i).tag ≠ .utf8) :
    Keeps I (nameAndType a b >>= fun i => Pool.intern (kind i)) :=
  keeps_bind (keeps_nameAndType hintern htext hother a b) fun i => hintern _ (hother _ (hkind i))

theorem keeps_member (kind : PoolIndex → PoolIndex → Constant) (hkind : ∀ i j, (kind i j).tag ≠ .utf8)
    (a b c : String) : Keeps I (member kind a b c) :=
  keeps_bind (keeps_named hintern htext hother a .classInfo (by simp [Constant.tag])) fun i =>
    keeps_typed hintern htext hother b c (kind i) (hkind i)

/-- What the edits keep that add a constant, take one out or register, every request keeps. A request adds
texts that are written from strings, unless it names the constant to add. -/
theorem Request.keeps {r : Request} (hremove : ∀ i, r = .remove i → Keeps I (Pool.remove i))
    (hregister : ∀ id i, Keeps I (Pool.registerExternal id i))
    (hunregister : ∀ id i, Keeps I (Pool.unregisterExternal id i))
    (hr : ∀ c, r = .intern c → wanted c) {p : Pool} (hp : I p) : I (r.apply p) := by
  cases r with
  | intern c => exact hintern c (hr c rfl) p hp
  | utf8 s => exact keeps_utf8 hintern htext s p hp
  | integer v => exact hintern _ (hother _ (by simp [Constant.tag])) p hp
  | float bits => exact hintern _ (hother _ (by simp [Constant.tag])) p hp
  | long v => exact hintern _ (hother _ (by simp [Constant.tag])) p hp
  | double bits => exact hintern _ (hother _ (by simp [Constant.tag])) p hp
  | classNamed a => exact keeps_named hintern htext hother a .classInfo (by simp [Constant.tag]) p hp
  | string a => exact keeps_named hintern htext hother a .string (by simp [Constant.tag]) p hp
  | methodType a => exact keeps_named hintern htext hother a .methodType (by simp [Constant.tag]) p hp
  | moduleNamed a => exact keeps_named hintern htext hother a .moduleInfo (by simp [Constant.tag]) p hp
  | packageNamed a => exact keeps_named hintern htext hother a .packageInfo (by simp [Constant.tag]) p hp
  | nameAndType a b => exact keeps_nameAndType hintern htext hother a b p hp
  | fieldRef a b c => exact keeps_member hintern htext hother .fieldRef (by simp [Constant.tag]) a b c p hp
  | methodRef a b c => exact keeps_member hintern htext hother .methodRef (by simp [Constant.tag]) a b c p hp
  | interfaceMethodRef a b c =>
    exact keeps_member hintern htext hother .interfaceMethodRef (by simp [Constant.tag]) a b c p hp
  | methodHandle kind i => exact hintern _ (hother _ (by simp [Constant.tag])) p hp
  | invokeDynamic n a b =>
    exact keeps_typed hintern htext hother a b (.invokeDynamic n) (by simp [Constant.tag]) p hp
  | dynamic n a b => exact keeps_typed hintern htext hother a b (.dynamic n) (by simp [Constant.tag]) p hp
  | remove i => exact hremove i rfl p hp
  | registerExternal id i => exact hregister id i p hp
  | unregisterExternal id i => exact hunregister id i p hp

end Requests

theorem Request.keeps_tracks (J : Pool → List Constant → Prop) (wanted : Constant → Prop)
    (hchange : ∀ {p q cs ds}, p.Tracks cs → J p cs → q.Tracks ds → Change wanted p cs q ds → J q ds)
    (htext : ∀ s, wanted (.utf8 (ModifiedUtf8.ofString s))) (hother : ∀ c, c.tag ≠ .utf8 → wanted c)
    {r : Request} (hr : ∀ c, r = .intern c → wanted c) {p : Pool} (hp : ∃ cs, p.Tracks cs ∧ J p cs) :
    ∃ ds, (r.apply p).Tracks ds ∧ J (r.apply p) ds := by
  have hkeeps {p q : Pool} {cs : List Constant} (hp : p.Tracks cs) (hj : J p cs)
      (h : ∃ ds, q.Tracks ds ∧ Change wanted p cs q ds) : ∃ ds, q.Tracks ds ∧ J q ds := by
    obtain ⟨ds, hq, hpq⟩ := h
    exact ⟨ds, hq, hchange hp hj hq hpq⟩
  refine Request.keeps (I := fun p => ∃ cs, p.Tracks cs ∧ J p cs) (fun c hc q ⟨_, hq, hj⟩ => ?_) htext
    hother (fun i _ q ⟨_, hq, hj⟩ => ?_) (fun id i q ⟨_, hq, hj⟩ => ?_) (fun id i q ⟨_, hq, hj⟩ => ?_) hr hp
  · exact hkeeps hq hj (hq.change_intern hc)
  · exact hkeeps hq hj (hq.change_remove i)
  · exact hkeeps hq hj (hq.change_registerExternal id i)
  · exact hkeeps hq hj (hq.change_unregisterExternal id i)

end ClassCode.Pool
