import ClassCode.Proofs.Pool.Meaning
import Mathlib.Data.List.Forall2

/-! Interning by what is meant. On the way to a constant its parts are interned, each of them found or added; an
edit that is refused has added some of them. So the constant means what it was interned from, and it is
found from then on by whoever means the same, and by no one else. -/
namespace ClassCode.Pool

open Run

/-- `q` is `p` with some of `ms` added, in this order. -/
structure Appends (p : Pool) (ms : List Meaning) (q : Pool) : Prop where
  reachable : Reachable q
  grows : Grows p q
  appended : ∃ es ns, q.entries = p.entries ++ es ∧ ns.Sublist ms ∧
    List.Forall₂ (fun e n => q.Found n e.1) es ns

section Appends

variable {p q : Pool} {ms ns : List Meaning}

theorem Appends.refl (hp : Reachable p) (ms : List Meaning) : Appends p ms p :=
  ⟨hp, Grows.refl p, [], [], (List.append_nil _).symm, List.nil_sublist ms, .nil⟩

theorem Appends.mono (h : Appends p ms q) (hms : ms.Sublist ns) : Appends p ns q := by
  obtain ⟨hq, hgrows, es, ks, hes, hks, hfound⟩ := h
  exact ⟨hq, hgrows, es, ks, hes, hks.trans hms, hfound⟩

theorem Appends.trans {r : Pool} (hpq : Appends p ms q) (hqr : Appends q ns r) : Appends p (ms ++ ns) r := by
  obtain ⟨es, ks, hes, hks, hfound⟩ := hpq.appended
  obtain ⟨es', ks', hes', hks', hfound'⟩ := hqr.appended
  refine ⟨hqr.reachable, hpq.grows.trans hqr.grows, es ++ es', ks ++ ks', ?_, hks.append hks', ?_⟩
  · rw [hes', hes, List.append_assoc]
  · exact List.rel_append
      (hfound.imp fun _ _ h => h.of_prefix hpq.reachable hqr.reachable hqr.grows.entries) hfound'

theorem Appends.exists_meaning? (h : Appends p ms q) : ∃ es ns, q.entries = p.entries ++ es ∧ ns.Sublist ms ∧
    List.Forall₂ (fun e n => q.meaning? e.1 = some n) es ns := by
  obtain ⟨es, ns, hes, hns, hfound⟩ := h.appended
  exact ⟨es, ns, hes, hns, hfound.imp fun _ _ hn => hn.meaning?_eq h.reachable⟩

end Appends

/-- On `p` an edit adds some of `ms`. Unless it is refused, it then finds or adds `m`, and answers its index. -/
def Gives (p : Pool) (edit : Edit PoolIndex) (ms : List Meaning) (m : Meaning) : Prop :=
  match edit p with
  | .ok i q => Appends p (ms ++ [m]) q ∧ q.Found m i
  | .error _ q => Appends p ms q

section Gives

variable {p : Pool} {ms ns : List Meaning} {a m : Meaning}

theorem Gives.grows {edit : Edit PoolIndex} (h : Gives p edit ms m) : Grows p (leaves edit p) := by
  rw [Gives] at h
  rw [leaves]
  cases hr : edit p with
  | ok i q =>
    rw [hr] at h
    exact h.1.grows
  | error f q =>
    rw [hr] at h
    exact h.grows

theorem Gives.bind {x : Edit PoolIndex} {f : PoolIndex → Edit PoolIndex} (hx : Gives p x ms a)
    (hf : ∀ i q, Reachable q → p.entries <+: q.entries → q.Found a i → Gives q (f i) ns m) :
    Gives p (x >>= f) (ms ++ a :: ns) m := by
  rw [Gives] at hx
  rw [Gives, bind_apply, List.append_cons ms a ns]
  cases hq : x p with
  | error e q =>
    rw [hq] at hx
    exact (hx.mono (List.sublist_append_left ms [a])).mono (List.sublist_append_left _ ns)
  | ok i q =>
    rw [hq] at hx
    obtain ⟨hpq, hfound⟩ := hx
    have hrest := hf i q hpq.reachable hpq.grows.entries hfound
    rw [Gives] at hrest
    cases hr : f i q with
    | error e r =>
      rw [hr] at hrest
      simp only [hr]
      exact hpq.trans hrest
    | ok j r =>
      rw [hr] at hrest
      simp only [hr]
      rw [List.append_assoc]
      exact ⟨hpq.trans hrest.1, hrest.2⟩

variable (hp : Reachable p)
include hp

theorem Reachable.gives_intern {c : Constant}
    (hm : ∀ q i, Reachable q → p.entries <+: q.entries → q.indexOf? c = some i → q.Found m i) :
    Gives p (Pool.intern c) [] m := by
  obtain ⟨cs, hcs⟩ := hp.settled
  rw [Gives]
  rcases hcs.tracks.intern_cases c with ⟨i, hi, hr⟩ | ⟨f, hr⟩ | ⟨hadd, hr⟩
  · rw [hr]
    exact ⟨Appends.refl hp _, hm p i hp (List.prefix_refl _) hi⟩
  · rw [hr]
    exact Appends.refl hp _
  · have hgrows := hcs.tracks.grows_added hadd.roomy hadd.live
    have hq := hp.of_intern hr
    have hfound := hm _ _ hq hgrows.entries (hcs.indexOf?_added hadd)
    rw [hr]
    exact ⟨⟨hq, hgrows, [(p.next, c)], [m], hcs.tracks.entries_added, List.Sublist.refl _,
      .cons hfound .nil⟩, hfound⟩

theorem Reachable.gives_text (s : String) : Gives p (Meaning.text s).intern [] (.text s) :=
  hp.gives_intern fun _ _ _ _ h => .text h

theorem Reachable.gives_named (kind : NamedKind) (s : String) :
    Gives p (Meaning.named kind s).intern [.text s] (.named kind s) := by
  rw [Meaning.intern_named]
  exact (hp.gives_text s).bind fun i q hq _ hs => hq.gives_intern fun r j hr hqr h =>
    .named (hs.of_prefix hq hr hqr) h

theorem Reachable.gives_nameAndType (name descriptor : String) :
    Gives p (Meaning.nameAndType name descriptor).intern [.text name, .text descriptor]
      (.nameAndType name descriptor) := by
  rw [Meaning.intern_nameAndType]
  refine (hp.gives_text name).bind fun i q hq _ hname => ?_
  refine (hq.gives_text descriptor).bind fun j r hr hqr hdescriptor => ?_
  exact hr.gives_intern fun s k hs hrs h =>
    .nameAndType (hname.of_prefix hq hs (hqr.trans hrs)) (hdescriptor.of_prefix hr hs hrs) h

/-- Each helper adds parts of what is meant only, and what is meant last. -/
theorem Reachable.gives (m : Meaning) : Gives p m.intern m.parts m := by
  cases m with
  | text s => exact hp.gives_text s
  | number n =>
    rw [Meaning.intern_number]
    exact hp.gives_intern fun _ _ _ _ h => .number h
  | handle kind member => exact hp.gives_intern fun _ _ _ _ h => .handle h
  | named kind s => exact hp.gives_named kind s
  | nameAndType name descriptor => exact hp.gives_nameAndType name descriptor
  | member kind owner name descriptor =>
    rw [Meaning.intern_member]
    refine (hp.gives_named .classInfo owner).bind fun i q hq _ howner => ?_
    refine (hq.gives_nameAndType name descriptor).bind fun j r hr hqr hmember => ?_
    exact hr.gives_intern fun s k hs hrs h =>
      .member (howner.of_prefix hq hs (hqr.trans hrs)) (hmember.of_prefix hr hs hrs) h
  | dynamic kind bootstrap name descriptor =>
    rw [Meaning.intern_dynamic]
    refine (hp.gives_nameAndType name descriptor).bind fun i q hq _ hmember => ?_
    exact hq.gives_intern fun r j hr hqr h => .dynamic (hmember.of_prefix hq hr hqr) h

end Gives

/-- A constant that is interned from texts, numbers and a bootstrap method is read back as just these, whatever
was in the pool before. It is found again at once, and as long as no removal is granted, whatever else is
asked for: nothing is added for it, and whatever is interned at its index means the same. -/
theorem meanings_interned {p q : Pool} {m : Meaning} {i : PoolIndex} (hp : Reachable p)
    (h : m.intern p = .ok i q) :
    q.meaning? i = some m ∧
    ∀ r, Later q r → m.intern r = .ok i r ∧ ∀ n j s, n.intern r = .ok j s → (j = i ↔ n = m) := by
  have hgives := hp.gives m
  rw [Gives, h] at hgives
  obtain ⟨⟨hq, -, -⟩, hfound⟩ := hgives
  refine ⟨hfound.meaning?_eq hq, fun r hqr => ?_⟩
  have hr := hqr.reachable hq
  have hagain := hfound.of_prefix hq hr (hqr.entries hq)
  refine ⟨hagain.intern_eq, fun n j s hn => ⟨?_, ?_⟩⟩
  · rintro rfl
    have hother := hr.gives n
    rw [Gives, hn] at hother
    obtain ⟨⟨hs, hrs, -⟩, hsame⟩ := hother
    have hm := (hagain.of_prefix hr hs hrs.entries).meaning?_eq hs
    exact Option.some.inj ((hsame.meaning?_eq hs).symm.trans hm)
  · rintro rfl
    rw [hagain.intern_eq] at hn
    injection hn with hij _
    exact hij.symm

/-- A pool that was read with three copies of a text, the first of them in a longer form, and with a class that the
third one names. A method of the class of this name refers to another class, which the second copy names. A
removal is refused and a field of the same class added; the field has another index, and the method is found. -/
theorem meanings_interned_beside_copies :
    let bytes : List UInt8 := [0, 5, 1, 0, 2, 0xC1, 0xA1, 1, 0, 1, 0x61, 1, 0, 1, 0x61, 7, 0, 3]
    let m := Meaning.member .method "a" "a" "()V"
    let n := Meaning.member .field "a" "a" "()V"
    ∃ p rest q, read bytes = .ok (p, rest) ∧ p.text? ⟨1⟩ = some "a" ∧ m.intern p = .ok ⟨8⟩ q ∧
      q.meaning? ⟨8⟩ = some m ∧ q.constantAt ⟨5⟩ none = .ok (.classInfo ⟨2⟩) ∧
      let r := (Request.fieldRef "a" "a" "()V").apply ((Request.remove ⟨2⟩).apply q)
      m.intern r = .ok ⟨8⟩ r ∧ ∀ j s, n.intern r = .ok j s → j ≠ ⟨8⟩ := by
  intro bytes m n
  have hrun : (read bytes).toOption.map (fun r => (r.1.text? ⟨1⟩, answer? m.intern r.1)) =
      some (some "a", some ⟨8⟩) := by decide +kernel
  have hleft : (read bytes).toOption.map (fun r =>
      ((leaves m.intern r.1).constantAt ⟨5⟩ none, (answer? (Pool.remove ⟨2⟩) (leaves m.intern r.1)).isNone)) =
      some (.ok (.classInfo ⟨2⟩), true) := by decide +kernel
  cases hread : read bytes with
  | error f => simp [hread, Except.toOption] at hrun
  | ok r =>
    obtain ⟨p, rest⟩ := r
    simp only [hread, Except.toOption, Option.map_some, Option.some.injEq, Prod.mk.injEq] at hrun hleft
    obtain ⟨hcopy, hanswer⟩ := hrun
    obtain ⟨hclass, hrefused⟩ := hleft
    have hq := answer?_eq_some_iff.mp hanswer
    obtain ⟨hmeaning, hlater⟩ := meanings_interned (.read hread) hq
    have hkept : Later (leaves m.intern p)
        ((Request.fieldRef "a" "a" "()V").apply ((Request.remove ⟨2⟩).apply (leaves m.intern p))) := by
      refine (Later.here.edited (.remove ⟨2⟩) fun i hi => ?_).edited _ fun i hi => by cases hi
      cases hi
      exact Option.isNone_iff_eq_none.mp hrefused
    obtain ⟨hagain, hother⟩ := hlater _ hkept
    refine ⟨p, rest, _, rfl, hcopy, hq, hmeaning, hclass, hagain, fun j s hj hji => ?_⟩
    exact absurd ((hother n j s hj).mp hji) (by decide)

end ClassCode.Pool
