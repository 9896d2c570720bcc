import ClassCode.Proofs.Constant.Identity
import ClassCode.Proofs.Pool.Growing

/-! What a pool takes for the same. Two constants are interned at one index just when they are written with the
same bytes: no field is left out of the comparison, and nothing that is not written takes part in it. -/
namespace ClassCode.Pool

/-- One index is answered for two constants, the second one asked for later, just when they are the same. -/
theorem Reachable.intern_eq_iff {p q r s : Pool} {a b : Constant} {i j : PoolIndex} (hp : Reachable p)
    (ha : Pool.intern a p = .ok i q) (hlater : Later q r) (hb : Pool.intern b r = .ok j s) : i = j ↔ a = b := by
  have hq := hp.of_intern ha
  have hr := hlater.reachable hq
  have hs := hr.of_intern hb
  have hgrows : q.entries <+: s.entries := (hlater.entries hq).trans (hr.prefix_of_intern hb)
  have hfirst : s.indexOf? a = some i := hq.indexOf?_of_prefix hs hgrows (hp.indexOf?_of_intern ha)
  have hsecond : s.indexOf? b = some j := hr.indexOf?_of_intern hb
  constructor
  · rintro rfl
    exact Except.ok.inj ((hs.constantAt_of_indexOf? hfirst).symm.trans (hs.constantAt_of_indexOf? hsecond))
  · rintro rfl
    exact Option.some.inj (hfirst.symm.trans hsecond)

/-- Two constants whose texts are not too long are written, and with the same bytes just when they are equal: to
`==`, to the order by which a pool looks them up, in their packed keys, and in kind and fields, where a
number with a fraction is its bit pattern. So a pool answers one index for both just when they are
written alike, however much it grew in between. -/
theorem merged_iff_written_alike {a b : Constant} (ha : a.isShort) (hb : b.isShort) :
    ∃ x y, a.write.bytes = .ok x ∧ b.write.bytes = .ok y ∧
      ((a == b) = true ↔ x = y) ∧ (compare a b = .eq ↔ x = y) ∧ (a.packed = b.packed ↔ x = y) ∧
      (a.tag = b.tag ∧ a.fields = b.fields ↔ x = y) ∧
      (∀ u v, a = .float u → b = .float v → (x = y ↔ u = v)) ∧
      (∀ u v, a = .double u → b = .double v → (x = y ↔ u = v)) ∧
      ∀ p q r s i j, Reachable p → intern a p = .ok i q → Later q r → intern b r = .ok j s →
        (i = j ↔ x = y) := by
  have hbytes {c : Constant} (hc : c.isShort) : c.write.bytes = .ok c.image := by
    rw [Constant.write_eq_put hc, Writer.bytes_put]
  have himage : a.image = b.image ↔ a = b := ⟨Constant.image_inj, congrArg _⟩
  refine ⟨a.image, b.image, hbytes ha, hbytes hb, ?_, ?_, ?_, ?_, ?_, ?_, ?_⟩ <;> rw [himage]
  · exact beq_iff_eq
  · exact Std.LawfulEqCmp.compare_eq_iff_eq
  · exact ⟨Constant.packed_inj, congrArg _⟩
  · exact ⟨fun h => Constant.eq_of_fields h.1 h.2, fun h => ⟨congrArg _ h, congrArg _ h⟩⟩
  · rintro u v rfl rfl
    exact ⟨Constant.float.inj, congrArg _⟩
  · rintro u v rfl rfl
    exact ⟨Constant.double.inj, congrArg _⟩
  · intro p q r s i j hp hintern hlater hagain
    exact hp.intern_eq_iff hintern hlater hagain

/-- A quiet and a signalling not-a-number, and the references to a method of a class and of an interface. -/
theorem merged_iff_written_alike_of_lookalikes :
    let quiet := Constant.float 0x7fc00000
    let signalling := Constant.float 0x7fa00000
    let ofClass := Constant.methodRef ⟨1⟩ ⟨2⟩
    let ofInterface := Constant.interfaceMethodRef ⟨1⟩ ⟨2⟩
    (quiet.isShort ∧ signalling.isShort ∧ ofClass.isShort ∧ ofInterface.isShort) ∧
      (∃ x y, quiet.write.bytes = .ok x ∧ signalling.write.bytes = .ok y ∧ x ≠ y) ∧
      (∃ x y, ofClass.write.bytes = .ok x ∧ ofInterface.write.bytes = .ok y ∧ x ≠ y) ∧
      ∀ p q r s i j, Reachable p → intern ofClass p = .ok i q → Later q r → intern ofInterface r = .ok j s →
        i ≠ j := by
  intro quiet signalling ofClass ofInterface
  have hshort : quiet.isShort ∧ signalling.isShort ∧ ofClass.isShort ∧ ofInterface.isShort := by decide
  obtain ⟨x, y, hx, hy, -, -, -, -, hbits, -⟩ := merged_iff_written_alike hshort.1 hshort.2.1
  obtain ⟨z, w, hz, hw, -, -, -, hfields, -, -, hpool⟩ := merged_iff_written_alike hshort.2.2.1 hshort.2.2.2
  have hnan : x ≠ y := mt (hbits _ _ rfl rfl).mp (by decide)
  have hmember : z ≠ w := mt hfields.mpr (by decide)
  refine ⟨hshort, ⟨x, y, hx, hy, hnan⟩, ⟨z, w, hz, hw, hmember⟩, ?_⟩
  intro p q r s i j hp hintern hlater hagain
  exact mt (hpool p q r s i j hp hintern hlater hagain).mp hmember

end ClassCode.Pool
