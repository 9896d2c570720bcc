import ClassCode.Pool.Edit
import ClassCode.Proofs.Body.Writing
import ClassCode.Proofs.Bytes.Writing

/-! Sinks of limited capacity. Every writer of the format puts its bytes out in order, goes on with nothing once a
write has failed, and checks before it writes, so that a sink which is too small holds the front of what
was to be written. -/
namespace ClassCode

open Writer LawfulWire

namespace Constant

theorem uniform_writeText (bytes : List UInt8) : Uniform (writeText bytes) :=
  uniform_refuse (uniform_bind (uniform_write _) fun _ => uniform_put bytes)

theorem uniform_writeFields (c : Constant) : Uniform c.writeFields := by
  cases c with
  | utf8 bytes => exact uniform_writeText bytes
  | integer | float | long | double | classInfo | string | methodType | moduleInfo | packageInfo =>
    exact uniform_write _
  | fieldRef | methodRef | interfaceMethodRef | nameAndType | dynamic | invokeDynamic =>
    exact uniform_bind (uniform_write _) fun _ => uniform_write _
  | methodHandle k i => exact uniform_bind (uniform_write k.byte) fun _ => uniform_write i

theorem uniform_write (c : Constant) : Uniform c.write :=
  uniform_bind (LawfulWire.uniform_write c.tag.byte) fun _ => c.uniform_writeFields

end Constant

theorem Pool.uniform_write (p : Pool) : Uniform p.write :=
  uniform_bind (LawfulWire.uniform_write _) fun _ => uniform_forM (fun e => e.2.uniform_write) _

namespace Body

theorem uniform_write (b : Body) : Uniform b.write := by
  have hattributes : Uniform (Wire.write b.attributes) :=
    write_counted Attribute.image Attribute.write_eq_put b.attributes ▸ uniform_put _
  refine uniform_bind (uniform_ofExcept _) fun code => uniform_refuse ?_
  refine uniform_bind (LawfulWire.uniform_write _) fun _ => uniform_bind (LawfulWire.uniform_write _) fun _ => ?_
  refine uniform_bind (LawfulWire.uniform_write _) fun _ => uniform_bind (uniform_put code) fun _ => ?_
  refine uniform_bind (LawfulWire.uniform_write _) fun _ => ?_
  exact uniform_bind (uniform_forM (uniform_writeGuard b.code code.length) _) fun _ => hattributes

variable {b : Body} (capacity : Option Nat)

theorem runTo_write_of_encode_eq_error {f : Fault} (h : b.code.encode = .error f) :
    b.write.runTo capacity = ([], .error f) := by
  rw [write, h]
  rfl

theorem runTo_write_of_length {code : List UInt8} (h : b.code.encode = .ok code)
    (hlength : code.length = 0 ∨ maxCodeLength < code.length) :
    b.write.runTo capacity = ([], .error (.malformed (.codeLength code.length.toUInt32))) := by
  have hrefused : code.isEmpty ∨ maxCodeLength < code.length := by
    rwa [List.isEmpty_iff_length_eq_zero]
  rw [write, h]
  change runTo capacity (if code.isEmpty ∨ maxCodeLength < code.length then throw _ else _) = _
  rw [if_pos hrefused]
  rfl

end Body

/-- Where a constant, a pool, an instruction at any offset or a body can be written without a limit, a sink of any
capacity holds as many of the same bytes as fit: all of them, if they do, and then the write succeeds;
otherwise it fails because the sink is full. A body whose instructions cannot be encoded, or whose code
has no bytes or too many, is refused before anything of it is written. -/
theorem bounded_sink_holds_front :
    (∀ (c : Constant) out n, c.write.bytes = .ok out → c.write.HoldsFront out n) ∧
    (∀ (p : Pool) out n, p.write.bytes = .ok out → p.write.HoldsFront out n) ∧
    (∀ (i : Instruction Nat) o out n, (i.write o).bytes = .ok out → (i.write o).HoldsFront out n) ∧
    (∀ (b : Body) out n, b.write.bytes = .ok out → b.write.HoldsFront out n) ∧
    ∀ (b : Body) capacity,
      (∀ f, b.code.encode = .error f → b.write.runTo capacity = ([], .error f)) ∧
      ∀ code, b.code.encode = .ok code → code.length = 0 ∨ Body.maxCodeLength < code.length →
        b.write.runTo capacity = ([], .error (.malformed (.codeLength code.length.toUInt32))) := by
  refine ⟨fun c out n h => ?_, fun p out n h => ?_, fun i o out n h => ?_, fun b out n h => ?_,
    fun b capacity => ⟨?_, ?_⟩⟩
  · exact c.uniform_write.holdsFront h n
  · exact p.uniform_write.holdsFront h n
  · exact (Instruction.emits_write o i).uniform.holdsFront h n
  · exact b.uniform_write.holdsFront h n
  · exact fun f => Body.runTo_write_of_encode_eq_error capacity
  · exact fun code => Body.runTo_write_of_length capacity

/-- A text, a pool and a jump cut within their bytes, a body cut before its last byte, and one with no
instructions. -/
theorem bounded_sink_holds_front_of_writes_cut_short :
    let text := Constant.utf8 [0x61, 0x62]
    let back : Instruction Nat := .jump ⟨0xa7⟩ 4
    let pool : List UInt8 := [0, 3, 3, 0, 0, 1, 7, 8, 0, 1]
    let body : List UInt8 := [0, 1, 0, 2, 0, 0, 0, 1, 0xb1, 0, 0, 0, 0]
    text.write.runTo (some 4) = ([1, 0, 2, 0x61], .error .sinkFull) ∧
      (text.write.runTo (some 5)).2 = .ok () ∧
      (∃ p : Pool, p.write.bytes = .ok pool ∧ p.write.runTo (some 6) = ([0, 3, 3, 0, 0, 1], .error .sinkFull)) ∧
      (back.write 6).bytes = .ok [0xa7, 0xff, 0xfe] ∧
      (back.write 6).runTo (some 2) = ([0xa7, 0xff], .error .sinkFull) ∧
      (∃ b : Body, b.write.bytes = .ok body ∧ b.write.runTo (some 12) = (body.take 12, .error .sinkFull)) ∧
      ∀ capacity, (Body.ofCode 1 2 .empty).write.runTo capacity = ([], .error (.malformed (.codeLength 0))) := by
  intro text back pool body
  obtain ⟨hconstant, hpool, hinstruction, hbody, hrefused⟩ := bounded_sink_holds_front
  have htext : text.write.bytes = .ok [1, 0, 2, 0x61, 0x62] := by decide +kernel
  have hback : (back.write 6).bytes = .ok [0xa7, 0xff, 0xfe] := by decide +kernel
  have hreadPool : (Pool.read pool >>= fun r => r.1.write.bytes) = .ok pool := by decide +kernel
  have hreadBody : (Body.read body >>= fun r => r.1.write.bytes) = .ok body := by decide +kernel
  have hempty : (Body.ofCode 1 2 .empty).code.encode = .ok [] := by rfl
  obtain ⟨⟨p, _⟩, -, hwritePool⟩ := Outcome.bind_eq_ok_iff.mp hreadPool
  obtain ⟨⟨b, _⟩, -, hwriteBody⟩ := Outcome.bind_eq_ok_iff.mp hreadBody
  have hcutText := hconstant text _ 4 htext
  have hcutPool := hpool p _ 6 hwritePool
  have hcutBack := hinstruction back 6 _ 2 hback
  have hcutBody := hbody b _ 12 hwriteBody
  refine ⟨?_, (hconstant text _ 5 htext).succeeds.mpr (by decide), ⟨p, hwritePool, ?_⟩, hback, ?_,
    ⟨b, hwriteBody, ?_⟩, fun capacity => ?_⟩
  · exact Prod.ext hcutText.written (hcutText.fails (by decide))
  · exact Prod.ext hcutPool.written (hcutPool.fails (by decide))
  · exact Prod.ext hcutBack.written (hcutBack.fails (by decide))
  · exact Prod.ext hcutBody.written (hcutBody.fails (by decide))
  · exact (hrefused _ capacity).2 [] hempty (.inl rfl)

end ClassCode
