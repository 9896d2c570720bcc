import ClassCode.Body.Wire
import ClassCode.Pool.Edit
import ClassCode.Proofs.Bytes.Truncation
import ClassCode.Proofs.Instruction.RoundTrip

/-! Truncated input. Every reader of the format reads counts and lengths before what they count and checks a
part when it has all of it, so that input which ends too early is reported as truncated. -/
namespace ClassCode

open Reader StreamingWire

namespace Constant

theorem streams_handleKind (index : PoolIndex) : (HandleKind.read index).Streams := by
  refine streams.bind fun byte : UInt8 => ?_
  cases HandleKind.ofByte? byte with
  | none => exact streams_malformed _
  | some kind => exact streams_pure kind

theorem streams_readText (index : PoolIndex) : (readText index).Streams := by
  refine streams.bind fun length : UInt16 => (streams_take length.toNat).bind fun bytes => ?_
  split
  · exact streams_pure _
  · exact streams_malformed _

theorem streams_readFields (index : PoolIndex) (tag : Tag) : (readFields index tag).Streams := by
  cases tag with
  | utf8 => exact (streams_readText index).bind fun _ => streams_pure _
  | methodHandle => exact (streams_handleKind index).bind fun _ => streams.bind fun _ => streams_pure _
  | integer | float | long | double | classInfo | string | methodType | moduleInfo | packageInfo =>
    exact streams.bind fun _ => streams_pure _
  | fieldRef | methodRef | interfaceMethodRef | nameAndType | dynamic | invokeDynamic =>
    exact streams.bind fun _ => streams.bind fun _ => streams_pure _

theorem streams_read (index : PoolIndex) : (read index).Streams := by
  refine streams.bind fun byte : UInt8 => ?_
  cases Tag.ofByte? byte with
  | none => exact streams_malformed _
  | some tag => exact streams_readFields index tag

end Constant

namespace Pool

theorem streams_readSlots (slots : Nat) (p : Pool) : (readSlots slots p).Streams := by
  fun_induction readSlots slots p with
  | case1 p => exact streams_pure p
  | case2 n p hwide hnarrow =>
    refine (Constant.streams_read p.next).bind fun c => ?_
    split
    · cases n with
      | zero => exact streams_pure _
      | succ m => exact hwide c
    · exact hnarrow c

theorem streams_read : read.Streams := by
  refine streams.bind fun count : UInt16 => streams_refuse ?_
  refine (streams_readSlots _ _).bind fun p => streams_refuse ?_
  exact streams_ofExcept p.link

end Pool

namespace Instruction

variable (o : Nat) (opcode : Opcode)

theorem streams_readTarget (distance : Int) : (readTarget o distance).Streams := by
  rw [readTarget]
  split
  · exact streams_malformed _
  · exact streams_pure _

theorem streams_readFarTarget : (readFarTarget o).Streams :=
  streams.bind fun distance : Int32 => streams_readTarget o distance.toInt

theorem streams_skipPadding (n : Nat) : (skipPadding opcode o n).Streams := by
  induction n with
  | zero => exact streams_pure ()
  | succ n ih => exact streams.bind fun byte : UInt8 => streams_refuse ih

theorem streams_readTableSwitch : (readTableSwitch opcode o).Streams := by
  refine (streams_skipPadding o opcode _).bind fun _ => (streams_readFarTarget o).bind fun _ => ?_
  refine streams.bind fun low : Int32 => streams.bind fun high : Int32 => streams_refuse ?_
  exact ((streams_readFarTarget o).times _).bind fun _ => streams_pure _

theorem streams_readPair : (readPair o).Streams :=
  streams.bind fun _ => (streams_readFarTarget o).bind fun _ => streams_pure _

theorem streams_readLookupSwitch : (readLookupSwitch opcode o).Streams := by
  refine (streams_skipPadding o opcode _).bind fun _ => (streams_readFarTarget o).bind fun _ => ?_
  refine streams.bind fun pairs : Int32 => streams_refuse ?_
  exact ((streams_readPair o).times _).bind fun _ => streams_pure _

theorem streams_readWidened : (readWidened o).Streams := by
  refine streams.bind fun byte : UInt8 => streams_refuse ?_
  split
  · exact streams.bind fun _ => streams.bind fun _ => streams_pure _
  · exact streams.bind fun _ => streams_pure _

theorem streams_readOperands (mode : Mode) : (readOperands opcode o mode).Streams := by
  cases mode with
  | plain => exact streams_pure _
  | byteArgument | pushByte | pushShort | constant => exact streams.bind fun _ => streams_pure _
  | increment | multiArray => exact streams.bind fun _ => streams.bind fun _ => streams_pure _
  | callInterface =>
    refine streams.bind fun _ => streams.bind fun _ => streams.bind fun zero : UInt8 => ?_
    exact streams_refuse (streams_pure _)
  | callDynamic => exact streams.bind fun _ => streams.bind fun zero : UInt16 => streams_refuse (streams_pure _)
  | jump => exact streams.bind fun distance : Int16 => (streams_readTarget o _).bind fun _ => streams_pure _
  | farJump => exact (streams_readFarTarget o).bind fun _ => streams_pure _
  | tableSwitch => exact streams_readTableSwitch o opcode
  | lookupSwitch => exact streams_readLookupSwitch o opcode
  | widened => exact streams_readWidened o

theorem streams_read : (read o).Streams := by
  refine streams.bind fun byte : UInt8 => ?_
  dsimp only
  split
  · exact streams_readOperands o _ _
  · exact streams_throw _

variable {bytes : List UInt8} {i : Instruction Nat} {n : Nat} {o}

theorem decodeAt_take (h : decodeAt bytes 0 o = .ok (i, n)) :
    n ≤ bytes.length ∧ (∀ rest, decodeAt (bytes.take n ++ rest) 0 o = .ok (i, n)) ∧
      ∀ k < n, decodeAt (bytes.take k) 0 o = .error (.malformed .truncated) := by
  obtain ⟨rest, hread, rfl⟩ := decodeAt_eq_ok_iff_read.mp h
  rw [List.drop_zero] at hread ⊢
  obtain ⟨front, rfl, hfront⟩ := streams_read o hread
  have hn : (front ++ rest).length - rest.length = front.length := by simp
  rw [hn]
  refine ⟨by simp, fun more => ?_, fun k hk => ?_⟩
  · rw [List.take_left, decodeAt_eq_ok_iff_read]
    exact ⟨more, hfront.accepts more, by simp⟩
  · have hshort : front.take k ≠ front := by
      intro heq
      have hlen := congrArg List.length heq
      rw [List.length_take] at hlen
      omega
    rw [List.take_append_of_le_length hk.le, decodeAt, List.drop_zero,
      hfront.truncated _ (List.take_prefix k front) hshort]
    rfl

end Instruction

namespace Body

theorem streams_readGuard (length : UInt32) (b : Body) : (readGuard length b).Streams := by
  refine streams.bind fun start : UInt16 => streams.bind fun stop : UInt16 => ?_
  refine streams.bind fun handler : UInt16 => streams.bind fun catches => ?_
  refine (streams_ofExcept _).bind fun start => (streams_ofExcept _).bind fun stop => ?_
  refine (streams_ofExcept _).bind fun handler => ?_
  split
  · exact streams_pure _
  · exact streams_throw _

theorem streams_readGuards (length : UInt32) (n : Nat) (b : Body) : (readGuards length n b).Streams := by
  induction n generalizing b with
  | zero => exact streams_pure b
  | succ n ih => exact (streams_readGuard length b).bind ih

theorem streams_read : read.Streams := by
  refine streams.bind fun maxStack : UInt16 => streams.bind fun maxLocals : UInt16 => ?_
  refine streams.bind fun length : UInt32 => streams_refuse ?_
  refine (streams_take length.toNat).bind fun bytes => (streams_ofExcept _).bind fun code => ?_
  refine streams.bind fun count : UInt16 => (streams_readGuards length count.toNat _).bind fun b => ?_
  exact streams.bind fun _ => streams_pure _

end Body

/-- Whatever is accepted as a pool, as a body, as a constant of any index, as an attribute or as an instruction
at any offset consumes some bytes from the front. These are accepted with the same result whatever follows
them, and a part from the front of them that is not all of them is refused as truncated. -/
theorem readers_stream :
    Pool.read.Streams ∧ Body.read.Streams ∧ (∀ index, (Constant.read index).Streams) ∧
      (Wire.read : Reader Attribute).Streams ∧
      ∀ (bytes : List UInt8) (o : Nat) (i : Instruction Nat) (n : Nat),
        Instruction.decodeAt bytes 0 o = .ok (i, n) →
          n ≤ bytes.length ∧ (∀ rest, Instruction.decodeAt (bytes.take n ++ rest) 0 o = .ok (i, n)) ∧
            ∀ k < n, Instruction.decodeAt (bytes.take k) 0 o = .error (.malformed .truncated) :=
  ⟨Pool.streams_read, Body.streams_read, Constant.streams_read, streams,
    fun _ _ _ _ => Instruction.decodeAt_take⟩

/-- A body of one instruction, with a guard up to the end of the code and an attribute, and a byte that does
not belong to it. -/
theorem readers_stream_of_guarded_body :
    let bytes : List UInt8 := [0, 1, 0, 2, 0, 0, 0, 1, 0xb1, 0, 1, 0, 0, 0, 1, 0, 0, 0, 0, 0, 1, 0, 7, 0, 0, 0, 1, 42]
    (∃ b, ∀ rest, Body.read (bytes ++ rest) = .ok (b, rest)) ∧
      ∀ short, short <+: bytes → short ≠ bytes → Body.read short = .error (.malformed .truncated) := by
  intro bytes
  obtain ⟨-, hbody, -⟩ := readers_stream
  have hread : (Body.read (bytes ++ [9])).toOption.map Prod.snd = some [9] := by decide +kernel
  cases hok : Body.read (bytes ++ [9]) with
  | error f => simp [hok, Except.toOption] at hread
  | ok r =>
    obtain ⟨b, rest⟩ := r
    obtain rfl : rest = [9] := by simpa [hok, Except.toOption] using hread
    obtain ⟨front, hfront, hconsumes⟩ := hbody hok
    obtain rfl := List.append_cancel_right hfront
    exact ⟨⟨b, hconsumes.accepts⟩, hconsumes.truncated⟩

end ClassCode
