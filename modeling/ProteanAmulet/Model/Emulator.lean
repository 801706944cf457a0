import Mathlib.Data.List.Basic
import ProteanAmulet.Library.Memory
import ProteanAmulet.Model.Interfaces

/-! What the model sees of the emulator and of the disassembler. An instruction is given by
the accesses it makes, the values it stores and the processor state it ends in; the code is
not part of the emulated data memory. Addresses are natural numbers. -/
namespace ProteanAmulet

abbrev Byte := BitVec 8
abbrev Mem := ℕ → Byte

/-- Little-endian bytes of an integer modulo `256 ^ size`. -/
def leBytes (v : ℤ) (size : ℕ) : List Byte :=
  (List.range size).map fun i => BitVec.ofInt 8 (v/256^i)

@[simp] lemma leBytes_length (v : ℤ) (size : ℕ) : (leBytes v size).length = size := by
  simp [leBytes]

/-- `int.to_bytes` with `signed` set for negative numbers; `none` is an `OverflowError`. -/
def toBytes (v : ℤ) (size : ℕ) : Option (List Byte) :=
  if 0 ≤ v then if v<256^size then some (leBytes v size) else none
  else if -256^size ≤ 2*v then some (leBytes v size) else none

lemma toBytes_eq {v : ℤ} {size : ℕ} {bs : List Byte} (h : toBytes v size = some bs) :
    bs = leBytes v size := by
  unfold toBytes at h
  split_ifs at h <;> exact (Option.some.inj h).symm

/-- `int.from_bytes(bs, byteorder='little')`. -/
def fromBytes (bs : List Byte) : ℕ := bs.foldr (fun b n => b.toNat+256*n) 0

/-- The registers of the emulator that the model touches. -/
@[ext] structure Cpu where
  reg : Gpr → BitVec 64
  eflags : BitVec 64
  rip : ℕ

namespace Cpu

def setReg (c : Cpu) (r : Gpr) (v : BitVec 64) : Cpu := { c with reg := Function.update c.reg r v }

/-- `read_cs_reg`: segment registers read as zero. -/
def read (c : Cpu) : RegName → ℕ
  | .gpr .w64 r => (c.reg r).toNat
  | .gpr .w32 r => (c.reg r).toNat%2^32
  | .gpr .w16 r => (c.reg r).toNat%2^16
  | .gpr .w8 r => (c.reg r).toNat%2^8
  | .high r => (c.reg r).toNat/2^8%2^8
  | .flags => c.eflags.toNat
  | .rip => c.rip
  | .seg _ => 0

end Cpu

/-- A memory access as the hooks are told of it. -/
structure Access where
  isWrite : Bool
  address : ℕ
  size : ℕ
  deriving DecidableEq, Repr

/-- An operand of a disassembled instruction: `base` and `index` are what its `mem` shows. -/
structure CsOperand where
  isMem : Bool
  accessed : Bool
  base : Option RegName
  index : Option RegName
  deriving DecidableEq, Repr

/-- The disassembled instruction. -/
structure CsInsn where
  operands : List CsOperand := []
  regsRead : List RegName := []
  regsWrite : List RegName := []
  groupJump : Bool := false
  groupBranchRelative : Bool := false
  /-- `operands[0].imm`, the target of a direct jump. -/
  imm : ℕ := 0
  deriving DecidableEq, Repr

/-- A machine instruction. `storeValue` and `finish` also get the bytes loaded so far. When
the instruction faults, `accesses` are those made before the fault. -/
structure Insn where
  bytes : List Byte
  accesses : Cpu → List Access := fun _ => []
  storeValue : Cpu → List (List Byte) → ℤ := fun _ _ => 0
  finish : Cpu → List (List Byte) → Cpu
  faults : Cpu → List (List Byte) → Bool := fun _ _ => false
  cs : CsInsn := {}
  bytes_ne : bytes ≠ [] := by simp

def Insn.size (insn : Insn) : ℕ := insn.bytes.length

lemma Insn.size_pos (insn : Insn) : 0 < insn.size := List.length_pos_iff.mpr insn.bytes_ne

/-- The first byte. -/
def Insn.opcode (insn : Insn) : Byte := insn.bytes.head insn.bytes_ne

/-- A loaded test case. `fetch` is what the emulator finds at an address, with `none` for
unmapped memory or an invalid opcode, and `disasm` lists the instructions of a page in the
order of their addresses. -/
structure TestCase where
  codeLength : ℕ
  fetch : ℕ → Option Insn
  addressMap : ℤ → Option Instruction
  disasm : ℕ → List (ℕ × Insn) := fun _ => []

end ProteanAmulet
