import Mathlib.Data.Finset.Basic

/-! The register names of x86-64 and their normalised forms. Names are upper case in the
operands of the test case and lower case in the disassembler; both are `RegName` here. SIMD
registers are left out. -/
namespace ProteanAmulet

inductive Gpr where
  | A | B | C | D | SI | DI | SP | BP | R8 | R9 | R10 | R11 | R12 | R13 | R14 | R15
  deriving DecidableEq, Repr

inductive Width where
  | w64 | w32 | w16 | w8
  deriving DecidableEq, Repr

inductive Seg where
  | CS | DS | SS | ES | FS | GS
  deriving DecidableEq, Repr

/-- A register name: `RAX` is `gpr .w64 .A`, `R8D` is `gpr .w32 .R8`, `SIL` is `gpr .w8 .SI`,
`AH` is `high .A` and `RFLAGS` is `flags`. -/
inductive RegName where
  | gpr (w : Width) (r : Gpr)
  | high (r : Gpr)
  | flags
  | rip
  | seg (s : Seg)
  deriving DecidableEq, Repr

/-- The status flags named in `FlagsOperand._flag_names`, and `AC`. -/
inductive Flag where
  | CF | PF | AF | ZF | SF | TF | IF | DF | OF | AC
  deriving DecidableEq, Repr

/-- The position of the flag in EFLAGS. -/
def Flag.bit : Flag → ℕ
  | CF => 0 | PF => 2 | AF => 4 | ZF => 6 | SF => 7 | TF => 8 | IF => 9 | DF => 10 | OF => 11
  | AC => 18

/-- The normalised register names. The stack pointer is `RSP` among the operands and
`gpr .SP` in `TaintTracker.taint_reg`. -/
inductive RegLabel where
  | gpr (r : Gpr)
  | FLAGS
  | RIP
  | RSP
  deriving DecidableEq, Repr

namespace X86Registers

/-- `gpr_normalized`: a missing key is `none`. The stack pointer is there under its 64-bit
name only, the base pointer and the segment registers not at all. -/
def gprNormalized : RegName → Option RegLabel
  | .gpr .w64 .SP => some .RSP
  | .gpr _ .SP => none
  | .gpr _ .BP => none
  | .gpr _ r => some (.gpr r)
  | .high .A => some (.gpr .A)
  | .high .B => some (.gpr .B)
  | .high .C => some (.gpr .C)
  | .high .D => some (.gpr .D)
  | .high _ => none
  | .flags => some .FLAGS
  | .rip => some .RIP
  | .seg _ => none

end X86Registers

/-- The entry of `reg_dependencies` that an operand naming the register uses. -/
def Gpr.key : Gpr → RegLabel
  | .SP => .RSP
  | r => .gpr r

/-- Taint labels: the strings `"A"`, `"CF"` and `"0x40"` of the source. A memory label is the
offset of an 8-byte block in the sandbox. -/
inductive Label where
  | reg (r : RegLabel)
  | flag (f : Flag)
  | mem (offset : ℕ)
  deriving DecidableEq, Repr

end ProteanAmulet
