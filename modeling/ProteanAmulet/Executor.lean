import Mathlib.Data.BitVec
import ProteanAmulet.Model.Asm
import ProteanAmulet.Model.Frame

/-! The state in which the executor starts a test case. The program it builds first loads the
registers and then, with pushes of its own, the flags. -/
namespace ProteanAmulet.X86Gem5

/-- The instructions that `generate_test_data` prints. -/
inductive InitInsn where
  | mov (dst : Gpr) (value : BitVec 64)
  | andq (dst src : Gpr)
  | orq (dst src : Gpr)
  | load (dst base : Gpr)
  | push (src : Gpr)
  | popf
  deriving DecidableEq, Repr

/-- The processor and its memory. -/
structure Machine where
  cpu : Cpu
  mem : Mem

namespace Machine

def setReg (m : Machine) (r : Gpr) (v : BitVec 64) : Machine := { m with cpu := m.cpu.setReg r v }

/-- The flags after a logical operation: CF and OF are cleared, ZF, SF and PF follow the
result; AF is undefined and taken as cleared. -/
def logicFlags (eflags v : BitVec 64) : BitVec 64 :=
  let even := ((List.range 8).filter v.getLsbD).length % 2 = 0
  (eflags &&& ~~~0x8D5#64) ||| (if v=0 then 0x40#64 else 0) |||
    (if v.msb then 0x80#64 else 0) ||| if even then 4#64 else 0

def logic (m : Machine) (r : Gpr) (v : BitVec 64) : Machine :=
  { m with cpu := { m.cpu.setReg r v with eflags := logicFlags m.cpu.eflags v } }

def load64 (m : Machine) (address : ℕ) : BitVec 64 :=
  BitVec.ofNat 64 (fromBytes (Memory.read m.mem address 8))

/-- The flags that POPF sets in user mode. -/
def popfMask : BitVec 64 := 0x244DD5

def step (m : Machine) : InitInsn → Machine
  | .mov dst value => m.setReg dst value
  | .andq dst src => m.logic dst (m.cpu.reg dst &&& m.cpu.reg src)
  | .orq dst src => m.logic dst (m.cpu.reg dst ||| m.cpu.reg src)
  | .load dst base => m.setReg dst (m.load64 (m.cpu.reg base).toNat)
  | .push src =>
    let sp := m.cpu.reg .SP-8
    { cpu := m.cpu.setReg .SP sp
      mem := Memory.write m.mem sp.toNat (leBytes (m.cpu.reg src).toNat 8) }
  | .popf =>
    let v := m.load64 (m.cpu.reg .SP).toNat
    { m with cpu := { m.cpu.setReg .SP (m.cpu.reg .SP+8) with
        eflags := (v &&& popfMask) ||| (m.cpu.eflags &&& ~~~popfMask) ||| 2 } }

def run (m : Machine) (code : List InitInsn) : Machine := code.foldl step m

end Machine

section Program
variable (su : Setup)

/-- `stack_base` of the executor: it counts from the main region. -/
def stackBase : ℕ := su.mainRegion+su.conf.inputMainRegionSize-8

/-- `pad`, on integers: small constants are printed with a high bit that a mask removes. -/
def pad (n : BitVec 64) : BitVec 64 × BitVec 64 × (Gpr → Gpr → InitInsn) :=
  if n.toNat ≤ 2^51-1 then (n+2^53,2^53-1,.andq) else (n,n,.orq)

/-- The code for one register. -/
def initRegister (r : Gpr) (value : BitVec 64) : List InitInsn :=
  let p := pad value
  [.mov r p.1,.mov .R8 p.2.1,p.2.2 r .R8]

/-- The code for the flags. -/
def initFlags (value : BitVec 64) : List InitInsn :=
  let top := BitVec.ofNat 64 (su.upperOverflowBase+Setup.overflowRegionSize)
  [.mov .SP top,.mov .BP top,.mov .R10 ((value &&& 2263) ||| 2),.push .R10,.popf,
    .mov .SP (BitVec.ofNat 64 (stackBase su)),.mov .BP (BitVec.ofNat 64 (stackBase su))]

/-- The loop over `get_registers()`: `init_registers` and `init_flags`. -/
def initLoop : List (Option Gpr) → List (BitVec 64) → Option (List InitInsn × List InitInsn)
  | _, [] => some ([],[])
  | [], _ :: _ => none
  | some r :: rs, v :: vs => (initLoop rs vs).map fun p => (initRegister r v ++ p.1,p.2)
  | none :: rs, v :: vs => (initLoop rs vs).map fun p => (p.1,initFlags su v ++ p.2)

/-- What follows the loop: the other registers, and a load that warms the TLB unless the
target is STT. -/
def initOthers (stt : Bool) : List InitInsn :=
  ([.R8,.R9,.R10,.R11,.R12,.R13,.R15].map fun r => .mov r 0) ++
  [.mov .R14 (BitVec.ofNat 64 su.sandboxBase)] ++
  if stt then [] else [.load .R10 .R14,.mov .R10 0]

/-- `generate_test_data`: the code of `init_registers` and `init_flags`. -/
def generateTestData (stt : Bool) (input : Input su.conf) :
    Option (List InitInsn × List InitInsn) :=
  (initLoop su inputRegisters input.getRegisters).map fun p => (p.1 ++ initOthers su stt,p.2)

/-- `construct_program` up to the test case: first the registers, then the flags. -/
def constructProgram (stt : Bool) (input : Input su.conf) : Option (List InitInsn) :=
  (generateTestData su stt input).map fun p => p.1 ++ p.2

/-- The state in which the test case starts, when the program is started in `m`. -/
def start (stt : Bool) (input : Input su.conf) (m : Machine) : Option Machine :=
  (constructProgram su stt input).map m.run

/-- The architectural states agree, with all memory that the test case may reach. -/
structure SameStart (s : State) (m : Machine) : Prop where
  regs : ∀ r, m.cpu.reg r = s.cpu.reg r
  eflags : m.cpu.eflags = s.cpu.eflags
  mem : ∀ x, su.sandboxBase ≤ x → x<su.upperOverflowBase+Setup.overflowRegionSize →
    m.mem x = s.mem x

end Program

variable {su : Setup}

/-- `pad` loads the value itself. -/
lemma pad_exact (n : BitVec 64) (m : Machine) {r : Gpr} (hr : r ≠ .R8) :
    (m.run (initRegister r n)).cpu.reg r = n := by
  unfold initRegister pad
  split_ifs with h
  · have small : (n+2^53) &&& (2^53-1) = n := by
      apply BitVec.eq_of_toNat_eq
      have sum : (n+2^53 : BitVec 64).toNat = n.toNat+2^53 := by
        rw [BitVec.toNat_add]
        exact Nat.mod_eq_of_lt (by
          have : (2^53 : BitVec 64).toNat = 2^53 := by decide
          omega)
      rw [BitVec.toNat_and,sum,show (2^53-1 : BitVec 64).toNat = 2^53-1 by decide,
        Nat.and_two_pow_sub_one_eq_mod]
      omega
    simpa [Machine.run,Machine.step,Machine.setReg,Machine.logic,Cpu.setReg,hr] using small
  · simp [Machine.run,Machine.step,Machine.setReg,Machine.logic,Cpu.setReg,hr]

lemma initRegister_other (n : BitVec 64) (m : Machine) {r s : Gpr} (hs : s ≠ r) (h8 : s ≠ .R8) :
    (m.run (initRegister r n)).cpu.reg s = m.cpu.reg s := by
  unfold initRegister pad
  split_ifs <;>
    simp [Machine.run,Machine.step,Machine.setReg,Machine.logic,Cpu.setReg,hs,h8]

@[simp] lemma run_append (m : Machine) (l l' : List InitInsn) :
    m.run (l ++ l') = (m.run l).run l' := List.foldl_append

/-- The code for the six general registers. -/
def initSix (a b c d si di : BitVec 64) : List InitInsn :=
  initRegister .A a ++ initRegister .B b ++ initRegister .C c ++ initRegister .D d ++
    initRegister .SI si ++ initRegister .DI di

/-- The seven values of an input make the program for the six registers and the flags. -/
lemma constructProgram_eq (stt : Bool) {input : Input su.conf} {a b c d si di f : BitVec 64}
    (h : input.getRegisters = [a,b,c,d,si,di,f]) :
    constructProgram su stt input =
      some (initSix a b c d si di ++ initOthers su stt ++ initFlags su f) := by
  simp [constructProgram,generateTestData,h,inputRegisters,initLoop,initSix]

/-- The registers that the last part of the program sets. -/
lemma run_initFlags (su : Setup) (m : Machine) (f : BitVec 64) :
    (m.run (initFlags su f)).cpu.reg .SP = BitVec.ofNat 64 (stackBase su) ∧
    (m.run (initFlags su f)).cpu.reg .BP = BitVec.ofNat 64 (stackBase su) ∧
    (m.run (initFlags su f)).cpu.reg .R10 = (f &&& 2263) ||| 2 ∧
    ∀ r, r ≠ .SP → r ≠ .BP → r ≠ .R10 → (m.run (initFlags su f)).cpu.reg r = m.cpu.reg r := by
  refine ⟨?_,?_,?_,?_⟩
  · simp [initFlags,Machine.run,Machine.step,Machine.setReg,Cpu.setReg]
  · simp [initFlags,Machine.run,Machine.step,Machine.setReg,Cpu.setReg]
  · simp [initFlags,Machine.run,Machine.step,Machine.setReg,Cpu.setReg]
  · intro r h₁ h₂ h₃
    simp [initFlags,Machine.run,Machine.step,Machine.setReg,Cpu.setReg,h₁,h₂,h₃]

lemma length_seven {l : List (BitVec 64)} (h : l.length=7) :
    ∃ a b c d si di f, l = [a,b,c,d,si,di,f] := by
  match l, h with
  | [a,b,c,d,si,di,f], _ => exact ⟨a,b,c,d,si,di,f,rfl⟩

/-- The two stack pointers are a page apart. -/
lemma stackBase_ne (su : Setup) :
    BitVec.ofNat 64 (stackBase su) ≠ BitVec.ofNat 64 su.stackBase := by
  intro h
  have := congrArg BitVec.toNat h
  simp only [BitVec.toNat_ofNat,stackBase,Setup.stackBase,Setup.mainRegion,
    Setup.overflowRegionSize] at this
  omega

/-- What a register but the stack and frame pointers is meant to hold. -/
def meant (su : Setup) (a b c d si di : BitVec 64) : Gpr → BitVec 64
  | .A => a | .B => b | .C => c | .D => d | .SI => si | .DI => di
  | .R14 => BitVec.ofNat 64 su.sandboxBase
  | _ => 0

/-- The registers after the loop and the rest of `init_registers`. -/
lemma run_registers (stt : Bool) (m : Machine) (a b c d si di : BitVec 64) {r : Gpr}
    (hsp : r ≠ .SP) (hbp : r ≠ .BP) :
    (m.run (initSix a b c d si di ++ initOthers su stt)).cpu.reg r =
      meant su a b c d si di r := by
  have others : ∀ m : Machine, (m.run (initOthers su stt)).cpu.reg r =
      meant su (m.cpu.reg .A) (m.cpu.reg .B) (m.cpu.reg .C) (m.cpu.reg .D) (m.cpu.reg .SI)
        (m.cpu.reg .DI) r := by
    intro m
    cases stt <;> cases r <;>
      simp_all [initOthers,Machine.run,Machine.step,Machine.setReg,Cpu.setReg,meant]
  rw [run_append,others]
  simp [initSix,pad_exact,initRegister_other]

/-- The registers that the model sets up. -/
lemma started_reg (su : Setup) {input : Input su.conf} {a b c d si di f : BitVec 64}
    (hv : input.getRegisters = [a,b,c,d,si,di,f]) :
    ∃ cpu, loadRegisters inputRegisters input.getRegisters State.fresh.cpu = some cpu ∧
      (started su input State.fresh cpu).cpu.reg .SP = BitVec.ofNat 64 su.stackBase ∧
      (started su input State.fresh cpu).cpu.reg .BP = BitVec.ofNat 64 su.stackBase ∧
      ∀ r, r ≠ .SP → r ≠ .BP →
        (started su input State.fresh cpu).cpu.reg r = meant su a b c d si di r := by
  rw [hv]
  refine ⟨_,rfl,?_,?_,?_⟩
  · simp [started,Cpu.pinned,Cpu.setReg]
  · simp [started,Cpu.pinned,Cpu.setReg]
  · intro r hsp hbp
    cases r <;> simp_all [started,Cpu.pinned,loadRegister,Cpu.setReg,State.fresh,meant]

/-- Whatever the input and the state in which the program is started, the executor starts the
test case in another state than the model: the stack and frame pointers and R10 differ, the
other registers agree. -/
theorem start_differs (su : Setup) (stt : Bool) (input : Input su.conf)
    (h : input.getRegisters.length=7) (m₀ : Machine) :
    ∃ c m, begin su input State.fresh = some c ∧ start su stt input m₀ = some m ∧
      ¬SameStart su c.state m ∧
      ∀ r, m.cpu.reg r = c.state.cpu.reg r ↔ r ≠ .SP ∧ r ≠ .BP ∧ r ≠ .R10 := by
  obtain ⟨a,b,c,d,si,di,f,hv⟩ := length_seven h
  obtain ⟨cpu,hcpu,modelSp,modelBp,model⟩ := started_reg su hv
  obtain ⟨sp,bp,r10,rest⟩ :=
    run_initFlags su (m₀.run (initSix a b c d si di ++ initOthers su stt)) f
  have regs : ∀ r, (m₀.run (initSix a b c d si di ++ initOthers su stt ++
      initFlags su f)).cpu.reg r = (started su input State.fresh cpu).cpu.reg r ↔
      r ≠ .SP ∧ r ≠ .BP ∧ r ≠ .R10 := by
    intro r
    rw [run_append]
    constructor
    · intro same
      refine ⟨?_,?_,?_⟩
      · rintro rfl
        rw [sp,modelSp] at same
        exact stackBase_ne su same
      · rintro rfl
        rw [bp,modelBp] at same
        exact stackBase_ne su same
      · rintro rfl
        rw [r10,model .R10 (by decide) (by decide)] at same
        have bit := congrArg (fun v => v.getLsbD 1) same
        simp [meant] at bit
    · rintro ⟨h₁,h₂,h₃⟩
      rw [rest r h₁ h₂ h₃,run_registers stt m₀ a b c d si di h₁ h₂,model r h₁ h₂]
  refine ⟨_,_,by rw [begin_eq,hcpu]; rfl,by rw [start,constructProgram_eq stt hv]; rfl,?_,regs⟩
  intro same
  exact ((regs .SP).mp (same.regs .SP)).1 rfl

/-- An input of the default configuration. -/
theorem start_differs_default :
    ∃ c m, begin (Asm.setup .seq .ct []) (Asm.input [(1024,5)]) State.fresh = some c ∧
      start (Asm.setup .seq .ct []) false (Asm.input [(1024,5)])
        ⟨State.fresh.cpu,State.fresh.mem⟩ = some m ∧
      ¬SameStart (Asm.setup .seq .ct []) c.state m ∧ c.state.cpu.reg .A=5 ∧ m.cpu.reg .A=5 := by
  obtain ⟨c,m,hc,hm,differ,agree⟩ := start_differs (Asm.setup .seq .ct []) false
    (Asm.input [(1024,5)]) (by decide) ⟨State.fresh.cpu,State.fresh.mem⟩
  have five : c.state.cpu.reg .A=5 := by
    cases hc
    rfl
  exact ⟨c,m,hc,hm,differ,five,((agree .A).mpr (by decide)).trans five⟩

/-- The empty test case on that input: the stack pointers are a page apart, and R10 is left
with the value that was pushed for the flags. -/
theorem start_not_same :
    ∃ c m, begin (Asm.setup .seq .ct []) (Asm.input [(1024,5)]) State.fresh = some c ∧
      start (Asm.setup .seq .ct []) false (Asm.input [(1024,5)])
        ⟨State.fresh.cpu,State.fresh.mem⟩ = some m ∧
      c.state.cpu.reg .SP=0x8502FF8 ∧ m.cpu.reg .SP=0x8503FF8 ∧
      c.state.cpu.reg .R10=0 ∧ m.cpu.reg .R10=2 ∧
      ¬SameStart (Asm.setup .seq .ct []) c.state m := by
  refine ⟨_,_,rfl,rfl,rfl,rfl,rfl,rfl,?_⟩
  intro same
  exact absurd (same.regs .R10) (by decide)

end ProteanAmulet.X86Gem5
