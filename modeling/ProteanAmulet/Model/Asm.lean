import ProteanAmulet.Model.Execute

/-! A few x86 instructions, as the emulator executes them and as the test case declares their
operands, and the assembly of straight code. -/
namespace ProteanAmulet.Asm

/-- An instruction of a test case. -/
structure Line where
  insn : Insn
  instruction : Instruction

def Cpu.next (c : Cpu) (size : ℕ) : Cpu := { c with rip := c.rip+size }

/-- The flags that arithmetic sets from the result `v` of a comparison with zero. -/
def testFlags (eflags v : BitVec 64) : BitVec 64 :=
  (eflags &&& ~~~0x8D5#64) ||| if v=0 then 0x40#64 else 0#64

def arithFlags : List FlagMode := [.w,.w,.w,.w,.w,.none,.none,.none,.w]
def zeroFlag : List FlagMode := [.none,.none,.none,.r,.none,.none,.none,.none,.none]

def nop : Line where
  insn := { bytes := [0x90], finish := fun c _ => Cpu.next c 1 }
  instruction := ⟨"NOP",[],[],false⟩

def lfence : Line where
  insn := { bytes := [0x0F,0xAE,0xE8], finish := fun c _ => Cpu.next c 3 }
  instruction := ⟨"LFENCE",[],[],false⟩

/-- `MOV qword ptr [base + disp], src`. -/
def store (base : Gpr) (disp : BitVec 8) (src : Gpr) : Line where
  insn :=
    { bytes := [0x49,0x89,0x46,disp]
      accesses := fun c => [⟨true,(c.reg base+disp.setWidth 64).toNat,8⟩]
      storeValue := fun c _ => (c.reg src).toInt
      finish := fun c _ => Cpu.next c 4
      cs := { operands := [⟨true,true,some (.gpr .w64 base),none⟩]
              regsRead := [.gpr .w64 base,.gpr .w64 src] } }
  instruction :=
    ⟨"MOV",[.mem [.gpr .w64 base] false true,.reg (.gpr .w64 src) true false],[],false⟩

/-- `MOV dst, qword ptr [base + index + disp]`. -/
def load (dst base : Gpr) (index : Option Gpr) (disp : BitVec 8) : Line where
  insn :=
    { bytes := [0x49,0x8B,0x46,disp]
      accesses := fun c =>
        [⟨false,(c.reg base+(index.elim 0 c.reg)+disp.setWidth 64).toNat,8⟩]
      finish := fun c seen =>
        Cpu.next (c.setReg dst (BitVec.ofNat 64 (fromBytes (seen.headD [])))) 4
      cs := { operands := [⟨true,true,some (.gpr .w64 base),index.map (.gpr .w64)⟩]
              regsRead := .gpr .w64 base :: index.toList.map (.gpr .w64)
              regsWrite := [.gpr .w64 dst] } }
  instruction := ⟨"MOV",[.reg (.gpr .w64 dst) false true,
    .mem (.gpr .w64 base :: index.toList.map (.gpr .w64)) true false],[],false⟩

/-- `LEA dst, [base]`. -/
def lea (dst base : Gpr) : Line where
  insn :=
    { bytes := [0x48,0x8D,0x18]
      finish := fun c _ => Cpu.next (c.setReg dst (c.reg base)) 3
      cs := { operands := [⟨true,false,some (.gpr .w64 base),none⟩]
              regsRead := [.gpr .w64 base]
              regsWrite := [.gpr .w64 dst] } }
  instruction := ⟨"LEA",[.reg (.gpr .w64 dst) false true,.agen [.gpr .w64 base]],[],false⟩

/-- `MOV dst, src`, with the protected prefix if asked for. -/
def mov (isProtected : Bool) (dst src : Gpr) : Line where
  insn :=
    { bytes := if isProtected then [0x36,0x48,0x89,0xC0] else [0x3E,0x48,0x89,0xC0]
      finish := fun c _ => Cpu.next (c.setReg dst (c.reg src)) 4
      cs := { regsRead := [.gpr .w64 src], regsWrite := [.gpr .w64 dst] }
      bytes_ne := by cases isProtected <;> simp }
  instruction :=
    ⟨"MOV",[.reg (.gpr .w64 dst) false true,.reg (.gpr .w64 src) true false],[],false⟩

/-- `TEST r, r`. -/
def test (r : Gpr) : Line where
  insn :=
    { bytes := [0x48,0x85,0xC0]
      finish := fun c _ => Cpu.next { c with eflags := testFlags c.eflags (c.reg r) } 3
      cs := { regsRead := [.gpr .w64 r], regsWrite := [.flags] } }
  instruction := ⟨"TEST",[.reg (.gpr .w64 r) true false,.reg (.gpr .w64 r) true false],
    [.flags ⟨arithFlags,rfl⟩],false⟩

/-- RDX:RAX. -/
def dividend (c : Cpu) : ℕ := (c.reg .D).toNat*2^64+(c.reg .A).toNat

def undefFlags : List FlagMode := [.undef,.undef,.undef,.undef,.undef,.none,.none,.none,.undef]

/-- `DIV r`, which faults if the quotient does not fit into RAX. The flags are undefined, and
stay. -/
def div (r : Gpr) : Line where
  insn :=
    { bytes := [0x48,0xF7,0xF0]
      finish := fun c _ =>
        Cpu.next ((c.setReg .A (BitVec.ofNat 64 (dividend c/(c.reg r).toNat))).setReg .D
          (BitVec.ofNat 64 (dividend c%(c.reg r).toNat))) 3
      faults := fun c _ => decide ((c.reg r).toNat ≤ (c.reg .D).toNat)
      cs := { regsRead := [.gpr .w64 r,.gpr .w64 .A,.gpr .w64 .D]
              regsWrite := [.gpr .w64 .A,.gpr .w64 .D,.flags] } }
  instruction := ⟨"DIV",[.reg (.gpr .w64 r) true false],
    [.reg (.gpr .w64 .A) true true,.reg (.gpr .w64 .D) true true,.flags ⟨undefFlags,rfl⟩],false⟩

/-- `JZ`, forward. -/
def jz (disp : BitVec 8) : Line where
  insn :=
    { bytes := [0x74,disp]
      finish := fun c _ => Cpu.next c (if c.eflags &&& 0x40 ≠ 0 then 2+disp.toNat else 2)
      cs := { regsRead := [.flags], groupJump := true, groupBranchRelative := true } }
  instruction := ⟨"JZ",[.label],[.flags ⟨zeroFlag,rfl⟩,.reg .rip true true],true⟩

/-- What stands at an offset of the code. -/
def lookup : List Line → ℕ → Option Line
  | [], _ => none
  | l :: ls, offset => if offset=0 then some l
    else if offset<l.insn.size then none else lookup ls (offset-l.insn.size)

def assemble (codeStart : ℕ) (code : List Line) : TestCase where
  codeLength := (code.map (·.insn.size)).sum
  fetch address :=
    if codeStart ≤ address then (lookup code (address-codeStart)).map (·.insn) else none
  addressMap offset := if 0 ≤ offset then (lookup code offset.toNat).map (·.instruction) else none

lemma lookup_mem {code : List Line} {offset : ℕ} {l : Line} (h : lookup code offset = some l) :
    l ∈ code := by
  induction code generalizing offset with
  | nil => cases h
  | cons l' code ih =>
    unfold lookup at h
    split_ifs at h
    · cases h
      exact List.mem_cons_self
    · exact List.mem_cons_of_mem _ (ih h)

theorem fetch_mem {codeStart : ℕ} {code : List Line} {address : ℕ} {insn : Insn}
    (h : (assemble codeStart code).fetch address = some insn) : ∃ l ∈ code, l.insn=insn := by
  dsimp only [assemble] at h
  split_ifs at h
  obtain ⟨l,hl,rfl⟩ := Option.map_eq_some_iff.mp h
  exact ⟨l,lookup_mem hl,rfl⟩

/-- The code loaded below the sandbox, in the default configuration. -/
def setup (clause : Clause) (tracer : Tracer) (code : List Line) : Setup where
  conf := {}
  clause := clause
  tracer := tracer
  sandboxBase := 0x8502000
  codeStart := 0x400000
  testCase := assemble 0x400000 code

/-- The input that is zero but at the given words. -/
def input (words : List (ℕ × BitVec 64)) : Input {} where
  word k := (words.lookup k.val).getD 0

end ProteanAmulet.Asm
