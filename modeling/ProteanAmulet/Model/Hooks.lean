import ProteanAmulet.Model.State

/-! The hooks of the execution clauses. `X86UnicornSpec` wraps the sequential tracing into
speculation; what is mispredicted depends on the clause. -/
namespace ProteanAmulet

namespace X86UnicornCond

/-- The condition of the jump whose opcode ends in the hexadecimal digit `k`. -/
def taken (k : ℕ) (f : BitVec 64) : Bool :=
  let cf := f &&& 1 ≠ 0
  let pf := f &&& 4 ≠ 0
  let zf := f &&& 0x40 ≠ 0
  let sf := f &&& 0x80 ≠ 0
  let of := f &&& 0x800 ≠ 0
  match k with
  | 0x0 => of
  | 0x1 => !of
  | 0x2 => cf
  | 0x3 => !cf
  | 0x4 => zf
  | 0x5 => !zf
  | 0x6 => cf || zf
  | 0x7 => !cf && !zf
  | 0x8 => sf
  | 0x9 => !sf
  | 0xA => pf
  | 0xB => !pf
  | 0xC => sf != of
  | 0xD => sf == of
  | 0xE => zf || sf != of
  | 0xF => !zf && sf == of
  | _ => false

/-- The tables `jumps` and `multibyte_jmp`: the bytes of the target, whether the jump is
taken and whether it is a LOOP. A missing byte is an `IndexError`. -/
def jump (code : List Byte) (flags rcx : BitVec 64) : Option (List Byte × Bool × Bool) :=
  match code with
  | [] => none
  | c₀ :: code₁ =>
    let op := c₀.toNat
    if 0x70 ≤ op ∧ op ≤ 0x7F then some (code₁,taken (op-0x70) flags,false)
    else if op=0xE0 then some (code₁,rcx ≠ 1 && flags &&& 0x40 = 0,true)
    else if op=0xE1 then some (code₁,rcx ≠ 1 && flags &&& 0x40 ≠ 0,true)
    else if op=0xE2 then some (code₁,rcx ≠ 1,true)
    else if op=0xE3 then some (code₁,rcx = 0,false)
    else if op=0x0F then
      match code₁ with
      | [] => none
      | c₁ :: code₂ =>
        let op := c₁.toNat
        if 0x80 ≤ op ∧ op ≤ 0x8F then some (code₂,taken (op-0x80) flags,false)
        else some ([0],false,false)
    else some ([0],false,false)

/-- `decode`: displacements of one byte and of more bytes are both read unsigned. -/
def decode (code : List Byte) (flags rcx : BitVec 64) : Option (ℕ × Bool × Bool) :=
  (jump code flags rcx).map fun (target,willJump,isLoop) => (fromBytes target,willJump,isLoop)

/-- `speculate_instruction`. -/
def speculateInstruction (s : State) (address : ℕ) (insn : Insn) : Option State := do
  if s.nesting ≤ s.checkpoints.length then return s
  let (target,willJump,isLoop) ← decode insn.bytes s.cpu.eflags (s.cpu.reg .C)
  if target = 0 then return s
  let s := if isLoop then { s with cpu := s.cpu.setReg .C (s.cpu.reg .C-1) } else s
  let next := address+insn.size
  let s ← checkpoint s (if willJump then next+target else next)
  return { s with cpu := { s.cpu with rip := if willJump then next else next+target } }

end X86UnicornCond

namespace X86UnicornBpas

/-- The opcodes of CALL, whose stores are not bypassed. -/
def isCall (insn : Insn) : Bool := decide (insn.opcode.toNat ∈ [0xE8,0xFF,0x9A])

/-- `speculate_mem_access`: remember the store for the hook of the next instruction. -/
def speculateMemAccess (s : State) (insn : Insn) (a : Access) (value : ℤ) : State :=
  if a.isWrite && !isCall insn then
    { s with previousStore := ⟨a.address,a.size,Memory.read s.mem a.address a.size,value⟩ }
  else s

/-- `speculate_instruction`. -/
def speculateInstruction (s : State) (address : ℕ) : Option State := do
  if s.nesting ≤ s.checkpoints.length then return s
  let prev := s.previousStore
  if prev.address ≠ 0 then
    let newValue ← toBytes prev.value prev.size
    let s ← checkpoint s address
    let s := { s with mem := Memory.write s.mem prev.address prev.oldValue }
    let s ← appendLog s (prev.address,newValue)
    return { s with previousStore := {} }
  return { s with previousStore := {} }

end X86UnicornBpas

namespace X86UnicornNull

/-- `speculate_mem_access`: let the load see zeros. -/
def speculateMemAccess (s : State) (a : Access) : Option State := do
  if s.nesting ≤ s.checkpoints.length then return s
  if a.isWrite then return s
  if s.instructionAddress = s.latestRollbackAddress then return s
  let s ← checkpoint s s.instructionAddress
  let s ← appendLog s (a.address,Memory.read s.mem a.address 8)
  return { s with mem := Memory.write s.mem a.address (List.replicate a.size 0) }

end X86UnicornNull

section Hooks
variable (su : Setup)

def speculateMemAccess (s : State) (insn : Insn) (a : Access) (value : ℤ) : Option State :=
  match su.clause with
  | .seq | .cond => some s
  | .bpas | .condBpas => some (X86UnicornBpas.speculateMemAccess s insn a value)
  | .null => X86UnicornNull.speculateMemAccess s a

def speculateInstruction (s : State) (address : ℕ) (insn : Insn) : Option State :=
  match su.clause with
  | .seq => some s
  | .cond => X86UnicornCond.speculateInstruction s address insn
  | .bpas => X86UnicornBpas.speculateInstruction s address
  | .null => some { s with instructionAddress := address }
  | .condBpas => do
    let s ← X86UnicornCond.speculateInstruction s address insn
    X86UnicornBpas.speculateInstruction s address

/-- `X86UnicornSeq.trace_mem_access`. -/
def seqTraceMemAccess (s : State) (insn : Insn) (a : Access) (value : ℤ) : Option State := do
  let s ← s.track fun t => some (t.trackMemoryAccess a.address a.size a.isWrite)
  observeMemAccess su s insn a value

/-- `X86UnicornSeq.trace_instruction`. -/
def seqTraceInstruction (s : State) (i : Instruction) (address : ℕ) (insn : Insn) :
    Option State := do
  let s ← s.track fun t => t.startInstruction i
  observeInstruction su s address insn

/-- When in speculation, log all changes to memory. -/
def logStore (s : State) (a : Access) : State :=
  if a.isWrite then { s with storeLogs :=
    match s.storeLogs with
    | [] => []
    | log :: logs => ((a.address,Memory.read s.mem a.address 8) :: log) :: logs }
  else s

/-- Count the instruction and stop at fences and at the end of the window. -/
def countInstruction (s : State) (i : Instruction) : State :=
  if s.inSpeculation then
    { s with
      speculationWindow := s.speculationWindow+1
      stopRequested := s.stopRequested || decide (i.name ∈ ["LFENCE","MFENCE"]) ||
        decide (su.conf.modelMaxSpecWindow<s.speculationWindow+1) }
  else s

/-- The memory hook. -/
def traceMemAccess (s : State) (insn : Insn) (a : Access) (value : ℤ) : Option State :=
  match su.clause with
  | .seq => seqTraceMemAccess su s insn a value
  | _ => do
    let s ← seqTraceMemAccess su (logStore s a) insn a value
    speculateMemAccess su s insn a value

/-- The instruction hook: an address outside the map is a `KeyError`. -/
def instructionHook (s : State) (address : ℕ) (insn : Insn) : Option State := do
  let i ← su.testCase.addressMap ((address : ℤ)-su.codeStart)
  match su.clause with
  | .seq => seqTraceInstruction su s i address insn
  | _ =>
    let s ← seqTraceInstruction su (countInstruction su s i) i address insn
    speculateInstruction su s address insn

end Hooks

end ProteanAmulet
