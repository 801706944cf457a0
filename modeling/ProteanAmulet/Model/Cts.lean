import ProteanAmulet.Model.Emulator

/-! The static analysis of the CTS tracer: a backward dataflow over the instructions of a
page that finds the registers whose values are transmitted. Python exceptions are `none`. -/
namespace ProteanAmulet.CTSTracer

/-- `subregs`: a register and the smaller ones inside it. A name that no pattern matches is a
`ValueError`. -/
def subregs : RegName → Option (List RegName)
  | .gpr .w64 r => some ([.gpr .w64 r,.gpr .w32 r,.gpr .w16 r] ++ low r)
  | .gpr .w32 r => some ([.gpr .w32 r,.gpr .w16 r] ++ low r)
  | .gpr .w16 r => some (.gpr .w16 r :: low r)
  | .gpr .w8 r => some [.gpr .w8 r]
  | .high r => some [.high r]
  | .flags => some [.flags]
  | .seg s => some [.seg s]
  | .rip => none
where
  /-- The bytes of a 16-bit register; only four of them have a high byte. -/
  low : Gpr → List RegName
    | .A => [.high .A,.gpr .w8 .A]
    | .B => [.high .B,.gpr .w8 .B]
    | .C => [.high .C,.gpr .w8 .C]
    | .D => [.high .D,.gpr .w8 .D]
    | r => [.gpr .w8 r]

def expandSubregs (l : List RegName) : Option (List RegName) :=
  (l.mapM subregs).map List.flatten

/-- `get_unprot_operands`: the inputs of a branch, and the base and index of any operand that
is read or written. -/
def getUnprotOperands (insn : CsInsn) : List RegName :=
  (if insn.groupJump then insn.regsRead else []) ++
  (insn.operands.filter (·.accessed)).flatMap fun op => op.base.toList ++ op.index.toList

/-- The successors of `construct_cfg`. The opcode is a list of bytes and so never equal to
`X86_INS_JMP`: every jump also falls through. An indirect jump fails the assertion. -/
def targets (address : ℕ) (insn : Insn) : Option (List ℕ) :=
  if insn.cs.groupJump then
    if insn.cs.groupBranchRelative then some [insn.cs.imm,address+insn.size] else none
  else some [address+insn.size]

abbrev Insns := List (ℕ × Insn)

def constructCfg (insns : Insns) : Option (List (ℕ × List ℕ)) :=
  insns.mapM fun p => do
    let ts ← targets p.1 p.2
    return (p.1,ts.filter fun a => decide (a ∈ insns.map Prod.fst))

/-- The maps `unprots_pre` and `unprots_post`; a missing key is `none`. -/
structure Dataflow where
  pre : ℕ → Option (Finset RegName) := fun _ => none
  post : ℕ → Option (Finset RegName) := fun _ => none

def Dataflow.preSet (d : Dataflow) (a : ℕ) : Finset RegName := (d.pre a).getD ∅
def Dataflow.postSet (d : Dataflow) (a : ℕ) : Finset RegName := (d.post a).getD ∅

/-- `merge`: reading the default dictionaries adds the missing keys. -/
def merge (d : Dataflow) (pred : ℕ) : List ℕ → Dataflow
  | [] => d
  | succ :: succs => merge
      { pre := Function.update d.pre succ (some (d.preSet succ))
        post := Function.update d.post pred (some (d.postSet pred ∪ d.preSet succ)) } pred succs

/-- All register names, in the order in which sets of them are walked. -/
def allRegNames : List RegName :=
  ([Gpr.A,.B,.C,.D,.SI,.DI,.SP,.BP,.R8,.R9,.R10,.R11,.R12,.R13,.R14,.R15].flatMap fun r =>
    [.gpr .w64 r,.gpr .w32 r,.gpr .w16 r,.gpr .w8 r,.high r]) ++
  [.flags,.rip,.seg .CS,.seg .DS,.seg .SS,.seg .ES,.seg .FS,.seg .GS]

def elements (s : Finset RegName) : List RegName := allRegNames.filter fun r => decide (r ∈ s)

/-- `transfer`. -/
def transfer (d : Dataflow) (address : ℕ) (insn : CsInsn) : Option Dataflow := do
  let v := d.postSet address
  let unprotDefs := insn.regsWrite.any fun x => decide (x ∈ v)
  let v := v \ insn.regsWrite.toFinset
  let v := v ∪ (getUnprotOperands insn).toFinset
  let v := if unprotDefs then v ∪ insn.regsRead.toFinset else v
  let expanded ← expandSubregs (elements v)
  return { pre := Function.update d.pre address (some expanded.toFinset)
           post := Function.update d.post address (some (d.postSet address)) }

def sweep (succs : List (ℕ × List ℕ)) : Insns → Dataflow → Option Dataflow
  | [], d => some d
  | (a,insn) :: rest, d => do
    let d ← transfer (merge d a ((succs.lookup a).getD [])) a insn.cs
    sweep succs rest d

/-- The comparison of the two snapshots. The sets of `unprots_post` are shared between them,
so only its keys can differ. -/
def changed (insns : Insns) (old new : Dataflow) : Bool :=
  insns.any fun p => decide (old.pre p.1 ≠ new.pre p.1 ∨
    (old.post p.1).isSome ≠ (new.post p.1).isSome)

/-- `dataflow_analysis`: `none` also when it gives up after 1000 rounds. -/
def dataflowAnalysis (insns : Insns) (succs : List (ℕ × List ℕ)) :
    ℕ → Dataflow → Option Dataflow
  | 0, _ => none
  | fuel+1, old => do
    let new ← sweep succs insns.reverse old
    if changed insns old new then dataflowAnalysis insns succs fuel new else return new

/-- `analyze_binary` on the page of an address. -/
def analyzeBinary (tc : TestCase) (address : ℕ) : Option Dataflow := do
  let insns := tc.disasm (address/4096*4096)
  let succs ← constructCfg insns
  dataflowAnalysis insns succs 1001 {}

end ProteanAmulet.CTSTracer
