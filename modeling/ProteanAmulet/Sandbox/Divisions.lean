import ProteanAmulet.Library.Simulation
import Mathlib.Data.BitVec
import Mathlib.Logic.Function.Basic

/-! The masking of divisions by the sandbox pass. Functions are in the form that LLVM gives them, with
their values; instructions and terminators that the pass does not look at have an arbitrary meaning. -/
namespace ProteanAmulet.LLVM
open Simulation

/-- A value of the function, or a constant by its bits. -/
inductive Operand where
  | value (name : ℕ)
  | constant (bits : ℕ)
  deriving DecidableEq

/-- The operations of `isIntDivRem`. -/
inductive DivOp where
  | sdiv | udiv | srem | urem
  deriving DecidableEq

inductive Operation (O : Type) where
  | div (op : DivOp) (width : ℕ) (dividend divisor : Operand)
  | icmpEq (width : ℕ) (lhs rhs : Operand)
  | other (opcode : O) (operands : List Operand)

structure Instruction (O : Type) where
  result : ℕ
  operation : Operation O

structure PHINode where
  result : ℕ
  incoming : List (ℕ × Operand)

inductive Terminator (O : Type) where
  | ret (operands : List Operand)
  | br (target : ℕ)
  | condBr (condition : Operand) (ifTrue ifFalse : ℕ)
  | other (opcode : O) (operands : List Operand) (targets : List ℕ)

structure BasicBlock (O : Type) where
  phis : List PHINode := []
  body : List (Instruction O) := []
  terminator : Terminator O

/-- A function. New blocks and values get the next label and the next name. -/
structure Function (O : Type) where
  args : List ℕ
  entry : ℕ
  labels : List ℕ
  block : ℕ → BasicBlock O
  nextLabel : ℕ
  nextName : ℕ

variable {O : Type}

section Operands

def Operand.replace (old new : ℕ) : Operand → Operand
  | value name => value (if name = old then new else name)
  | constant bits => constant bits

variable (f : Operand → Operand)

def Operation.map : Operation O → Operation O
  | div op width dividend divisor => div op width (f dividend) (f divisor)
  | icmpEq width lhs rhs => icmpEq width (f lhs) (f rhs)
  | other opcode operands => other opcode (operands.map f)

def Operation.operands : Operation O → List Operand
  | div _ _ dividend divisor => [dividend,divisor]
  | icmpEq _ lhs rhs => [lhs,rhs]
  | other _ operands => operands

def Instruction.map (I : Instruction O) : Instruction O := { I with operation := I.operation.map f }

def Instruction.isIntDivRem (I : Instruction O) : Bool :=
  match I.operation with
  | .div .. => true
  | _ => false

def PHINode.map (phi : PHINode) : PHINode :=
  { phi with incoming := phi.incoming.map fun e => (e.1,f e.2) }

/-- `replaceIncomingBlockWith`. -/
def PHINode.replaceIncomingBlockWith (phi : PHINode) (old new : ℕ) : PHINode :=
  { phi with incoming := phi.incoming.map fun e => (if e.1 = old then new else e.1,e.2) }

namespace Terminator

def map : Terminator O → Terminator O
  | ret operands => ret (operands.map f)
  | br target => br target
  | condBr condition ifTrue ifFalse => condBr (f condition) ifTrue ifFalse
  | other opcode operands targets => other opcode (operands.map f) targets

def operands : Terminator O → List Operand
  | ret operands => operands
  | br _ => []
  | condBr condition _ _ => [condition]
  | other _ operands _ => operands

def successors : Terminator O → List ℕ
  | ret _ => []
  | br target => [target]
  | condBr _ ifTrue ifFalse => [ifTrue,ifFalse]
  | other _ _ targets => targets

end Terminator

def BasicBlock.map (B : BasicBlock O) : BasicBlock O where
  phis := B.phis.map (·.map f)
  body := B.body.map (·.map f)
  terminator := B.terminator.map f

end Operands

namespace Function
variable (F : Function O)

def successors (b : ℕ) : List ℕ := (F.block b).terminator.successors

/-- `SplitBlock`: the instructions from place `i` on move to a new block, which the PHI nodes of the
successors then name as the incoming one. -/
def splitBlock (b i : ℕ) : Function O :=
  let new := F.nextLabel
  let old := F.block b
  let block := Function.update (Function.update F.block b
    { old with body := old.body.take i, terminator := .br new }) new
    { body := old.body.drop i, terminator := old.terminator }
  { F with
    labels := F.labels ++ [new]
    nextLabel := F.nextLabel+1
    block := fun a => if a ∈ old.terminator.successors then
        { block a with phis := (block a).phis.map (·.replaceIncomingBlockWith b new) }
      else block a }

def setBlock (b : ℕ) (B : BasicBlock O) : Function O := { F with block := Function.update F.block b B }

/-- `replaceUsesWithIf`, for all uses. -/
def replaceUses (old new : ℕ) : Function O :=
  { F with block := fun a => (F.block a).map (Operand.replace old new) }

/-- `getParent`. -/
def parent (name : ℕ) : Option ℕ :=
  F.labels.find? fun b => (F.block b).body.any (·.result = name)

/-- The division with the given name, in the block `pre` at place `i`, is guarded. -/
def guardDiv (name pre i width : ℕ) (divisor : Operand) : Function O :=
  let div := F.nextLabel
  let F := F.splitBlock pre i
  let post := F.nextLabel
  let F := F.splitBlock div 1
  let denomZero := F.nextName
  let phi := F.nextName+1
  let F := { F with nextName := F.nextName+2 }
  let F := F.setBlock pre { F.block pre with
    body := (F.block pre).body ++ [⟨denomZero,.icmpEq width divisor (.constant 0)⟩]
    terminator := .condBr (.value denomZero) post div }
  let F := F.replaceUses name phi
  F.setBlock post { F.block post with
    phis := ⟨phi,[(pre,.constant 0),(div,.value name)]⟩ :: (F.block post).phis }

/-- `maskDiv`. -/
def maskDiv (name : ℕ) : Function O :=
  match F.parent name with
  | none => F
  | some pre =>
    let i := (F.block pre).body.findIdx (·.result = name)
    match (F.block pre).body[i]? with
    | some ⟨_,.div _ width _ divisor⟩ => F.guardDiv name pre i width divisor
    | _ => F

/-- The divisions of the function. -/
def divs : List ℕ :=
  F.labels.flatMap fun b => ((F.block b).body.filter (·.isIntDivRem)).map (·.result)

def maskDivs : Function O := F.divs.foldl maskDiv F

end Function

section Semantics

namespace DivOp

def isSigned : DivOp → Bool
  | sdiv | srem => true
  | udiv | urem => false

/-- The quotient or remainder. -/
def result (op : DivOp) {width : ℕ} (x y : BitVec width) : BitVec width :=
  match op with
  | sdiv => x.sdiv y
  | udiv => x.udiv y
  | srem => x.srem y
  | urem => x.umod y

/-- The quotient is too large. -/
def Overflows (op : DivOp) {width : ℕ} (x y : BitVec width) : Prop :=
  op.isSigned ∧ 0<width ∧ x = BitVec.intMin width ∧ y = -BitVec.ofNat width 1

instance (op : DivOp) {width : ℕ} (x y : BitVec width) : Decidable (op.Overflows x y) :=
  inferInstanceAs (Decidable (_ ∧ _ ∧ _ ∧ _))

/-- A division on x86; `none` is a trap. -/
def divide (op : DivOp) {width : ℕ} (x y : BitVec width) : Option (BitVec width) :=
  if y = BitVec.ofNat width 0 ∨ op.Overflows x y then none else some (op.result x y)

/-- A division that gives zero when the divisor is zero. -/
def divideOrZero (op : DivOp) {width : ℕ} (x y : BitVec width) : Option (BitVec width) :=
  if y = BitVec.ofNat width 0 then some (BitVec.ofNat width 0) else op.divide x y

end DivOp

/-- The meaning of the instructions and terminators that the pass does not look at, on a memory. -/
structure Meaning (O M : Type) where
  exec : O → List ℕ → M → ℕ × M
  target : O → List ℕ → M → ℕ

structure State (M : Type) where
  block : ℕ
  pc : ℕ
  values : ℕ → ℕ
  memory : M

/-- How a run can end. -/
inductive Exit (M : Type) where
  | returned (results : List ℕ) (memory : M)
  | trapped
  | unreachable

def Operand.eval (values : ℕ → ℕ) : Operand → ℕ
  | value name => values name
  | constant bits => bits

variable {M : Type} (meaning : Meaning O M) (F : Function O)

/-- The value of a PHI node for a block that control comes from. -/
def PHINode.eval (phi : PHINode) (source : ℕ) (values : ℕ → ℕ) : ℕ :=
  ((phi.incoming.find? (·.1 = source)).map fun e => e.2.eval values).getD 0

/-- Control goes to a block; its PHI nodes are set at once. -/
def State.enter (s : State M) (target : ℕ) : State M where
  block := target
  pc := 0
  values name :=
    match (F.block target).phis.find? (·.result = name) with
    | some phi => phi.eval s.block s.values
    | none => s.values name
  memory := s.memory

/-- The result of an instruction and the memory behind it; `none` is a trap. Divisions with a name in
`guarded` give zero when the divisor is zero. -/
def Operation.exec (guarded : Bool) (values : ℕ → ℕ) (memory : M) : Operation O → Option (ℕ × M)
  | .div op width dividend divisor =>
    let x := BitVec.ofNat width (dividend.eval values)
    let y := BitVec.ofNat width (divisor.eval values)
    (if guarded then op.divideOrZero x y else op.divide x y).map fun z => (z.toNat,memory)
  | .icmpEq width lhs rhs =>
    let x := BitVec.ofNat width (lhs.eval values)
    let y := BitVec.ofNat width (rhs.eval values)
    some (if x = y then 1 else 0,memory)
  | .other opcode operands => some (meaning.exec opcode (operands.map (·.eval values)) memory)

/-- Where a terminator goes. -/
def Terminator.exec (values : ℕ → ℕ) (memory : M) : Terminator O → Status ℕ (Exit M)
  | .ret operands => .stopped (.returned (operands.map (·.eval values)) memory)
  | .br target => .running target
  | .condBr condition ifTrue ifFalse =>
    .running (if condition.eval values % 2 = 1 then ifTrue else ifFalse)
  | .other opcode operands targets =>
    match targets[meaning.target opcode (operands.map (·.eval values)) memory]? with
    | some target => .running target
    | none => .stopped .unreachable

/-- One step of the function, with some of its divisions guarded. -/
def step (guarded : ℕ → Bool) (s : State M) : Status (State M) (Exit M) :=
  match (F.block s.block).body[s.pc]? with
  | some I =>
    match I.operation.exec meaning (guarded I.result) s.values s.memory with
    | some (v,memory) =>
      .running { s with pc := s.pc+1, values := Function.update s.values I.result v, memory }
    | none => .stopped .trapped
  | none =>
    match (F.block s.block).terminator.exec meaning s.values s.memory with
    | .running target => .running (s.enter F target)
    | .stopped exit => .stopped exit

/-- The state in which the function is called. -/
def init (args : ℕ → ℕ) (memory : M) : State M where
  block := F.entry
  pc := 0
  values name := if name ∈ F.args then args name else 0
  memory := memory

end Semantics

end ProteanAmulet.LLVM
