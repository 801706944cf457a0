import Mathlib.Algebra.Order.Ring.Int
import Mathlib.Tactic.NormNum
import Mathlib.Tactic.Positivity
import ProteanAmulet.Generator.Shape

/-! Divisions of created test cases do not fault. -/
namespace ProteanAmulet.Generator
open X86SandboxPass

/-- The quotient of a division by `v` fits its register. -/
def QuotientFits (m : Machine) (width v : ℕ) : Prop :=
  if width=8 then m.readReg (.gpr .w16 .A)<256*v
  else if width=16 then m.readReg (.gpr .w16 .D)<v
  else if width=32 then m.readReg (.gpr .w32 .D)<v
  else m.readReg (.gpr .w64 .D)<v

/-- A division by the operand does not fault. -/
def DivisionFits (m : Machine) (divisor : Operand) : Prop :=
  ∀ width v, divisor.bits = some width → m.read divisor = some v →
    0<v ∧ QuotientFits m width v

/-- Code whose divisions must not fault. -/
def divisionCode (other : Instruction → Machine → Machine → Prop) :
    Straightline Instruction Machine where
  Step := Step other
  Obligation inst m := isDivision inst → ∃ divisor rest, inst.operands = divisor :: rest ∧
    DivisionFits m divisor

section Guard
variable {other : Instruction → Machine → Machine → Prop} {m m' : Machine} {divisor : Operand}

/-- After `OR divisor, 1` the divisor is not zero. -/
lemma step_orOne (hm : Matched divisor) (hw : divisor.width % 8 = 0) (hpos : 1<divisor.width)
    (h : Step other (orOne divisor) m m') {v : ℕ} (hv : m'.read divisor = some v) : 0<v := by
  obtain ⟨a,ha⟩ := Machine.exists_read (m := m) hv
  have eq : m.exec (orOne divisor) = m.write ((a ||| 1) % 2^divisor.width) divisor := by
    rw [orOne,Machine.exec_or]
    exact Machine.operate_eq (Bool.and_false _) (Machine.bits_of_read hm ha) ha
      (Machine.source_one hpos 8)
  obtain ⟨m₁,hm₁⟩ := Machine.exists_write ha ((a ||| 1) % 2^divisor.width)
  obtain rfl := (step_of_exec (eq.trans hm₁)).mp h
  rw [Machine.read_write hm hw hm₁] at hv
  obtain rfl := Option.some.inj hv
  have odd : (a ||| 1) % 2 = 1 := by simp
  have even : 2 ∣ 2^divisor.width := dvd_pow_self 2 (by omega)
  rw [Nat.mod_mod]
  rw [← Nat.mod_mod_of_dvd _ even] at odd
  omega

lemma step_movAx (h : Step other movAx m m') : m' = m.writeReg (.gpr .w16 .A) 1 := by
  refine (step_of_exec ?_).mp h
  have name : regName "AX" = some (.gpr .w16 .A) := by decide +kernel
  rw [movAx,Machine.exec_mov,Machine.operate_reg name (Machine.source_one (by decide) 16)]
  rfl

lemma only_rdx (t : String) (h : regName t = some (.gpr .w64 .D)) : t = "RDX" := by
  have : (registerTable.filter (·.2 = .gpr .w64 .D)).map (·.1) = ["RDX"] := by decide +kernel
  simpa [this] using name_of_w64 h

lemma only_rax (t : String) (h : regName t = some (.gpr .w64 .A)) : t = "RAX" := by
  have : (registerTable.filter (·.2 = .gpr .w64 .A)).map (·.1) = ["RAX"] := by decide +kernel
  simpa [this] using name_of_w64 h

/-- A divisor that is not deleted for it does not depend on D. -/
lemma not_uses_d (rdx : divisor.value ∉ ["RDX","EDX","DX","DH","DL"] ∧
    contains "RDX" divisor.value = false) {v : ℕ} (hv : m.read divisor = some v) :
    Gpr.D ∉ divisor.uses := by
  cases divisor with
  | reg name width s d =>
    intro hr
    have names : (registerTable.filter (·.2.base = some .D)).map (·.1) =
        ["RDX","EDX","DX","DL","DH"] := by decide +kernel
    have := name_of_base (Option.mem_toList.mp hr)
    rw [names] at this
    refine rdx.1 ?_
    change name ∈ _
    simp only [List.mem_cons,List.not_mem_nil,or_false] at this ⊢
    tauto
  | mem => exact not_uses_of_contains only_rdx rdx.2 hv
  | _ => cases hv

lemma dRegister_name {w : ℕ} {d : String} (h : dRegister w = some d) :
    ∃ wd : Width, wd.bits = w ∧ 1<w ∧ w % 8 = 0 ∧ regName d = some (.gpr wd .D) := by
  unfold dRegister at h
  split at h
  · cases h
    exact ⟨.w64,rfl,by norm_num,by norm_num,by decide +kernel⟩
  · cases h
    exact ⟨.w32,rfl,by norm_num,by norm_num,by decide +kernel⟩
  · cases h
    exact ⟨.w16,rfl,by norm_num,by norm_num,by decide +kernel⟩
  · cases h

section Wide
variable {d : String} {wd : Width} (hw : wd.bits = divisor.width)
  (hd : regName d = some (.gpr wd .D))
include hw hd

/-- `AND D, divisor` with a divisor that has a value. -/
lemma step_andD (hm : Matched divisor) {v : ℕ} (hv : m.read divisor = some v)
    (h : Step other (andD d divisor) m m') :
    m' = m.writeReg (.gpr wd .D) ((m.readReg (.gpr wd .D) &&& v) % 2^wd.bits) := by
  have value : m.source wd.bits divisor = some v := by
    have := Machine.bits_of_read hm hv
    rw [← hw] at this
    cases divisor with
    | reg => simp only [Machine.source,if_pos this,hv]
    | mem => simp only [Machine.source,if_pos this,hv]
    | _ => cases hv
  exact step_and hd value h

/-- `SHR D, 1`. -/
lemma step_shrD (hpos : 1<divisor.width) (h : Step other (shrD d divisor) m m') :
    m' = m.writeReg (.gpr wd .D) (m.readReg (.gpr wd .D)/2 % 2^wd.bits) := by
  refine (step_of_exec ?_).mp h
  rw [← hw] at hpos
  have one : 1 % (if (Operand.reg d divisor.width false true).bits = some 64 then 64 else 32) = 1 := by
    split_ifs <;> rfl
  change m.operate (fun a b => a / 2^(b % if (Operand.reg d divisor.width false true).bits = some 64
    then 64 else 32)) _ _ = _
  rw [Machine.operate_reg hd (Machine.source_one hpos 8),one,pow_one]
  rfl

end Wide

/-- What the pass puts before a division that it keeps. -/
inductive Guarded (divisor : Operand) : List Instruction → Prop
  | byte (width : divisor.width=8) (rax : contains "RAX" divisor.value = false) :
      Guarded divisor [orOne divisor,movAx]
  | wide {d : String} (width : divisor.width ≠ 64)
      (rdx : divisor.value ∉ ["RDX","EDX","DX","DH","DL"] ∧ contains "RDX" divisor.value = false)
      (hd : dRegister divisor.width = some d) :
      Guarded divisor [orOne divisor,andD d divisor,shrD d divisor]

/-- After `MOV AX, 1` a divisor of 8 bits is still not zero. -/
lemma pos_of_movAx (hm : Matched divisor) (width : divisor.width=8)
    (rax : contains "RAX" divisor.value = false) (hp : ∀ v, m.read divisor = some v → 0<v) {v : ℕ}
    (hv : (m.writeReg (.gpr .w16 .A) 1).read divisor = some v) : 0<v := by
  have same (h : Gpr.A ∉ divisor.uses) : m.read divisor = some v := by
    rw [← hv]
    refine Machine.read_congr (fun r hr => (m.reg_writeReg ?_ 1).symm) (m.mem_writeReg _ 1).symm
    rintro ⟨rfl⟩
    exact h hr
  cases divisor with
  | reg name w s d =>
    obtain ⟨n,hn,rfl⟩ := Option.map_eq_some_iff.mp hv
    obtain ⟨w',r,rfl,hw⟩ := hm name w s d rfl n hn
    by_cases hr : r = .A
    · obtain rfl : w' = .w8 := by
        cases w' <;> simp_all [Operand.width,Width.bits]
      subst hr
      have := (m.reg .A).isLt
      simp only [Machine.writeReg,Machine.setReg,Machine.readReg,Width.bits,Function.update_self,
        BitVec.toNat_ofNat]
      omega
    · refine hp _ (same ?_)
      simpa [Operand.uses,hn,RegName.base] using Ne.symm hr
  | mem => exact hp v (same (not_uses_of_contains only_rax rax hv))
  | _ => cases hv

lemma and_half_lt {x v k : ℕ} (hv : 0<v) : (x &&& v) % k / 2 % k < v := by
  have h : (x &&& v) % k ≤ v := (Nat.mod_le _ _).trans Nat.and_le_right
  have h' := Nat.mod_le ((x &&& v) % k / 2) k
  omega

lemma triple_byte (hm : Matched divisor) (width : divisor.width=8)
    (rax : contains "RAX" divisor.value = false) :
    (divisionCode other).Triple (fun _ => True) [orOne divisor,movAx]
      fun m => DivisionFits m divisor := by
  refine .cons (Q := fun m => ∀ v, m.read divisor = some v → 0<v) (fun _ _ h => by cases h)
    (fun _ _ _ h _ hv => step_orOne hm (by omega) (by omega) h hv) ?_
  refine .cons (Q := fun m => DivisionFits m divisor) (fun _ _ h => by cases h) ?_ (.nil fun _ => id)
  intro m m' hp (h : Step other movAx m m') width' v hw hv
  obtain rfl := step_movAx h
  have pos := pos_of_movAx hm width rax hp hv
  obtain rfl := Option.some.inj (hw.symm.trans (Machine.bits_of_read hm hv))
  rw [width,QuotientFits,if_pos rfl,Machine.readReg_writeReg]
  exact ⟨pos,by simp [Width.bits]; omega⟩

lemma triple_wide {d : String} (hm : Matched divisor) (width : divisor.width ≠ 64)
    (rdx : divisor.value ∉ ["RDX","EDX","DX","DH","DL"] ∧ contains "RDX" divisor.value = false)
    (hd : dRegister divisor.width = some d) :
    (divisionCode other).Triple (fun _ => True) [orOne divisor,andD d divisor,shrD d divisor]
      fun m => DivisionFits m divisor := by
  obtain ⟨wd,hw,hpos,hmod,name⟩ := dRegister_name hd
  have same {m : Machine} {x v : ℕ} (h : (m.writeReg (.gpr wd .D) x).read divisor = some v) :
      m.read divisor = some v := by
    rw [← h]
    refine Machine.read_congr (fun r hr => (m.reg_writeReg ?_ x).symm) (m.mem_writeReg _ x).symm
    rintro ⟨rfl⟩
    exact not_uses_d rdx h hr
  refine .cons (Q := fun m => ∀ v, m.read divisor = some v → 0<v) (fun _ _ h => by cases h)
    (fun _ _ _ h _ hv => step_orOne hm hmod hpos h hv) ?_
  -- the D register is a part of the divisor, then half of that
  refine .cons (Q := fun m => ∀ v, m.read divisor = some v →
    0<v ∧ ∃ x, m.readReg (.gpr wd .D) = (x &&& v) % 2^wd.bits) (fun _ _ h => by cases h) ?_ ?_
  · intro m m' hp (h : Step other (andD d divisor) m m') v hv
    obtain ⟨v',hv'⟩ := Machine.exists_read (m := m) hv
    obtain rfl := step_andD hw name hm hv' h
    obtain rfl := Option.some.inj ((same hv).symm.trans hv')
    exact ⟨hp v hv',_,by rw [Machine.readReg_writeReg,Nat.mod_mod]⟩
  refine .cons (Q := fun m => DivisionFits m divisor) (fun _ _ h => by cases h) ?_ (.nil fun _ => id)
  intro m m' hp (h : Step other (shrD d divisor) m m') width' v hbits hv
  obtain rfl := step_shrD hw name hpos h
  obtain ⟨pos,x,hx⟩ := hp v (same hv)
  obtain rfl := Option.some.inj (hbits.symm.trans (Machine.bits_of_read hm hv))
  have less : (m.writeReg (.gpr wd .D) (m.readReg (.gpr wd .D)/2 % 2^wd.bits)).readReg
      (.gpr wd .D) < v := by
    rw [Machine.readReg_writeReg,Nat.mod_mod,hx]
    exact and_half_lt pos
  refine ⟨pos,?_⟩
  unfold QuotientFits
  rw [← hw] at width ⊢
  cases wd with
  | w64 => exact absurd rfl width
  | w32 => exact less
  | w16 => exact less
  | w8 => simp [← hw,Width.bits,dRegister] at hd

/-- The instrumentation makes the division fit. -/
theorem Guarded.triple (hm : Matched divisor) {guard : List Instruction}
    (h : Guarded divisor guard) : (divisionCode other).Triple (fun _ => True) guard
      fun m => DivisionFits m divisor := by
  cases h with
  | byte width rax => exact triple_byte hm width rax
  | wide width rdx hd => exact triple_wide hm width rdx hd

end Guard

namespace InstructionSet
variable {conf : GeneratorConf} {categories : List String}

/-- No register ends in H. -/
def LowBytes (op : OperandSpec) : Prop :=
  ∀ values width s d, op = .reg values width s d → ∀ v ∈ values, v.toList.getLast? ≠ some 'H'

lemma lowByte_getLast (v : String) : (lowByte v).toList.getLast? ≠ some 'H' := by
  unfold lowByte
  split_ifs with h
  · rw [String.toList_ofList,List.getLast?_map,h]
    decide
  · exact h

lemma reduceOperand_lowBytes {op op' : OperandSpec} (h : reduceOperand conf op = .ok (some op')) :
    LowBytes op' := by
  unfold reduceOperand at h
  split at h
  · dsimp only at h
    split_ifs at h
    · cases h
    · cases h
      rintro values width s d ⟨⟩ v hv
      obtain ⟨u,-,rfl⟩ := List.mem_map.mp hv
      exact lowByte_getLast u
  · next op hop =>
    cases h
    rintro values width s d rfl
    exact absurd rfl (hop values width s d)

/-- The instruction set has no high byte registers as explicit operands. -/
theorem init_lowBytes {raw instructions : List InstructionSpec}
    (h : init conf categories raw = .ok instructions) :
    ∀ spec ∈ instructions, ∀ op ∈ spec.operands, LowBytes op :=
  init_operands (fun _ _ => reduceOperand_lowBytes) h

end InstructionSet

section Created
variable {conf : GeneratorConf} {instructions : List InstructionSpec}

/-- Whether a name of the table is that of a general register, or of a high byte and ends in H. -/
def isGprOrHigh (p : String × RegName) : Bool :=
  match p.2 with
  | .gpr .. => true
  | .high _ => p.1.toList.getLast? = some 'H'
  | _ => false

/-- Only the high bytes are named with an H at the end. -/
lemma gpr_of_getLast {name : String} {n : RegName} (h : regName name = some n)
    (low : name.toList.getLast? ≠ some 'H') : ∃ w r, n = .gpr w r := by
  have all : registerTable.all isGprOrHigh = true := by decide +kernel
  have := List.all_eq_true.mp all _ (mem_registerTable h)
  cases n with
  | gpr w r => exact ⟨w,r,rfl⟩
  | high r => exact absurd (by simpa [isGprOrHigh] using this) low
  | _ => cases this

/-- Whether a name is that of a general register with the given width, or of none. -/
def hasWidth (k : ℕ) (v : String) : Bool :=
  match regName v.toUpper with
  | some (.gpr w _) => w.bits = k
  | some _ => false
  | none => true

/-- The registers of the table have its width. -/
lemma allRegisters_width {width : ℕ} {l : List String} (h : X86Registers.allRegisters width = some l)
    {v : String} (hv : v ∈ l) {n : RegName} (hn : regName v.toUpper = some n) :
    ∃ w r, n = .gpr w r ∧ w.bits = width := by
  have check : ∀ (k : ℕ) (l : List String), l.all (hasWidth k) = true → v ∈ l →
      ∃ w r, n = .gpr w r ∧ w.bits = k := by
    intro k l all hv
    have := List.all_eq_true.mp all v hv
    rw [hasWidth,hn] at this
    cases n with
    | gpr w r => exact ⟨w,r,rfl,by simpa using this⟩
    | _ => cases this
  unfold X86Registers.allRegisters at h
  split at h
  · cases h
    exact check 8 _ (by decide +kernel) hv
  · cases h
    exact check 16 _ (by decide +kernel) hv
  · cases h
    exact check 32 _ (by decide +kernel) hv
  · cases h
    exact check 64 _ (by decide +kernel) hv
  · cases h

lemma simdRegisters_name {width : ℕ} {l : List String}
    (h : X86Registers.simdRegisters width = some l) {v : String} (hv : v ∈ l) :
    regName v.toUpper = none := by
  have check : ∀ l : List String, (l.all fun v => regName v.toUpper = none) = true → v ∈ l →
      regName v.toUpper = none := by
    intro l all hv
    simpa using List.all_eq_true.mp all v hv
  unfold X86Registers.simdRegisters at h
  split at h
  · cases h
    exact check _ (by decide +kernel) hv
  · cases h
    exact check _ (by decide +kernel) hv
  · cases h
    exact check _ (by decide +kernel) hv
  · cases h
    exact check _ (by decide +kernel) hv
  · cases h

/-- The choices of the generator have the width that is asked for. -/
lemma choices_width {values choices : List String} {width : ℕ}
    (hc : regChoices conf values width = .ok choices)
    (low : ∀ v ∈ values, v.toList.getLast? ≠ some 'H')
    (hv : ∀ v ∈ values, v.toUpper = v ∧ ∀ n, regName v = some n → n.width = width)
    {v : String} (h : v ∈ choices) {n : RegName} (hn : regName v.toUpper = some n) :
    ∃ w r, n = .gpr w r ∧ w.bits = width := by
  unfold regChoices at hc
  split at hc
  · cases hc
  split_ifs at hc
  · split at hc
    · next l hl =>
      cases hc
      obtain ⟨l',hl',rfl⟩ := Option.map_eq_some_iff.mp hl
      exact allRegisters_width hl' (List.mem_of_mem_filter h) hn
    · cases hc
  · split at hc
    · next l hl =>
      cases hc
      rw [simdRegisters_name hl h] at hn
      cases hn
    · cases hc
  · cases hc
    obtain ⟨upper,width⟩ := hv v h
    rw [upper] at hn
    obtain ⟨w,r,rfl⟩ := gpr_of_getLast hn (low v h)
    exact ⟨w,r,rfl,width _ hn⟩

/-- The explicit registers of a generated instruction. -/
lemma FromSpec.matched {spec : InstructionSpec} {inst : Instruction} (h : FromSpec conf spec inst)
    (wf : WellFormedSpec spec) (low : ∀ op ∈ spec.operands, InstructionSet.LowBytes op)
    {op : Operand} (hop : op ∈ inst.operands) : Matched op := by
  rintro v width s d rfl n hn
  obtain ⟨o,ho,h⟩ := exists_operandSpec h.operands hop
  cases o with
  | reg values' =>
    obtain ⟨values,choices,hmem,hc,u,hu,rfl⟩ := h
    exact choices_width hc (low _ hmem values width s d rfl) (wf.registers values width s d hmem) hu hn
  | _ => cases h

lemma Matched.addBase {op : Operand} (h : Matched op) : Matched op.addBase := by
  cases op with
  | mem => rintro _ _ _ _ ⟨⟩
  | _ => exact h

/-- Code without a division, and a division with its guard. -/
inductive Divides (P : Operand → Prop) : List Instruction → Option Instruction → Prop
  | free {b : List Instruction} {inst : Option Instruction} (hb : ∀ i ∈ b, isDivision i = false)
      (hi : ∀ i, inst = some i → isDivision i = false) : Divides P b inst
  | guarded {b guard : List Instruction} {inst : Instruction} {divisor : Operand}
      {rest : List Operand} (hb : ∀ i ∈ b, isDivision i = false) (hi : isDivision inst)
      (ops : inst.operands = divisor :: rest) (hp : P divisor) (hg : Guarded divisor guard) :
      Divides P (b ++ guard) (some inst)

lemma X86SandboxPass.MemShape.before_free {inst : Instruction} {slot : Slot}
    (h : MemShape conf inst slot) : ∀ i ∈ slot.before, isDivision i = false := by
  cases h <;> simp [applyMask,X86SandboxPass.addBase,isDivision,Instruction.instrumentation]

lemma X86SandboxPass.MemShape.operands {P : Operand → Prop} (base : ∀ op, P op → P op.addBase)
    {inst inst' : Instruction} {b : List Instruction} (h : MemShape conf inst ⟨b,some inst',[]⟩)
    (hp : ∀ op ∈ inst.operands, P op) : ∀ op ∈ inst'.operands, P op := by
  cases h with
  | plain => exact hp
  | implicit => exact hp
  | explicit =>
    intro op hop
    obtain ⟨o,ho,rfl⟩ := List.mem_map.mp hop
    exact base o (hp o ho)

lemma X86SandboxPass.DivShape.divides {P : Operand → Prop} {b : List Instruction}
    {inst : Instruction} {slot : Slot} (h : DivShape ⟨b,some inst,[]⟩ slot)
    (hb : ∀ i ∈ b, isDivision i = false) (hp : ∀ op ∈ inst.operands, P op) :
    Divides P slot.before slot.inst := by
  cases h with
  | plain h => exact .free hb (by simpa using h)
  | deleted h ops =>
    refine .free (List.forall_mem_append.mpr ⟨hb,?_⟩) (by simp)
    simp [orOne,isDivision,Instruction.instrumentation]
  | byte h ops width rax =>
    simpa using Divides.guarded hb h ops (hp _ (by simp [ops])) (.byte width rax)
  | wide h ops width rdx hd =>
    simpa using Divides.guarded hb h ops (hp _ (by simp [ops])) (.wide width rdx hd)

lemma not_isBitTest {inst : Instruction} (h : isDivision inst) : isBitTest inst = false := by
  simp [isBitTest,h]

lemma not_isRepeated {inst : Instruction} (h : isDivision inst) : isRepeated inst = false := by
  simp [isRepeated,h]

lemma Divides.before_free {P : Operand → Prop} {b : List Instruction} {inst : Option Instruction}
    (h : Divides P b inst) (hn : ∀ i, inst = some i → isDivision i = false) :
    ∀ i ∈ b, isDivision i = false := by
  cases h with
  | free hb => exact hb
  | guarded _ h => simp [hn _ rfl] at h

lemma X86SandboxPass.BitShape.divides {P : Operand → Prop} {s s' : Slot} (h : BitShape s s')
    (hs : Divides P s.before s.inst) : Divides P s'.before s'.inst := by
  have other {inst : Instruction} (h : isBitTest inst) : ∀ i, some inst = some i →
      isDivision i = false := by
    rintro i ⟨⟩
    by_contra hd
    simp [not_isBitTest (by simpa using hd)] at h
  cases h with
  | gone => exact hs
  | plain => exact hs
  | register => exact hs
  | deleted h => exact .free (hs.before_free (other h)) (by simp)
  | @immediate b inst address v v' w rest h ops =>
    refine .free (hs.before_free (other h)) ?_
    rintro i ⟨⟩
    exact other h inst rfl
  | masked h ops =>
    refine .free (List.forall_mem_append.mpr ⟨hs.before_free (other h),?_⟩) (other h)
    simp [andOffset,isDivision,Instruction.instrumentation]

lemma X86SandboxPass.RepShape.divides {P : Operand → Prop} {s s' : Slot} (h : RepShape s s')
    (hs : Divides P s.before s.inst) : Divides P s'.before s'.inst := by
  cases h with
  | gone => exact hs
  | plain => exact hs
  | @masked b inst h =>
    have other : ∀ i, some inst = some i → isDivision i = false := by
      rintro i ⟨⟩
      by_contra hd
      simp [not_isRepeated (by simpa using hd)] at h
    rw [List.append_assoc]
    refine .free (List.forall_mem_append.mpr ⟨hs.before_free other,?_⟩) other
    simp [andCount,addCount,isDivision,Instruction.instrumentation]

/-- What the pass makes of an instruction, seen as code with divisions. -/
lemma X86SandboxPass.Sandboxed.divides {P : Operand → Prop} (base : ∀ op, P op → P op.addBase)
    {inst : Instruction} {slot : Slot} (h : Sandboxed conf inst slot)
    (hp : ∀ op ∈ inst.operands, P op) : Divides P slot.before slot.inst := by
  obtain ⟨s₁,s₂,s₃,s₄,h₁,h₂,h₃,h₄,h₅⟩ := h
  obtain ⟨b,inst',rfl⟩ := h₁.slot
  have := h₄.divides (h₃.divides (h₂.divides h₁.before_free (h₁.operands base hp)))
  cases h₅ <;> exact this

variable {other : Instruction → Machine → Machine → Prop}

lemma triple_free {P : Machine → Prop} {l : List Instruction} (h : ∀ i ∈ l, isDivision i = false) :
    (divisionCode other).Triple P l fun _ => True := by
  induction l generalizing P with
  | nil => exact .nil fun _ _ => trivial
  | cons i l ih =>
    refine .cons (Q := fun _ => True) (fun m _ hd => ?_) (fun _ _ _ _ => trivial)
      (ih fun j hj => h j (by simp [hj]))
    simp [h i (by simp)] at hd

lemma Scan.free {inst : Instruction} {l : List Instruction}
    (h : X86PatchUndefinedResultPass.Scan inst l) (hi : isDivision inst = false) :
    ∀ i ∈ l, isDivision i = false := by
  cases h with
  | plain => simpa using hi
  | masked =>
    refine List.forall_mem_cons.mpr ⟨?_,by simpa using hi⟩
    simp [isDivision,Instruction.instrumentation]

lemma IsPatch.not_isDivision {inst : Instruction} (h : IsPatch conf instructions inst) :
    isDivision inst = false := by
  obtain ⟨spec,hs,h⟩ := h
  have := (List.mem_filter.mp hs).2
  rw [isDivision,h.name_eq]
  simp_all [requiresSandbox]

lemma isBitScan_of_isDivision {inst : Instruction} (h : isDivision inst) :
    X86PatchUndefinedResultPass.isBitScan inst = false := by
  simp only [isDivision,decide_eq_true_eq,List.mem_cons,List.not_mem_nil,or_false] at h
  rcases h with h | h <;> simp [X86PatchUndefinedResultPass.isBitScan,h]

lemma Piece.divides (wf : ∀ spec ∈ instructions, WellFormedSpec spec)
    (low : ∀ spec ∈ instructions, ∀ op ∈ spec.operands, InstructionSet.LowBytes op)
    {l : List Instruction} (h : Piece conf instructions l) :
    (divisionCode other).Triple (fun _ => True) l fun _ => True := by
  have matched {inst : Instruction} {slot : Slot} (hg : Generated conf instructions inst)
      (hs : Sandboxed conf inst slot) : Divides Matched slot.before slot.inst := by
    obtain ⟨spec,hspec,-,hfrom⟩ := hg
    exact hs.divides (P := Matched) (fun _ => Matched.addBase)
      fun op => hfrom.matched (wf spec hspec) (low spec hspec)
  cases h with
  | patch hi hl => exact triple_free (Scan.free hl hi.not_isDivision)
  | stc => exact triple_free (by simp [isDivision,Instruction.instrumentation])
  | @kept inst inst' slot l hg hs hi hl =>
    have divides := matched hg hs
    rw [hi] at divides
    generalize slot.before = b at divides
    cases divides with
    | free hb hn => exact triple_free (List.forall_mem_append.mpr ⟨hb,Scan.free hl (hn _ rfl)⟩)
    | guarded hb hd ops hm hguard =>
      rw [hl.eq_of_not (isBitScan_of_isDivision hd),List.append_assoc]
      refine (triple_free hb).append ((hguard.triple hm).append ?_)
      exact .cons (fun m fits _ => ⟨_,_,ops,fits⟩) (fun _ _ _ _ => trivial) (.nil fun _ => id)
  | deleted hg hs hi =>
    have divides := matched hg hs
    rw [hi] at divides
    exact triple_free (divides.before_free (by simp))

/-- Divisions of created test cases never fault: whatever is drawn, whatever the instructions of
the test case do and in whatever state a block is entered, a division is only reached with a
divisor that is not zero and a quotient that fits. -/
theorem createTestCase_divisionFits {categories : List String} {raw : List InstructionSpec}
    (set : InstructionSet.init conf categories raw = .ok instructions)
    (wf : ∀ spec ∈ instructions, WellFormedSpec spec) {t t' : Stream' ℕ} {tc : TestCase}
    (created : createTestCase conf instructions t = .ok (tc,t')) {bb : BasicBlock}
    (hbb : bb ∈ tc.blocks) {pre post : List Instruction} {inst : Instruction}
    (place : bb.instructions = pre ++ inst :: post) (div : isDivision inst) {m m' : Machine}
    (run : (divisionCode other).Runs pre m m') :
    ∃ divisor rest, inst.operands = divisor :: rest ∧ DivisionFits m' divisor := by
  have low := InstructionSet.init_lowBytes set
  obtain ⟨pieces,hpieces,hp⟩ := (createTestCase_shaped wf).ok created bb hbb
  have triple : (divisionCode other).Triple (fun _ => True) bb.instructions fun _ => True := by
    rw [hpieces,← List.flatMap_id]
    exact .flatMap fun p h => (hp p h).divides wf low
  exact (triple m trivial).1 pre inst post place m' run div

end Created

section Witness

/-- `DIV BX`. -/
def divSpec : InstructionSpec where
  name := "DIV"
  category := "BASE-BINARY"
  operands := [.reg ["BX"] 16 true false]
  implicitOperands := [.reg ["AX"] 16 true true,.reg ["DX"] 16 true true,
    .flags ⟨[.undef,.undef,.undef,.undef,.undef,.none,.none,.none,.undef],rfl⟩]

/-- `ADD RAX, imm`. -/
def addSpec : InstructionSpec where
  name := "ADD"
  category := "BASE-BINARY"
  operands := [.reg ["RAX"] 64 true true,.imm [] 32]
  implicitOperands := [.flags ⟨[.w,.w,.w,.w,.w,.none,.none,.none,.w],rfl⟩]

/-- One block with one instruction, which does not access memory. -/
def oneInstruction : GeneratorConf where
  minBbPerFunction := 1
  maxBbPerFunction := 1
  testCaseSize := 1
  avgMemAccesses := 0

lemma exists_of_blocks {conf : GeneratorConf} {instructions : List InstructionSpec} {t : Stream' ℕ}
    {code : List (List Instruction)} (h : ((createTestCase conf instructions t).toOption.map
      fun r => r.1.blocks.map (·.instructions)) = some code) :
    ∃ tc t', createTestCase conf instructions t = .ok (tc,t') ∧
      ∀ l ∈ code, ∃ bb ∈ tc.blocks, bb.instructions = l := by
  obtain ⟨r,hr,rfl⟩ := Option.map_eq_some_iff.mp h
  cases created : createTestCase conf instructions t with
  | error e => simp [created,Except.toOption] at hr
  | ok r' =>
    simp only [created,Except.toOption,Option.some.injEq] at hr
    subst hr
    exact ⟨r'.1,r'.2,rfl,fun l hl => List.mem_map.mp hl⟩

lemma wellFormed_division : ∀ spec ∈ [divSpec,addSpec], WellFormedSpec spec := by
  have bx : "BX".toUpper = "BX" ∧ regName "BX" = some (.gpr .w16 .B) := by decide +kernel
  have rax : "RAX".toUpper = "RAX" ∧ regName "RAX" = some (.gpr .w64 .A) := by decide +kernel
  simp only [List.forall_mem_cons,List.not_mem_nil,false_implies,implies_true,and_true]
  constructor
  · exact
      { flags := by simp [divSpec,OperandSpec.flagsOperand]
        registers := by simp [divSpec,bx,RegName.width,Width.bits]
        division := by simp [divSpec]
        bitTest := by simp [divSpec,bitTestNames]
        bitScan := by simp [divSpec] }
  · exact
      { flags := by simp [addSpec,OperandSpec.flagsOperand]
        registers := by simp [addSpec,rax,RegName.width,Width.bits]
        division := by simp [addSpec]
        bitTest := by simp [addSpec,bitTestNames]
        bitScan := by simp [addSpec] }

/-- The guard of `DIV BX` can be executed in every state. -/
lemma runs_guard (m : Machine) : ∃ m', (divisionCode fun _ _ _ => False).Runs
    [orOne (.reg "BX" 16 true false),andD "DX" (.reg "BX" 16 true false),
      shrD "DX" (.reg "BX" 16 true false)] m m' := by
  have bx : regName "BX" = some (.gpr .w16 .B) := by decide +kernel
  have dx : regName "DX" = some (.gpr .w16 .D) := by decide +kernel
  have value (m : Machine) : m.source 16 (.reg "BX" 16 true false) =
      some (m.readReg (.gpr .w16 .B)) := by
    simp [Machine.source,Operand.bits,Machine.read_reg,bx,RegName.width,Width.bits]
  have first (m : Machine) : ∃ m', m.exec (orOne (.reg "BX" 16 true false)) = some m' :=
    ⟨_,Machine.operate_reg bx (Machine.source_one (by decide) 8)⟩
  have second (m : Machine) : ∃ m', m.exec (andD "DX" (.reg "BX" 16 true false)) = some m' :=
    ⟨_,Machine.operate_reg dx (value m)⟩
  have third (m : Machine) : ∃ m', m.exec (shrD "DX" (.reg "BX" 16 true false)) = some m' :=
    ⟨_,Machine.operate_reg dx (Machine.source_one (by decide) 8)⟩
  obtain ⟨m₁,h₁⟩ := first m
  obtain ⟨m₂,h₂⟩ := second m₁
  obtain ⟨m₃,h₃⟩ := third m₂
  have step {inst : Instruction} {m m' : Machine} (h : m.exec inst = some m') :
      Step (fun _ _ _ => False) inst m m' := (step_of_exec h).mpr rfl
  exact ⟨m₃,.cons (step h₁) (.cons (step h₂) (.cons (step h₃) (.nil m₃)))⟩

/-- The division of a created test case is reached, with a divisor that fits. -/
theorem createTestCase_divisionFits_bx : ∃ tc t' m m',
    createTestCase oneInstruction [divSpec,addSpec] (Stream'.const 0) = .ok (tc,t') ∧
    (divisionCode fun _ _ _ => False).Runs
      [orOne (.reg "BX" 16 true false),andD "DX" (.reg "BX" 16 true false),
        shrD "DX" (.reg "BX" 16 true false)] m m' ∧
    DivisionFits m' (.reg "BX" 16 true false) := by
  have code : ((createTestCase oneInstruction [divSpec,addSpec] (Stream'.const 0)).toOption.map
      fun r => r.1.blocks.map (·.instructions)) = some [[],
        [orOne (.reg "BX" 16 true false),andD "DX" (.reg "BX" 16 true false),
          shrD "DX" (.reg "BX" 16 true false),
          { name := "DIV", category := "BASE-BINARY", operands := [.reg "BX" 16 true false]
            implicitOperands := [.reg "AX" 16 true true,.reg "DX" 16 true true,
              .flags ⟨[.undef,.undef,.undef,.undef,.undef,.none,.none,.none,.undef],rfl⟩] }],[]] := by
    decide +kernel
  have set : InstructionSet.init oneInstruction [] [divSpec,addSpec] = .ok [divSpec,addSpec] := by
    decide +kernel
  obtain ⟨tc,t',created,blocks⟩ := exists_of_blocks code
  obtain ⟨bb,hbb,hl⟩ := blocks _ (List.mem_cons_of_mem _ List.mem_cons_self)
  obtain ⟨m',run⟩ := runs_guard ⟨fun _ => 0,fun _ => 0⟩
  have place : bb.instructions = [_,_,_] ++ _ :: [] := hl
  obtain ⟨divisor,rest,ops,fits⟩ := createTestCase_divisionFits set wellFormed_division created hbb
    place rfl run
  obtain ⟨rfl,-⟩ := List.cons.inj ops
  exact ⟨tc,t',_,m',created,run,fits⟩

end Witness

end ProteanAmulet.Generator
