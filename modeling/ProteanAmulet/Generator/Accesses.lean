import ProteanAmulet.Generator.Division

/-! Memory accesses of created test cases stay in the sandbox behind R14. -/
namespace ProteanAmulet.Generator
open X86SandboxPass X86PatchUndefinedResultPass

/-- The `n` bytes from `a` on lie in the region of the given length. -/
def Within (start : BitVec 64) (length : ℕ) (a : BitVec 64) (n : ℕ) : Prop :=
  ∀ i<n, (a+BitVec.ofNat 64 i-start).toNat<length

/-- How far a bit test with a register offset moves away from its address: by whole operands, up
or down. -/
def displacement (m : Machine) (inst : Instruction) : BitVec 64 :=
  match inst.operands with
  | .mem _ width _ _ :: .reg name .. :: _ =>
    match isBitTest inst, regName name with
    | true, some n => BitVec.ofInt 64 (((width/8 : ℕ) : ℤ)*
        ((BitVec.ofNat n.width (m.readReg n)).toInt/width))
    | _, _ => 0
  | _ => 0

/-- The number of elements that a string instruction treats. -/
def count (m : Machine) (inst : Instruction) : ℕ :=
  if contains "REP" inst.name then (m.reg .C).toNat else 1

/-- What an instruction may access while R14 is in place: with an explicit operand, a region as
long as the sandbox and the operand, and as a string instruction, that region and 256 elements on
both sides. -/
structure Contained (base : BitVec 64) (size : ℕ) (inst : Instruction) (m : Machine) : Prop where
  r14 : m.reg .R14 = base
  explicit : ∀ terms width s d, .mem terms width s d ∈ inst.operands → ∀ a, m.address terms = some a →
    Within base (size+width/8) (a+displacement m inst) (width/8)
  string : inst.operands = [] → ∀ v ∈ ["RSI","RDI"], ∀ width s d,
    .mem [v] width s d ∈ inst.implicitOperands → ∀ a, m.address [v] = some a →
    ∀ k<count m inst, ∀ e ∈ [a+BitVec.ofNat 64 (k*(width/8)),a-BitVec.ofNat 64 (k*(width/8))],
      Within (base-BitVec.ofNat 64 (256*(width/8))) (size+width/8+2*(256*(width/8))) e (width/8)

/-- Code whose accesses must stay in the sandbox. -/
def accessCode (other : Instruction → Machine → Machine → Prop) (base : BitVec 64) (size : ℕ) :
    Straightline Instruction Machine where
  Step := Step other
  Obligation := Contained base size

/-- The base is in place, and the register `v` holds an offset into the sandbox. -/
def Masked (base : BitVec 64) (size : ℕ) (v : String) (m : Machine) : Prop :=
  m.reg .R14 = base ∧ ∀ r, regName v = some (.gpr .w64 r) → (m.reg r).toNat<size

section Mask
variable {conf : GeneratorConf}

lemma digits_replicate_one (n a : ℕ) : (List.replicate n '1').foldlM (fun n c =>
    (digit c).bind fun d => if d<2 then some (n*2+d) else none) a = some (a*2^n+(2^n-1)) := by
  have one : digit '1' = some 1 := by decide
  induction n generalizing a with
  | zero => simp
  | succ n ih =>
    have pos := Nat.two_pow_pos n
    rw [List.replicate_succ,List.foldlM_cons,one]
    simp only [Option.bind_some,Nat.one_lt_ofNat,if_true,Option.bind_eq_bind,ih]
    have shift : (a*2+1)*2^n = a*2^(n+1)+2^n := by ring
    rw [shift]
    congr 1
    omega

lemma digits_replicate_zero (n a : ℕ) : (List.replicate n '0').foldlM (fun n c =>
    (digit c).bind fun d => if d<2 then some (n*2+d) else none) a = some (a*2^n) := by
  have zero : digit '0' = some 0 := by decide
  induction n generalizing a with
  | zero => simp
  | succ n ih =>
    rw [List.replicate_succ,List.foldlM_cons,zero]
    simp only [Option.bind_some,Nat.ofNat_pos,if_true,Option.bind_eq_bind,ih]
    congr 1
    ring

/-- The mask is an offset into the sandbox. -/
lemma immValue_mask {k : ℕ} (h : conf.inputMainRegionSize = 2^k) :
    ∃ x : ℕ, immValue (sandboxAddressMask conf) = some (x : ℤ) ∧ x<conf.inputMainRegionSize := by
  set z := conf.memoryAccessZeroedBits with hz
  have log : Nat.log2 conf.inputMainRegionSize = k := by rw [h,Nat.log2_two_pow]
  have text : (sandboxAddressMask conf).toList =
      '0' :: 'b' :: (List.replicate (k-z) '1' ++ List.replicate z '0') := by
    simp only [sandboxAddressMask,log,String.toList_append,String.toList_ofList]
    rfl
  refine ⟨(2^(k-z)-1)*2^z,?_,?_⟩
  · have value : digits 2 (List.replicate (k-z) '1' ++ List.replicate z '0') =
        some ((2^(k-z)-1)*2^z) := by
      rw [digits,List.foldlM_append,digits_replicate_one]
      simp only [Option.bind_eq_bind,Option.bind_some,digits_replicate_zero,Nat.zero_mul,
        Nat.zero_add]
    simp [immValue,text,value]
  · rw [h]
    rcases Nat.le_total z k with hk | hk
    · calc (2^(k-z)-1)*2^z < 2^(k-z)*2^z :=
          Nat.mul_lt_mul_of_pos_right (Nat.sub_lt (Nat.two_pow_pos _) Nat.one_pos) (Nat.two_pow_pos _)
        _ = 2^k := by rw [← pow_add,Nat.sub_add_cancel hk]
    · simp [Nat.sub_eq_zero_of_le hk]

/-- The mask as an operand of a 64-bit instruction. -/
lemma source_mask {k : ℕ} (h : conf.inputMainRegionSize = 2^k) (m : Machine) (w : ℕ) :
    ∃ x, m.source 64 (.imm (sandboxAddressMask conf) w) = some x ∧ x<conf.inputMainRegionSize := by
  obtain ⟨x,hx,hlt⟩ := immValue_mask h
  have small : x<2^31 := by
    have fits := conf.fits
    omega
  have encodable : Encodable 64 x := by
    rw [Encodable,if_pos rfl]
    exact ⟨by omega,by exact_mod_cast small⟩
  exact ⟨x,Machine.source_imm hx encodable (by omega) w,hlt⟩

end Mask

section Steps
variable {other : Instruction → Machine → Machine → Prop} {base : BitVec 64} {size : ℕ}
  {m m' : Machine} {inst : Instruction} {v : String}

lemma within_offset {x : BitVec 64} (h : x.toNat<size) (n : ℕ) :
    Within base (size+n) (base+x) n := by
  intro i hi
  have shift : base+x+BitVec.ofNat 64 i-base = x+BitVec.ofNat 64 i := by
    bv_omega
  rw [shift,BitVec.toNat_add,BitVec.toNat_ofNat]
  omega

/-- All explicit memory operands are sums of R14 and `v`. -/
def Based (v : String) (ops : List Operand) : Prop :=
  ∀ op ∈ ops, op.isMem → ∃ width s d, op = .mem ["R14",v] width s d

lemma based_of_not {ops : List Operand} (h : ∀ op ∈ ops, op.isMem = false) : Based v ops := by
  intro op hop hm
  rw [h op hop] at hm
  cases hm

lemma address_based (h : Masked base size v m) {a : BitVec 64}
    (ha : m.address ["R14",v] = some a) : ∃ x : BitVec 64, a = base+x ∧ x.toNat<size := by
  have r14 : regName "R14" = some (.gpr .w64 .R14) := by decide +kernel
  obtain ⟨r,hr⟩ := Machine.terms_of_address ha v (by simp)
  refine ⟨m.reg r,?_,h.2 r hr⟩
  have value : m.address ["R14",v] = some (m.reg .R14+m.reg r) := by
    simp [Machine.address,Machine.term,r14,hr]
  rw [value,h.1] at ha
  exact (Option.some.inj ha).symm

/-- Operands behind the base are in the sandbox. -/
lemma contained_of_masked (h : Masked base size v m) (based : Based v inst.operands)
    (hd : displacement m inst = 0)
    (string : inst.operands = [] → ∀ op ∈ inst.implicitOperands, op.isMem = false) :
    Contained base size inst m where
  r14 := h.1
  explicit terms width s d hmem a ha := by
    obtain ⟨_,_,_,hop⟩ := based _ hmem rfl
    cases hop
    obtain ⟨x,rfl,hx⟩ := address_based h ha
    rw [hd,show base+x+0 = base+x from BitVec.add_zero _]
    exact within_offset hx _
  string hops u _ width s d hmem := by cases string hops _ hmem

/-- What an instruction spares stays masked. -/
lemma masked_of_spares (frames : Frames other) (h : Masked base size v m)
    (spares : inst.Spares .R14) (hv : ∀ r, regName v = some (.gpr .w64 r) → inst.Spares r)
    (step : Step other inst m m') : Masked base size v m' := by
  refine ⟨(step_spares frames spares step).trans h.1,fun r hr => ?_⟩
  rw [step_spares frames (hv r hr) step]
  exact h.2 r hr

lemma spares_instrumentation {name : String} {ops : List Operand} {r : Gpr}
    (h : ∀ op ∈ ops, op.target ≠ some r) : (Instruction.instrumentation name ops).Spares r where
  first op hop := h op (List.mem_of_mem_head? hop)
  dest op hop _ := h op (by simpa [Instruction.instrumentation,Instruction.allOperands] using hop)
  implicit := by simp [Instruction.instrumentation]

lemma displacement_of_not (h : isBitTest inst = false) : displacement m inst = 0 := by
  unfold displacement
  split
  · rw [h]
  · rfl

/-- Instrumentation that changes neither R14 nor `v`. -/
lemma triple_instrumentation (frames : Frames other) {name : String} {op : Operand}
    {ops : List Operand} (based : Based v (op :: ops)) (hn : name ∉ bitTestNames)
    (ht : ∀ r, r = .R14 ∨ regName v = some (.gpr .w64 r) → ∀ o ∈ op :: ops, o.target ≠ some r) :
    (accessCode other base size).Triple (Masked base size v)
      [.instrumentation name (op :: ops)] (Masked base size v) := by
  refine .cons (Q := Masked base size v) (fun m h => ?_) (fun m m' h step => ?_) (.nil fun _ => id)
  · refine contained_of_masked h based (displacement_of_not ?_) (by simp [Instruction.instrumentation])
    simp [isBitTest,Instruction.instrumentation,hn]
  · exact masked_of_spares frames h (spares_instrumentation (ht .R14 (Or.inl rfl)))
      (fun r hr => spares_instrumentation (ht r (Or.inr hr))) step

lemma source_small {width x k : ℕ} {text : String} (hw : width ∈ [8,16,32,64])
    (hx : immValue text = some (x : ℤ)) (small : x<2^8) :
    m.source width (.imm text k) = some x := by
  simp only [List.mem_cons,List.not_mem_nil,or_false] at hw
  refine Machine.source_imm hx ?_ ?_ k
  · unfold Encodable
    rcases hw with rfl | rfl | rfl | rfl <;> norm_num <;> omega
  · rcases hw with rfl | rfl | rfl | rfl <;> omega

lemma applyMask_eq {conf : GeneratorConf} (upper : v.toUpper = v) {w : ℕ} {s d : Bool} :
    applyMask conf (.mem [v] w s d) = .instrumentation "AND"
      [.reg v w true true,.imm (sandboxAddressMask conf) (min w 32)] := by
  change Instruction.instrumentation "AND" [.reg v.toUpper w true true,_] = _
  rw [upper]
  rfl

lemma addBase_eq (upper : v.toUpper = v) {w : ℕ} {s d : Bool} :
    X86SandboxPass.addBase (.mem [v] w s d) = .instrumentation "ADD"
      [.reg v w true true,.reg "R14" 64 true false] := by
  change Instruction.instrumentation "ADD" [.reg v.toUpper w true true,_] = _
  rw [upper]

/-- R14 as an operand of a 64-bit instruction. -/
lemma source_base (m : Machine) : m.source 64 (.reg "R14" 64 true false) =
    some (m.reg .R14).toNat := by
  have r14 : regName "R14" = some (.gpr .w64 .R14) := by decide +kernel
  simp [Machine.source,Operand.bits,Machine.read_reg,r14,RegName.width,Width.bits,Machine.toNat_reg]

/-- The mask of a memory access. -/
lemma triple_applyMask {conf : GeneratorConf} {k : ℕ} (pow : conf.inputMainRegionSize = 2^k)
    (frames : Frames other) (upper : v.toUpper = v)
    (hv : (regName v).bind RegName.base ≠ some .R14) {w : ℕ} {s d : Bool} :
    (accessCode other base conf.inputMainRegionSize).Triple
      (Masked base conf.inputMainRegionSize "") [applyMask conf (.mem [v] w s d)]
      (Masked base conf.inputMainRegionSize v) := by
  rw [applyMask_eq upper]
  refine .cons (Q := Masked base _ v) (fun m h => ?_) (fun m m' h step => ?_) (.nil fun _ => id)
  · refine contained_of_masked h (based_of_not (by simp [Instruction.instrumentation,Operand.isMem]))
      (displacement_of_not ?_) (by simp [Instruction.instrumentation])
    simp [isBitTest,Instruction.instrumentation,bitTestNames]
  · have spares : (Instruction.instrumentation "AND" [.reg v w true true,
        .imm (sandboxAddressMask conf) (min w 32)]).Spares .R14 :=
      spares_instrumentation (by simpa [Operand.target] using hv)
    refine ⟨(step_spares frames spares step).trans h.1,fun r hr => ?_⟩
    obtain ⟨x,hx,hlt⟩ := source_mask pow m (min w 32)
    obtain rfl := step_and hr hx step
    rw [Machine.toNat_reg,Machine.readReg_writeReg]
    calc (m.readReg (.gpr .w64 r) &&& x) % 2^64 % 2^64 ≤ m.readReg (.gpr .w64 r) &&& x :=
          (Nat.mod_le _ _).trans (Nat.mod_le _ _)
      _ ≤ x := Nat.and_le_right
      _ < conf.inputMainRegionSize := hlt

lemma triple_andOffset (frames : Frames other) {offset : Operand} (mem : offset.isMem = false)
    (ht : offset.target ≠ some .R14) :
    (accessCode other base size).Triple (Masked base size v) [andOffset offset]
      fun m => Masked base size v m ∧ ∀ name w s d, offset = .reg name w s d →
        ∀ n, regName name = some n → m.readReg n ≤ 7 := by
  refine .cons (Q := fun m => Masked base size v m ∧ ∀ name w s d, offset = .reg name w s d →
    ∀ n, regName name = some n → m.readReg n ≤ 7) (fun m h => ?_)
    (fun m m' h (step : Step other (andOffset offset) m m') => ?_) (.nil fun _ => id)
  · refine contained_of_masked h (based_of_not ?_) (displacement_of_not ?_)
      (by simp [andOffset,Instruction.instrumentation])
    · exact List.forall_mem_cons.mpr ⟨mem,by simp [Operand.isMem]⟩
    · simp [isBitTest,andOffset,Instruction.instrumentation,bitTestNames]
  · have spares : ∀ r, offset.target ≠ some r → (andOffset offset).Spares r := fun r hr =>
      spares_instrumentation (by simpa [Operand.target] using hr)
    have base_eq := (step_spares frames (spares .R14 ht) step).trans h.1
    by_cases known : ∃ name w s d n, offset = .reg name w s d ∧ regName name = some n
    · obtain ⟨name,w,s,d,n,rfl,hn⟩ := known
      have seven : m.source n.width (.imm mask3bits 8) = some 7 :=
        source_small (regName_width hn) (by decide +kernel) (by norm_num)
      obtain rfl := step_and hn seven step
      have less : (m.readReg n &&& 7) % 2^n.width ≤ m.readReg n :=
        (Nat.mod_le _ _).trans Nat.and_le_left
      refine ⟨⟨base_eq,fun r hr => (m.toNat_writeReg_le less r).trans_lt (h.2 r hr)⟩,?_⟩
      rintro name' w' s' d' ⟨⟩ n' hn'
      obtain rfl := Option.some.inj (hn.symm.trans hn')
      rw [Machine.readReg_writeReg_self]
      exact ((Nat.mod_le _ _).trans (Nat.mod_le _ _)).trans Nat.and_le_right
    · have none : offset.target = none := by
        cases offset with
        | reg name w s d =>
          cases hn : regName name with
          | none => rw [Operand.target,hn,Option.bind_none]
          | some n => exact absurd ⟨name,w,s,d,n,rfl,hn⟩ known
        | _ => rfl
      refine ⟨masked_of_spares frames h (spares _ ht) (fun r _ => spares r (by simp [none])) step,?_⟩
      rintro name w s d rfl n hn
      exact absurd ⟨name,w,s,d,n,rfl,hn⟩ known

lemma rcx : regName "RCX" = some (.gpr .w64 .C) := by decide +kernel

lemma step_andCount (h : Step other andCount m m') :
    m' = m.writeReg (.gpr .w64 .C) ((m.readReg (.gpr .w64 .C) &&& 255) % 2^64) :=
  step_and rcx (source_small (by decide) (by decide +kernel) (by norm_num)) h

lemma step_addCount (h : Step other addCount m m') :
    m' = m.writeReg (.gpr .w64 .C) ((m.readReg (.gpr .w64 .C)+1) % 2^64) :=
  step_add rcx (source_small (by decide) (by decide +kernel) (by norm_num)) h

/-- The instructions that bound RCX leave at most 256 in it and change nothing else. -/
lemma triple_counts {P : Machine → Prop} (hP : ∀ m, P m → m.reg .R14 = base)
    (keep : ∀ m x, P m → x ≤ 256 → P (m.writeReg (.gpr .w64 .C) x)) :
    (accessCode other base size).Triple P [andCount,addCount]
      fun m => P m ∧ (m.reg .C).toNat ≤ 256 := by
  have contained {i : Instruction} (hi : i = andCount ∨ i = addCount) {m : Machine} (h : P m) :
      Contained base size i m := by
    have masked : Masked base size "" m := ⟨hP m h,by simp [show regName "" = none by decide +kernel]⟩
    rcases hi with rfl | rfl
    · exact contained_of_masked masked (based_of_not (by
        simp [andCount,Instruction.instrumentation,Operand.isMem])) (displacement_of_not (by
        simp [isBitTest,andCount,Instruction.instrumentation,bitTestNames]))
        (by simp [andCount,Instruction.instrumentation])
    · exact contained_of_masked masked (based_of_not (by
        simp [addCount,Instruction.instrumentation,Operand.isMem])) (displacement_of_not (by
        simp [isBitTest,addCount,Instruction.instrumentation,bitTestNames]))
        (by simp [addCount,Instruction.instrumentation])
  refine .cons (Q := fun m => P m ∧ m.readReg (.gpr .w64 .C) ≤ 255) (fun m h => contained (.inl rfl) h)
    (fun m m' h (step : Step other andCount m m') => ?_) ?_
  · obtain rfl := step_andCount step
    have small : (m.readReg (.gpr .w64 .C) &&& 255) % 2^64 ≤ 255 :=
      (Nat.mod_le _ _).trans Nat.and_le_right
    refine ⟨keep m _ h (by omega),?_⟩
    rw [Machine.readReg_writeReg]
    exact (Nat.mod_le _ _).trans small
  · refine .cons (Q := fun m => P m ∧ (m.reg .C).toNat ≤ 256) (fun m h => contained (.inr rfl) h.1)
      (fun m m' h (step : Step other addCount m m') => ?_) (.nil fun _ => id)
    obtain rfl := step_addCount step
    have small : (m.readReg (.gpr .w64 .C)+1) % 2^64 ≤ 256 := (Nat.mod_le _ _).trans (by omega)
    refine ⟨keep m _ h.1 small,?_⟩
    rw [Machine.toNat_reg,Machine.readReg_writeReg]
    exact (Nat.mod_le _ _).trans small

lemma masked_writeReg_c (h : Masked base size v m) {x : ℕ} (hx : x ≤ 256) (hsize : 256<size) :
    Masked base size v (m.writeReg (.gpr .w64 .C) x) := by
  refine ⟨(m.reg_writeReg (by simp [RegName.base]) x).trans h.1,fun r hr => ?_⟩
  by_cases hc : r = .C
  · subst hc
    rw [Machine.toNat_reg,Machine.readReg_writeReg]
    exact (Nat.mod_le _ _).trans_lt (by omega)
  · rw [m.reg_writeReg (by simpa [RegName.base] using Ne.symm hc) x]
    exact h.2 r hr

lemma displacement_of_le {address offset : Operand} {rest : List Operand}
    (ops : inst.operands = address :: offset :: rest)
    (h : ∀ name w s d, offset = .reg name w s d → ∀ n, regName name = some n → m.readReg n ≤ 7) :
    displacement m inst = 0 := by
  unfold displacement
  split
  · next width _ _ name w s d rest' ops' =>
    obtain ⟨rfl,hrest⟩ := List.cons.inj (ops.symm.trans ops')
    obtain ⟨rfl,-⟩ := List.cons.inj hrest
    split
    · next n _ hn =>
      have small := h name w s d rfl n hn
      have int : (BitVec.ofNat n.width (m.readReg n)).toInt = m.readReg n := by
        have big : 2^8 ≤ 2^n.width := by
          have := regName_width hn
          simp only [List.mem_cons,List.not_mem_nil,or_false] at this
          exact Nat.pow_le_pow_right (by norm_num) (by omega)
        have value : (BitVec.ofNat n.width (m.readReg n)).toNat = m.readReg n := by
          rw [BitVec.toNat_ofNat,Nat.mod_eq_of_lt (by omega)]
        rw [BitVec.toInt_eq_toNat_of_lt (by omega),value]
      rw [int]
      have zero : ((width/8 : ℕ) : ℤ)*((m.readReg n : ℤ)/width) = 0 := by
        by_cases hw : width<8
        · rw [Nat.div_eq_of_lt hw]
          simp
        · rw [Int.ediv_eq_zero_of_lt (by omega) (by omega),mul_zero]
      rw [zero]
      rfl
    · rfl
  · rfl

end Steps

/-- An instruction after its memory access has been sandboxed. Instrumentation for the other
loops may only write to registers when `v` names none. -/
structure Sited (v : String) (inst : Instruction) : Prop where
  based : Based v inst.operands
  targets : ∀ op ∈ inst.operands, op.target ≠ some .R14
  implicit : ∀ op ∈ inst.implicitOperands, .R14 ∉ op.uses
  division : isDivision inst → ∀ op rest, inst.operands = op :: rest → regName v = none ∨ op.isMem
  bitTest : isBitTest inst → ∀ a o rest, inst.operands = a :: o :: rest → o.isMem = false
  bitScan : isBitScan inst → ∀ t o rest, inst.operands = t :: o :: rest →
    regName v = none ∨ o.isMem
  string : inst.operands = [] → ∀ op ∈ inst.implicitOperands, op.isMem = false

namespace Sited
variable {other : Instruction → Machine → Machine → Prop} {base : BitVec 64} {size : ℕ}
  {inst : Instruction} {v : String}

lemma target_mem_uses {op : Operand} {r : Gpr} (h : op.target = some r) : r ∈ op.uses := by
  cases op with
  | reg => exact Option.mem_toList.mpr h
  | _ => cases h

lemma target_of_isMem {op : Operand} (h : op.isMem) : op.target = none := by
  cases op with
  | mem => rfl
  | _ => cases h

lemma spares (h : Sited v inst) : inst.Spares .R14 where
  first op hop := h.targets op (List.mem_of_mem_head? hop)
  dest op hop _ ht := by
    rcases List.mem_append.mp hop with hop | hop
    · exact h.targets op hop ht
    · exact h.implicit op hop (target_mem_uses ht)
  implicit := h.implicit

/-- `v` is not a register that the text of the divisor would have to name. -/
lemma not_named {divisor : Operand} (based : Based v [divisor])
    (hd : regName v = none ∨ divisor.isMem) {name : String} {r : Gpr}
    (only : ∀ t, regName t = some (.gpr .w64 r) → t = name)
    (text : contains name divisor.value = false) : regName v ≠ some (.gpr .w64 r) := by
  intro hv
  rcases hd with hd | hd
  · rw [hv] at hd
    cases hd
  · obtain ⟨width,s,d,rfl⟩ := based divisor (by simp) hd
    rw [← only v hv,contains_term (by simp)] at text
    cases text

lemma target_ne {divisor : Operand} (hd : regName v = none ∨ divisor.isMem)
    (h14 : divisor.target ≠ some .R14) {r : Gpr}
    (hr : r = .R14 ∨ regName v = some (.gpr .w64 r)) : divisor.target ≠ some r := by
  rcases hr with rfl | hr
  · exact h14
  · rcases hd with hd | hd
    · rw [hr] at hd
      cases hd
    · simp [target_of_isMem hd]

/-- A register that instrumentation writes to is neither R14 nor `v`. -/
lemma written_ne {name : String} {n : RegName} (hn : regName name = some n) {r' : Gpr}
    (hb : n.base = some r') (h14 : r' ≠ .R14) (hv : regName v ≠ some (.gpr .w64 r')) {r : Gpr}
    (hr : r = .R14 ∨ regName v = some (.gpr .w64 r)) {w : ℕ} {s d : Bool} :
    (Operand.reg name w s d).target ≠ some r := by
  rw [Operand.target,hn,Option.bind_some,hb]
  rintro ⟨rfl⟩
  rcases hr with rfl | hr
  · exact h14 rfl
  · exact hv hr

/-- The guards of a division. -/
lemma div (frames : Frames other) (hs : Sited v inst) {b : List Instruction} {slot : Slot}
    (h : DivShape ⟨b,some inst,[]⟩ slot) {P : Machine → Prop}
    (hb : (accessCode other base size).Triple P b (Masked base size v)) :
    (accessCode other base size).Triple P slot.before (Masked base size v) := by
  have one {divisor : Operand} {rest : List Operand} (hi : isDivision inst)
      (ops : inst.operands = divisor :: rest) : (accessCode other base size).Triple
        (Masked base size v) [orOne divisor] (Masked base size v) := by
    refine triple_instrumentation frames ?_ (by decide) fun r hr => ?_
    · refine List.forall_mem_cons.mpr ⟨hs.based divisor (by simp [ops]),by simp [Operand.isMem]⟩
    · refine List.forall_mem_cons.mpr ⟨?_,by simp [Operand.target]⟩
      exact target_ne (hs.division hi _ _ ops) (hs.targets divisor (by simp [ops])) hr
  cases h with
  | plain => exact hb
  | deleted hi ops => exact hb.append (one hi ops)
  | @byte b inst divisor rest hi ops width rax =>
    have ax : regName "AX" = some (.gpr .w16 .A) := by decide +kernel
    have based : Based v [divisor] :=
      List.forall_mem_singleton.mpr (hs.based divisor (by simp [ops]))
    have free := not_named based (hs.division hi _ _ ops) only_rax rax
    refine (hb.append (one hi ops)).append (triple_instrumentation frames
      (based_of_not (by simp [Operand.isMem])) (by decide) fun r hr => ?_)
    exact List.forall_mem_cons.mpr ⟨written_ne ax rfl (by decide) free hr,by simp [Operand.target]⟩
  | @wide b inst divisor rest d hi ops width rdx hd =>
    obtain ⟨wd,-,-,-,name⟩ := dRegister_name hd
    have based : Based v [divisor] :=
      List.forall_mem_singleton.mpr (hs.based divisor (by simp [ops]))
    have free := not_named based (hs.division hi _ _ ops) only_rdx rdx.2
    have andD : (accessCode other base size).Triple (Masked base size v) [andD d divisor]
        (Masked base size v) := by
      refine triple_instrumentation frames ?_ (by decide) fun r hr => ?_
      · exact List.forall_mem_cons.mpr ⟨by simp [Operand.isMem],based⟩
      · refine List.forall_mem_cons.mpr ⟨written_ne name rfl (by decide) free hr,?_⟩
        exact List.forall_mem_singleton.mpr
          (target_ne (hs.division hi _ _ ops) (hs.targets divisor (by simp [ops])) hr)
    have shrD : (accessCode other base size).Triple (Masked base size v) [shrD d divisor]
        (Masked base size v) := by
      refine triple_instrumentation frames (based_of_not (by simp [Operand.isMem])) (by decide)
        fun r hr => ?_
      exact List.forall_mem_cons.mpr
        ⟨written_ne name rfl (by decide) free hr,by simp [Operand.target]⟩
    exact ((hb.append (one hi ops)).append andD).append shrD

/-- `v` is masked, and a bit test stays at its address. -/
def Settled (base : BitVec 64) (size : ℕ) (v : String) (inst : Option Instruction) (m : Machine) :
    Prop := Masked base size v m ∧ ∀ i, inst = some i → displacement m i = 0

lemma displacement_register {m : Machine} {name : String} {w : ℕ} {s d : Bool}
    {rest : List Operand} (ops : inst.operands = .reg name w s d :: rest) :
    displacement m inst = 0 := by
  simp only [displacement,ops]

lemma displacement_immediate {m : Machine} {address : Operand} {text : String} {w : ℕ}
    {rest : List Operand} (ops : inst.operands = address :: .imm text w :: rest) :
    displacement m inst = 0 :=
  displacement_of_le ops (by simp)

/-- The guard of a bit test. -/
lemma bit (frames : Frames other) {s s' : Slot} (h : BitShape s s')
    (hs : ∀ i, s.inst = some i → Sited v i) {P : Machine → Prop}
    (hb : (accessCode other base size).Triple P s.before (Masked base size v)) :
    (accessCode other base size).Triple P s'.before (Settled base size v s'.inst) ∧
      ∀ i, s'.inst = some i → Sited v i := by
  have still {l : List Instruction} {i : Option Instruction}
      (hl : (accessCode other base size).Triple P l (Masked base size v))
      (hd : ∀ m j, i = some j → displacement m j = 0) :
      (accessCode other base size).Triple P l (Settled base size v i) :=
    hl.weaken fun m h => ⟨h,hd m⟩
  cases h with
  | gone => exact ⟨still hb (by simp),by simp⟩
  | plain h => exact ⟨still hb (by rintro m _ ⟨⟩; exact displacement_of_not h),hs⟩
  | register h ops => exact ⟨still hb (by rintro m _ ⟨⟩; exact displacement_register ops),hs⟩
  | deleted => exact ⟨still hb (by simp),by simp⟩
  | @immediate b inst address text text' w rest h ops =>
    refine ⟨still hb (by rintro m _ ⟨⟩; exact displacement_immediate rfl),?_⟩
    rintro _ ⟨⟩
    have sited := hs inst rfl
    have others {Q : Operand → Prop} (hQ : ∀ op ∈ inst.operands, Q op) (hi : Q (.imm text' w)) :
        ∀ op ∈ address :: .imm text' w :: rest, Q op := by
      rw [ops] at hQ
      simp only [List.forall_mem_cons] at hQ ⊢
      exact ⟨hQ.1,hi,hQ.2.2⟩
    have scan : isDivision inst = false ∧ isBitScan inst = false := by
      simp only [isBitTest,Bool.and_eq_true,Bool.not_eq_true'] at h
      refine ⟨h.1,?_⟩
      have := h.2
      simp only [bitTestNames,decide_eq_true_eq,List.mem_cons,List.not_mem_nil,or_false] at this
      rcases this with h | h | h | h | h | h | h | h <;> simp [isBitScan,h]
    exact
      { based := others sited.based (by simp [Operand.isMem])
        targets := others sited.targets (by simp [Operand.target])
        implicit := sited.implicit
        division := fun hi => by simp [show isDivision inst from hi] at scan
        bitTest := by
          rintro - a o rest ⟨⟩
          rfl
        bitScan := fun hi => by simp [show isBitScan inst from hi] at scan
        string := by simp }
  | @masked b inst address offset rest h ops =>
    have sited := hs inst rfl
    refine ⟨hb.append ?_,hs⟩
    have guard : (accessCode other base size).Triple (Masked base size v) [andOffset offset] _ :=
      triple_andOffset frames (sited.bitTest h _ _ _ ops) (sited.targets offset (by simp [ops]))
    refine guard.weaken fun m h' => ⟨h'.1,?_⟩
    rintro _ ⟨⟩
    exact displacement_of_le ops h'.2

/-- The guard of a repeated instruction. -/
lemma rep (hsize : 256<size) {s s' : Slot} (h : RepShape s s') {P : Machine → Prop}
    (hb : (accessCode other base size).Triple P s.before (Settled base size v s.inst)) :
    (accessCode other base size).Triple P s'.before (Settled base size v s'.inst) ∧
      ∀ i, s'.inst = some i → s.inst = some i := by
  cases h with
  | gone => exact ⟨hb,by simp⟩
  | plain => exact ⟨hb,fun _ => id⟩
  | @masked b inst h =>
    refine ⟨?_,fun _ => id⟩
    have plain : isBitTest inst = false := by
      simp only [isRepeated,Bool.and_eq_true,Bool.not_eq_true'] at h
      exact h.1.2
    have counts : (accessCode other base size).Triple (Masked base size v) [andCount,addCount] _ :=
      triple_counts (fun m h => h.1) fun m x h hx => masked_writeReg_c h hx hsize
    rw [List.append_assoc]
    refine (hb.weaken fun m h => h.1).append (counts.weaken fun m h => ⟨h.1,?_⟩)
    rintro _ ⟨⟩
    exact displacement_of_not plain

/-- The instruction in its place: it accesses the sandbox and leaves R14 as it is. -/
lemma scan (frames : Frames other) (hs : Sited v inst) {l : List Instruction} (h : Scan inst l) :
    (accessCode other base size).Triple (Settled base size v (some inst)) l
      (Masked base size "") := by
  have none : regName "" = none := by decide +kernel
  have last : (accessCode other base size).Triple (Settled base size v (some inst)) [inst]
      (Masked base size "") := by
    refine .cons (Q := Masked base size "") (fun m h => ?_) (fun m m' h step => ?_) (.nil fun _ => id)
    · exact contained_of_masked h.1 hs.based (h.2 inst rfl) hs.string
    · exact ⟨(step_spares frames hs.spares step).trans h.1.1,by simp [none]⟩
  cases h with
  | plain => exact last
  | @masked target source rest text w hb ops =>
    have plain : isBitTest inst = false := by
      simp only [isBitScan,decide_eq_true_eq,List.mem_cons,List.not_mem_nil,or_false] at hb
      rcases hb with h | h <;> simp [isBitTest,bitTestNames,h]
    have guard : (accessCode other base size).Triple (Masked base size v)
        [.instrumentation "OR" [source,.imm text w]] (Masked base size v) := by
      refine triple_instrumentation frames ?_ (by decide) fun r hr => ?_
      · exact List.forall_mem_cons.mpr ⟨hs.based source (by simp [ops]),by simp [Operand.isMem]⟩
      · refine List.forall_mem_cons.mpr ⟨?_,by simp [Operand.target]⟩
        exact target_ne (hs.bitScan hb _ _ _ ops) (hs.targets source (by simp [ops])) hr
    have settled : (accessCode other base size).Triple (Settled base size v (some inst))
        [.instrumentation "OR" [source,.imm text w]] (Settled base size v (some inst)) := by
      refine .append (Straightline.Triple.nil fun m h => h.1) (guard.weaken fun m h => ⟨h,?_⟩)
      rintro _ ⟨⟩
      exact displacement_of_not plain
    exact settled.append last

/-- The loops behind the first one, together. -/
lemma guards (frames : Frames other) (hsize : 256<size) (hs : Sited v inst)
    {b : List Instruction} {s₂ s₃ s₄ slot : Slot} (h₂ : DivShape ⟨b,some inst,[]⟩ s₂)
    (h₃ : BitShape s₂ s₃) (h₄ : RepShape s₃ s₄) (h₅ : CfShape s₄ slot) {P : Machine → Prop}
    (hb : (accessCode other base size).Triple P b (Masked base size v)) :
    (accessCode other base size).Triple P slot.before (Settled base size v slot.inst) ∧
      ∀ i, slot.inst = some i → Sited v i := by
  have same : ∀ i, s₂.inst = some i → Sited v i := by
    cases h₂ with
    | deleted => simp
    | _ =>
      rintro _ ⟨⟩
      exact hs
  obtain ⟨triple,sited⟩ := bit frames h₃ same (div frames hs h₂ hb)
  obtain ⟨triple,kept⟩ := rep hsize h₄ triple
  cases h₅ <;> exact ⟨triple,fun i hi => sited i (kept i hi)⟩

end Sited

section String
variable {other : Instruction → Machine → Machine → Prop} {base : BitVec 64} {size : ℕ}
  {m m' : Machine} {inst : Instruction} {v : String}

/-- The base is in place, and a string instruction starts in the sandbox. -/
def Starts (base : BitVec 64) (size : ℕ) (v : String) (m : Machine) : Prop :=
  m.reg .R14 = base ∧ (v ∈ ["RSI","RDI"] → ∀ r, regName v = some (.gpr .w64 r) →
    (m.reg r-base).toNat<size)

lemma triple_addBase (frames : Frames other) (upper : v.toUpper = v)
    (hv : (regName v).bind RegName.base ≠ some .R14) {w : ℕ} {s d : Bool} :
    (accessCode other base size).Triple (Masked base size v)
      [X86SandboxPass.addBase (.mem [v] w s d)] (Starts base size v) := by
  rw [addBase_eq upper]
  refine .cons (Q := Starts base size v) (fun m h => ?_) (fun m m' h step => ?_) (.nil fun _ => id)
  · refine contained_of_masked h (based_of_not (by simp [Instruction.instrumentation,Operand.isMem]))
      (displacement_of_not ?_) (by simp [Instruction.instrumentation])
    simp [isBitTest,Instruction.instrumentation,bitTestNames]
  · have spares : (Instruction.instrumentation "ADD" [.reg v w true true,
        .reg "R14" 64 true false]).Spares .R14 :=
      { first := by simpa [Instruction.instrumentation,Operand.target] using hv
        dest := by
          simpa [Instruction.instrumentation,Instruction.allOperands,Operand.dest,Operand.target]
            using hv
        implicit := by simp [Instruction.instrumentation] }
    have same := (step_spares frames spares step).trans h.1
    refine ⟨same,fun _ r hr => ?_⟩
    obtain rfl := step_add hr (source_base m) step
    have sum : ((m.writeReg (.gpr .w64 r) ((m.readReg (.gpr .w64 r)+(m.reg .R14).toNat) %
        2^(RegName.gpr .w64 r).width)).reg r) = m.reg r+base := by
      apply BitVec.eq_of_toNat_eq
      rw [Machine.toNat_reg,Machine.readReg_writeReg,BitVec.toNat_add,← Machine.toNat_reg,h.1]
      exact Nat.mod_mod _ _
    rw [sum,show m.reg r+base-base = m.reg r by bv_omega]
    exact h.2 r hr

lemma toNat_add_ofNat_le (x : BitVec 64) (n : ℕ) : (x+BitVec.ofNat 64 n).toNat ≤ x.toNat+n := by
  rw [BitVec.toNat_add,BitVec.toNat_ofNat]
  exact (Nat.mod_le _ _).trans (Nat.add_le_add_left (Nat.mod_le _ _) _)

lemma within_elements {x : BitVec 64} (h : x.toNat<size) {k : ℕ} (hk : k<256) (n : ℕ) :
    ∀ e ∈ [base+x+BitVec.ofNat 64 (k*n),base+x-BitVec.ofNat 64 (k*n)],
      Within (base-BitVec.ofNat 64 (256*n)) (size+n+2*(256*n)) e n := by
  have steps : k*n ≤ 255*n := Nat.mul_le_mul_right n (by omega)
  simp only [List.forall_mem_cons,List.not_mem_nil,false_implies,implies_true,and_true]
  constructor
  · intro i hi
    have sum : base+x+BitVec.ofNat 64 (k*n)+BitVec.ofNat 64 i-(base-BitVec.ofNat 64 (256*n)) =
        x+BitVec.ofNat 64 (k*n+i+256*n) := by
      rw [BitVec.ofNat_add,BitVec.ofNat_add]
      grind
    have := toNat_add_ofNat_le x (k*n+i+256*n)
    rw [sum]
    omega
  · intro i hi
    have gap : BitVec.ofNat 64 (256*n) = BitVec.ofNat 64 (256*n-k*n)+BitVec.ofNat 64 (k*n) := by
      rw [← BitVec.ofNat_add,Nat.sub_add_cancel (by omega)]
    have sum : base+x-BitVec.ofNat 64 (k*n)+BitVec.ofNat 64 i-(base-BitVec.ofNat 64 (256*n)) =
        x+BitVec.ofNat 64 (256*n-k*n+i) := by
      rw [BitVec.ofNat_add,gap]
      grind
    have := toNat_add_ofNat_le x (256*n-k*n+i)
    rw [sum]
    omega

/-- A string instruction that starts in the sandbox and is bounded. -/
lemma contained_string (h : Starts base size v m) (ops : inst.operands = [])
    (only : ∀ op ∈ inst.implicitOperands, op.isMem → ∃ width s d, op = .mem [v] width s d)
    (hc : count m inst ≤ 256) : Contained base size inst m where
  r14 := h.1
  explicit := by simp [ops]
  string _ u hu width s d hmem a ha k hk := by
    obtain ⟨_,_,_,hop⟩ := only _ hmem rfl
    cases hop
    obtain ⟨r,hr⟩ := Machine.terms_of_address ha v (by simp)
    have value : m.address [v] = some (m.reg r) := by simp [Machine.address,Machine.term,hr]
    obtain rfl := Option.some.inj (value.symm.trans ha)
    have shift : m.reg r = base+(m.reg r-base) := by bv_omega
    rw [shift]
    exact within_elements (h.2 hu r hr) (by omega) _

lemma starts_writeReg_c (h : Starts base size v m) (x : ℕ) :
    Starts base size v (m.writeReg (.gpr .w64 .C) x) := by
  refine ⟨(m.reg_writeReg (by simp [RegName.base]) x).trans h.1,fun hv r hr => ?_⟩
  have other : r ≠ .C := by
    rintro rfl
    have rcx : (registerTable.filter (·.2 = .gpr .w64 .C)).map (·.1) = ["RCX"] := by decide +kernel
    have := name_of_w64 hr
    rw [rcx,List.mem_singleton] at this
    simp [this] at hv
  rw [m.reg_writeReg (by simpa [RegName.base] using other.symm) x]
  exact h.2 hv r hr

/-- The loops behind the first one, for an instruction without explicit operands. -/
lemma string_guards (ops : inst.operands = []) {b : List Instruction} {s₂ s₃ s₄ slot : Slot}
    (h₂ : DivShape ⟨b,some inst,[]⟩ s₂) (h₃ : BitShape s₂ s₃) (h₄ : RepShape s₃ s₄)
    (h₅ : CfShape s₄ slot) {P : Machine → Prop}
    (hb : (accessCode other base size).Triple P b (Starts base size v)) :
    (accessCode other base size).Triple P slot.before (fun m => Starts base size v m ∧
      ∀ i, slot.inst = some i → count m i ≤ 256) ∧ ∀ i, slot.inst = some i → i = inst := by
  have divided : s₂ = ⟨b,some inst,[]⟩ ∧ isDivision inst = false := by
    cases h₂ with
    | plain h => exact ⟨rfl,h⟩
    | deleted _ ops' => simp [ops] at ops'
    | byte _ ops' => simp [ops] at ops'
    | wide _ ops' => simp [ops] at ops'
  obtain ⟨rfl,hd⟩ := divided
  have gone : slot.before = s₄.before ∧ slot.inst = s₄.inst := by cases h₅ <;> exact ⟨rfl,rfl⟩
  rw [gone.1,gone.2]
  cases h₃ with
  | plain hb' =>
    cases h₄ with
    | plain hr =>
      refine ⟨hb.weaken fun m h => ⟨h,?_⟩,by rintro _ ⟨⟩; rfl⟩
      rintro _ ⟨⟩
      have : contains "REP" inst.name = false := by simpa [isRepeated,hd,hb'] using hr
      simp [count,this]
    | masked hr =>
      have counts : (accessCode other base size).Triple (Starts base size v) [andCount,addCount] _ :=
        triple_counts (fun m h => h.1) fun m x h _ => starts_writeReg_c h x
      rw [List.append_assoc]
      refine ⟨hb.append (counts.weaken fun m h => ⟨h.1,?_⟩),by rintro _ ⟨⟩; rfl⟩
      rintro _ ⟨⟩
      unfold count
      split_ifs
      · exact h.2
      · norm_num
  | register _ ops' => simp [ops] at ops'
  | deleted =>
    cases h₄
    exact ⟨hb.weaken fun m h => ⟨h,by simp⟩,by simp⟩
  | immediate _ ops' => simp [ops] at ops'
  | masked _ ops' => simp [ops] at ops'

end String

/-- No operand that is not among the explicit registers names R14, and names are in upper case. -/
structure SandboxSpec (spec : InstructionSpec) : Prop where
  memory : ∀ values width s d, .mem values width s d ∈ spec.allOperands → ∀ v ∈ values,
    v.toUpper = v ∧ (regName v).bind RegName.base ≠ some .R14
  implicit : ∀ values width s d, .reg values width s d ∈ spec.implicitOperands → ∀ v ∈ values,
    v.toUpper = v ∧ (regName v).bind RegName.base ≠ some .R14

/-- The registers that hold the base. -/
def baseNames : List String := ["R14","R14D","R14W","R14B"]

namespace InstructionSet
variable {conf : GeneratorConf} {categories : List String}

/-- Blocked registers are choices only as the low byte of another one. -/
def Unblocked (conf : GeneratorConf) (op : OperandSpec) : Prop :=
  ∀ values width s d, op = .reg values width s d → ∀ v ∈ values, v ∈ conf.gprBlocklist →
    v.toList.getLast? = some 'L'

lemma reduceOperand_unblocked {op op' : OperandSpec}
    (h : reduceOperand conf op = .ok (some op')) : Unblocked conf op' := by
  unfold reduceOperand at h
  split at h
  · dsimp only at h
    split_ifs at h
    · cases h
    · cases h
      rintro values width s d ⟨⟩ v hv blocked
      obtain ⟨u,hu,rfl⟩ := List.mem_map.mp hv
      unfold lowByte at blocked ⊢
      split_ifs at blocked ⊢ with hl
      · rw [String.toList_ofList,List.getLast?_map,hl]
        rfl
      · have := List.mem_filter.mp (List.mem_dedup.mp hu)
        simp [blocked] at this
  · next op hop =>
    cases h
    rintro values width s d rfl
    exact absurd rfl (hop values width s d)

theorem init_unblocked {raw instructions : List InstructionSpec}
    (h : init conf categories raw = .ok instructions) :
    ∀ spec ∈ instructions, ∀ op ∈ spec.operands, Unblocked conf op :=
  init_operands (fun _ _ => reduceOperand_unblocked) h

end InstructionSet

section Operands
variable {conf : GeneratorConf} (blocked : ∀ v ∈ baseNames, v ∈ conf.gprBlocklist)

lemma mem_baseNames {v : String} (h : (regName v).bind RegName.base = some .R14) :
    v ∈ baseNames := by
  have names : (registerTable.filter (·.2.base = some .R14)).map (·.1) = baseNames := by
    decide +kernel
  rw [← names]
  exact name_of_base h

include blocked

/-- A register of the table is in upper case, and it is not R14. -/
lemma registers_base {width : ℕ} {l : List String} (h : X86Registers.registers conf width = some l)
    {v : String} (hv : v ∈ l) : v.toUpper = v ∧ (regName v).bind RegName.base ≠ some .R14 := by
  obtain ⟨all,hall,rfl⟩ := Option.map_eq_some_iff.mp h
  obtain ⟨hv,free⟩ := List.mem_filter.mp hv
  refine ⟨?_,fun hb => by simp [blocked v (mem_baseNames hb)] at free⟩
  have check : ∀ l : List String, (l.all fun v => v.toUpper = v) = true → v ∈ l → v.toUpper = v := by
    intro l all hv
    simpa using List.all_eq_true.mp all v hv
  unfold X86Registers.allRegisters at hall
  split at hall
  · cases hall
    exact check _ (by decide +kernel) hv
  · cases hall
    exact check _ (by decide +kernel) hv
  · cases hall
    exact check _ (by decide +kernel) hv
  · cases hall
    exact check _ (by decide +kernel) hv
  · cases hall

lemma choices_base {values choices : List String} {width : ℕ}
    (hc : regChoices conf values width = .ok choices)
    (hv : ∀ v ∈ values, v.toUpper = v ∧ (regName v).bind RegName.base ≠ some .R14) {v : String}
    (h : v ∈ choices) : (regName v.toUpper).bind RegName.base ≠ some .R14 := by
  unfold regChoices at hc
  split at hc
  · cases hc
  split_ifs at hc
  · split at hc
    · next l hl =>
      cases hc
      obtain ⟨upper,hb⟩ := registers_base blocked hl h
      rwa [upper]
    · cases hc
  · split at hc
    · next l hl =>
      cases hc
      rw [simdRegisters_name hl h]
      simp
    · cases hc
  · cases hc
    obtain ⟨upper,hb⟩ := hv v h
    rwa [upper]

variable {spec : InstructionSpec} {inst : Instruction}

/-- No register operand of the list names R14. -/
lemma RegFrom.base {all : List OperandSpec} (hall : ∀ values width s d,
      .reg values width s d ∈ all → ∀ v ∈ values,
        v.toUpper = v ∧ (regName v).bind RegName.base ≠ some .R14)
    {name : String} {w : ℕ} {s d : Bool} (h : RegFrom conf all name w s d) :
    (Operand.reg name w s d).target ≠ some .R14 := by
  obtain ⟨values,choices,mem,hc,u,hu,rfl⟩ := h
  exact choices_base blocked hc (hall values w s d mem) hu

lemma explicit_names (wf : WellFormedSpec spec)
    (free : ∀ op ∈ spec.operands, InstructionSet.Unblocked conf op) (values : List String)
    (width : ℕ) (s d : Bool) (mem : .reg values width s d ∈ spec.operands) :
    ∀ v ∈ values, v.toUpper = v ∧ (regName v).bind RegName.base ≠ some .R14 := by
  intro v hv
  refine ⟨(wf.registers values width s d mem v hv).1,fun hb => ?_⟩
  have name := mem_baseNames hb
  have last := free _ mem values width s d rfl v hv (blocked v name)
  have none : ∀ v ∈ baseNames, v.toList.getLast? ≠ some 'L' := by decide +kernel
  exact none v name last

/-- The operands of a generated instruction. -/
structure Cleared (inst : Instruction) : Prop where
  targets : ∀ op ∈ inst.operands, op.target ≠ some .R14
  implicit : ∀ op ∈ inst.implicitOperands, .R14 ∉ op.uses
  memory : ∀ op ∈ inst.allOperands, op.isMem → ∃ v w s d, op = .mem [v] w s d ∧ v.toUpper = v ∧
    (regName v).bind RegName.base ≠ some .R14

lemma FromSpec.cleared (h : FromSpec conf spec inst) (wf : WellFormedSpec spec)
    (sandbox : SandboxSpec spec) (free : ∀ op ∈ spec.operands, InstructionSet.Unblocked conf op) :
    Cleared inst := by
  have names := explicit_names blocked wf free
  have memory {all specs : List OperandSpec} {ops : List Operand} (hs : specs ⊆ spec.allOperands)
      (hops : List.Forall₂ (OperandFrom conf all) specs ops) {op : Operand} (hop : op ∈ ops)
      (hm : op.isMem) : ∃ v w s d, op = .mem [v] w s d ∧ v.toUpper = v ∧
        (regName v).bind RegName.base ≠ some .R14 := by
    obtain ⟨o,ho,hfrom⟩ := exists_operandSpec hops hop
    cases op with
    | mem address w s d =>
      cases o with
      | mem values w' s' d' =>
        obtain ⟨rfl,rfl,rfl,r,rfl,hr⟩ := hfrom
        have hr : r.toUpper = r ∧ (regName r).bind RegName.base ≠ some .R14 := by
          rcases hr with hr | ⟨-,l,hl,hr⟩
          · exact sandbox.memory values _ _ _ (hs ho) r hr
          · exact registers_base blocked hl hr
        exact ⟨r,w,s,d,by rw [hr.1],hr⟩
      | _ => cases hfrom
    | _ => cases hm
  have explicit : spec.operands ⊆ spec.allOperands := by simp [InstructionSpec.allOperands]
  have implicit : spec.implicitOperands ⊆ spec.allOperands := by simp [InstructionSpec.allOperands]
  refine ⟨fun op hop => ?_,fun op hop => ?_,fun op hop => ?_⟩
  · obtain ⟨o,ho,hfrom⟩ := exists_operandSpec h.operands hop
    cases op with
    | reg name w s d =>
      cases o with
      | reg => exact RegFrom.base blocked names hfrom
      | _ => cases hfrom
    | _ => simp [Operand.target]
  · obtain ⟨o,ho,hfrom⟩ := exists_operandSpec h.implicitOperands hop
    cases op with
    | reg name w s d =>
      cases o with
      | reg =>
        have := RegFrom.base blocked (fun values w s d hmem => ?_) hfrom
        · simpa [Operand.uses,Operand.target] using this
        · rcases List.mem_append.mp hmem with hmem | hmem
          · exact names values w s d hmem
          · exact sandbox.implicit values w s d hmem
      | _ => cases hfrom
    | mem address w s d =>
      obtain ⟨v,w,s,d,hop',-,hb⟩ := memory implicit h.implicitOperands hop rfl
      cases hop'
      intro hr
      obtain ⟨t,ht,hr⟩ := List.mem_filterMap.mp hr
      rw [List.mem_singleton.mp ht] at hr
      exact hb hr
    | _ => simp [Operand.uses]
  · intro hm
    rcases List.mem_append.mp hop with hop | hop
    · exact memory explicit h.operands hop hm
    · exact memory implicit h.implicitOperands hop hm

end Operands

section Created
variable {conf : GeneratorConf} {spec : InstructionSpec} {inst : Instruction}

lemma regName_nil : regName "" = none := by decide +kernel

lemma Cleared.sited (h : Cleared inst) (none : ∀ op ∈ inst.operands, op.isMem = false)
    (string : inst.operands = [] → ∀ op ∈ inst.implicitOperands, op.isMem = false) :
    Sited "" inst where
  based := based_of_not none
  targets := h.targets
  implicit := h.implicit
  division _ _ _ _ := Or.inl regName_nil
  bitTest _ a o rest ops := none o (by simp [ops])
  bitScan _ _ _ _ _ := Or.inl regName_nil
  string := string

lemma addBase_isMem (op : Operand) : op.addBase.isMem = op.isMem := by cases op <;> rfl

lemma addBase_target (op : Operand) : op.addBase.target = op.target := by cases op <;> rfl

lemma isBitTest_name (h : isBitTest inst) : inst.name ∈ bitTestNames := by
  simp only [isBitTest,Bool.and_eq_true,decide_eq_true_eq] at h
  exact h.2

/-- An instruction with one explicit memory operand, after the base has been added to it. -/
lemma Cleared.sited_explicit (h : Cleared inst) (hf : FromSpec conf spec inst)
    (wf : WellFormedSpec spec) (implicit : inst.getImplicitMemOperands = []) {v : String} {w : ℕ}
    {s d : Bool} (mem : inst.getMemOperands = [.mem [v] w s d]) :
    Sited v { inst with operands := inst.operands.map (·.addBase) } := by
  have noImplicit : ∀ op ∈ inst.implicitOperands, op.isMem = false := by
    simpa [Instruction.getImplicitMemOperands] using implicit
  have isOperand {op : Operand} (hop : op ∈ inst.operands) (hm : op.isMem) : op = .mem [v] w s d := by
    have : op ∈ inst.getMemOperands := List.mem_filter.mpr ⟨List.mem_append_left _ hop,hm⟩
    simpa [mem] using this
  have operand : .mem [v] w s d ∈ inst.operands := by
    have : .mem [v] w s d ∈ inst.getMemOperands := by simp [mem]
    rcases List.mem_append.mp (List.mem_filter.mp this).1 with h | h
    · exact h
    · cases noImplicit _ h
  refine ⟨?_,?_,h.implicit,?_,?_,?_,fun _ => noImplicit⟩
  · intro op hop hm
    obtain ⟨o,ho,rfl⟩ := List.mem_map.mp hop
    rw [addBase_isMem] at hm
    rw [isOperand ho hm]
    exact ⟨w,s,d,rfl⟩
  · intro op hop
    obtain ⟨o,ho,rfl⟩ := List.mem_map.mp hop
    rw [addBase_target]
    exact h.targets o ho
  · intro hi op rest ops
    obtain ⟨o,hspec⟩ := wf.division (by simpa [isDivision,hf.name_eq] using hi)
    have hfrom := hf.operands
    rw [hspec] at hfrom
    obtain ⟨x,_,-,hnil,hx⟩ := List.forall₂_cons_left_iff.mp hfrom
    obtain rfl := List.forall₂_nil_left_iff.mp hnil
    rw [hx,List.mem_singleton] at operand
    rw [hx] at ops
    simp only [List.map_cons,List.map_nil,List.cons.injEq] at ops
    rw [← ops.1,addBase_isMem,← operand]
    exact Or.inr rfl
  · intro hi a o rest ops
    obtain ⟨address,offset,hspec,hoffset⟩ := wf.bitTest (hf.name_eq ▸ isBitTest_name hi)
    have hfrom := hf.operands
    rw [hspec] at hfrom
    obtain ⟨x,_,-,htail,hx⟩ := List.forall₂_cons_left_iff.mp hfrom
    obtain ⟨y,_,hy,-,rfl⟩ := List.forall₂_cons_left_iff.mp htail
    rw [hx] at ops
    simp only [List.map_cons,List.cons.injEq] at ops
    rw [← ops.2.1,addBase_isMem,hy.isMem,hoffset]
  · intro hi t o rest ops
    obtain ⟨target,source,hspec,htarget⟩ := wf.bitScan (by simpa [isBitScan,hf.name_eq] using hi)
    have hfrom := hf.operands
    rw [hspec] at hfrom
    obtain ⟨x,_,hx',htail,hx⟩ := List.forall₂_cons_left_iff.mp hfrom
    obtain ⟨y,_,-,hnil,rfl⟩ := List.forall₂_cons_left_iff.mp htail
    obtain rfl := List.forall₂_nil_left_iff.mp hnil
    rw [hx] at ops operand
    simp only [List.map_cons,List.map_nil,List.cons.injEq] at ops
    have second : y = .mem [v] w s d := by
      simp only [List.mem_cons,List.not_mem_nil,or_false] at operand
      rcases operand with rfl | rfl
      · rw [← hx'.isMem] at htarget
        cases htarget
      · rfl
    rw [← ops.2.1,addBase_isMem,second]
    exact Or.inr rfl

/-- Memory operands are explicit or implicit, not both. -/
def Separate (spec : InstructionSpec) : Prop :=
  spec.operands.any (·.isMem) → spec.implicitOperands.any (·.isMem) = false

lemma any_isMem {all specs : List OperandSpec} {ops : List Operand}
    (h : List.Forall₂ (OperandFrom conf all) specs ops) :
    ops.any (·.isMem) = specs.any (·.isMem) := by
  induction h with
  | nil => rfl
  | cons hd _ ih => rw [List.any_cons,List.any_cons,hd.isMem,ih]

/-- What an instruction set has to ensure for its test cases to stay in the sandbox. -/
structure Sandboxable (conf : GeneratorConf) (instructions : List InstructionSpec) : Prop where
  wellFormed : ∀ spec ∈ instructions, WellFormedSpec spec
  names : ∀ spec ∈ instructions, SandboxSpec spec
  unblocked : ∀ spec ∈ instructions, ∀ op ∈ spec.operands, InstructionSet.Unblocked conf op
  blocked : ∀ v ∈ baseNames, v ∈ conf.gprBlocklist
  pow : ∃ k, conf.inputMainRegionSize = 2^k
  separate : ∀ spec ∈ instructions, spec.controlFlow = false → Separate spec

variable {instructions : List InstructionSpec} {other : Instruction → Machine → Machine → Prop}
  {base : BitVec 64}

lemma size_of_pow {k : ℕ} (h : conf.inputMainRegionSize = 2^k) : 256<conf.inputMainRegionSize := by
  have pages := conf.main_pages
  have := Nat.two_pow_pos k
  omega

/-- What stands in a slot, with or without its instruction, stays in the sandbox and keeps R14. -/
structure SlotContained (other : Instruction → Machine → Machine → Prop) (base : BitVec 64)
    (size : ℕ) (slot : Slot) : Prop where
  before : (accessCode other base size).Triple (Masked base size "") slot.before
    (Masked base size "")
  kept : ∀ inst l, slot.inst = some inst → Scan inst l → (accessCode other base size).Triple
    (Masked base size "") (slot.before ++ l) (Masked base size "")

lemma masked_nil {size : ℕ} {m : Machine} (h : m.reg .R14 = base) : Masked base size "" m :=
  ⟨h,by simp [regName_nil]⟩

section Slots
variable {size : ℕ} {v : String} {b : List Instruction} {s₂ s₃ s₄ slot : Slot}
  (frames : Frames other) (h₂ : DivShape ⟨b,some inst,[]⟩ s₂) (h₃ : BitShape s₂ s₃)
  (h₄ : RepShape s₃ s₄) (h₅ : CfShape s₄ slot)
include frames h₂ h₃ h₄ h₅

/-- An instruction that is in its place once the guards have run. -/
lemma Sited.slotContained (hs : Sited v inst) (hsize : 256<size)
    (hb : (accessCode other base size).Triple (Masked base size "") b (Masked base size v)) :
    SlotContained other base size slot := by
  obtain ⟨triple,sited⟩ := hs.guards frames hsize h₂ h₃ h₄ h₅ hb
  refine ⟨triple.weaken fun m h => masked_nil h.1.1,fun inst' l hi hl => ?_⟩
  rw [hi] at triple
  exact triple.append ((sited inst' hi).scan frames hl)

/-- A string instruction. -/
lemma slotContained_string (ops : inst.operands = [])
    (hs : ∀ op ∈ inst.implicitOperands, .R14 ∉ op.uses)
    (only : ∀ op ∈ inst.implicitOperands, op.isMem → ∃ width s d, op = .mem [v] width s d)
    (hb : (accessCode other base size).Triple (Masked base size "") b (Starts base size v)) :
    SlotContained other base size slot := by
  obtain ⟨triple,same⟩ := string_guards ops h₂ h₃ h₄ h₅ hb
  refine ⟨triple.weaken fun m h => masked_nil h.1.1,fun inst' l hi hl => triple.append ?_⟩
  obtain rfl := same inst' hi
  have spares : inst'.Spares .R14 :=
    { first := by simp [ops]
      dest := by
        intro op hop _ ht
        rw [Instruction.allOperands,ops,List.nil_append] at hop
        exact hs op hop (Sited.target_mem_uses ht)
      implicit := hs }
  cases hl with
  | plain =>
    refine .cons (Q := Masked base size "") (fun m h => ?_) (fun m m' h step => ?_) (.nil fun _ => id)
    · exact contained_string h.1 ops only (h.2 inst' hi)
    · exact masked_nil ((step_spares frames spares step).trans h.1.1)
  | masked _ ops' => simp [ops] at ops'

end Slots

/-- What becomes of a generated instruction. -/
lemma Sandboxable.slotContained (hi : Sandboxable conf instructions) (frames : Frames other)
    (hg : Generated conf instructions inst) {slot : Slot} (hs : Sandboxed conf inst slot) :
    SlotContained other base conf.inputMainRegionSize slot := by
  obtain ⟨spec,hspec,control,hf⟩ := hg
  obtain ⟨k,pow⟩ := hi.pow
  have hsize := size_of_pow pow
  have cleared := hf.cleared hi.blocked (hi.wellFormed spec hspec) (hi.names spec hspec)
    (hi.unblocked spec hspec)
  obtain ⟨s₁,s₂,s₃,s₄,h₁,h₂,h₃,h₄,h₅⟩ := hs
  cases h₁ with
  | plain none =>
    have none : ∀ op ∈ inst.allOperands, op.isMem = false := by
      simpa [Instruction.hasMemOperand] using none
    have sited := cleared.sited (fun op h => none op (List.mem_append_left _ h))
      fun _ op h => none op (List.mem_append_right _ h)
    exact sited.slotContained frames h₂ h₃ h₄ h₅ hsize (.nil fun _ => id)
  | @explicit operand implicit mem =>
    have hop : operand ∈ inst.getMemOperands := by simp [mem]
    obtain ⟨v,w,s,d,rfl,upper,hv⟩ := cleared.memory operand (List.mem_filter.mp hop).1
      (List.mem_filter.mp hop).2
    have sited := cleared.sited_explicit hf (hi.wellFormed spec hspec) implicit mem
    exact sited.slotContained frames h₂ h₃ h₄ h₅ hsize (triple_applyMask pow frames upper hv)
  | @implicit operand implicit =>
    have hop : operand ∈ inst.getImplicitMemOperands := by simp [implicit]
    obtain ⟨hin,hmem⟩ := List.mem_filter.mp hop
    obtain ⟨v,w,s,d,rfl,upper,hv⟩ := cleared.memory operand (List.mem_append_right _ hin) hmem
    have none : ∀ op ∈ inst.operands, op.isMem = false := by
      have some : spec.implicitOperands.any (·.isMem) = true := by
        rw [← any_isMem hf.implicitOperands]
        exact List.any_eq_true.mpr ⟨_,hin,hmem⟩
      have := mt (hi.separate spec hspec control) (by simp [some])
      rw [← any_isMem hf.operands] at this
      simpa using this
    have masked : (accessCode other base conf.inputMainRegionSize).Triple _ _ _ :=
      triple_applyMask (w := w) (s := s) (d := d) pow frames upper hv
    have starts := masked.append (triple_addBase (w := w) (s := s) (d := d) frames upper hv)
    by_cases ops : inst.operands = []
    · refine slotContained_string frames h₂ h₃ h₄ h₅ ops cleared.implicit (fun op hop hm => ?_) starts
      have : op ∈ inst.getImplicitMemOperands := List.mem_filter.mpr ⟨hop,hm⟩
      rw [implicit,List.mem_singleton] at this
      exact ⟨w,s,d,this⟩
    · exact (cleared.sited none fun h => absurd h ops).slotContained frames h₂ h₃ h₄ h₅ hsize
        (starts.weaken fun m h => masked_nil h.1)

/-- Patches have no memory operands. -/
lemma IsPatch.not_isMem (h : IsPatch conf instructions inst) :
    ∀ op ∈ inst.allOperands, op.isMem = false := by
  obtain ⟨spec,hs,hf⟩ := h
  have candidate := (List.mem_filter.mp hs).2
  have none : spec.hasMemOperand = false := by
    simp only [requiresSandbox,Bool.and_eq_true,Bool.not_eq_true',Bool.or_eq_false_iff] at candidate
    exact candidate.1.1.2.1.1.1
  have same : inst.hasMemOperand = spec.hasMemOperand := by
    rw [Instruction.hasMemOperand,InstructionSpec.hasMemOperand,Instruction.allOperands,
      InstructionSpec.allOperands,List.any_append,List.any_append,any_isMem hf.operands,
      any_isMem hf.implicitOperands]
  simpa [Instruction.hasMemOperand,none] using same

lemma Sandboxable.patch_sited (hi : Sandboxable conf instructions)
    (h : IsPatch conf instructions inst) : Sited "" inst := by
  have none := h.not_isMem
  obtain ⟨spec,hs,hf⟩ := h
  have hspec := List.mem_of_mem_filter hs
  have cleared := hf.cleared hi.blocked (hi.wellFormed spec hspec) (hi.names spec hspec)
    (hi.unblocked spec hspec)
  exact cleared.sited (fun op h => none op (List.mem_append_left _ h))
    fun _ op h => none op (List.mem_append_right _ h)

/-- Every part of a block stays in the sandbox and keeps R14. -/
lemma Sandboxable.piece (hi : Sandboxable conf instructions) (frames : Frames other)
    {l : List Instruction} (h : Piece conf instructions l) :
    (accessCode other base conf.inputMainRegionSize).Triple
      (Masked base conf.inputMainRegionSize "") l (Masked base conf.inputMainRegionSize "") := by
  cases h with
  | @patch inst _ hp hl =>
    have sited := hi.patch_sited hp
    have still (m : Machine) (h : Masked base conf.inputMainRegionSize "" m) :
        Sited.Settled base conf.inputMainRegionSize "" (some inst) m := by
      refine ⟨h,?_⟩
      rintro _ ⟨⟩
      unfold displacement
      split
      · next ops =>
        cases hp.not_isMem _ (List.mem_append_left _ (by rw [ops]; exact List.mem_cons_self))
      · rfl
    exact .append (Straightline.Triple.nil still) (sited.scan frames hl)
  | stc =>
    refine .cons (Q := Masked base _ "") (fun m h => ?_)
      (fun m m' h (step : Step other (.instrumentation "STC" []) m m') => ?_) (.nil fun _ => id)
    · exact contained_of_masked h (based_of_not (by simp [Instruction.instrumentation]))
        (displacement_of_not (by simp [isBitTest,Instruction.instrumentation,bitTestNames]))
        (by simp [Instruction.instrumentation])
    · have same : m' = m := (step_of_exec m.exec_stc).mp step
      rw [same]
      exact h
  | kept hg hs hinst hl => exact (hi.slotContained frames hg hs).kept _ _ hinst hl
  | deleted hg hs _ => exact (hi.slotContained frames hg hs).before

/-- Accesses of created test cases stay in the sandbox, if no instruction has both explicit and
implicit memory operands: whatever is drawn, whatever the other instructions do, and whichever
blocks are executed one after another, from a state on in which R14 holds the base. -/
theorem createTestCase_contained {categories : List String} {raw : List InstructionSpec}
    (set : InstructionSet.init conf categories raw = .ok instructions)
    (wf : ∀ spec ∈ instructions, WellFormedSpec spec)
    (names : ∀ spec ∈ instructions, SandboxSpec spec)
    (blocked : ∀ v ∈ baseNames, v ∈ conf.gprBlocklist) {k : ℕ}
    (pow : conf.inputMainRegionSize = 2^k) (frames : Frames other)
    (separate : ∀ spec ∈ instructions, spec.controlFlow = false → Separate spec)
    {t t' : Stream' ℕ} {tc : TestCase}
    (created : createTestCase conf instructions t = .ok (tc,t')) {path : List BasicBlock}
    (hpath : ∀ bb ∈ path, bb ∈ tc.blocks) {m : Machine} (start : m.reg .R14 = base) :
    (∀ pre inst post m', path.flatMap (·.instructions) = pre ++ inst :: post →
      (accessCode other base conf.inputMainRegionSize).Runs pre m m' →
        Contained base conf.inputMainRegionSize inst m') ∧
    ∀ m', (accessCode other base conf.inputMainRegionSize).Runs
      (path.flatMap (·.instructions)) m m' → m'.reg .R14 = base := by
  have hi : Sandboxable conf instructions :=
    ⟨wf,names,InstructionSet.init_unblocked set,blocked,⟨k,pow⟩,separate⟩
  have block (bb : BasicBlock) (hbb : bb ∈ tc.blocks) :
      (accessCode other base conf.inputMainRegionSize).Triple
        (Masked base conf.inputMainRegionSize "") bb.instructions
          (Masked base conf.inputMainRegionSize "") := by
    obtain ⟨pieces,hpieces,hp⟩ := (createTestCase_shaped wf).ok created bb hbb
    rw [hpieces,← List.flatMap_id]
    exact .flatMap fun p h => hi.piece frames (hp p h)
  have triple : (accessCode other base conf.inputMainRegionSize).Triple
      (Masked base conf.inputMainRegionSize "") (path.flatMap (·.instructions))
        (Masked base conf.inputMainRegionSize "") := .flatMap fun bb h => block bb (hpath bb h)
  obtain ⟨obligations,ends⟩ := triple m (masked_nil start)
  exact ⟨fun pre inst post m' place run => obligations pre inst post place m' run,
    fun m' run => (ends m' run).1⟩

end Created

section Witness

/-- `MOV qword ptr [reg], imm`. -/
def movSpec : InstructionSpec where
  name := "MOV"
  category := "BASE-DATAXFER"
  operands := [.mem [] 64 false true,.imm ["1"] 32]
  implicitOperands := []

/-- `PUSH qword ptr [reg]`. -/
def pushSpec : InstructionSpec where
  name := "PUSH"
  category := "BASE-PUSH"
  operands := [.mem [] 64 true false]
  implicitOperands := [.reg ["RSP"] 64 true true,.mem ["RSP"] 64 false true]

/-- One block with one instruction, which accesses memory. -/
def oneAccess : GeneratorConf where
  minBbPerFunction := 1
  maxBbPerFunction := 1
  testCaseSize := 1
  avgMemAccesses := 1

/-- Only the base is blocked. -/
def pushConf : GeneratorConf where
  minBbPerFunction := 1
  maxBbPerFunction := 1
  testCaseSize := 1
  gprBlocklist := baseNames ++ ["RIP"]

lemma wellFormed_add : WellFormedSpec addSpec := wellFormed_division addSpec (by simp)

lemma wellFormed_mov : ∀ spec ∈ [movSpec,addSpec], WellFormedSpec spec := by
  simp only [List.forall_mem_cons,List.not_mem_nil,false_implies,implies_true,and_true]
  refine ⟨?_,wellFormed_add⟩
  exact
    { flags := by simp [movSpec,OperandSpec.flagsOperand]
      registers := by simp [movSpec]
      division := by simp [movSpec]
      bitTest := by simp [movSpec,bitTestNames]
      bitScan := by simp [movSpec] }

lemma wellFormed_push : ∀ spec ∈ [pushSpec,addSpec], WellFormedSpec spec := by
  simp only [List.forall_mem_cons,List.not_mem_nil,false_implies,implies_true,and_true]
  refine ⟨?_,wellFormed_add⟩
  exact
    { flags := by simp [pushSpec,OperandSpec.flagsOperand]
      registers := by simp [pushSpec]
      division := by simp [pushSpec]
      bitTest := by simp [pushSpec,bitTestNames]
      bitScan := by simp [pushSpec] }

lemma sandboxSpec_mov : ∀ spec ∈ [movSpec,addSpec], SandboxSpec spec := by
  simp only [List.forall_mem_cons,List.not_mem_nil,false_implies,implies_true,and_true]
  exact ⟨⟨by simp [movSpec,InstructionSpec.allOperands],by simp [movSpec]⟩,
    ⟨by simp [addSpec,InstructionSpec.allOperands],by simp [addSpec]⟩⟩

lemma sandboxSpec_push : ∀ spec ∈ [pushSpec,addSpec], SandboxSpec spec := by
  have rsp : "RSP".toUpper = "RSP" ∧ regName "RSP" = some (.gpr .w64 .SP) := by decide +kernel
  simp only [List.forall_mem_cons,List.not_mem_nil,false_implies,implies_true,and_true]
  refine ⟨⟨fun values width s d h => ?_,by simp [pushSpec,rsp,RegName.base]⟩,
    ⟨by simp [addSpec,InstructionSpec.allOperands],by simp [addSpec]⟩⟩
  simp only [InstructionSpec.allOperands,pushSpec,List.cons_append,List.nil_append,List.mem_cons,
    List.not_mem_nil,or_false,OperandSpec.mem.injEq,reduceCtorEq,false_or] at h
  rcases h with ⟨rfl,-⟩ | ⟨rfl,-⟩
  · simp
  · simp [rsp,RegName.base]

lemma frames_false : Frames fun _ _ _ => False := fun _ _ _ _ h => h.elim

/-- The instrumentation of memory accesses can be executed. -/
lemma exists_step_applyMask {conf : GeneratorConf} {k : ℕ} (pow : conf.inputMainRegionSize = 2^k)
    {v : String} (upper : v.toUpper = v) {r : Gpr} (hr : regName v = some (.gpr .w64 r))
    (m : Machine) (w : ℕ) (s d : Bool) :
    ∃ m', Step (fun _ _ _ => False) (applyMask conf (.mem [v] w s d)) m m' := by
  obtain ⟨x,hx,-⟩ := source_mask pow m (min w 32)
  rw [applyMask_eq upper]
  exact ⟨_,(step_of_exec (m.exec_and _ _ ▸ Machine.operate_reg hr hx)).mpr rfl⟩

lemma exists_step_addBase {v : String} (upper : v.toUpper = v) {r : Gpr}
    (hr : regName v = some (.gpr .w64 r)) (m : Machine) (w : ℕ) (s d : Bool) :
    ∃ m', Step (fun _ _ _ => False) (X86SandboxPass.addBase (.mem [v] w s d)) m m' := by
  rw [addBase_eq upper]
  exact ⟨_,(step_of_exec (m.exec_add _ _ ▸ Machine.operate_reg hr (source_base m))).mpr rfl⟩

/-- A store of a created test case is reached, and its access is in the sandbox. -/
theorem createTestCase_contained_mov : ∃ tc t' m m',
    createTestCase oneAccess [movSpec,addSpec] (Stream'.const 1) = .ok (tc,t') ∧
    (accessCode (fun _ _ _ => False) (0x10000 : BitVec 64) 4096).Runs
      [applyMask oneAccess (.mem ["RBX"] 64 false true)] m m' ∧
    Contained (0x10000 : BitVec 64) 4096
      { name := "MOV", category := "BASE-DATAXFER"
        operands := [.mem ["R14","RBX"] 64 false true,.imm "1" 32] } m' := by
  have code : ((createTestCase oneAccess [movSpec,addSpec] (Stream'.const 1)).toOption.map
      fun r => r.1.blocks.map (·.instructions)) = some [[],
        [applyMask oneAccess (.mem ["RBX"] 64 false true),
          { name := "MOV", category := "BASE-DATAXFER"
            operands := [.mem ["R14","RBX"] 64 false true,.imm "1" 32] }],[]] := by
    decide +kernel
  have set : InstructionSet.init oneAccess [] [movSpec,addSpec] = .ok [movSpec,addSpec] := by
    decide +kernel
  have rbx : "RBX".toUpper = "RBX" ∧ regName "RBX" = some (.gpr .w64 .B) := by decide +kernel
  have pow : oneAccess.inputMainRegionSize = 2^12 := rfl
  obtain ⟨tc,t',created,blocks⟩ := exists_of_blocks code
  obtain ⟨bb,hbb,hl⟩ := blocks _ (List.mem_cons_of_mem _ List.mem_cons_self)
  let m : Machine := ⟨fun _ => 0x10000,fun _ => 0⟩
  obtain ⟨m',step⟩ := exists_step_applyMask pow rbx.1 rbx.2 m 64 false true
  have run : (accessCode (fun _ _ _ => False) (0x10000 : BitVec 64) 4096).Runs
      [applyMask oneAccess (.mem ["RBX"] 64 false true)] m m' := .cons step (.nil m')
  have contained := createTestCase_contained set wellFormed_mov sandboxSpec_mov (by decide +kernel)
    pow frames_false (by simp [Separate,movSpec,addSpec,OperandSpec.isMem]) created
    (List.forall_mem_singleton.mpr hbb) (m := m) rfl
  exact ⟨tc,t',m,m',created,run,contained.1 [_] _ [] m' (by simp [hl]) run⟩

/-- `PUSH qword ptr [RBX]` is sandboxed for its implicit access only: what it reads is wherever RBX
points to. -/
theorem createTestCase_not_contained : ∃ tc t',
    (∀ spec ∈ [pushSpec,addSpec], WellFormedSpec spec ∧ SandboxSpec spec) ∧
    (∀ v ∈ baseNames, v ∈ pushConf.gprBlocklist) ∧
    InstructionSet.init pushConf [] [pushSpec,addSpec] = .ok [pushSpec,addSpec] ∧
    createTestCase pushConf [pushSpec,addSpec] (Stream'.const 1) = .ok (tc,t') ∧
    ∃ bb ∈ tc.blocks, ∃ pre inst post m m', bb.instructions = pre ++ inst :: post ∧
      m.reg .R14 = (0x10000 : BitVec 64) ∧
      (accessCode (fun _ _ _ => False) (0x10000 : BitVec 64) 4096).Runs pre m m' ∧
      ¬Contained (0x10000 : BitVec 64) 4096 inst m' := by
  have code : ((createTestCase pushConf [pushSpec,addSpec] (Stream'.const 1)).toOption.map
      fun r => r.1.blocks.map (·.instructions)) = some [[],
        [applyMask pushConf (.mem ["RSP"] 64 false true),
          X86SandboxPass.addBase (.mem ["RSP"] 64 false true),
          { name := "PUSH", category := "BASE-PUSH", operands := [.mem ["RBX"] 64 true false]
            implicitOperands := [.reg "RSP" 64 true true,.mem ["RSP"] 64 false true] }],[]] := by
    decide +kernel
  have rsp : "RSP".toUpper = "RSP" ∧ regName "RSP" = some (.gpr .w64 .SP) := by decide +kernel
  have rbx : regName "RBX" = some (.gpr .w64 .B) := by decide +kernel
  have r14 : regName "R14" = some (.gpr .w64 .R14) := by decide +kernel
  have pow : pushConf.inputMainRegionSize = 2^12 := rfl
  obtain ⟨tc,t',created,blocks⟩ := exists_of_blocks code
  obtain ⟨bb,hbb,hl⟩ := blocks _ (List.mem_cons_of_mem _ List.mem_cons_self)
  let m : Machine := ⟨fun r => if r = .R14 then 0x10000 else 0x100000,fun _ => 0⟩
  obtain ⟨m₁,step₁⟩ := exists_step_applyMask pow rsp.1 rsp.2 m 64 false true
  obtain ⟨m₂,step₂⟩ := exists_step_addBase rsp.1 rsp.2 m₁ 64 false true
  have same : m₂.reg .B = 0x100000 := by
    have mask : (applyMask pushConf (.mem ["RSP"] 64 false true)).Spares .B := by
      rw [applyMask_eq rsp.1]
      exact spares_instrumentation (by simp [Operand.target,rsp,RegName.base])
    have add : (X86SandboxPass.addBase (.mem ["RSP"] 64 false true)).Spares .B := by
      rw [addBase_eq rsp.1]
      exact spares_instrumentation (by simp [Operand.target,rsp,r14,RegName.base])
    rw [step_spares frames_false add step₂,step_spares frames_false mask step₁]
    rfl
  refine ⟨tc,t',fun spec h => ⟨wellFormed_push spec h,sandboxSpec_push spec h⟩,by decide +kernel,
    by decide +kernel,created,bb,hbb,[_,_],_,[],m,m₂,hl,rfl,
    .cons step₁ (.cons step₂ (.nil m₂)),fun h => ?_⟩
  have within := h.explicit ["RBX"] 64 true false (by simp) (m₂.reg .B)
    (by simp [Machine.address,Machine.term,rbx]) 0 (by norm_num)
  rw [same,displacement_of_not (by decide +kernel)] at within
  revert within
  decide

end Witness

end ProteanAmulet.Generator
