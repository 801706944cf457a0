import Mathlib.Data.List.Sort
import ProteanAmulet.Model.Cts

/-! The control-flow graph of the CTS analysis. The source disassembles the whole code page,
the zero bytes after the test case included, and asks for the opcode bytes of a jump where it
means its identity. -/
namespace ProteanAmulet.CTSTracer

/-- The prefixes that may stand before the opcode of a jump. -/
def isModifier (b : Byte) : Bool :=
  [0x26,0x2E,0x36,0x3E,0x64,0x65,0x66,0x67,0xF0,0xF2,0xF3].contains b ||
  decide (0x40 ≤ b.toNat ∧ b.toNat<0x50)

/-- An unconditional direct jump, short or near. -/
def isJmp (insn : Insn) : Bool :=
  insn.cs.groupJump && [0xEB,0xE9].contains ((insn.bytes.dropWhile isModifier).headD 0)

/-- Where the processor can go after the instruction. -/
def successors (address : ℕ) (insn : Insn) : List ℕ :=
  if insn.cs.groupJump then
    if isJmp insn then [insn.cs.imm] else [insn.cs.imm,address+insn.size]
  else [address+insn.size]

/-- `add byte ptr [rax],al`, the meaning of two zero bytes. -/
def addMem : CsInsn :=
  { operands := [⟨true,true,some (.gpr .w64 .A),none⟩,⟨false,true,none,none⟩]
    regsRead := [.gpr .w64 .A,.gpr .w8 .A], regsWrite := [.flags] }

/-- The instruction decoder of the disassembler: it reads the bytes of one instruction from
the front, whatever follows them. -/
structure Decoder where
  decode : ℕ → List Byte → Option Insn
  reads : ∀ {a bs insn}, decode a bs = some insn → insn.bytes <+: bs
  stable : ∀ {a bs insn}, decode a bs = some insn → ∀ rest, decode a (bs ++ rest) = some insn
  zeros : ∀ a rest, ∃ insn, decode a (0 :: 0 :: rest) = some insn ∧ insn.bytes=[0,0] ∧ insn.cs=addMem

namespace Decoder
variable (dec : Decoder)

/-- Linear disassembly, up to the first bytes that are no instruction. -/
def disasm : ℕ → ℕ → List Byte → Insns
  | 0, _, _ => []
  | fuel+1, a, bs =>
    match dec.decode a bs with
    | none => []
    | some insn => (a,insn) :: disasm fuel (a+insn.size) (bs.drop insn.size)

variable {dec}

lemma disasm_fuel {n m a : ℕ} {bs : List Byte} (hn : bs.length ≤ n) (hm : bs.length ≤ m) :
    dec.disasm n a bs = dec.disasm m a bs := by
  induction n generalizing m a bs with
  | zero =>
    have empty : bs=[] := List.length_eq_zero_iff.mp (by omega)
    subst empty
    cases m with
    | zero => rfl
    | succ m =>
      cases h : dec.decode a [] with
      | none => simp [disasm,h]
      | some insn => exact absurd (List.prefix_nil.mp (dec.reads h)) insn.bytes_ne
  | succ n ih =>
    cases h : dec.decode a bs with
    | none => cases m <;> simp [disasm,h]
    | some insn =>
      have le : insn.size ≤ bs.length := (dec.reads h).length_le
      have pos := insn.size_pos
      cases m with
      | zero => omega
      | succ m =>
        simp only [disasm,h]
        congr 1
        apply ih <;> rw [List.length_drop] <;> omega

/-- The bytes of a list of instructions. -/
def bytesOf (l : Insns) : List Byte := l.flatMap fun p => p.2.bytes

/-- The code is a sequence of instructions. -/
def Covers (dec : Decoder) (a : ℕ) (bs : List Byte) : Prop :=
  bytesOf (dec.disasm bs.length a bs) = bs

/-- Code that is covered is empty or starts with an instruction followed by covered code. -/
lemma covers_cases {a : ℕ} {bs : List Byte} (h : dec.Covers a bs) :
    bs=[] ∨ ∃ insn rest, dec.decode a bs = some insn ∧ bs = insn.bytes ++ rest ∧
      dec.disasm bs.length a bs = (a,insn) :: dec.disasm rest.length (a+insn.size) rest ∧
      dec.Covers (a+insn.size) rest := by
  cases bs with
  | nil => exact Or.inl rfl
  | cons b bs =>
    right
    unfold Covers at h
    cases hd : dec.decode a (b :: bs) with
    | none =>
      rw [List.length_cons,disasm,hd] at h
      cases h
    | some insn =>
      obtain ⟨rest,hrest⟩ := dec.reads hd
      have drop : (b :: bs).drop insn.size = rest := by
        rw [← hrest]
        exact List.drop_left
      have len : insn.size+rest.length = bs.length+1 := by
        rw [← List.length_cons,← hrest,List.length_append]
        rfl
      have pos := insn.size_pos
      have eq : dec.disasm (b :: bs).length a (b :: bs) =
          (a,insn) :: dec.disasm rest.length (a+insn.size) rest := by
        rw [List.length_cons,disasm,hd]
        simp only [drop]
        rw [disasm_fuel (by omega : rest.length ≤ bs.length) le_rfl]
      refine ⟨insn,rest,rfl,hrest.symm,eq,?_⟩
      rw [eq,bytesOf,List.flatMap_cons,← hrest] at h
      exact List.append_cancel_left h

/-- Bytes after the code do not change how the code is read. -/
lemma disasm_append {a : ℕ} {bs : List Byte} (h : dec.Covers a bs) (pad : List Byte) :
    dec.disasm (bs ++ pad).length a (bs ++ pad) =
      dec.disasm bs.length a bs ++ dec.disasm pad.length (a+bs.length) pad := by
  induction hn : bs.length using Nat.strong_induction_on generalizing a bs with
  | _ n ih =>
    subst hn
    rcases covers_cases h with rfl | ⟨insn,rest,hd,hbs,eq,hrest⟩
    · rfl
    · have pos := insn.size_pos
      have len : bs.length = insn.size+rest.length := by
        rw [hbs,List.length_append]
        rfl
      have here := dec.stable hd pad
      have drop : (bs ++ pad).drop insn.size = rest ++ pad := by
        rw [hbs,List.append_assoc]
        exact List.drop_left
      have total : (bs ++ pad).length = (insn.size-1+(rest ++ pad).length)+1 := by
        simp only [List.length_append]
        omega
      rw [eq,total,disasm,here]
      simp only [drop,List.cons_append]
      congr 1
      rw [disasm_fuel (by omega : (rest ++ pad).length ≤ _) le_rfl,
        ih rest.length (by omega) hrest rfl,len,Nat.add_assoc]

/-- Instructions follow one another without gaps. -/
lemma disasm_mem {n a : ℕ} {bs : List Byte} {p : ℕ × Insn} (h : p ∈ dec.disasm n a bs) :
    a ≤ p.1 ∧ p.1+p.2.size ≤ a+bs.length := by
  induction n generalizing a bs with
  | zero => cases h
  | succ n ih =>
    rw [disasm] at h
    cases hd : dec.decode a bs with
    | none => rw [hd] at h; cases h
    | some insn =>
      rw [hd] at h
      have le : insn.size ≤ bs.length := (dec.reads hd).length_le
      rcases List.mem_cons.mp h with rfl | h
      · exact ⟨le_rfl,Nat.add_le_add_left le a⟩
      · obtain ⟨lo,hi⟩ := ih h
        rw [List.length_drop] at hi
        omega

lemma disasm_sorted (n a : ℕ) (bs : List Byte) :
    ((dec.disasm n a bs).map Prod.fst).Pairwise (· < ·) := by
  induction n generalizing a bs with
  | zero => exact List.Pairwise.nil
  | succ n ih =>
    rw [disasm]
    cases dec.decode a bs with
    | none => exact List.Pairwise.nil
    | some insn =>
      have pos := insn.size_pos
      rw [List.map_cons,List.pairwise_cons]
      refine ⟨?_,ih _ _⟩
      intro b hb
      obtain ⟨p,hp,rfl⟩ := List.mem_map.mp hb
      have := (disasm_mem hp).1
      omega

/-- The fall-through of an instruction is the next one or the end of the code. -/
lemma disasm_next {a : ℕ} {bs : List Byte} (h : dec.Covers a bs) {p : ℕ × Insn}
    (hp : p ∈ dec.disasm bs.length a bs) :
    p.1+p.2.size = a+bs.length ∨
      p.1+p.2.size ∈ (dec.disasm bs.length a bs).map Prod.fst := by
  induction hn : bs.length using Nat.strong_induction_on generalizing a bs with
  | _ n ih =>
    subst hn
    rcases covers_cases h with rfl | ⟨insn,rest,hd,hbs,eq,hrest⟩
    · cases hp
    · have pos := insn.size_pos
      have len : bs.length = insn.size+rest.length := by
        rw [hbs,List.length_append]
        rfl
      rw [eq] at hp ⊢
      rcases List.mem_cons.mp hp with rfl | hp
      · rcases covers_cases hrest with rfl | ⟨insn',rest',-,-,eq',-⟩
        · left
          simpa using len.symm
        · right
          simp [eq']
      · rcases ih rest.length (by omega) hrest hp rfl with last | next
        · left
          omega
        · right
          exact List.mem_cons_of_mem a next

lemma disasm_last {a : ℕ} {bs : List Byte} (h : dec.Covers a bs) (hne : bs ≠ []) :
    ∃ p ∈ dec.disasm bs.length a bs, p.1+p.2.size = a+bs.length := by
  induction hn : bs.length using Nat.strong_induction_on generalizing a bs with
  | _ n ih =>
    subst hn
    rcases covers_cases h with rfl | ⟨insn,rest,hd,hbs,eq,hrest⟩
    · exact absurd rfl hne
    · have pos := insn.size_pos
      have len : bs.length = insn.size+rest.length := by
        rw [hbs,List.length_append]
        rfl
      rw [eq]
      by_cases hr : rest=[]
      · subst hr
        exact ⟨(a,insn),List.mem_cons_self,by simpa using len.symm⟩
      · obtain ⟨p,hp,last⟩ := ih rest.length (by omega) hrest hr rfl
        exact ⟨p,List.mem_cons_of_mem _ hp,by omega⟩

/-- Fewer than two zero bytes are no instruction. -/
lemma disasm_zero (n a : ℕ) {k : ℕ} (hk : k<2) : dec.disasm n a (List.replicate k 0) = [] := by
  cases n with
  | zero => rfl
  | succ n =>
    cases h : dec.decode a (List.replicate k 0) with
    | none => rw [disasm,h]
    | some insn =>
      obtain ⟨zero,hz,bytes,-⟩ := dec.zeros a []
      have split : List.replicate k (0 : Byte) ++ List.replicate (2-k) 0 = [0,0] := by
        obtain rfl | rfl : k=0 ∨ k=1 := by omega
        · rfl
        · rfl
      have longer := dec.stable h (List.replicate (2-k) 0)
      rw [split,hz] at longer
      have short := (dec.reads h).length_le
      rw [← Option.some.inj longer,bytes,List.length_replicate,List.length_cons] at short
      simp at short
      omega

lemma disasm_zeros_cons (dec : Decoder) (n a k : ℕ) : ∃ insn, insn.cs=addMem ∧
    dec.disasm (n+1) a (List.replicate (k+2) 0) =
      (a,insn) :: dec.disasm n (a+2) (List.replicate k 0) := by
  obtain ⟨insn,h,bytes,cs⟩ := dec.zeros a (List.replicate k 0)
  have size : insn.size=2 := by rw [Insn.size,bytes]; rfl
  refine ⟨insn,cs,?_⟩
  rw [List.replicate_succ,List.replicate_succ,disasm,h]
  simp only [size]
  rfl

lemma cs_of_zeros {n a k : ℕ} {p : ℕ × Insn}
    (h : p ∈ dec.disasm n a (List.replicate k 0)) : p.2.cs=addMem := by
  induction n generalizing a k with
  | zero => cases h
  | succ n ih =>
    by_cases hk : k<2
    · rw [disasm_zero _ _ hk] at h
      cases h
    · obtain ⟨j,rfl⟩ := Nat.exists_eq_add_of_le' (Nat.le_of_not_lt hk)
      obtain ⟨insn,cs,eq⟩ := disasm_zeros_cons dec n a j
      rw [eq] at h
      rcases List.mem_cons.mp h with rfl | h
      · exact cs
      · exact ih h

end Decoder

/-- The edges that `construct_cfg` stores for an instruction. -/
lemma lookup_constructCfg {insns : Insns} (hs : (insns.map Prod.fst).Pairwise (· < ·))
    {succs : List (ℕ × List ℕ)} (h : constructCfg insns = some succs) {p : ℕ × Insn}
    (hp : p ∈ insns) :
    (targets p.1 p.2).map (List.filter fun a => decide (a ∈ insns.map Prod.fst)) =
      succs.lookup p.1 := by
  unfold constructCfg at h
  generalize (fun a => decide (a ∈ insns.map Prod.fst)) = keep at h ⊢
  induction insns generalizing succs with
  | nil => cases hp
  | cons q l ih =>
    rw [List.mapM_cons] at h
    rw [List.map_cons,List.pairwise_cons] at hs
    obtain ⟨e,he,h⟩ := Option.bind_eq_some_iff.mp h
    obtain ⟨rest,hrest,h⟩ := Option.bind_eq_some_iff.mp h
    obtain ⟨ts,hts,he⟩ := Option.bind_eq_some_iff.mp he
    cases he
    cases h
    rcases List.mem_cons.mp hp with rfl | hp
    · rw [hts,List.lookup_cons_self,Option.map_some]
    · have lt : q.1<p.1 := hs.1 _ (List.mem_map_of_mem hp)
      rw [List.lookup_cons,beq_false_of_ne (by omega : p.1 ≠ q.1)]
      exact ih hs.2 hp hrest

lemma constructCfg_isSome {insns : Insns} (h : ∀ p ∈ insns, (targets p.1 p.2).isSome) :
    ∃ succs, constructCfg insns = some succs := by
  unfold constructCfg
  generalize (fun a => decide (a ∈ insns.map Prod.fst)) = keep
  induction insns with
  | nil => exact ⟨[],rfl⟩
  | cons q l ih =>
    obtain ⟨ts,hts⟩ := Option.isSome_iff_exists.mp (h q List.mem_cons_self)
    obtain ⟨rest,hrest⟩ := ih fun p hp => h p (List.mem_cons_of_mem q hp)
    refine ⟨(q.1,ts.filter keep) :: rest,?_⟩
    rw [List.mapM_cons]
    apply Option.bind_eq_some_iff.mpr
    refine ⟨(q.1,ts.filter keep),by rw [hts]; rfl,?_⟩
    exact Option.bind_eq_some_iff.mpr ⟨rest,hrest,rfl⟩

/-- The targets that the source considers: those of the processor, and the fall-through of an
unconditional jump. -/
lemma mem_targets {a : ℕ} {insn : Insn} {ts : List ℕ} (h : targets a insn = some ts) (t : ℕ) :
    t ∈ ts ↔ t ∈ successors a insn ∨ (isJmp insn ∧ t=a+insn.size) := by
  unfold targets at h
  unfold successors
  by_cases hj : insn.cs.groupJump = true
  · rw [if_pos hj] at h ⊢
    split_ifs at h
    cases h
    by_cases jmp : isJmp insn = true
    · simp [jmp]
    · simp [jmp]
  · have straight : isJmp insn = false := by simp [isJmp,hj]
    rw [if_neg hj] at h ⊢
    cases h
    simp [straight]

/-- A test case as it is loaded: a sequence of instructions that fits the code page, with
direct jumps only. -/
structure Binary where
  dec : Decoder
  codeStart : ℕ
  code : List Byte
  fits : code.length ≤ 4096
  covers : dec.Covers codeStart code
  direct : ∀ p ∈ dec.disasm code.length codeStart code,
    p.2.cs.groupJump → p.2.cs.groupBranchRelative

namespace Binary
variable (b : Binary)

def codeEnd : ℕ := b.codeStart+b.code.length

/-- The code page: the memory after the test case is zero. -/
def page : List Byte := b.code ++ List.replicate (4096-b.code.length) 0

/-- The instructions of the test case. -/
def own : Insns := b.dec.disasm b.code.length b.codeStart b.code

/-- The instructions `get_insns` finds. -/
def insns : Insns := b.dec.disasm b.page.length b.codeStart b.page

/-- The registers the analysis finds, for a list of instructions. -/
def unprots (insns : Insns) : Option Dataflow := do
  let succs ← constructCfg insns
  dataflowAnalysis insns succs 1001 {}

/-- The successors of the instructions of the test case are those of the processor, as far as
they lie in the test case. -/
def CfgExact : Prop :=
  ∃ succs, constructCfg b.insns = some succs ∧ ∀ p ∈ b.own, ∀ t,
    t ∈ (succs.lookup p.1).getD [] ↔
      t ∈ successors p.1 p.2 ∧ b.codeStart ≤ t ∧ t<b.codeEnd

/-- The sets of the instructions of the test case are those found without the zero bytes. -/
def PaddingFree : Prop :=
  ∀ d d', unprots b.insns = some d → unprots b.own = some d' →
    ∀ p ∈ b.own, d.pre p.1 = d'.pre p.1 ∧ d.post p.1 = d'.post p.1

/-- The test case is empty, or it leaves no room for an instruction after it, its
unconditional jumps are last or go to the next instruction, and its jumps inside go to
instructions. -/
def Clean : Prop :=
  b.code=[] ∨ 4095 ≤ b.code.length ∧ ∀ p ∈ b.own,
    (isJmp p.2 → p.1+p.2.size = b.codeEnd ∨ p.2.cs.imm = p.1+p.2.size) ∧
    (p.2.cs.groupJump → b.codeStart ≤ p.2.cs.imm → p.2.cs.imm<b.codeEnd →
      p.2.cs.imm ∈ b.own.map Prod.fst)

variable {b}

lemma insns_eq : b.insns = b.own ++
    b.dec.disasm (4096-b.code.length) b.codeEnd (List.replicate (4096-b.code.length) 0) := by
  unfold insns page own codeEnd
  rw [Decoder.disasm_append b.covers,List.length_replicate]

lemma own_bounds {p : ℕ × Insn} (hp : p ∈ b.own) :
    b.codeStart ≤ p.1 ∧ p.1+p.2.size ≤ b.codeEnd :=
  Decoder.disasm_mem hp

lemma insns_sorted : (b.insns.map Prod.fst).Pairwise (· < ·) :=
  Decoder.disasm_sorted _ _ _

lemma own_subset {p : ℕ × Insn} (hp : p ∈ b.own) : p ∈ b.insns := by
  rw [insns_eq]
  exact List.mem_append_left _ hp

lemma targets_own {p : ℕ × Insn} (hp : p ∈ b.own) : (targets p.1 p.2).isSome := by
  unfold targets
  by_cases hj : p.2.cs.groupJump = true
  · simp [hj,b.direct p hp hj]
  · simp [hj]

lemma exists_cfg (b : Binary) : ∃ succs, constructCfg b.insns = some succs := by
  apply constructCfg_isSome
  intro p hp
  rw [insns_eq] at hp
  rcases List.mem_append.mp hp with hp | hp
  · exact targets_own hp
  · simp [targets,Decoder.cs_of_zeros hp,addMem]

/-- What the map holds for an instruction of the test case: the decoded ones among the
successors and, after an unconditional jump, the next instruction. -/
lemma mem_succs {succs : List (ℕ × List ℕ)} (h : constructCfg b.insns = some succs)
    {p : ℕ × Insn} (hp : p ∈ b.own) (t : ℕ) :
    t ∈ (succs.lookup p.1).getD [] ↔ t ∈ b.insns.map Prod.fst ∧
      (t ∈ successors p.1 p.2 ∨ isJmp p.2 ∧ t=p.1+p.2.size) := by
  obtain ⟨ts,hts⟩ := Option.isSome_iff_exists.mp (targets_own hp)
  rw [← lookup_constructCfg insns_sorted h (own_subset hp),hts,← mem_targets hts]
  simp [and_comm]

lemma fallThrough_mem (a : ℕ) (insn : Insn) :
    a+insn.size ∈ successors a insn ∨ isJmp insn ∧ a+insn.size=a+insn.size := by
  unfold successors
  by_cases hj : insn.cs.groupJump = true <;> by_cases jmp : isJmp insn = true <;> simp [hj,jmp]

lemma insns_eq_own (h : 4095 ≤ b.code.length) : b.insns=b.own := by
  rw [insns_eq,Decoder.disasm_zero _ _ (by omega),List.append_nil]

/-- With room for two zero bytes the end of the code is decoded. -/
lemma codeEnd_mem (h : b.code.length<4095) : b.codeEnd ∈ b.insns.map Prod.fst := by
  obtain ⟨k,hk⟩ := Nat.exists_eq_add_of_le' (by omega : 2 ≤ 4096-b.code.length)
  obtain ⟨insn,-,eq⟩ := Decoder.disasm_zeros_cons b.dec (k+1) b.codeEnd k
  rw [insns_eq,hk,eq]
  simp

lemma CfgExact.clean (h : b.CfgExact) : b.Clean := by
  obtain ⟨succs,hs,exactly⟩ := h
  by_cases hne : b.code=[]
  · exact Or.inl hne
  · have full : 4095 ≤ b.code.length := by
      by_contra hlt
      obtain ⟨p,hp,last⟩ := Decoder.disasm_last b.covers hne
      have last : p.1+p.2.size = b.codeEnd := last
      have edge := (mem_succs hs hp (p.1+p.2.size)).mpr
        ⟨by rw [last]; exact codeEnd_mem (by omega),fallThrough_mem p.1 p.2⟩
      have := ((exactly p hp _).mp edge).2.2
      omega
    refine Or.inr ⟨full,?_⟩
    intro p hp
    constructor
    · intro jmp
      rcases Decoder.disasm_next b.covers hp with last | next
      · exact Or.inl last
      · right
        have edge := (mem_succs hs hp (p.1+p.2.size)).mpr
          ⟨by rw [insns_eq_own full]; exact next,fallThrough_mem p.1 p.2⟩
        have arch := ((exactly p hp _).mp edge).1
        have jump : p.2.cs.groupJump = true := by
          simp only [isJmp,Bool.and_eq_true] at jmp
          exact jmp.1
        simp only [successors,jump,jmp,if_true,List.mem_singleton] at arch
        exact arch.symm
    · intro jump lo hi
      have arch : p.2.cs.imm ∈ successors p.1 p.2 := by
        unfold successors
        rw [if_pos jump]
        split_ifs <;> simp
      have edge := (exactly p hp _).mpr ⟨arch,lo,hi⟩
      have decoded := ((mem_succs hs hp _).mp edge).1
      rwa [insns_eq_own full] at decoded

/-- An address inside the test case is a successor of an instruction only if it is decoded. -/
lemma Clean.exact (h : b.Clean) : b.CfgExact := by
  obtain ⟨succs,hs⟩ := b.exists_cfg
  refine ⟨succs,hs,?_⟩
  intro p hp t
  rcases h with empty | ⟨full,clean⟩
  · unfold own at hp
    rw [empty] at hp
    cases hp
  · obtain ⟨jmpClean,jumpClean⟩ := clean p hp
    rw [mem_succs hs hp,insns_eq_own full]
    constructor
    · rintro ⟨decoded,ht⟩
      obtain ⟨q,hq,rfl⟩ := List.mem_map.mp decoded
      have bounds := own_bounds hq
      have pos := q.2.size_pos
      refine ⟨?_,bounds.1,by omega⟩
      rcases ht with ht | ⟨jmp,ht⟩
      · exact ht
      · have jump : p.2.cs.groupJump = true := by
          simp only [isJmp,Bool.and_eq_true] at jmp
          exact jmp.1
        have target : p.2.cs.imm=p.1+p.2.size := (jmpClean jmp).resolve_left (by omega)
        simp [successors,jump,jmp,target,ht]
    · rintro ⟨arch,lo,hi⟩
      refine ⟨?_,Or.inl arch⟩
      have shape : p.2.cs.groupJump ∧ t=p.2.cs.imm ∨ t=p.1+p.2.size := by
        unfold successors at arch
        split_ifs at arch <;> simp_all
      rcases shape with ⟨jump,rfl⟩ | rfl
      · exact jumpClean jump lo hi
      · rcases Decoder.disasm_next b.covers hp with last | next
        · exact absurd hi (by unfold codeEnd; omega)
        · exact next

lemma Clean.paddingFree (h : b.Clean) : b.PaddingFree := by
  intro d d' hd hd' p hp
  rcases h with empty | ⟨full,-⟩
  · unfold own at hp
    rw [empty] at hp
    cases hp
  · rw [insns_eq_own full,hd'] at hd
    cases hd
    exact ⟨rfl,rfl⟩

/-- The control-flow graph is that of the processor, and the analysis independent of the zero
bytes, exactly for the test cases that fill the page and whose unconditional jumps do not skip
anything. -/
theorem constructCfg_exact_iff (b : Binary) : (b.CfgExact ∧ b.PaddingFree) ↔ b.Clean :=
  ⟨fun h => h.1.clean,fun h => ⟨h.exact,h.paddingFree⟩⟩

/-- A decoder that knows `add [rax],al`, a short jump and `mov rcx,[rcx]`. -/
def smallDecode (a : ℕ) : List Byte → Option Insn
  | 0x00 :: 0x00 :: _ => some
      { bytes := [0x00,0x00], finish := fun c _ => c, cs := addMem }
  | 0xEB :: rel :: _ => some
      { bytes := [0xEB,rel], finish := fun c _ => c
        cs := { groupJump := true, groupBranchRelative := true, imm := (a+2+rel.toInt).toNat } }
  | 0x48 :: 0x8B :: 0x09 :: _ => some
      { bytes := [0x48,0x8B,0x09], finish := fun c _ => c
        cs := { operands := [⟨false,true,none,none⟩,⟨true,true,some (.gpr .w64 .C),none⟩]
                regsRead := [.gpr .w64 .C], regsWrite := [.gpr .w64 .C] } }
  | _ => none

def smallDecoder : Decoder where
  decode := smallDecode
  reads {a bs insn} h := by
    unfold smallDecode at h
    split at h <;> cases h <;> simp
  stable {a bs insn} h rest := by
    unfold smallDecode at h
    split at h <;> cases h <;> rfl
  zeros a rest := ⟨_,rfl,rfl,rfl⟩

/-- A jump to the end over a load. -/
def jmpLoad : Binary where
  dec := smallDecoder
  codeStart := 0
  code := [0xEB,0x03,0x48,0x8B,0x09]
  fits := by decide
  covers := by unfold Decoder.Covers; decide
  direct := by decide

/-- The jump gets an edge to the load it skips, and the load one to the zero bytes. -/
theorem constructCfg_not_exact :
    ¬(jmpLoad.CfgExact ∧ jmpLoad.PaddingFree) ∧
    ∃ succs, constructCfg jmpLoad.insns = some succs ∧
      2 ∈ (succs.lookup 0).getD [] ∧ 5 ∈ (succs.lookup 2).getD [] := by
  constructor
  · rintro ⟨cfg,-⟩
    rcases cfg.clean with empty | ⟨full,-⟩
    · cases empty
    · exact absurd full (by decide)
  · obtain ⟨succs,hs⟩ := jmpLoad.exists_cfg
    have jump : jmpLoad.own.head (by decide) ∈ jmpLoad.own := List.head_mem _
    have load : jmpLoad.own.getLast (by decide) ∈ jmpLoad.own := List.getLast_mem _
    have at2 := List.mem_map_of_mem (f := Prod.fst) (own_subset load)
    have at5 := codeEnd_mem (b := jmpLoad) (by decide)
    exact ⟨succs,hs,(mem_succs hs jump 2).mpr ⟨at2,by decide⟩,
      (mem_succs hs load 5).mpr ⟨at5,by decide⟩⟩

end Binary
end ProteanAmulet.CTSTracer
