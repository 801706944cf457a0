import ProteanAmulet.Model.Frame

/-! What the Cond clause makes of a conditional branch, compared with the instruction set. -/
namespace ProteanAmulet

/-- The encodings of the conditional branches. -/
inductive Branch where
  | jcc (cc : Fin 16) (d : BitVec 8)
  | jccNear (cc : Fin 16) (d : BitVec 32)
  | loopne (d : BitVec 8)
  | loope (d : BitVec 8)
  | loop (d : BitVec 8)
  | jrcxz (d : BitVec 8)
  deriving DecidableEq

namespace Branch

def bytes : Branch → List Byte
  | jcc cc d => [0x70+BitVec.ofNat 8 cc,d]
  | jccNear cc d => [0x0F,0x80+BitVec.ofNat 8 cc,d.extractLsb' 0 8,d.extractLsb' 8 8,
      d.extractLsb' 16 8,d.extractLsb' 24 8]
  | loopne d => [0xE0,d]
  | loope d => [0xE1,d]
  | loop d => [0xE2,d]
  | jrcxz d => [0xE3,d]

/-- The bytes that an instruction is known by as a branch. -/
def opcode : Branch → List Byte
  | jcc cc _ => [0x70+BitVec.ofNat 8 cc]
  | jccNear cc _ => [0x0F,0x80+BitVec.ofNat 8 cc]
  | loopne _ => [0xE0]
  | loope _ => [0xE1]
  | loop _ => [0xE2]
  | jrcxz _ => [0xE3]

/-- The displacement, with its sign. -/
def displacement : Branch → BitVec 64
  | jcc _ d | loopne d | loope d | loop d | jrcxz d => d.signExtend 64
  | jccNear _ d => d.signExtend 64

def backward : Branch → Bool
  | jcc _ d | loopne d | loope d | loop d | jrcxz d => d.msb
  | jccNear _ d => d.msb

def isLoop : Branch → Bool
  | loopne _ | loope _ | loop _ => true
  | _ => false

/-- The condition codes of the instruction set: odd codes negate. -/
def condition (cc : Fin 16) (f : BitVec 64) : Bool :=
  let cf := f.getLsbD 0
  let pf := f.getLsbD 2
  let zf := f.getLsbD 6
  let sf := f.getLsbD 7
  let of := f.getLsbD 11
  (cc.val % 2 = 1) != match cc.val/2 with
    | 0 => of
    | 1 => cf
    | 2 => zf
    | 3 => cf || zf
    | 4 => sf
    | 5 => pf
    | 6 => sf != of
    | _ => zf || sf != of

/-- Whether the processor takes the branch. A loop counts down first. -/
def taken (flags rcx : BitVec 64) : Branch → Bool
  | jcc cc _ | jccNear cc _ => condition cc flags
  | loopne _ => rcx-1 ≠ 0 && !flags.getLsbD 6
  | loope _ => rcx-1 ≠ 0 && flags.getLsbD 6
  | loop _ => rcx-1 ≠ 0
  | jrcxz _ => rcx = 0

/-- The displacement as `decode` reads it. -/
def unsigned : Branch → ℕ
  | jcc _ d | loopne d | loope d | loop d | jrcxz d => d.toNat
  | jccNear _ d => d.toNat

lemma decide_and_ne_zero (f : BitVec 64) {i : ℕ} {m : BitVec 64} (hm : m = BitVec.twoPow 64 i)
    (hne : m ≠ 0) : decide (f &&& m ≠ 0) = f.getLsbD i := by
  rw [hm,BitVec.and_twoPow,← hm]
  cases f.getLsbD i with
  | true => simpa using hne
  | false => simp

lemma cond_taken_eq (cc : Fin 16) (f : BitVec 64) :
    X86UnicornCond.taken cc f = condition cc f := by
  have cf := decide_and_ne_zero f (i := 0) (m := 1) (by decide) (by decide)
  have pf := decide_and_ne_zero f (i := 2) (m := 4) (by decide) (by decide)
  have zf := decide_and_ne_zero f (i := 6) (m := 0x40) (by decide) (by decide)
  have sf := decide_and_ne_zero f (i := 7) (m := 0x80) (by decide) (by decide)
  have of := decide_and_ne_zero f (i := 11) (m := 0x800) (by decide) (by decide)
  unfold X86UnicornCond.taken condition
  simp only [cf,pf,zf,sf,of]
  generalize f.getLsbD 0 = c, f.getLsbD 2 = p, f.getLsbD 6 = z, f.getLsbD 7 = s, f.getLsbD 11 = o
  revert cc c p z s o
  decide

lemma fromBytes_near (d : BitVec 32) : fromBytes [d.extractLsb' 0 8,d.extractLsb' 8 8,
    d.extractLsb' 16 8,d.extractLsb' 24 8] = d.toNat := by
  have := d.isLt
  simp only [fromBytes,List.foldr_cons,List.foldr_nil,BitVec.extractLsb'_toNat,
    Nat.shiftRight_eq_div_pow]
  omega

lemma fromBytes_short (d : BitVec 8) : fromBytes [d] = d.toNat := by
  simp [fromBytes]

lemma toNat_opcode (cc : Fin 16) :
    (0x70+BitVec.ofNat 8 cc).toNat = 0x70+cc ∧ (0x80+BitVec.ofNat 8 cc).toNat = 0x80+cc := by
  revert cc
  decide

/-- The branch is decoded with the condition of the instruction set. -/
lemma decode_bytes (b : Branch) (flags rcx : BitVec 64) :
    X86UnicornCond.decode b.bytes flags rcx = some (b.unsigned,b.taken flags rcx,b.isLoop) := by
  have zero : decide (flags &&& 0x40 ≠ 0) = flags.getLsbD 6 :=
    decide_and_ne_zero flags (by decide) (by decide)
  have nonzero : decide (flags &&& 0x40 = 0) = !flags.getLsbD 6 := by
    rw [← zero]
    simp
  have counts : decide (rcx ≠ 1) = decide (rcx-1 ≠ 0) := by
    simp [BitVec.sub_eq_iff_eq_add]
  unfold X86UnicornCond.decode
  cases b with
  | jcc cc d =>
    obtain ⟨op,_⟩ := toNat_opcode cc
    have range : 0x70 ≤ 0x70+cc.val ∧ 0x70+cc.val ≤ 0x7F := by omega
    simp only [bytes,X86UnicornCond.jump,op,if_pos range,Option.map_some,Nat.add_sub_cancel_left]
    rw [fromBytes_short,cond_taken_eq]
    rfl
  | jccNear cc d =>
    obtain ⟨_,op⟩ := toNat_opcode cc
    have range : 0x80 ≤ 0x80+cc.val ∧ 0x80+cc.val ≤ 0x8F := by omega
    change Option.map _ (if 0x80 ≤ (0x80+BitVec.ofNat 8 cc).toNat ∧ _ then _ else _) = _
    rw [op,if_pos range,Nat.add_sub_cancel_left,cond_taken_eq]
    exact congrArg (fun n => some (n,condition cc flags,false)) (fromBytes_near d)
  | loopne d =>
    change some (fromBytes [d],decide (rcx ≠ 1) && decide (flags &&& 0x40 = 0),true) = _
    rw [fromBytes_short,counts,nonzero]
    rfl
  | loope d =>
    change some (fromBytes [d],decide (rcx ≠ 1) && decide (flags &&& 0x40 ≠ 0),true) = _
    rw [fromBytes_short,counts,zero]
    rfl
  | loop d =>
    change some (fromBytes [d],decide (rcx ≠ 1),true) = _
    rw [fromBytes_short,counts]
    rfl
  | jrcxz d =>
    change some (fromBytes [d],decide (rcx = 0),false) = _
    rw [fromBytes_short]
    rfl

/-- A displacement read unsigned is the right one exactly when it is not negative. -/
lemma ofNat_toNat_eq_iff {w : ℕ} (hw : w<64) (d : BitVec w) :
    BitVec.ofNat 64 d.toNat = d.signExtend 64 ↔ d.msb = false := by
  rw [BitVec.ofNat_toNat]
  constructor
  · intro h
    have top : (d.setWidth 64).msb = (d.signExtend 64).msb := by rw [h]
    rw [BitVec.msb_signExtend,if_neg (by omega),BitVec.msb_setWidth,
      BitVec.getLsbD_of_ge d _ (by omega)] at top
    simpa using top.symm
  · intro h
    rw [BitVec.signExtend_eq_setWidth_of_msb_false h]

lemma ofNat_unsigned_iff (b : Branch) :
    BitVec.ofNat 64 b.unsigned = b.displacement ↔ b.backward = false := by
  have short := ofNat_toNat_eq_iff (w := 8) (by decide)
  have near := ofNat_toNat_eq_iff (w := 32) (by decide)
  cases b with
  | jccNear cc d => exact near d
  | jcc cc d => exact short d
  | loopne d => exact short d
  | loope d => exact short d
  | loop d => exact short d
  | jrcxz d => exact short d

lemma unsigned_ne_zero {b : Branch} (h : b.displacement ≠ 0) : b.unsigned ≠ 0 := by
  have zero {w : ℕ} {d : BitVec w} (hd : d.signExtend 64 ≠ 0) : d.toNat ≠ 0 := by
    intro h
    have : d = 0#w := BitVec.eq_of_toNat_eq (by simpa using h)
    apply hd
    rw [this,BitVec.signExtend_eq_setWidth_of_msb_false BitVec.msb_zero]
    simp
  cases b <;> exact zero h

lemma exists_opcode {c : Byte} {a : ℕ} (h : a ≤ c.toNat ∧ c.toNat ≤ a+15) :
    ∃ cc : Fin 16, c = BitVec.ofNat 8 a+BitVec.ofNat 8 cc := by
  refine ⟨⟨c.toNat-a,by omega⟩,BitVec.eq_of_toNat_eq ?_⟩
  rw [← BitVec.ofNat_add,BitVec.toNat_ofNat]
  simp only
  omega

/-- Everything else is decoded as no branch; a lone escape byte is an `IndexError`. -/
lemma decode_other {code : List Byte} (h : ∀ b : Branch, ¬b.opcode <+: code) {flags rcx : BitVec 64}
    {d : ℕ × Bool × Bool} (hd : X86UnicornCond.decode code flags rcx = some d) : d.1 = 0 := by
  cases code with
  | nil => cases hd
  | cons c code =>
    have single (b : Branch) (hb : b.opcode = [c]) : False := h b (by simp [hb])
    have jcc : ¬(0x70 ≤ c.toNat ∧ c.toNat ≤ 0x7F) := by
      intro range
      obtain ⟨cc,rfl⟩ := exists_opcode range
      exact single (.jcc cc 0) rfl
    have byte (n : ℕ) (hn : c.toNat = n) : c = BitVec.ofNat 8 n := by
      rw [← hn,BitVec.ofNat_toNat,BitVec.setWidth_eq]
    have loopne : c.toNat ≠ 0xE0 := fun hc => single (.loopne 0) (by rw [byte _ hc]; rfl)
    have loope : c.toNat ≠ 0xE1 := fun hc => single (.loope 0) (by rw [byte _ hc]; rfl)
    have loop : c.toNat ≠ 0xE2 := fun hc => single (.loop 0) (by rw [byte _ hc]; rfl)
    have jrcxz : c.toNat ≠ 0xE3 := fun hc => single (.jrcxz 0) (by rw [byte _ hc]; rfl)
    simp only [X86UnicornCond.decode,X86UnicornCond.jump,if_neg jcc,if_neg loopne,if_neg loope,
      if_neg loop,if_neg jrcxz] at hd
    by_cases escape : c.toNat = 0x0F
    · rw [if_pos escape] at hd
      cases code with
      | nil => cases hd
      | cons c' code =>
        have near : ¬(0x80 ≤ c'.toNat ∧ c'.toNat ≤ 0x8F) := by
          intro range
          obtain ⟨cc,rfl⟩ := exists_opcode range
          refine h (.jccNear cc 0) ?_
          rw [byte _ escape]
          simp [opcode]
        simp only [if_neg near] at hd
        cases hd
        rfl
    · rw [if_neg escape] at hd
      cases hd
      rfl

end Branch

/-- The branch is mispredicted: the checkpoint resumes where the processor goes, and the emulator is
sent to the other address. Addresses have 64 bits. -/
structure MispredictsExactly (s : State) (address : ℕ) (insn : Insn) (b : Branch) : Prop where
  decoded : ∃ target, X86UnicornCond.decode insn.bytes s.cpu.eflags (s.cpu.reg .C) =
    some (target,b.taken s.cpu.eflags (s.cpu.reg .C),b.isLoop)
  redirected : ∃ s' checkpoint, X86UnicornCond.speculateInstruction s address insn = some s' ∧
    s'.checkpoints = checkpoint :: s.checkpoints ∧
    let next := BitVec.ofNat 64 (address+insn.size)
    let target := next+b.displacement
    let taken := b.taken s.cpu.eflags (s.cpu.reg .C)
    BitVec.ofNat 64 checkpoint.nextInstruction = (if taken then target else next) ∧
      BitVec.ofNat 64 s'.cpu.rip = (if taken then next else target)

section Speculate
variable {s : State} {address : ℕ} {insn : Insn}

lemma speculateInstruction_branch (address : ℕ) {b : Branch} (hb : insn.bytes = b.bytes)
    (hd : b.displacement ≠ 0) (room : s.checkpoints.length<s.nesting) :
    X86UnicornCond.speculateInstruction s address insn =
      some (X86UnicornCond.mispredicted s (address+insn.size)
        (b.unsigned,b.taken s.cpu.eflags (s.cpu.reg .C),b.isLoop)) := by
  rw [X86UnicornCond.speculateInstruction_eq,if_neg (by omega),hb,b.decode_bytes,Option.map_some,
    if_neg (Branch.unsigned_ne_zero hd)]

lemma mispredicted_checkpoints (s : State) (next : ℕ) (d : ℕ × Bool × Bool) :
    ∃ checkpoint, (X86UnicornCond.mispredicted s next d).checkpoints =
      checkpoint :: s.checkpoints ∧
        checkpoint.nextInstruction = if d.2.1 then next+d.1 else next := by
  unfold X86UnicornCond.mispredicted
  split
  · exact ⟨_,rfl,rfl⟩
  · exact ⟨_,rfl,rfl⟩

lemma mispredictsExactly_iff {b : Branch} (hb : insn.bytes = b.bytes)
    (hd : b.displacement ≠ 0) (room : s.checkpoints.length<s.nesting) :
    MispredictsExactly s address insn b ↔ b.backward = false := by
  have spec := speculateInstruction_branch address hb hd room
  obtain ⟨checkpoint,hc,resume⟩ := mispredicted_checkpoints s (address+insn.size)
    (b.unsigned,b.taken s.cpu.eflags (s.cpu.reg .C),b.isLoop)
  have target : BitVec.ofNat 64 (address+insn.size+b.unsigned) =
      BitVec.ofNat 64 (address+insn.size)+b.displacement ↔ b.backward = false := by
    rw [BitVec.ofNat_add (address+insn.size),BitVec.add_right_inj,b.ofNat_unsigned_iff]
  constructor
  · intro ⟨_,s',checkpoint',hs',hc',resume',rip⟩
    rw [spec] at hs'
    cases hs'
    rw [hc] at hc'
    cases hc'
    cases taken : b.taken s.cpu.eflags (s.cpu.reg .C) with
    | true =>
      rw [resume,taken] at resume'
      exact target.mp resume'
    | false =>
      simp only [taken,X86UnicornCond.mispredicted] at rip
      exact target.mp rip
  · intro forward
    refine ⟨⟨b.unsigned,?_⟩,_,checkpoint,spec,hc,?_,?_⟩
    · rw [hb,b.decode_bytes]
    · rw [resume]
      cases b.taken s.cpu.eflags (s.cpu.reg .C) with
      | true => exact target.mpr forward
      | false => rfl
    · simp only [X86UnicornCond.mispredicted]
      cases b.taken s.cpu.eflags (s.cpu.reg .C) with
      | true => rfl
      | false => exact target.mpr forward

lemma speculateInstruction_other (h : ∀ b : Branch, ¬b.opcode <+: insn.bytes) {s' : State}
    (hs : X86UnicornCond.speculateInstruction s address insn = some s') : s' = s := by
  rw [X86UnicornCond.speculateInstruction_eq] at hs
  split at hs
  · exact (Option.some.inj hs).symm
  · obtain ⟨d,hd,rfl⟩ := Option.map_eq_some_iff.mp hs
    rw [if_pos (Branch.decode_other h hd)]

/-- As long as checkpoints are allowed, a branch is mispredicted exactly when it does not go
backward, and no other instruction opens a checkpoint. -/
theorem speculateInstruction_exact_iff (s : State) (address : ℕ) (insn : Insn)
    (room : s.checkpoints.length<s.nesting) :
    (∀ b : Branch, insn.bytes = b.bytes → b.displacement ≠ 0 →
      (MispredictsExactly s address insn b ↔ b.backward = false)) ∧
    ((∀ b : Branch, ¬b.opcode <+: insn.bytes) →
      ∀ s', X86UnicornCond.speculateInstruction s address insn = some s' → s' = s) :=
  ⟨fun _ hb hd => mispredictsExactly_iff hb hd room,fun h _ => speculateInstruction_other h⟩

theorem speculateInstruction_exact_jz : MispredictsExactly { State.fresh with nesting := 1 } 0x1000
    { bytes := [0x74,0x02], finish := fun cpu _ => cpu } (.jcc 4 2) := by
  have exact_iff := (speculateInstruction_exact_iff { State.fresh with nesting := 1 } 0x1000
    { bytes := [0x74,0x02], finish := fun cpu _ => cpu } (by decide)).1
  rw [exact_iff (.jcc 4 2) rfl (by decide)]
  rfl

/-- `JZ` to two bytes before its end: the target that is not taken is 256 bytes too far. -/
theorem speculateInstruction_not_exact : ¬MispredictsExactly { State.fresh with nesting := 1 } 0x1000
    { bytes := [0x74,0xFE], finish := fun cpu _ => cpu } (.jcc 4 0xFE) := by
  rw [mispredictsExactly_iff rfl (by decide) (by decide)]
  decide

end Speculate

end ProteanAmulet
