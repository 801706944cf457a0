import ProteanAmulet.ContractTraces
import ProteanAmulet.Generator.Machine
import ProteanAmulet.Taint.Soundness

/-! The labels of memory blocks: which blocks an access is tracked as, and which words of the input
the labels stand for. Blocks are counted from the base of the sandbox, so that those below it have
negative numbers. -/
namespace ProteanAmulet
open ContractTraces (hex)

section Labels

/-- The block that holds a byte. -/
def blockAt (su : Setup) (x : ℕ) : ℤ := ((x : ℤ)-su.sandboxBase)/8

/-- The label of a block: its offset from the base, as a number of 64 bits. -/
def blockLabel (b : ℤ) : ℕ := maskBlock (8*b)

/-- `int(label, 16)`. -/
def intHex : List Char → Option ℕ
  | '0' :: 'x' :: cs => Generator.digits 16 cs
  | cs => Generator.digits 16 cs

lemma digits_append (cs cs' : List Char) : Generator.digits 16 (cs ++ cs') =
    (Generator.digits 16 cs).bind fun n => cs'.foldlM (fun n c => (Generator.digit c).bind fun d =>
      if d<16 then some (n*16+d) else none) n := by
  unfold Generator.digits
  rw [List.foldlM_append]
  rfl

lemma digits_toDigits (n : ℕ) : Generator.digits 16 (Nat.toDigits 16 n) = some n := by
  have digit : ∀ d<16, Generator.digit (Nat.digitChar d) = some d := by decide
  induction n using Nat.strong_induction_on with
  | _ n ih =>
    rw [ContractTraces.toDigits_step]
    split
    next small =>
      simp [Generator.digits,digit n small,small]
    next large =>
      have low := Nat.mod_lt n (show 0<16 by decide)
      rw [digits_append,ih (n/16) (by omega)]
      simp only [List.foldlM_cons,List.foldlM_nil,Option.bind_some,digit _ low,if_pos low]
      exact congrArg some (by omega)

/-- A label is read back as the number that it was made of. -/
lemma intHex_hex (n : ℕ) : intHex (hex n) = some n := by
  have positive : ¬((n : ℤ)<0) := by omega
  simp only [hex,if_neg positive,List.nil_append,intHex,Int.natAbs_natCast]
  exact digits_toDigits n

lemma blockLabel_natCast {k : ℕ} (h : 8*k<2^64) : blockLabel k = 8*k := by
  unfold blockLabel
  have cast : (8 : ℤ)*k = ((8*k : ℕ) : ℤ) := by omega
  rw [cast,maskBlock_natCast h]
  omega

/-- The bytes of a block have the label of the block. -/
lemma maskBlock_eq (x : ℤ) : maskBlock x = blockLabel (x/8) := by
  unfold blockLabel maskBlock
  omega

end Labels

section Accesses
variable {su : Setup} {address size : ℕ}

/-- Where the sandbox can be: the emulator maps whole pages, and the input is in its memory. -/
structure Placed (su : Setup) : Prop where
  aligned : su.sandboxBase % 4096 = 0
  fits : su.sandboxBase+8*su.conf.alignedSize ≤ 2^64

/-- The block has a byte of the access. -/
def Intersects (su : Setup) (address size : ℕ) (b : ℤ) : Prop :=
  (su.sandboxBase : ℤ)+8*b<address+size ∧ (address : ℤ)<su.sandboxBase+8*b+8

/-- The labels at the end of the list of an access kind. -/
def TaintTracker.append (t : TaintTracker) (isWrite : Bool) (labels : List ℕ) : TaintTracker :=
  if isWrite then { t with flows := { t.flows with destMems := t.flows.destMems ++ labels } }
  else { t with flows := { t.flows with srcMems := t.flows.srcMems ++ labels } }

/-- What is to hold of an access and of the labels. -/
structure BlocksExact (su : Setup) (address size : ℕ) : Prop where
  /-- The blocks of the access are tracked, each once and in order. -/
  tracked : ∀ (t : TaintTracker) (isWrite : Bool), t.sandboxBase = su.sandboxBase →
    ∃ bs : List ℤ, bs.Pairwise (· < ·) ∧ (∀ b, b ∈ bs ↔ Intersects su address size b) ∧
      t.trackMemoryAccess address size isWrite = t.append isWrite (bs.map blockLabel)
  /-- Two bytes have the same label exactly when they are in the same block. -/
  oneLabel : ∀ x<2^64, ∀ y<2^64,
    blockLabel (blockAt su x) = blockLabel (blockAt su y) ↔ blockAt su x = blockAt su y
  parsed : ∀ b, intHex (hex (blockLabel b)) = some (blockLabel b)
  /-- Of the tainted blocks, those inside of the input taint their words. -/
  taints : ∀ (t : TaintTracker) (s : Finset ℤ), (∀ b ∈ s, ∃ x<2^64, blockAt su x = b) →
    t.settle.taintedLabels = s.image (fun b => .mem (blockLabel b)) →
      ∀ k, (t.getTaint su.conf).tainted k ↔ (k.val : ℤ) ∈ s
  /-- The words of the input are in the blocks of the same number. -/
  loaded : ∀ (input : Input su.conf) (m : Mem), ∀ k<su.conf.dataSize, ∀ i<8,
    loadMemory su input m (su.sandboxBase+8*k+i) = (input.get k).extractLsb' (8*i) 8

/-- The access begins below the sandbox and ends in it. -/
def Straddles (su : Setup) (address size : ℕ) : Prop :=
  address<su.sandboxBase ∧ su.sandboxBase<address+size

lemma blockLabel_of_nonneg {b : ℤ} (h : 0 ≤ b) (h' : 8*b<2^64) : (blockLabel b : ℤ) = 8*b := by
  unfold blockLabel maskBlock
  omega

lemma blockLabel_of_neg {b : ℤ} (h : b<0) (h' : -2^64 ≤ 8*b) :
    (blockLabel b : ℤ) = 2^64+8*b := by
  unfold blockLabel maskBlock
  omega

/-- The blocks of an access, from the first to the last. -/
def accessBlocks (su : Setup) (address size : ℕ) : List ℤ :=
  (List.range (blockAt su (address+size-1)-blockAt su address+1).toNat).map
    fun i : ℕ => blockAt su address+i

lemma pairwise_accessBlocks : (accessBlocks su address size).Pairwise (· < ·) := by
  unfold accessBlocks
  rw [List.pairwise_map]
  exact List.pairwise_lt_range.imp fun h => by omega

lemma mem_accessBlocks (positive : 1 ≤ size) {b : ℤ} :
    b ∈ accessBlocks su address size ↔ Intersects su address size b := by
  unfold accessBlocks Intersects blockAt
  rw [List.mem_map]
  constructor
  · rintro ⟨i,hi,rfl⟩
    have := List.mem_range.mp hi
    omega
  · intro h
    refine ⟨(b-((address : ℤ)-su.sandboxBase)/8).toNat,List.mem_range.mpr (by omega),by omega⟩

lemma range'_eight (start n : ℕ) :
    List.range' start n 8 = (List.range n).map fun i => start+8*i := by
  apply List.ext_getElem
  · simp
  · intro i h h'
    simp

/-- On one side of the base the offsets do not wrap around. -/
lemma blocks_eq (placed : Placed su) (positive : 1 ≤ size) (space : address+size ≤ 2^64)
    (side : ¬Straddles su address size) :
    blocks su.sandboxBase address size = (accessBlocks su address size).map blockLabel := by
  have aligned := placed.aligned
  have fits := placed.fits
  unfold Straddles at side
  have last : (address : ℤ)-su.sandboxBase+(size-1) =
      ((address+size-1 : ℕ) : ℤ)-su.sandboxBase := by omega
  have count : blockAt su address ≤ blockAt su (address+size-1) := by
    unfold blockAt
    omega
  -- both ends are on the same side, and so is everything between them
  have between : ∀ i : ℕ, (i : ℤ) ≤ blockAt su (address+size-1)-blockAt su address →
      blockLabel (blockAt su address+i) = blockLabel (blockAt su address)+8*i := by
    intro i hi
    unfold blockAt at hi ⊢
    by_cases below : address<su.sandboxBase
    · have h₁ := @blockLabel_of_neg (((address : ℤ)-su.sandboxBase)/8) (by omega) (by omega)
      have h₂ := @blockLabel_of_neg (((address : ℤ)-su.sandboxBase)/8+i) (by omega) (by omega)
      omega
    · have h₁ := @blockLabel_of_nonneg (((address : ℤ)-su.sandboxBase)/8) (by omega) (by omega)
      have h₂ := @blockLabel_of_nonneg (((address : ℤ)-su.sandboxBase)/8+i) (by omega) (by omega)
      omega
  have stop := between (blockAt su (address+size-1)-blockAt su address).toNat (by omega)
  have reach : blockAt su address+(blockAt su (address+size-1)-blockAt su address).toNat =
      blockAt su (address+size-1) := by omega
  rw [reach] at stop
  unfold blocks accessBlocks
  dsimp only
  rw [last,maskBlock_eq,maskBlock_eq]
  change List.range' (blockLabel (blockAt su address))
    ((blockLabel (blockAt su (address+size-1))+8-blockLabel (blockAt su address))/8) 8 = _
  rw [stop,range'_eight,List.map_map]
  have length : (blockLabel (blockAt su address)+8*(blockAt su (address+size-1)-
      blockAt su address).toNat+8-blockLabel (blockAt su address))/8 =
        (blockAt su (address+size-1)-blockAt su address+1).toNat := by omega
  rw [length]
  apply List.map_congr_left
  intro i hi
  have small := List.mem_range.mp hi
  exact (between i (by omega)).symm

lemma append_inj {t : TaintTracker} {isWrite : Bool} {l l' : List ℕ}
    (h : t.append isWrite l = t.append isWrite l') : l=l' := by
  cases isWrite with
  | false => exact List.append_cancel_left (congrArg (fun t => t.flows.srcMems) h)
  | true => exact List.append_cancel_left (congrArg (fun t => t.flows.destMems) h)

lemma alignedSize_pos (conf : Conf) : 0<conf.alignedSize := by
  unfold Conf.alignedSize Conf.dataSize
  omega

/-- The block at the base is not tracked when an access reaches it from below. -/
lemma zero_not_mem_blocks (placed : Placed su) (h : address<su.sandboxBase) :
    0 ∉ blocks su.sandboxBase address size := by
  have aligned := placed.aligned
  have fits := placed.fits
  have some := alignedSize_pos su.conf
  have start : 0 < maskBlock ((address : ℤ)-su.sandboxBase) := by
    unfold maskBlock
    omega
  unfold blocks
  intro mem
  obtain ⟨i,-,hi⟩ := List.mem_range'.mp mem
  omega

lemma blockLabel_blockAt_inj (placed : Placed su) {x y : ℕ} (hx : x<2^64) (hy : y<2^64) :
    blockLabel (blockAt su x) = blockLabel (blockAt su y) ↔ blockAt su x = blockAt su y := by
  have aligned := placed.aligned
  have fits := placed.fits
  constructor
  · unfold blockLabel maskBlock blockAt
    omega
  · exact congrArg blockLabel

lemma getTaint_blocks (placed : Placed su) {t : TaintTracker} {s : Finset ℤ}
    (space : ∀ b ∈ s, ∃ x<2^64, blockAt su x = b)
    (labels : t.settle.taintedLabels = s.image (fun b => .mem (blockLabel b)))
    (k : Fin su.conf.dataSize) : (t.getTaint su.conf).tainted k ↔ (k.val : ℤ) ∈ s := by
  have fits := placed.fits
  have inside : su.conf.dataSize ≤ su.conf.alignedSize := Nat.le_add_right _ _
  have hk := k.isLt
  have word : blockLabel k = 8*k.val := blockLabel_natCast (by omega)
  simp only [TaintTracker.getTaint,labels,decide_eq_true_iff,Finset.mem_image]
  constructor
  · rintro ⟨_,⟨b,hb,rfl⟩,offset⟩
    obtain ⟨x,hx,rfl⟩ := space b hb
    have offset : blockLabel (blockAt su x)/8 = k.val := Option.some.inj offset
    -- a label below the base stands for no word of the input
    have same : blockAt su x = k.val := by
      by_cases below : blockAt su x<0
      · have label := blockLabel_of_neg below (by unfold blockAt; omega)
        unfold blockAt at label offset below
        omega
      · have label := @blockLabel_of_nonneg (blockAt su x) (by omega) (by unfold blockAt; omega)
        omega
    rw [← same]
    exact hb
  · intro mem
    refine ⟨_,⟨_,mem,rfl⟩,?_⟩
    simp only [TaintTracker.inputOffset,word]
    exact congrArg some (by omega)

lemma loadMemory_word (input : Input su.conf) (m : Mem) {k i : ℕ} (hk : k<su.conf.dataSize)
    (hi : i<8) : loadMemory su input m (su.sandboxBase+8*k+i) =
      (input.get k).extractLsb' (8*i) 8 := by
  have offset : su.sandboxBase+8*k+i-su.sandboxBase = 8*k+i := by omega
  rw [loadMemory_inData input m ⟨by omega,by omega⟩,offset,Input.byte]
  congr 2
  · omega
  · omega

/-- Accesses are tracked as the blocks that they touch, and labels stand for the words of the input,
exactly when the access does not reach over the base of the sandbox. -/
theorem trackMemoryAccess_exact_iff (placed : Placed su) (positive : 1 ≤ size)
    (space : address+size ≤ 2^64) :
    BlocksExact su address size ↔ ¬Straddles su address size := by
  constructor
  · rintro h ⟨below,reach⟩
    obtain ⟨bs,-,mem,same⟩ := h.tracked (.init [] su.sandboxBase) false rfl
    have tracked : blocks su.sandboxBase address size = bs.map blockLabel := append_inj same
    have base : (0 : ℤ) ∈ bs := (mem 0).mpr ⟨by omega,by omega⟩
    have label : 0 ∈ blocks su.sandboxBase address size := by
      rw [tracked]
      exact List.mem_map.mpr ⟨0,base,rfl⟩
    exact zero_not_mem_blocks placed below label
  · intro side
    refine ⟨fun t isWrite ht => ?_,fun x hx y hy => blockLabel_blockAt_inj placed hx hy,
      fun b => intHex_hex _,fun t s hs labels k => getTaint_blocks placed hs labels k,
      fun input m k hk i hi => loadMemory_word input m hk hi⟩
    refine ⟨accessBlocks su address size,pairwise_accessBlocks,fun b => mem_accessBlocks positive,?_⟩
    rw [← blocks_eq placed positive space side,← ht]
    rfl

lemma setup_placed : Placed (Asm.setup .seq .ct []) := ⟨by decide,by decide⟩

/-- An access of eight bytes over the end of a block. -/
theorem trackMemoryAccess_exact_unaligned : BlocksExact (Asm.setup .seq .ct []) 0x8502044 8 :=
  (trackMemoryAccess_exact_iff setup_placed (by decide) (by decide)).mpr
    fun h => absurd h.1 (by decide)

/-- Of an access that begins four bytes below the sandbox, nothing is tracked. -/
theorem trackMemoryAccess_not_exact : blocks 0x8502000 0x8501ffc 8 = [] ∧
    ¬BlocksExact (Asm.setup .seq .ct []) 0x8501ffc 8 := by
  refine ⟨by decide,fun h => ?_⟩
  obtain ⟨bs,-,mem,same⟩ := h.tracked (.init [] 0x8502000) false rfl
  have none : blocks 0x8502000 0x8501ffc 8 = [] := by decide
  have tracked : blocks 0x8502000 0x8501ffc 8 = bs.map blockLabel := append_inj same
  rw [none] at tracked
  have base : (0 : ℤ) ∈ bs := (mem 0).mpr ⟨by decide,by decide⟩
  rw [List.map_eq_nil_iff.mp tracked.symm] at base
  cases base

end Accesses

end ProteanAmulet
