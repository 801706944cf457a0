import Mathlib.Data.List.Range
import ProteanAmulet.Library.Congruential
import ProteanAmulet.Library.Random
import ProteanAmulet.Model.Interfaces

/-! The random input generator: a congruential sequence of 32 bits whose values are masked and put
into 64-bit words. Words are natural numbers; `input_[i]` is an element of an array of unsigned
64-bit integers, so that a larger number does not go in and sums wrap around. -/
namespace ProteanAmulet.RandomInputGenerator

/-- The options that the generator reads. -/
structure InputConf extends Conf where
  inputGenEntropyBits : ℤ := 3
  inputsPerClass : ℕ := 2

namespace InputConf
variable (conf : InputConf)

/-- `input_mask`. -/
def inputMask : ℕ := 2^(conf.inputGenEntropyBits % 33).toNat-1

/-- The length that the array is allocated with. -/
def arraySize : ℤ := conf.dataSize+(4096-(conf.inputRegisterRegionSize : ℤ))/8

end InputConf

/-- An `Input`, with the seed it has been generated from. -/
structure Input where
  seed : ℤ
  words : List ℕ

inductive InputError where
  | dimensions
  | overflow
  | index
  | taintsMismatch
  deriving DecidableEq

/-- One step of the sequence. -/
def lcg (randint : ℤ) : ℕ := (((randint*2891336453) % 2^32+54321) % 2^32).toNat

/-- `masked_rvalue`, shifted by 6. -/
def half (mask randint : ℕ) : ℕ := ((randint ^^^ (randint >>> 16)) &&& mask) <<< 6

def firstHalf (mask : ℕ) (randint : ℤ) : ℕ := half mask (lcg randint) <<< 32
def secondHalf (mask : ℕ) (randint : ℤ) : ℕ := half mask (lcg (lcg randint))

/-- One turn of the loop: the word, and the state of the sequence. -/
def nextWord (mask : ℕ) (randint : ℤ) : Except InputError (ℕ × ℤ) :=
  if 2^64 ≤ firstHalf mask randint then throw .overflow
  else pure ((firstHalf mask randint+secondHalf mask randint) % 2^64,lcg (lcg randint))

def nextWords (mask : ℕ) : ℕ → ℤ → Except InputError (List ℕ × ℤ)
  | 0, randint => pure ([],randint)
  | n+1, randint => do
    let (w,randint) ← nextWord mask randint
    let (ws,randint) ← nextWords mask n randint
    return (w :: ws,randint)

/-- The loop that is meant to reduce the registers: `input_[-i - 1] %= 2**32`. -/
def reduceLast (count : ℕ) (words : List ℕ) : List ℕ :=
  (List.range count).foldl (fun ws i => ws.modify (ws.length-1-i) (· % 2^32)) words

section Generate
variable (conf : InputConf)

/-- `_generate_one`. The array is not cleared: `fresh` is what its memory holds. When it is too
short for its data, the loop runs past its end. -/
def generateOne (fresh : ℕ → BitVec 64) (seed : ℤ) : Except InputError (Input × ℤ) :=
  if conf.arraySize<0 then throw .dimensions
  else do
    let (words,randint) ← nextWords conf.inputMask (min conf.dataSize conf.arraySize.toNat) seed
    if conf.arraySize<conf.dataSize then throw .index
    else
      let padding := (List.range' conf.dataSize (conf.arraySize.toNat-conf.dataSize)).map
        fun i => (fresh i).toNat
      return (⟨seed,reduceLast (conf.inputRegisterRegionSize/8) (words ++ padding)⟩,randint)

/-- `generate`, after a seed of zero has been replaced by a random one. -/
def generate (fresh : ℕ → ℕ → BitVec 64) : ℕ → ℤ → Except InputError (List Input)
  | 0, _ => pure []
  | n+1, seed => do
    let (input,seed) ← generateOne conf (fresh n) seed
    return input :: (← generate fresh n seed)

/-- The words that are tainted are taken from the old input. -/
def copyTainted (taint : ℕ → Bool) (input new : Input) : Input :=
  { new with words := new.words.mapIdx fun j w =>
      if j<conf.dataSize ∧ taint j then input.words.getD j 0 else w }

/-- The loop of `extend_equivalence_classes`. -/
def extendFrom (fresh : ℕ → ℕ → BitVec 64) :
    List (Input × (ℕ → Bool)) → ℤ → Except InputError (List Input)
  | [], _ => pure []
  | (input,taint) :: rest, seed => do
    let (new,seed) ← generateOne conf (fresh rest.length) seed
    return copyTainted conf taint input new :: (← extendFrom fresh rest seed)

/-- `extend_equivalence_classes`. -/
def extendEquivalenceClasses (fresh : ℕ → ℕ → BitVec 64) (inputs : List Input) (taints : List (ℕ → Bool)) :
    Except InputError (List Input) := do
  if inputs.length ≠ taints.length then throw .taintsMismatch
  match inputs.getLast? with
  | none => throw .index
  | some last =>
    let (_,seed) ← generateOne conf (fresh inputs.length) last.seed
    extendFrom conf fresh (inputs.zip taints) seed

/-- The loop of `boost_inputs`: every batch is made from the same inputs. -/
def boostBatches (fresh : ℕ → ℕ → ℕ → BitVec 64) (inputs : List Input) (taints : List (ℕ → Bool)) :
    ℕ → Except InputError (List Input)
  | 0 => pure []
  | n+1 => do
    let batches ← boostBatches fresh inputs taints n
    return batches ++ (← extendEquivalenceClasses conf (fresh n) inputs taints)

/-- `boost_inputs`, with the taints that the model gives. -/
def boostInputs (fresh : ℕ → ℕ → ℕ → BitVec 64) (inputs : List Input) (taints : List (ℕ → Bool)) :
    Except InputError (List Input) := do
  return inputs ++ (← boostBatches conf fresh inputs taints (conf.inputsPerClass-1))

end Generate

/-- The state of the sequence after `i` words. -/
def stream (seed : ℤ) (i : ℕ) : ℤ := (fun r => (lcg (lcg r) : ℤ))^[i] seed

@[simp] lemma stream_zero (seed : ℤ) : stream seed 0 = seed := rfl

lemma stream_succ (seed : ℤ) (i : ℕ) : stream seed (i+1) = stream (lcg (lcg seed)) i := rfl

lemma stream_add (seed : ℤ) (i j : ℕ) : stream seed (i+j) = stream (stream seed i) j := by
  rw [Nat.add_comm]
  exact Function.iterate_add_apply _ j i seed

/-- The word that is made of two values, in 64 bits. -/
def word (mask : ℕ) (r : ℤ) : ℕ := (firstHalf mask r+secondHalf mask r) % 2^64

/-- The words from `a` to `b` are made without an exception. -/
def Drawable (conf : InputConf) (seed : ℤ) (a b : ℕ) : Prop :=
  ∀ i, a ≤ i → i<b → firstHalf conf.inputMask (stream seed i)<2^64

section Words
variable {mask n : ℕ} {r r' : ℤ} {ws : List ℕ}

lemma nextWord_of_lt (h : firstHalf mask r<2^64) :
    nextWord mask r = .ok (word mask r,(lcg (lcg r) : ℤ)) := by
  simp only [nextWord,if_neg (Nat.not_le.mpr h)]
  rfl

lemma nextWord_of_le (h : 2^64 ≤ firstHalf mask r) : nextWord mask r = .error .overflow := by
  simp only [nextWord,if_pos h]
  rfl

/-- The loop ends exactly when every first half fits, and with the words of the sequence. -/
theorem nextWords_ok_iff : nextWords mask n r = .ok (ws,r') ↔
    (∀ i<n, firstHalf mask (stream r i)<2^64) ∧
      ws = (List.range n).map (fun i => word mask (stream r i)) ∧ r' = stream r n := by
  induction n generalizing r ws with
  | zero =>
    change Except.ok (([] : List ℕ),r) = .ok (ws,r') ↔ _
    simp [eq_comm]
  | succ n ih =>
    rw [nextWords]
    rcases lt_or_ge (firstHalf mask r) (2^64) with h | h
    · rw [nextWord_of_lt h]
      change (nextWords mask n (lcg (lcg r)) >>= fun p => .ok (word mask r :: p.1,p.2)) = _ ↔ _
      rw [Except.bind_eq_ok,List.range_succ_eq_map,List.map_cons,List.map_map]
      constructor
      · rintro ⟨⟨vs,r₁⟩,hvs,hw⟩
        cases hw
        obtain ⟨fits,rfl,rfl⟩ := ih.mp hvs
        refine ⟨?_,rfl,rfl⟩
        intro i hi
        cases i with
        | zero => exact h
        | succ i => exact fits i (by omega)
      · rintro ⟨fits,rfl,rfl⟩
        exact ⟨_,ih.mpr ⟨fun i hi => fits (i+1) (by omega),rfl,rfl⟩,rfl⟩
    · rw [nextWord_of_le h]
      constructor
      · intro hw
        cases hw
      · intro ⟨fits,_⟩
        exact absurd (fits 0 (by omega)) (Nat.not_lt.mpr h)

end Words

section Halves
variable {mask n : ℕ}

lemma half_lt (randint : ℕ) : half (2^n-1) randint<2^(n+6) := by
  have masked : (randint ^^^ (randint >>> 16)) &&& (2^n-1)<2^n := by
    rw [Nat.and_two_pow_sub_one_eq_mod]
    exact Nat.mod_lt _ (Nat.two_pow_pos n)
  rw [half,Nat.shiftLeft_eq,Nat.pow_add]
  exact Nat.mul_lt_mul_of_pos_right masked (Nat.two_pow_pos 6)

lemma shiftLeft_and_of_lt {x y i : ℕ} (h : y<2^i) : x <<< i &&& y = 0 := by
  apply Nat.eq_of_testBit_eq
  intro j
  rw [Nat.testBit_and,Nat.testBit_shiftLeft,Nat.zero_testBit]
  rcases lt_or_ge j i with hj | hj
  · simp [Nat.not_le.mpr hj]
  · rw [Nat.testBit_lt_two_pow (h.trans_le (Nat.pow_le_pow_right (by decide) hj)),Bool.and_false]

lemma shiftLeft_add_lt {x y : ℕ} (hx : x<2^32) (hy : y<2^32) : x <<< 32+y<2^64 := by
  rw [Nat.shiftLeft_eq]
  omega

/-- With at most 26 bits of entropy the halves of a word are apart. -/
lemma halves (hn : n ≤ 26) (r : ℤ) : firstHalf (2^n-1) r+secondHalf (2^n-1) r<2^64 ∧
    firstHalf (2^n-1) r &&& secondHalf (2^n-1) r = 0 := by
  have bound (x : ℕ) : half (2^n-1) x<2^32 :=
    (half_lt x).trans_le (Nat.pow_le_pow_right (by decide) (by omega))
  exact ⟨shiftLeft_add_lt (bound _) (bound _),shiftLeft_and_of_lt (bound _)⟩

lemma le_shiftLeft {x : ℕ} (h : 2^26 ≤ x) : 2^64 ≤ x <<< 6 <<< 32 := by
  simp only [Nat.shiftLeft_eq]
  omega

lemma le_masked {x : ℕ} (hn : 26<n) (hx : x.testBit 26) : 2^26 ≤ x &&& (2^n-1) := by
  apply Nat.ge_two_pow_of_testBit
  rw [Nat.testBit_and,Nat.testBit_two_pow_sub_one,decide_eq_true hn,hx]
  rfl

lemma le_firstHalf {r : ℤ} (hn : 26<n) (hr : (lcg r ^^^ (lcg r >>> 16)).testBit 26) :
    2^64 ≤ firstHalf (2^n-1) r :=
  le_shiftLeft (le_masked hn hr)

/-- A seed whose first value has the bit 26 set: its word needs more than 64 bits. -/
lemma firstHalf_overflow (hn : 26<n) : 2^64 ≤ firstHalf (2^n-1) 720935875 :=
  le_firstHalf hn (by decide +kernel)

end Halves

/-- The word is representable and no bit of it is lost. -/
structure WordFits (mask : ℕ) (r : ℤ) : Prop where
  first : firstHalf mask r<2^64
  sum : firstHalf mask r+secondHalf mask r<2^64
  apart : firstHalf mask r &&& secondHalf mask r = 0

/-- All words of an input fit, and they are what the loop gives. -/
structure Representable (conf : InputConf) (seed : ℤ) : Prop where
  fits : ∀ i<conf.dataSize, WordFits conf.inputMask (stream seed i)
  words : nextWords conf.inputMask conf.dataSize seed = .ok
    ((List.range conf.dataSize).map fun i =>
      firstHalf conf.inputMask (stream seed i)+secondHalf conf.inputMask (stream seed i),
      stream seed conf.dataSize)

lemma wordFits_of_le {n : ℕ} (hn : n ≤ 26) (r : ℤ) : WordFits (2^n-1) r :=
  ⟨(Nat.le_add_right ..).trans_lt (halves hn r).1,(halves hn r).1,(halves hn r).2⟩

lemma representable_of_fits {conf : InputConf} {seed : ℤ}
    (fits : ∀ i<conf.dataSize, WordFits conf.inputMask (stream seed i)) :
    Representable conf seed := by
  refine ⟨fits,nextWords_ok_iff.mpr ⟨fun i hi => (fits i hi).first,?_,rfl⟩⟩
  apply List.map_congr_left
  intro i hi
  exact (Nat.mod_eq_of_lt (fits i (List.mem_range.mp hi)).sum).symm

/-- The words fit for all seeds exactly when at most 26 bits of entropy are left. -/
theorem forall_representable_iff (conf : InputConf) :
    (∀ seed, Representable conf seed) ↔ conf.inputGenEntropyBits % 33 ≤ 26 ∨ conf.dataSize = 0 := by
  constructor
  · intro h
    by_contra! large
    have fits := (h 720935875).fits 0 (by omega)
    have overflow := firstHalf_overflow (n := (conf.inputGenEntropyBits % 33).toNat) (by omega)
    exact absurd fits.first (Nat.not_lt.mpr overflow)
  · intro h seed
    apply representable_of_fits
    intro i hi
    exact wordFits_of_le (by omega) _

/-- With 32 bits of entropy the generator raises an exception. -/
theorem not_forall_representable :
    ¬∀ (conf : InputConf) (seed : ℤ), Representable conf seed := by
  intro h
  have words := (h { inputGenEntropyBits := 32 } 720935875).words
  have fits := (nextWords_ok_iff.mp words).1 0 (by decide)
  exact absurd fits (Nat.not_lt.mpr (firstHalf_overflow (n := 32) (by decide)))

section Layout
variable {conf : InputConf} {fresh : ℕ → BitVec 64} {seed s : ℤ} {input : Input}

lemma reduceLast_succ (count : ℕ) (ws : List ℕ) : reduceLast (count+1) ws =
    (reduceLast count ws).modify ((reduceLast count ws).length-1-count) (· % 2^32) := by
  rw [reduceLast,List.range_succ,List.foldl_append]
  rfl

@[simp] lemma length_reduceLast (count : ℕ) (ws : List ℕ) :
    (reduceLast count ws).length = ws.length := by
  induction count with
  | zero => rfl
  | succ count ih => rw [reduceLast_succ,List.length_modify,ih]

/-- What the reduction does to the word at `j`. -/
lemma reduceLast_getElem? {count : ℕ} {ws : List ℕ} (h : count ≤ ws.length) (j : ℕ) :
    (reduceLast count ws)[j]? =
      ws[j]?.map fun w => if ws.length ≤ j+count then w % 2^32 else w := by
  induction count with
  | zero =>
    rcases lt_or_ge j ws.length with hj | hj
    · simp [reduceLast,Nat.not_le.mpr hj]
    · simp [reduceLast,hj]
  | succ count ih =>
    rw [reduceLast_succ,List.getElem?_modify,ih (by omega),length_reduceLast]
    rcases lt_or_ge j ws.length with hj | hj
    · rw [List.getElem?_eq_getElem hj]
      by_cases last : ws.length-1-count = j
      · have : ¬ws.length ≤ j+count := by omega
        have : ws.length ≤ j+(count+1) := by omega
        simp [*]
      · have : ws.length ≤ j+(count+1) ↔ ws.length ≤ j+count := by omega
        simp [*]
    · simp [List.getElem?_eq_none hj]

/-- The array before the reduction. -/
def unreduced (conf : InputConf) (fresh : ℕ → BitVec 64) (seed : ℤ) : List ℕ :=
  (List.range conf.dataSize).map (fun i => word conf.inputMask (stream seed i)) ++
    (List.range' conf.dataSize (conf.arraySize.toNat-conf.dataSize)).map fun i => (fresh i).toNat

lemma length_unreduced (fresh : ℕ → BitVec 64) (seed : ℤ) (h : conf.dataSize ≤ conf.arraySize) :
    ((unreduced conf fresh seed).length : ℤ) = conf.arraySize := by
  simp [unreduced]
  omega

lemma unreduced_getElem? {j : ℕ} (hj : j<conf.dataSize) :
    (unreduced conf fresh seed)[j]? = some (word conf.inputMask (stream seed j)) := by
  rw [unreduced,List.getElem?_append_left (by simpa using hj)]
  simp [hj]

lemma generateOne_of_lt (h : conf.arraySize<conf.dataSize) :
    generateOne conf fresh seed ≠ .ok (input,s) := by
  unfold generateOne
  intro hw
  split at hw
  · cases hw
  · obtain ⟨_,_,hw⟩ := Except.bind_eq_ok.mp hw
    cases hw

lemma generateOne_of_le (h : conf.dataSize ≤ conf.arraySize) : generateOne conf fresh seed =
    nextWords conf.inputMask conf.dataSize seed >>= fun p =>
      .ok (⟨seed,reduceLast (conf.inputRegisterRegionSize/8) (p.1 ++
        (List.range' conf.dataSize (conf.arraySize.toNat-conf.dataSize)).map
          fun i => (fresh i).toNat)⟩,p.2) := by
  have positive : ¬conf.arraySize<0 := by omega
  have all : min conf.dataSize conf.arraySize.toNat = conf.dataSize := by omega
  unfold generateOne
  simp only [if_neg positive,all,if_neg h.not_gt]
  rfl

/-- When an input is returned, and which one. -/
theorem generateOne_ok_iff : generateOne conf fresh seed = .ok (input,s) ↔
    conf.dataSize ≤ conf.arraySize ∧ Drawable conf seed 0 conf.dataSize ∧
      input = ⟨seed,reduceLast (conf.inputRegisterRegionSize/8) (unreduced conf fresh seed)⟩ ∧
      s = stream seed conf.dataSize := by
  rcases le_or_gt (conf.dataSize : ℤ) conf.arraySize with h | h
  · rw [generateOne_of_le h,Except.bind_eq_ok]
    constructor
    · rintro ⟨⟨ws,r⟩,hw,heq⟩
      cases heq
      obtain ⟨fits,rfl,rfl⟩ := nextWords_ok_iff.mp hw
      exact ⟨h,fun i _ hi => fits i hi,rfl,rfl⟩
    · rintro ⟨_,fits,rfl,rfl⟩
      exact ⟨_,nextWords_ok_iff.mpr ⟨fun i hi => fits i (Nat.zero_le i) hi,rfl,rfl⟩,rfl⟩
  · constructor
    · intro hw
      exact absurd hw (generateOne_of_lt h)
    · intro ⟨h',_⟩
      omega

lemma exists_generateOne (size : conf.dataSize ≤ conf.arraySize)
    (draw : Drawable conf seed 0 conf.dataSize) (fresh : ℕ → BitVec 64) :
    ∃ input, generateOne conf fresh seed = .ok (input,stream seed conf.dataSize) :=
  ⟨_,generateOne_ok_iff.mpr ⟨size,draw,rfl,rfl⟩⟩

/-- The word at `j` of the input that a seed gives. -/
def streamWord (conf : InputConf) (seed : ℤ) (j : ℕ) : ℕ :=
  if conf.arraySize ≤ j+conf.inputRegisterRegionSize/8
  then word conf.inputMask (stream seed j) % 2^32
  else word conf.inputMask (stream seed j)

lemma registers_le (h : conf.dataSize ≤ conf.arraySize) :
    conf.inputRegisterRegionSize/8 ≤ (unreduced conf fresh seed).length := by
  have := length_unreduced fresh seed h
  have : conf.inputRegisterRegionSize/8 ≤ conf.dataSize := by
    unfold Conf.dataSize
    omega
  omega

lemma generateOne_word (h : generateOne conf fresh seed = .ok (input,s)) {j : ℕ}
    (hj : j<conf.dataSize) : input.words[j]? = some (streamWord conf seed j) := by
  obtain ⟨hsize,_,rfl,_⟩ := generateOne_ok_iff.mp h
  have length := length_unreduced fresh seed hsize
  rw [reduceLast_getElem? (registers_le hsize),unreduced_getElem? hj,Option.map_some,streamWord,
    ← length]
  norm_cast

lemma generateOne_padding (h : generateOne conf fresh seed = .ok (input,s)) {j : ℕ}
    (hj : conf.dataSize ≤ j) (hj' : j<conf.arraySize) : input.words[j]? = some
      (if conf.arraySize ≤ j+conf.inputRegisterRegionSize/8 then (fresh j).toNat % 2^32
        else (fresh j).toNat) := by
  obtain ⟨hsize,_,rfl,_⟩ := generateOne_ok_iff.mp h
  have length := length_unreduced fresh seed hsize
  have padding : (unreduced conf fresh seed)[j]? = some (fresh j).toNat := by
    rw [unreduced,List.getElem?_append_right (by simpa using hj),List.getElem?_map,
      List.getElem?_range' (by simp; omega)]
    simp [hj]
  rw [reduceLast_getElem? (registers_le hsize),padding,Option.map_some,← length]
  norm_cast

/-- The registers have 32 bits, and the seed gives the whole array. -/
structure InputLayout (conf : InputConf) : Prop where
  registers : ∀ fresh seed input s, generateOne conf fresh seed = .ok (input,s) →
    ∀ j, conf.registerStart ≤ j → j<conf.dataSize → ∃ w, input.words[j]? = some w ∧ w<2^32
  determined : ∀ fresh fresh' seed input input' s s', generateOne conf fresh seed = .ok (input,s) →
    generateOne conf fresh' seed = .ok (input',s') → input.words = input'.words

lemma drawable_of_le (h : conf.inputGenEntropyBits % 33 ≤ 26) (seed : ℤ) (a b : ℕ) :
    Drawable conf seed a b :=
  fun _ _ _ => (wordFits_of_le (by omega) _).first

lemma not_inputLayout_of_padding (bits : conf.inputGenEntropyBits % 33 ≤ 26)
    (size : conf.dataSize<conf.arraySize) : ¬InputLayout conf := by
  intro layout
  have returns := exists_generateOne size.le (drawable_of_le bits 0 _ _)
  obtain ⟨input,zero⟩ := returns fun _ => 0
  obtain ⟨input',one⟩ := returns fun _ => 1
  have same := generateOne_padding zero le_rfl size
  rw [layout.determined _ _ _ _ _ _ _ zero one,generateOne_padding one le_rfl size] at same
  simp at same

/-- The layout is right when the register region fills its page. As long as the generator does not
run into overflows this is the only case. -/
theorem inputLayout_iff (conf : InputConf) :
    (4088<conf.inputRegisterRegionSize → InputLayout conf) ∧
      (conf.inputGenEntropyBits % 33 ≤ 26 → InputLayout conf →
        4088<conf.inputRegisterRegionSize) := by
  constructor
  · intro full
    have size : conf.arraySize ≤ conf.dataSize := by
      unfold InputConf.arraySize
      omega
    constructor
    · intro fresh seed input s h j hj hj'
      refine ⟨_,generateOne_word h hj',?_⟩
      have reduced : conf.arraySize ≤ j+conf.inputRegisterRegionSize/8 := by
        unfold Conf.registerStart at hj
        omega
      rw [streamWord,if_pos reduced]
      exact Nat.mod_lt _ (by decide)
    · intro fresh fresh' seed input input' s s' h h'
      obtain ⟨_,_,rfl,_⟩ := generateOne_ok_iff.mp h
      obtain ⟨_,_,rfl,_⟩ := generateOne_ok_iff.mp h'
      have none : conf.arraySize.toNat-conf.dataSize = 0 := by omega
      simp only [unreduced,none]
      rfl
  · intro bits layout
    by_contra! small
    have size : conf.dataSize<conf.arraySize := by
      unfold InputConf.arraySize
      omega
    exact not_inputLayout_of_padding bits size layout

/-- In the default configuration the padding of an input is what the memory held before. -/
theorem not_inputLayout_default : ¬InputLayout {} := by
  apply not_inputLayout_of_padding
  · decide
  · decide

end Layout

end ProteanAmulet.RandomInputGenerator
