import Mathlib.Dynamics.PeriodicPts.Defs
import ProteanAmulet.InputGenerator

/-! Boosting: the inputs of a test case are extended with batches of inputs that agree with them on
the tainted words. Every batch is generated from the seed of the last of the original inputs, so
that all batches after the first are the same stretch of the sequence. -/
namespace ProteanAmulet.RandomInputGenerator
open Congruential (step)

section Period
variable {seed : ℤ} {i j : ℕ}

lemma lcg_modEq (r : ℤ) : (lcg r : ℤ) ≡ step 2891336453 54321 r [ZMOD 2^32] := by
  rw [lcg,Int.toNat_of_nonneg (Int.emod_nonneg _ (by decide)),step,Int.mul_comm]
  exact (Int.mod_modEq _ _).trans ((Int.mod_modEq _ _).add_right _)

lemma lcg_lt (r : ℤ) : (lcg r : ℤ)<2^32 := by
  rw [lcg,Int.toNat_of_nonneg (Int.emod_nonneg _ (by decide))]
  exact Int.emod_lt_of_pos _ (by decide)

lemma stream_modEq (seed : ℤ) (i : ℕ) :
    stream seed i ≡ (step 2891336453 54321)^[2*i] seed [ZMOD 2^32] := by
  induction i generalizing seed with
  | zero => rfl
  | succ i ih =>
    rw [stream_succ]
    refine (ih _).trans ?_
    rw [show 2*(i+1) = 2*i+2 from rfl,Function.iterate_add_apply]
    apply Congruential.iterate_modEq
    exact (lcg_modEq _).trans (Congruential.step_modEq (lcg_modEq seed))

lemma stream_reduced (seed : ℤ) (hi : 0 < i) : 0 ≤ stream seed i ∧ stream seed i<2^32 := by
  cases i with
  | zero => omega
  | succ i =>
    rw [stream_add]
    exact ⟨Int.natCast_nonneg _,lcg_lt _⟩

lemma stream_modEq_iff (hij : i ≤ j) :
    stream seed j ≡ stream seed i [ZMOD 2^32] ↔ 2^32 ∣ 2*(j-i) := by
  obtain ⟨d,rfl⟩ := Nat.exists_eq_add_of_le hij
  have apart := stream_modEq (stream seed i) d
  rw [stream_add,Nat.add_sub_cancel_left,
    ← Congruential.return_iff (a := 2891336453) (c := 54321) (by decide) (by decide) (by decide)
      (stream seed i)]
  exact ⟨apart.symm.trans,apart.trans⟩

/-- Two words of the sequence start in the same state exactly when they are a multiple of the
period apart. -/
theorem stream_eq_iff (hi : 0 < i) (hij : i ≤ j) : stream seed i = stream seed j ↔ 2^32 ∣ 2*(j-i) := by
  obtain ⟨hi₀,hi₁⟩ := stream_reduced seed hi
  obtain ⟨hj₀,hj₁⟩ := stream_reduced seed (hi.trans_le hij)
  rw [← stream_modEq_iff hij,Int.ModEq,Int.emod_eq_of_lt hi₀ hi₁,Int.emod_eq_of_lt hj₀ hj₁,eq_comm]

lemma stream_ne (hij : i<j) (hj : 2*(j-i)<2^32) : stream seed i ≠ stream seed j := by
  intro h
  have := Nat.le_of_dvd (by omega) ((stream_modEq_iff hij.le).mp (by rw [h]))
  omega

end Period

section Batches
variable {conf : InputConf} {seed : ℤ} {n : ℕ} {inputs new : List Input} {taints : List (ℕ → Bool)}

/-- The input is the one of the sequence at `k`, except for the words of `taint`. -/
structure Extends (conf : InputConf) (seed : ℤ) (taint : ℕ → Bool) (input : Input) (k : ℕ)
    (x : Input) : Prop where
  seed_eq : x.seed = stream seed (conf.dataSize*k)
  tainted : ∀ j<conf.dataSize, taint j → x.words[j]? = input.words[j]?
  untainted : ∀ j<conf.dataSize, ¬taint j → x.words[j]? = some (streamWord conf x.seed j)

lemma Extends.shift {taint : ℕ → Bool} {input x : Input} {a k : ℕ}
    (h : Extends conf (stream seed (conf.dataSize*a)) taint input k x) :
    Extends conf seed taint input (a+k) x :=
  ⟨by rw [h.seed_eq,Nat.mul_add,stream_add],h.tainted,h.untainted⟩

lemma Drawable.shift {a b c : ℕ} :
    Drawable conf (stream seed c) a b ↔ Drawable conf seed (c+a) (c+b) := by
  constructor
  · intro h i hi hi'
    have := h (i-c) (by omega) (by omega)
    rwa [← stream_add,show c+(i-c) = i by omega] at this
  · intro h i hi hi'
    rw [← stream_add]
    exact h (c+i) (by omega) (by omega)

lemma Drawable.union {a b c : ℕ} (hab : a ≤ b) (hbc : b ≤ c) :
    Drawable conf seed a c ↔ Drawable conf seed a b ∧ Drawable conf seed b c := by
  constructor
  · intro h
    exact ⟨fun i hi hi' => h i hi (by omega),fun i hi hi' => h i (by omega) hi'⟩
  · intro h i hi hi'
    rcases lt_or_ge i b with hb | hb
    · exact h.1 i hi hb
    · exact h.2 i hb hi'

lemma extends_generateOne {fresh : ℕ → BitVec 64} {s : ℤ} {input : Input} (taint : ℕ → Bool)
    (h : generateOne conf fresh seed = .ok (input,s)) : Extends conf seed taint input 0 input := by
  have words := fun j hj => generateOne_word (j := j) h hj
  obtain ⟨_,_,rfl,_⟩ := generateOne_ok_iff.mp h
  exact ⟨rfl,fun _ _ _ => rfl,fun j hj _ => words j hj⟩

lemma extends_copyTainted {fresh : ℕ → BitVec 64} {s : ℤ} {input new : Input} {taint : ℕ → Bool}
    (h : generateOne conf fresh seed = .ok (new,s)) (hi : conf.dataSize ≤ input.words.length) :
    Extends conf seed taint input 0 (copyTainted conf taint input new) := by
  have own := extends_generateOne taint h
  refine ⟨own.seed_eq,?_,?_⟩
  · intro j hj ht
    have word := generateOne_word h hj
    simp only [copyTainted,List.getElem?_mapIdx,word]
    simp [hj,ht,hi.trans_lt' hj]
  · intro j hj ht
    have word := own.untainted j hj ht
    simp only [copyTainted,List.getElem?_mapIdx,word]
    simp [ht]

/-- The generated inputs are consecutive stretches of the sequence. -/
lemma generate_ok {fresh : ℕ → ℕ → BitVec 64} (h : generate conf fresh n seed = .ok inputs) :
    inputs.length = n ∧ ∀ k x, inputs[k]? = some x →
      ∃ fr s, generateOne conf fr (stream seed (conf.dataSize*k)) = .ok (x,s) := by
  induction n generalizing seed inputs with
  | zero =>
    cases h
    simp
  | succ n ih =>
    obtain ⟨⟨x,s⟩,hx,h⟩ := Except.bind_eq_ok.mp h
    obtain ⟨xs,hxs,h⟩ := Except.bind_eq_ok.mp h
    cases h
    obtain ⟨hlen,hall⟩ := ih hxs
    obtain ⟨_,_,_,rfl⟩ := generateOne_ok_iff.mp hx
    refine ⟨by simp [hlen],?_⟩
    intro k y hy
    cases k with
    | zero =>
      cases hy
      exact ⟨_,_,hx⟩
    | succ k =>
      obtain ⟨fr,s,h⟩ := hall k y (by simpa using hy)
      rw [← stream_add,Nat.add_comm,← Nat.mul_succ] at h
      exact ⟨fr,s,h⟩

/-- A batch is made without an exception exactly when all its words are. -/
lemma exists_extendFrom_iff {fresh : ℕ → ℕ → BitVec 64} {pairs : List (Input × (ℕ → Bool))}
    (size : conf.dataSize ≤ conf.arraySize) : (∃ new, extendFrom conf fresh pairs seed = .ok new) ↔
      Drawable conf seed 0 (conf.dataSize*pairs.length) := by
  induction pairs generalizing seed with
  | nil => exact ⟨fun _ i _ hi => absurd hi (Nat.not_lt_zero i),fun _ => ⟨[],rfl⟩⟩
  | cons p pairs ih =>
    rw [List.length_cons,Nat.mul_succ,Nat.add_comm,
      Drawable.union (Nat.zero_le conf.dataSize) (Nat.le_add_right ..)]
    have rest : Drawable conf seed conf.dataSize (conf.dataSize+conf.dataSize*pairs.length) ↔
        Drawable conf (stream seed conf.dataSize) 0 (conf.dataSize*pairs.length) := by
      rw [Drawable.shift,Nat.add_zero]
    rw [rest,← ih]
    constructor
    · intro ⟨new,h⟩
      obtain ⟨⟨x,s⟩,hx,h⟩ := Except.bind_eq_ok.mp h
      obtain ⟨xs,hxs,_⟩ := Except.bind_eq_ok.mp h
      obtain ⟨_,draw,_,rfl⟩ := generateOne_ok_iff.mp hx
      exact ⟨draw,xs,hxs⟩
    · intro ⟨draw,xs,hxs⟩
      obtain ⟨x,hx⟩ := exists_generateOne size draw (fresh pairs.length)
      refine ⟨copyTainted conf p.2 p.1 x :: xs,Except.bind_eq_ok.mpr ⟨_,hx,?_⟩⟩
      exact Except.bind_eq_ok.mpr ⟨xs,hxs,rfl⟩

lemma extendFrom_extends {fresh : ℕ → ℕ → BitVec 64} {pairs : List (Input × (ℕ → Bool))}
    (h : extendFrom conf fresh pairs seed = .ok new)
    (hw : ∀ p ∈ pairs, conf.dataSize ≤ p.1.words.length) :
    new.length = pairs.length ∧ ∀ (k : ℕ) p x, pairs[k]? = some p → new[k]? = some x →
      Extends conf seed p.2 p.1 k x := by
  induction pairs generalizing seed new with
  | nil =>
    cases h
    simp
  | cons p pairs ih =>
    obtain ⟨⟨x,s⟩,hx,h⟩ := Except.bind_eq_ok.mp h
    obtain ⟨xs,hxs,h⟩ := Except.bind_eq_ok.mp h
    cases h
    obtain ⟨hlen,hall⟩ := ih hxs fun q hq => hw q (by simp [hq])
    refine ⟨by simp [hlen],?_⟩
    intro k q y hq hy
    cases k with
    | zero =>
      cases hq
      cases hy
      exact extends_copyTainted hx (hw p (by simp))
    | succ k =>
      have tail := hall k q y (by simpa using hq) (by simpa using hy)
      obtain ⟨_,_,_,rfl⟩ := generateOne_ok_iff.mp hx
      rw [Nat.add_comm]
      exact Extends.shift (a := 1) (by simpa using tail)

/-- The inputs that boosting starts from. -/
structure Generated (conf : InputConf) (seed : ℤ) (inputs : List Input) : Prop where
  nonempty : inputs ≠ []
  each : ∀ k x, inputs[k]? = some x →
    ∃ fr s, generateOne conf fr (stream seed (conf.dataSize*k)) = .ok (x,s)

namespace Generated

lemma size (h : Generated conf seed inputs) : conf.dataSize ≤ conf.arraySize := by
  obtain ⟨x,xs,rfl⟩ := List.exists_cons_of_ne_nil h.nonempty
  obtain ⟨_,_,hx⟩ := h.each 0 x rfl
  exact (generateOne_ok_iff.mp hx).1

lemma length_words (h : Generated conf seed inputs) {x : Input} (hx : x ∈ inputs) :
    conf.dataSize ≤ x.words.length := by
  obtain ⟨k,hk⟩ := List.mem_iff_getElem?.mp hx
  obtain ⟨fr,s,hx⟩ := h.each k x hk
  obtain ⟨size,_,rfl,_⟩ := generateOne_ok_iff.mp hx
  have := length_unreduced fr (stream seed (conf.dataSize*k)) size
  simp only [length_reduceLast]
  omega

/-- The seed that a batch starts from follows the last input. -/
lemma extendEquivalenceClasses_eq (h : Generated conf seed inputs)
    (ht : inputs.length = taints.length) (fresh : ℕ → ℕ → BitVec 64) :
    extendEquivalenceClasses conf fresh inputs taints =
      extendFrom conf fresh (inputs.zip taints) (stream seed (conf.dataSize*inputs.length)) := by
  have positive := List.length_pos_iff.mpr h.nonempty
  have last := List.getLast?_eq_getElem? (l := inputs)
  obtain ⟨x,hx⟩ : ∃ x, inputs[inputs.length-1]? = some x := ⟨_,List.getElem?_eq_getElem (by omega)⟩
  rw [hx] at last
  obtain ⟨fr,s,hs⟩ := h.each _ x hx
  obtain ⟨size,draw,rfl,rfl⟩ := generateOne_ok_iff.mp hs
  obtain ⟨y,again⟩ := exists_generateOne size draw (fresh inputs.length)
  have next : stream (stream seed (conf.dataSize*(inputs.length-1))) conf.dataSize =
      stream seed (conf.dataSize*inputs.length) := by
    rw [← stream_add,← Nat.mul_succ,Nat.succ_eq_add_one,Nat.sub_add_cancel positive]
  rw [extendEquivalenceClasses,if_neg (by simpa using ht),last]
  change (generateOne conf _ _ >>= _) = _
  rw [again,next]
  rfl

/-- The words of the second batch can be made. -/
lemma exists_batch_iff (h : Generated conf seed inputs) (ht : inputs.length = taints.length)
    (fresh : ℕ → ℕ → BitVec 64) :
    (∃ new, extendEquivalenceClasses conf fresh inputs taints = .ok new) ↔
      Drawable conf seed (conf.dataSize*inputs.length) (conf.dataSize*(2*inputs.length)) := by
  rw [h.extendEquivalenceClasses_eq ht,exists_extendFrom_iff h.size,Drawable.shift,List.length_zip,
    ← ht,Nat.min_self,Nat.add_zero,Nat.two_mul,Nat.mul_add]

lemma batch_extends (h : Generated conf seed inputs) (ht : inputs.length = taints.length)
    {fresh : ℕ → ℕ → BitVec 64} (hnew : extendEquivalenceClasses conf fresh inputs taints = .ok new) :
    new.length = inputs.length ∧ ∀ (i : ℕ) input taint x, inputs[i]? = some input →
      taints[i]? = some taint → new[i]? = some x →
        Extends conf seed taint input (inputs.length+i) x := by
  rw [h.extendEquivalenceClasses_eq ht] at hnew
  obtain ⟨hlen,hall⟩ := extendFrom_extends hnew fun p hp =>
    h.length_words (List.of_mem_zip hp).1
  refine ⟨by simpa [← ht] using hlen,?_⟩
  intro i input taint x hinput htaint hx
  have pair : (inputs.zip taints)[i]? = some (input,taint) :=
    List.getElem?_zip_eq_some.mpr ⟨hinput,htaint⟩
  exact (hall i _ x pair hx).shift

lemma exists_boostBatches_iff (h : Generated conf seed inputs) (ht : inputs.length = taints.length)
    (fresh : ℕ → ℕ → ℕ → BitVec 64) (m : ℕ) :
    (∃ batches, boostBatches conf fresh inputs taints m = .ok batches) ↔ m = 0 ∨
      Drawable conf seed (conf.dataSize*inputs.length) (conf.dataSize*(2*inputs.length)) := by
  induction m with
  | zero => exact ⟨fun _ => .inl rfl,fun _ => ⟨[],rfl⟩⟩
  | succ m ih =>
    rw [← h.exists_batch_iff ht (fresh m)] at ih ⊢
    constructor
    · intro ⟨batches,hb⟩
      obtain ⟨_,_,hb⟩ := Except.bind_eq_ok.mp hb
      obtain ⟨new,hnew,_⟩ := Except.bind_eq_ok.mp hb
      exact .inr ⟨new,hnew⟩
    · intro hm
      obtain ⟨new,hnew⟩ := hm.resolve_left (Nat.succ_ne_zero m)
      obtain ⟨batches,hb⟩ := ih.mpr (.inr ⟨new,hnew⟩)
      refine ⟨batches ++ new,Except.bind_eq_ok.mpr ⟨batches,hb,?_⟩⟩
      exact Except.bind_eq_ok.mpr ⟨new,hnew,rfl⟩

/-- Every batch is the stretch of the sequence that follows the original inputs. -/
lemma boostBatches_extends (h : Generated conf seed inputs) (ht : inputs.length = taints.length)
    {fresh : ℕ → ℕ → ℕ → BitVec 64} {m : ℕ} {batches : List Input}
    (hb : boostBatches conf fresh inputs taints m = .ok batches) :
    batches.length = m*inputs.length ∧ ∀ b < m, ∀ (i : ℕ) input taint x, inputs[i]? = some input →
      taints[i]? = some taint → batches[b*inputs.length+i]? = some x →
        Extends conf seed taint input (inputs.length+i) x := by
  induction m generalizing batches with
  | zero =>
    cases hb
    simp
  | succ m ih =>
    obtain ⟨old,hold,hb⟩ := Except.bind_eq_ok.mp hb
    obtain ⟨new,hnew,hb⟩ := Except.bind_eq_ok.mp hb
    cases hb
    obtain ⟨hlen,hall⟩ := ih hold
    obtain ⟨hlen',hall'⟩ := h.batch_extends ht hnew
    refine ⟨by rw [List.length_append,hlen,hlen',Nat.succ_mul],?_⟩
    intro b hb i input taint x hinput htaint hx
    have hi := (List.getElem?_eq_some_iff.mp hinput).1
    rcases Nat.lt_succ_iff_lt_or_eq.mp hb with hb | rfl
    · have inside : b*inputs.length+i<old.length := by
        rw [hlen]
        calc b*inputs.length+i<(b+1)*inputs.length := by rw [Nat.succ_mul]; omega
          _ ≤ m*inputs.length := Nat.mul_le_mul_right _ hb
      rw [List.getElem?_append_left inside] at hx
      exact hall b hb i input taint x hinput htaint hx
    · rw [List.getElem?_append_right (by omega),hlen,Nat.add_sub_cancel_left] at hx
      exact hall' i input taint x hinput htaint hx

lemma extends_self (h : Generated conf seed inputs) {i : ℕ} {x : Input} (hx : inputs[i]? = some x)
    (taint : ℕ → Bool) : Extends conf seed taint x i x := by
  obtain ⟨fr,s,hs⟩ := h.each i x hx
  exact (extends_generateOne taint hs).shift

end Generated

/-- What boosting is meant to return: `inputsPerClass` versions of every input that agree on the
tainted words, taken from one run of the sequence. -/
structure Boosted (conf : InputConf) (seed : ℤ) (inputs : List Input) (taints : List (ℕ → Bool))
    (boosted : List Input) : Prop where
  length : boosted.length = conf.inputsPerClass*inputs.length
  classes : ∀ b<conf.inputsPerClass, ∀ (i : ℕ) input taint x, inputs[i]? = some input →
    taints[i]? = some taint → boosted[b*inputs.length+i]? = some x →
      Extends conf seed taint input (b*inputs.length+i) x
  distinct : 0<conf.dataSize → 2*conf.dataSize*boosted.length ≤ 2^32 →
    boosted.Pairwise fun x y => x.seed ≠ y.seed

lemma boostInputs_extends (h : Generated conf seed inputs) (ht : inputs.length = taints.length)
    (hc : 1 ≤ conf.inputsPerClass) {fresh : ℕ → ℕ → ℕ → BitVec 64} {boosted : List Input}
    (hb : boostInputs conf fresh inputs taints = .ok boosted) :
    boosted.length = conf.inputsPerClass*inputs.length ∧
      ∀ b<conf.inputsPerClass, ∀ (i : ℕ) input taint x, inputs[i]? = some input →
        taints[i]? = some taint → boosted[b*inputs.length+i]? = some x →
          Extends conf seed taint input (min b 1*inputs.length+i) x := by
  obtain ⟨batches,hbatches,hb⟩ := Except.bind_eq_ok.mp hb
  cases hb
  obtain ⟨hlen,hall⟩ := h.boostBatches_extends ht hbatches
  constructor
  · obtain ⟨c,hc⟩ := Nat.exists_eq_add_of_le' hc
    rw [List.length_append,hlen,hc,Nat.add_sub_cancel,Nat.succ_mul,Nat.add_comm]
  · intro b hb i input taint x hinput htaint hx
    have hi := (List.getElem?_eq_some_iff.mp hinput).1
    cases b with
    | zero =>
      rw [Nat.zero_mul,Nat.zero_add,List.getElem?_append_left hi,hinput] at hx
      cases hx
      simpa using h.extends_self hinput taint
    | succ b =>
      rw [Nat.succ_mul,Nat.add_right_comm,List.getElem?_append_right (by omega),
        Nat.add_sub_cancel] at hx
      simpa using hall b (by omega) i input taint x hinput htaint hx

lemma exists_boostInputs_iff (h : Generated conf seed inputs) (ht : inputs.length = taints.length)
    (hc : 1 ≤ conf.inputsPerClass) (fresh : ℕ → ℕ → ℕ → BitVec 64) :
    (∃ boosted, boostInputs conf fresh inputs taints = .ok boosted) ↔ conf.inputsPerClass = 1 ∨
      Drawable conf seed (conf.dataSize*inputs.length) (conf.dataSize*(2*inputs.length)) := by
  have batches := h.exists_boostBatches_iff ht fresh (conf.inputsPerClass-1)
  rw [show conf.inputsPerClass-1 = 0 ↔ conf.inputsPerClass = 1 by omega] at batches
  rw [← batches]
  constructor
  · intro ⟨_,hb⟩
    obtain ⟨batches,hb,_⟩ := Except.bind_eq_ok.mp hb
    exact ⟨batches,hb⟩
  · intro ⟨batches,hb⟩
    exact ⟨inputs ++ batches,Except.bind_eq_ok.mpr ⟨batches,hb,rfl⟩⟩

/-- The state that all batches start from is the one that they should continue from exactly when
there is one of them or when the sequence has come round. -/
lemma stream_batches_iff (seed : ℤ) (size classes : ℕ) {n : ℕ} (hn : 0<n) :
    (∀ b<classes, ∀ i<n,
      stream seed (size*(min b 1*n+i)) = stream seed (size*(b*n+i))) ↔
        classes ≤ 2 ∨ 2^32 ∣ 2*size*n := by
  rcases Nat.eq_zero_or_pos size with rfl | hs
  · simp
  constructor
  · intro h
    by_contra! hc
    have same := h 2 (by omega) 0 hn
    have := (stream_eq_iff (by positivity) (by gcongr; decide)).mp same
    rw [← Nat.mul_sub,show 2*n+0-(min 2 1*n+0) = n by simp [Nat.two_mul],← Nat.mul_assoc] at this
    exact hc.2 this
  · intro h b hb i hi
    match b with
    | 0 => rfl
    | b+1 =>
      have start : 0<size*(min (b+1) 1*n+i) := by
        rw [Nat.min_eq_right (by omega)]
        positivity
      rw [stream_eq_iff start (by gcongr; omega),← Nat.mul_sub]
      have apart : (b+1)*n+i-(min (b+1) 1*n+i) = n*b := by
        rw [Nat.min_eq_right (by omega),Nat.succ_mul,Nat.one_mul,Nat.mul_comm]
        omega
      rw [apart,← Nat.mul_assoc,← Nat.mul_assoc]
      rcases h with h | h
      · rw [show b = 0 by omega]
        simp
      · exact h.mul_right b

lemma seeds_distinct {size : ℕ} {boosted : List Input}
    (hseed : ∀ k x, boosted[k]? = some x → x.seed = stream seed (size*k)) (hs : 0<size)
    (hp : 2*size*boosted.length ≤ 2^32) : boosted.Pairwise fun x y => x.seed ≠ y.seed := by
  rw [List.pairwise_iff_getElem]
  intro k l hk hl hkl
  rw [hseed k _ (List.getElem?_eq_getElem hk),hseed l _ (List.getElem?_eq_getElem hl)]
  apply stream_ne
  · exact Nat.mul_lt_mul_of_pos_left hkl hs
  · rw [← Nat.mul_sub,← Nat.mul_assoc]
    calc 2*size*(l-k)<2*size*boosted.length := Nat.mul_lt_mul_of_pos_left (by omega) (by omega)
      _ ≤ 2^32 := hp

/-- Every position of the result belongs to an input and its taint. -/
lemma exists_position (h : inputs ≠ []) (ht : inputs.length = taints.length) {boosted : List Input}
    (hl : boosted.length = conf.inputsPerClass*inputs.length) {k : ℕ} {x : Input}
    (hx : boosted[k]? = some x) : ∃ b<conf.inputsPerClass, ∃ i input taint, inputs[i]? = some input ∧
      taints[i]? = some taint ∧ k = b*inputs.length+i := by
  have positive := List.length_pos_iff.mpr h
  have hk := (List.getElem?_eq_some_iff.mp hx).1
  rw [hl] at hk
  have hi := Nat.mod_lt k positive
  refine ⟨k/inputs.length,Nat.div_lt_of_lt_mul (by rwa [Nat.mul_comm]),k % inputs.length,
    inputs[k % inputs.length],taints[k % inputs.length],List.getElem?_eq_getElem hi,
    List.getElem?_eq_getElem (ht ▸ hi),?_⟩
  rw [Nat.mul_comm,Nat.div_add_mod]

/-- The result is as it is meant to be exactly when every batch starts from where it should. -/
lemma boosted_iff (h : Generated conf seed inputs) (ht : inputs.length = taints.length)
    (hc : 1 ≤ conf.inputsPerClass) {fresh : ℕ → ℕ → ℕ → BitVec 64} {boosted : List Input}
    (hb : boostInputs conf fresh inputs taints = .ok boosted) :
    Boosted conf seed inputs taints boosted ↔ ∀ b<conf.inputsPerClass, ∀ i < inputs.length,
      stream seed (conf.dataSize*(min b 1*inputs.length+i)) =
        stream seed (conf.dataSize*(b*inputs.length+i)) := by
  obtain ⟨length,actual⟩ := boostInputs_extends h ht hc hb
  constructor
  · intro good b hb i hi
    have hk : b*inputs.length+i<boosted.length := by
      rw [length]
      calc b*inputs.length+i<(b+1)*inputs.length := by rw [Nat.succ_mul]; omega
        _ ≤ conf.inputsPerClass*inputs.length := Nat.mul_le_mul_right _ hb
    have is := actual b hb i _ _ _ (List.getElem?_eq_getElem hi)
      (List.getElem?_eq_getElem (ht ▸ hi)) (List.getElem?_eq_getElem hk)
    have should := good.classes b hb i _ _ _ (List.getElem?_eq_getElem hi)
      (List.getElem?_eq_getElem (ht ▸ hi)) (List.getElem?_eq_getElem hk)
    rw [← is.seed_eq,should.seed_eq]
  · intro continued
    have classes : ∀ b<conf.inputsPerClass, ∀ (i : ℕ) input taint x, inputs[i]? = some input →
        taints[i]? = some taint → boosted[b*inputs.length+i]? = some x →
          Extends conf seed taint input (b*inputs.length+i) x := by
      intro b hb i input taint x hinput htaint hx
      have is := actual b hb i input taint x hinput htaint hx
      have hi := (List.getElem?_eq_some_iff.mp hinput).1
      exact ⟨by rw [is.seed_eq,continued b hb i hi],is.tainted,is.untainted⟩
    refine ⟨length,classes,?_⟩
    apply seeds_distinct
    intro k x hx
    obtain ⟨b,hb,i,input,taint,hinput,htaint,rfl⟩ := exists_position h.nonempty ht length hx
    exact (classes b hb i input taint x hinput htaint hx).seed_eq

lemma exists_boosted_iff (h : Generated conf seed inputs) (ht : inputs.length = taints.length)
    (hc : 1 ≤ conf.inputsPerClass) (fresh : ℕ → ℕ → ℕ → BitVec 64) :
    (∃ boosted, boostInputs conf fresh inputs taints = .ok boosted ∧
      Boosted conf seed inputs taints boosted) ↔
    conf.inputsPerClass = 1 ∨
      Drawable conf seed (conf.dataSize*inputs.length) (conf.dataSize*(2*inputs.length)) ∧
        (conf.inputsPerClass = 2 ∨ 2^32 ∣ 2*conf.dataSize*inputs.length) := by
  have returns := exists_boostInputs_iff h ht hc fresh
  have continued := stream_batches_iff seed conf.dataSize conf.inputsPerClass
    (List.length_pos_iff.mpr h.nonempty)
  constructor
  · intro ⟨boosted,hb,good⟩
    have drawn := returns.mp ⟨boosted,hb⟩
    have once := continued.mp ((boosted_iff h ht hc hb).mp good)
    by_cases one : conf.inputsPerClass = 1
    · exact .inl one
    · exact .inr ⟨drawn.resolve_left one,once.imp_left (by omega)⟩
  · intro hcond
    obtain ⟨boosted,hb⟩ := returns.mpr (hcond.imp_right And.left)
    refine ⟨boosted,hb,(boosted_iff h ht hc hb).mpr (continued.mpr ?_)⟩
    rcases hcond with one | ⟨_,two⟩
    · exact .inl (by omega)
    · exact two.imp_left (by omega)

lemma generated_of_generate {fresh : ℕ → ℕ → BitVec 64}
    (hg : generate conf fresh n seed = .ok inputs) (hn : 0<n) : Generated conf seed inputs := by
  obtain ⟨rfl,each⟩ := generate_ok hg
  exact ⟨List.length_pos_iff.mp hn,each⟩

/-- Boosting extends the classes from one run of the sequence exactly when it makes at most one
batch (or the period divides what a batch draws), and the words of the batch fit. -/
theorem boostInputs_boosted_iff {fresh₀ : ℕ → ℕ → BitVec 64}
    (hg : generate conf fresh₀ n seed = .ok inputs) (hn : 0<n)
    (ht : taints.length = inputs.length) (hc : 1 ≤ conf.inputsPerClass)
    (fresh : ℕ → ℕ → ℕ → BitVec 64) :
    (∃ boosted, boostInputs conf fresh inputs taints = .ok boosted ∧
      Boosted conf seed inputs taints boosted) ↔
    conf.inputsPerClass = 1 ∨
      Drawable conf seed (conf.dataSize*n) (conf.dataSize*(2*n)) ∧
        (conf.inputsPerClass = 2 ∨ 2^32 ∣ 2*conf.dataSize*n) := by
  have length := (generate_ok hg).1
  rw [← length]
  exact exists_boosted_iff (generated_of_generate hg hn) ht.symm hc fresh

lemma exists_generate (conf : InputConf) (hb : conf.inputGenEntropyBits % 33 ≤ 26)
    (size : conf.dataSize ≤ conf.arraySize) (fresh : ℕ → ℕ → BitVec 64) (n : ℕ) (seed : ℤ) :
    ∃ inputs, generate conf fresh n seed = .ok inputs := by
  induction n generalizing seed with
  | zero => exact ⟨[],rfl⟩
  | succ n ih =>
    obtain ⟨x,hx⟩ := exists_generateOne size (drawable_of_le hb seed 0 _) (fresh n)
    obtain ⟨xs,hxs⟩ := ih (stream seed conf.dataSize)
    refine ⟨x :: xs,Except.bind_eq_ok.mpr ⟨_,hx,?_⟩⟩
    exact Except.bind_eq_ok.mpr ⟨_,hxs,rfl⟩

/-- Two inputs per class, as in the default configuration. -/
theorem boostInputs_boosted_default : ∃ inputs, generate {} (fun _ _ => 0) 1 5 = .ok inputs ∧
    ∃ boosted, boostInputs {} (fun _ _ _ => 0) inputs [fun j => j = 0] = .ok boosted ∧
      Boosted {} 5 inputs [fun j => j = 0] boosted := by
  obtain ⟨inputs,hg⟩ := exists_generate {} (by decide) (by decide) (fun _ _ => 0) 1 5
  refine ⟨inputs,hg,?_⟩
  have ht : [fun j : ℕ => decide (j = 0)].length = inputs.length := (generate_ok hg).1.symm
  rw [boostInputs_boosted_iff hg (by decide) ht (by decide)]
  exact .inr ⟨drawable_of_le (by decide) _ _ _,.inl rfl⟩

/-- With three inputs per class the second batch is made from the seeds of the first. -/
theorem boostInputs_not_boosted : ∃ inputs,
    generate { inputsPerClass := 3 } (fun _ _ => 0) 1 5 = .ok inputs ∧
    ¬∃ boosted, boostInputs { inputsPerClass := 3 } (fun _ _ _ => 0) inputs [fun j => j = 0] =
      .ok boosted ∧ Boosted { inputsPerClass := 3 } 5 inputs [fun j => j = 0] boosted := by
  obtain ⟨inputs,hg⟩ := exists_generate { inputsPerClass := 3 } (by decide) (by decide)
    (fun _ _ => 0) 1 5
  refine ⟨inputs,hg,?_⟩
  have ht : inputs.length = [fun j : ℕ => decide (j = 0)].length := (generate_ok hg).1
  rw [exists_boosted_iff (generated_of_generate hg (by decide)) ht (by decide),ht]
  rintro (one | ⟨_,two | period⟩)
  · exact absurd one (by decide)
  · exact absurd two (by decide)
  · exact absurd period (by decide)

end Batches

section Seeds
variable {conf : InputConf} {seed : ℤ} {n : ℕ} {inputs : List Input}

/-- The seed that `generate` starts from: zero stands for a random one. -/
def startSeed (drawn seed : ℤ) : ℤ := if seed = 0 then drawn else seed

lemma lcg_iterate_modEq (r : ℤ) (m : ℕ) :
    (fun r : ℤ => (lcg r : ℤ))^[m] r ≡ (step 2891336453 54321)^[m] r [ZMOD 2^32] := by
  induction m generalizing r with
  | zero => rfl
  | succ m ih =>
    rw [Function.iterate_succ_apply,Function.iterate_succ_apply]
    exact (ih _).trans (Congruential.iterate_modEq (lcg_modEq r) m)

lemma lcg_iterate_reduced {r : ℤ} (hr : 0 ≤ r ∧ r<2^32) (m : ℕ) :
    0 ≤ (fun r : ℤ => (lcg r : ℤ))^[m] r ∧ (fun r : ℤ => (lcg r : ℤ))^[m] r<2^32 := by
  cases m with
  | zero => exact hr
  | succ m =>
    rw [Function.iterate_succ_apply']
    exact ⟨Int.natCast_nonneg _,lcg_lt _⟩

/-- The sequence has the full period. -/
lemma minimalPeriod_lcg {r : ℤ} (hr : 0 ≤ r ∧ r<2^32) :
    Function.minimalPeriod (fun r : ℤ => (lcg r : ℤ)) r = 2^32 := by
  have back (m : ℕ) : Function.IsPeriodicPt (fun r : ℤ => (lcg r : ℤ)) m r ↔ 2^32 ∣ m := by
    obtain ⟨low,high⟩ := lcg_iterate_reduced hr m
    have same := lcg_iterate_modEq r m
    rw [← Congruential.return_iff (a := 2891336453) (c := 54321) (by decide) (by decide)
      (by decide) r]
    constructor
    · intro h
      rw [Function.IsPeriodicPt,Function.IsFixedPt] at h
      rw [h] at same
      exact same.symm
    · intro h
      have equal := same.trans h
      rwa [Int.ModEq,Int.emod_eq_of_lt low high,Int.emod_eq_of_lt hr.1 hr.2] at equal
  apply Nat.dvd_antisymm
  · exact ((back _).mpr dvd_rfl).minimalPeriod_dvd
  · exact (back _).mp (Function.isPeriodicPt_minimalPeriod _ r)

/-- As many inputs as the step between them allows have different seeds. -/
lemma generate_nodup {fresh : ℕ → ℕ → BitVec 64} (h : generate conf fresh n seed = .ok inputs)
    (hn : n ≤ 2^32/Nat.gcd (2*conf.dataSize) (2^32)) : (inputs.map (·.seed)).Nodup := by
  obtain ⟨length,each⟩ := generate_ok h
  have seeds : ∀ k x, inputs[k]? = some x → x.seed = stream seed (conf.dataSize*k) := by
    intro k x hx
    obtain ⟨fr,s,one⟩ := each k x hx
    obtain ⟨-,-,rfl,-⟩ := generateOne_ok_iff.mp one
    rfl
  rw [List.Nodup,List.pairwise_map,List.pairwise_iff_getElem]
  intro k l hk hl hkl same
  rw [seeds k _ (List.getElem?_eq_getElem hk),seeds l _ (List.getElem?_eq_getElem hl)] at same
  have period := (stream_modEq_iff (i := conf.dataSize*k) (j := conf.dataSize*l)
    (Nat.mul_le_mul_left _ hkl.le)).mp (by rw [same])
  rw [← Nat.mul_sub,← Nat.mul_assoc] at period
  have apart : 2^32/Nat.gcd (2*conf.dataSize) (2^32) ∣ l-k := by
    rw [Nat.div_dvd_iff_dvd_mul (Nat.gcd_dvd_right _ _) (Nat.gcd_pos_of_pos_right _ (by decide)),
      Nat.gcd_comm]
    exact Nat.dvd_gcd_mul_iff_dvd_mul.mpr period
  have := Nat.le_of_dvd (by omega) apart
  omega

/-- The sequence has the full period, and the inputs of a batch are generated from different seeds
up to the number that the size of an input allows. -/
theorem generate_seeds (hs : 0 ≤ seed ∧ seed<2^32) :
    Function.minimalPeriod (fun r : ℤ => (lcg r : ℤ)) seed = 2^32 ∧
      ∀ (drawn : ℤ) (conf : InputConf) (fresh : ℕ → ℕ → BitVec 64) (n : ℕ) (inputs : List Input),
        0<conf.dataSize → n ≤ 2^32/Nat.gcd (2*conf.dataSize) (2^32) →
        generate conf fresh n (startSeed drawn seed) = .ok inputs →
          (inputs.map (·.seed)).Nodup :=
  ⟨minimalPeriod_lcg hs,fun _ _ _ _ _ _ hn h => generate_nodup h hn⟩

/-- A batch of fifty inputs. -/
theorem generate_seeds_default : ∃ inputs, generate {} (fun _ _ => 0) 50 5 = .ok inputs ∧
    inputs.length = 50 ∧ Function.minimalPeriod (fun r : ℤ => (lcg r : ℤ)) 5 = 2^32 ∧
      (inputs.map (·.seed)).Nodup := by
  obtain ⟨inputs,hg⟩ := exists_generate {} (by decide) (by decide) (fun _ _ => 0) 50 5
  have five : (0 : ℤ) ≤ 5 ∧ (5 : ℤ)<2^32 := by decide
  obtain ⟨period,distinct⟩ := generate_seeds five
  exact ⟨inputs,hg,(generate_ok hg).1,period,distinct 0 {} _ 50 inputs (by decide) (by decide) hg⟩

end Seeds

end ProteanAmulet.RandomInputGenerator
