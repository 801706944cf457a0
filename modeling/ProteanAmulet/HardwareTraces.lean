import Mathlib.Data.Int.Bitwise
import Mathlib.Data.Int.ModEq
import Mathlib.Data.List.Sort
import ProteanAmulet.Library.Concatenation

/-! The hardware traces that the executor reads from gem5. Tags of the data cache are normalised,
and the states of all sources of the attacker are put one after the other. -/
namespace ProteanAmulet.X86Gem5

/-- The options that `get_raw_trace` reads; `ipc` is the value of `gem5_orchestration`. The sizes
of the cache are in bytes. -/
structure TraceConf where
  inputMainRegionSize : ℕ := 4096
  l1dSize : ℕ := 2^15
  l1dAssoc : ℕ := 8
  ipc : Bool := true

namespace TraceConf
variable (conf : TraceConf)

/-- The bytes of one way of the data cache. -/
def l1dWay : ℕ := conf.l1dSize/conf.l1dAssoc

/-- Regions are made of pages, and a cache has powers of two for its size and its ways. -/
structure Admitted : Prop where
  pages : conf.inputMainRegionSize % 4096 = 0
  size : ∃ a, conf.l1dSize = 2^a
  assoc : ∃ b, conf.l1dAssoc = 2^b
  ways : conf.l1dAssoc ≤ conf.l1dSize

end TraceConf

def sandboxBasePaddr : ℤ := 0x3000

section Tags
variable (conf : TraceConf)

/-- The tag lies in the main region of the sandbox. -/
def Inside (tag : ℤ) : Prop :=
  0 ≤ tag-sandboxBasePaddr ∧ tag-sandboxBasePaddr<conf.inputMainRegionSize

instance (tag : ℤ) : Decidable (Inside conf tag) := inferInstanceAs (Decidable (_ ∧ _))

/-- `process`: tags inside the sandbox are taken relative to it, of the others the bottom bits are
kept and a marker is added. -/
def process (tag : ℤ) : ℤ :=
  let offset := tag-sandboxBasePaddr
  if Inside conf tag then offset
  else Int.lor (Int.land offset (conf.l1dWay-1)) conf.inputMainRegionSize

/-- The bottom bits determine the cache set. -/
def SameSet (tag tag' : ℤ) : Prop := tag % conf.l1dWay = tag' % conf.l1dWay

/-- What the normalisation is to identify. -/
def Faithful : Prop := ∀ tag tag' : ℤ, process conf tag = process conf tag' ↔
  Inside conf tag ∧ Inside conf tag' ∧ tag=tag' ∨
    ¬Inside conf tag ∧ ¬Inside conf tag' ∧ SameSet conf tag tag'

end Tags

/-- Masking with ones is the remainder, for negative numbers as well. -/
lemma land_two_pow_sub_one (x : ℤ) (k : ℕ) : Int.land x ((2^k : ℕ)-1) = x % (2^k : ℕ) := by
  have ones : ((2^k : ℕ) : ℤ)-1 = ((2^k-1 : ℕ) : ℤ) := by
    have := Nat.two_pow_pos k
    omega
  rw [ones]
  cases x with
  | ofNat m =>
    change ((m &&& (2^k-1) : ℕ) : ℤ) = (m : ℤ) % (2^k : ℕ)
    rw [Nat.and_two_pow_sub_one_eq_mod]
    norm_cast
  | negSucc m =>
    change ((Nat.ldiff (2^k-1) m : ℕ) : ℤ) = Int.negSucc m % (2^k : ℕ)
    have small := Nat.mod_lt m (Nat.two_pow_pos k)
    have complement : Nat.ldiff (2^k-1) m = 2^k-(m % 2^k+1) := by
      apply Nat.eq_of_testBit_eq
      intro i
      rw [Nat.testBit_two_pow_sub_succ small,Nat.testBit_ldiff,Nat.testBit_two_pow_sub_one,
        Nat.testBit_mod_two_pow]
      by_cases hi : i<k <;> simp [hi]
    rw [complement,Int.emod_negSucc,Int.natAbs_natCast,Int.subNatNat_of_le small]

section Faithful
variable {conf : TraceConf}

lemma TraceConf.Admitted.way (h : conf.Admitted) : ∃ k, conf.l1dWay = 2^k := by
  obtain ⟨a,ha⟩ := h.size
  obtain ⟨b,hb⟩ := h.assoc
  have hab : b ≤ a := by
    have ways := h.ways
    rw [ha,hb] at ways
    exact (Nat.pow_le_pow_iff_right (by decide)).mp ways
  exact ⟨a-b,by rw [TraceConf.l1dWay,ha,hb,Nat.pow_div hab (by decide)]⟩

/-- Outside of the sandbox: the set, with the marker. -/
lemma process_outside {k : ℕ} (hk : conf.l1dWay = 2^k) {tag : ℤ} (h : ¬Inside conf tag) :
    process conf tag = ((((tag-sandboxBasePaddr) % (2^k : ℕ)).toNat |||
      conf.inputMainRegionSize : ℕ) : ℤ) := by
  have nonneg : 0 ≤ (tag-sandboxBasePaddr) % (2^k : ℕ) :=
    Int.emod_nonneg _ (by have := Nat.two_pow_pos k; omega)
  obtain ⟨n,hn⟩ := Int.eq_ofNat_of_zero_le nonneg
  rw [process,if_neg h,hk,land_two_pow_sub_one,hn]
  rfl

lemma process_inside {tag : ℤ} (h : Inside conf tag) : process conf tag = tag-sandboxBasePaddr :=
  if_pos h

/-- The marker keeps the outside apart. -/
lemma le_process {k : ℕ} (hk : conf.l1dWay = 2^k) {tag : ℤ} (h : ¬Inside conf tag) :
    (conf.inputMainRegionSize : ℤ) ≤ process conf tag := by
  rw [process_outside hk h]
  exact_mod_cast Nat.right_le_or

/-- Different sets stay apart exactly when the marker is no bit of a set. -/
lemma or_eq_or_iff {k r : ℕ} (hr : 2^k ∣ r) {x y : ℕ} (hx : x<2^k) (hy : y<2^k) :
    x ||| r = y ||| r ↔ x=y := by
  obtain ⟨c,rfl⟩ := hr
  constructor
  · intro h
    have sum (z : ℕ) (hz : z<2^k) : z ||| 2^k*c = 2^k*c+z := by
      rw [Nat.lor_comm,← Nat.two_pow_add_eq_or_of_lt hz]
    rw [sum x hx,sum y hy] at h
    omega
  · intro h
    rw [h]

lemma sameSet_iff {k : ℕ} (hk : conf.l1dWay = 2^k) (tag tag' : ℤ) : SameSet conf tag tag' ↔
    ((tag-sandboxBasePaddr) % (2^k : ℕ)).toNat = ((tag'-sandboxBasePaddr) % (2^k : ℕ)).toNat := by
  have positive : (0 : ℤ)<(2^k : ℕ) := by exact_mod_cast Nat.two_pow_pos k
  have h₁ := Int.emod_nonneg (tag-sandboxBasePaddr) positive.ne'
  have h₂ := Int.emod_nonneg (tag'-sandboxBasePaddr) positive.ne'
  have shift : (tag-sandboxBasePaddr) % (2^k : ℕ) = (tag'-sandboxBasePaddr) % (2^k : ℕ) ↔
      tag % (2^k : ℕ) = tag' % (2^k : ℕ) := by
    constructor
    · intro h
      have sum := Int.ModEq.add_right sandboxBasePaddr h
      simpa [Int.ModEq] using sum
    · exact Int.ModEq.sub_right sandboxBasePaddr
  rw [SameSet,hk,← shift]
  omega

lemma faithful_of_dvd {k : ℕ} (hk : conf.l1dWay = 2^k) (hd : 2^k ∣ conf.inputMainRegionSize) :
    Faithful conf := by
  intro tag tag'
  have below (t : ℤ) : ((t-sandboxBasePaddr) % (2^k : ℕ)).toNat<2^k := by
    have positive : (0 : ℤ)<(2^k : ℕ) := by exact_mod_cast Nat.two_pow_pos k
    have := Int.emod_lt_of_pos (t-sandboxBasePaddr) positive
    omega
  by_cases ht : Inside conf tag <;> by_cases ht' : Inside conf tag'
  · rw [process_inside ht,process_inside ht']
    simp [ht,ht']
  · have apart := le_process hk ht'
    have inside := ht.2
    rw [process_inside ht]
    simp only [ht,ht',not_true,false_and,and_false,or_false,iff_false]
    omega
  · have apart := le_process hk ht
    have inside := ht'.2
    rw [process_inside ht']
    simp only [ht,ht',not_true,false_and,and_false,or_false,iff_false]
    omega
  · rw [process_outside hk ht,process_outside hk ht',Nat.cast_inj,
      or_eq_or_iff hd (below tag) (below tag'),sameSet_iff hk]
    simp [ht,ht']

/-- Two tags outside of the sandbox that are not told apart: the marker is a bit of their set. -/
lemma not_faithful_of_not_dvd {k : ℕ} (hk : conf.l1dWay = 2^k)
    (hd : ¬2^k ∣ conf.inputMainRegionSize) : ¬Faithful conf := by
  intro faithful
  set r := conf.inputMainRegionSize with hr
  have positive := Nat.two_pow_pos k
  have far : r+1 ≤ 2^k*(r+1) := Nat.le_mul_of_pos_left _ positive
  have set_ (m : ℕ) (hm : m<2^k) : (((2^k*(r+1)+m : ℕ) : ℤ) % (2^k : ℕ)).toNat = m := by
    rw [← Int.natCast_mod,Int.toNat_natCast,Nat.mul_add_mod,Nat.mod_eq_of_lt hm]
  have outside (m : ℕ) : ¬Inside conf (sandboxBasePaddr+(2^k*(r+1)+m : ℕ)) := by
    rintro ⟨-,high⟩
    rw [← hr] at high
    omega
  have bits : r % 2^k ||| r = r := by
    apply Nat.eq_of_testBit_eq
    intro i
    rw [Nat.testBit_or,Nat.testBit_mod_two_pow]
    cases r.testBit i <;> simp
  have remainder := Nat.mod_lt r positive
  have merged : process conf (sandboxBasePaddr+(2^k*(r+1)+0 : ℕ)) =
      process conf (sandboxBasePaddr+(2^k*(r+1)+r % 2^k : ℕ)) := by
    rw [process_outside hk (outside 0),process_outside hk (outside (r % 2^k)),
      add_sub_cancel_left,add_sub_cancel_left,set_ 0 positive,set_ _ remainder,← hr,bits,
      Nat.zero_or]
  rcases (faithful _ _).mp merged with ⟨inside,-⟩ | ⟨-,-,same⟩
  · exact outside 0 inside
  · rw [sameSet_iff hk,add_sub_cancel_left,add_sub_cancel_left,set_ 0 positive,
      set_ _ remainder] at same
    exact hd (Nat.dvd_of_mod_eq_zero same.symm)

/-- The normalisation is faithful exactly when the main region is a whole number of ways. -/
theorem faithful_iff (h : conf.Admitted) :
    Faithful conf ↔ conf.l1dWay ∣ conf.inputMainRegionSize := by
  obtain ⟨k,hk⟩ := h.way
  rw [hk]
  constructor
  · intro faithful
    by_contra hd
    exact not_faithful_of_not_dvd hk hd faithful
  · exact faithful_of_dvd hk

/-- In the default configuration the region is one way. -/
theorem faithful_default : Faithful {} :=
  (faithful_iff ⟨by decide,⟨15,rfl⟩,⟨3,rfl⟩,by decide⟩).mpr (by decide)

/-- With four ways of eight kilobytes, two sets are merged. -/
theorem not_faithful_fourWays : ({ l1dAssoc := 4 } : TraceConf).Admitted ∧
    ¬Inside { l1dAssoc := 4 } 0x8000 ∧ ¬Inside { l1dAssoc := 4 } 0x9000 ∧
    process { l1dAssoc := 4 } 0x8000 = process { l1dAssoc := 4 } 0x9000 ∧
    ¬SameSet { l1dAssoc := 4 } 0x8000 0x9000 ∧ ¬Faithful { l1dAssoc := 4 } := by
  refine ⟨⟨by decide,⟨15,rfl⟩,⟨2,rfl⟩,by decide⟩,by decide,by decide,by decide +kernel,?_,?_⟩
  · unfold SameSet
    decide +kernel
  · exact not_faithful_of_not_dvd (k := 13) (by decide) (by decide)

end Faithful

/-- An element of a raw trace: a number, the text of a log, or a dictionary. -/
inductive RawEntry where
  | int (n : ℤ)
  | log (text : String)
  | dict (d : String → Option String)

/-- What `get_raw_trace` reads of the state that gem5 has written, `none` where an entry is
missing; an item of the TLB says whether its key starts with `Entry`. The replacement bits are never
read: `getattr` finds no option in a dictionary. -/
structure Tags where
  dcache : Option (List ℤ) := none
  l1Dcache : Option (List ℤ) := none
  icache : Option (List ℤ) := none
  l1Icache : Option (List ℤ) := none
  dtb : Option (List (Bool × ℤ)) := none
  branchPred : Option (String → Option String) := none
  branchPredictionLog : Option String := none
  accessLog : Option String := none
  commit : Option String := none

/-- The sources with one entry for each line or page. -/
inductive Buffer where
  | dataCache | instrCache | dtlb
  deriving DecidableEq

/-- The sources that are put into the trace as a single element. -/
inductive Recording where
  | branchPredState | branchPredictions | branchPredictionsTiming
  | accessTiming | accessOrder | commit
  deriving DecidableEq

/-- The sources of an attacker. Any other name ends the process. -/
inductive Source where
  | buffer (b : Buffer)
  | recording (r : Recording)
  | unsupported (name : String)
  deriving DecidableEq

section RawTraces
variable (conf : TraceConf) (tags : Tags)

/-- The numbers of a cache or TLB, normalised and sorted. -/
def bufferState : Buffer → Option (List ℤ)
  | .dataCache => (tags.dcache <|> tags.l1Dcache).map fun state =>
    (if conf.ipc then state.map (process conf) else state).insertionSort (· ≤ ·)
  | .instrCache => (tags.icache <|> tags.l1Icache).map fun state => state.insertionSort (· ≤ ·)
  | .dtlb => tags.dtb.map fun tlb =>
    let state := (tlb.filter (·.1)).map (·.2)
    (if conf.ipc then state.filter fun tag => Inside conf tag else state).insertionSort (· ≤ ·)

def recordingState : Recording → Option RawEntry
  | .branchPredState => tags.branchPred.map .dict
  | .branchPredictions | .branchPredictionsTiming => tags.branchPredictionLog.map .log
  | .accessTiming | .accessOrder => tags.accessLog.map .log
  | .commit => tags.commit.map .log

/-- The state of one source, as it is added to the trace. -/
def sourceState : Source → Option (List RawEntry)
  | .buffer b => (bufferState conf tags b).map fun state => state.map .int
  | .recording r => (recordingState tags r).map fun entry => [entry]
  | .unsupported _ => none

/-- `get_raw_trace`; `none` is an exception or the end of the process. -/
def getRawTrace : List Source → Option (List RawEntry)
  | [] => some []
  | src :: sources => do
    let state ← sourceState conf tags src
    return state ++ (← getRawTrace sources)

/-- The trace shows the state of every source. -/
def Separates (sources : List Source) : Prop :=
  ∀ tags tags' trace trace', getRawTrace conf tags sources = some trace →
    getRawTrace conf tags' sources = some trace' →
      (trace=trace' ↔ ∀ src ∈ sources, sourceState conf tags src = sourceState conf tags' src)

end RawTraces

/-- The number can occur in the state of the buffer. -/
def CanHold (conf : TraceConf) (b : Buffer) (x : ℤ) : Prop :=
  match b with
  | .dataCache => conf.ipc → ∃ tag, process conf tag = x
  | .instrCache => True
  | .dtlb => conf.ipc → Inside conf x

/-- The order in which buffers and recordings are put into the trace. -/
def layout : List Source → List (Buffer ⊕ Recording)
  | [] => []
  | .buffer b :: sources => .inl b :: layout sources
  | .recording r :: sources => .inr r :: layout sources
  | .unsupported _ :: sources => layout sources

/-- Every name of a source is known. -/
def Supported (sources : List Source) : Prop := ∀ name, Source.unsupported name ∉ sources

section Separation
open Concatenation
variable {conf : TraceConf} {tags tags' : Tags} {sources : List Source}

/-- The state of a buffer that is there. -/
def numbers (conf : TraceConf) (tags : Tags) (b : Buffer) : List ℤ :=
  (bufferState conf tags b).getD []

def entry (tags : Tags) (r : Recording) : RawEntry := (recordingState tags r).getD (.log "")

/-- The elements that are no numbers. -/
def RawEntry.IsRecording : RawEntry → Prop
  | .int _ => False
  | _ => True

lemma entry_isRecording (tags : Tags) (r : Recording) : (entry tags r).IsRecording := by
  unfold entry recordingState
  cases r <;> dsimp only
  · cases tags.branchPred <;> trivial
  · cases tags.branchPredictionLog <;> trivial
  · cases tags.branchPredictionLog <;> trivial
  · cases tags.accessLog <;> trivial
  · cases tags.accessLog <;> trivial
  · cases tags.commit <;> trivial

lemma numbers_sorted (b : Buffer) : (numbers conf tags b).Pairwise (· ≤ ·) := by
  have sorted (o : Option (List ℤ)) (k : List ℤ → List ℤ) :
      ((o.map fun l => (k l).insertionSort (· ≤ ·)).getD []).Pairwise (· ≤ ·) := by
    cases o with
    | none => exact .nil
    | some l => exact List.pairwise_insertionSort _ _
  cases b
  · exact sorted _ _
  · exact sorted _ id
  · unfold numbers bufferState
    cases tags.dtb with
    | none => exact .nil
    | some tlb => exact List.pairwise_insertionSort _ _

lemma numbers_canHold (b : Buffer) {x : ℤ} (hx : x ∈ numbers conf tags b) : CanHold conf b x := by
  cases b with
  | dataCache =>
    intro ipc
    simp only [numbers,bufferState,ipc,if_true] at hx
    cases hs : (tags.dcache <|> tags.l1Dcache) with
    | none => simp [hs] at hx
    | some state =>
      simp only [hs,Option.map_some,Option.getD_some,List.mem_insertionSort,List.mem_map] at hx
      obtain ⟨tag,-,h⟩ := hx
      exact ⟨tag,h⟩
  | instrCache => trivial
  | dtlb =>
    intro ipc
    simp only [numbers,bufferState,ipc,if_true] at hx
    cases hs : tags.dtb with
    | none => simp [hs] at hx
    | some tlb =>
      simp only [hs,Option.map_some,Option.getD_some,List.mem_insertionSort,List.mem_filter,
        decide_eq_true_eq] at hx
      exact hx.2

/-- Every source that is read is there. -/
def Present (conf : TraceConf) (tags : Tags) (sources : List Source) : Prop :=
  ∀ src ∈ sources, (sourceState conf tags src).isSome

lemma present_cons {src : Source} : Present conf tags (src :: sources) ↔
    (sourceState conf tags src).isSome ∧ Present conf tags sources :=
  List.forall_mem_cons

lemma sourceState_buffer {b : Buffer} (h : (sourceState conf tags (.buffer b)).isSome) :
    sourceState conf tags (.buffer b) = some ((numbers conf tags b).map .int) := by
  cases hb : bufferState conf tags b <;> simp_all [sourceState,numbers]

lemma sourceState_recording {r : Recording} (h : (sourceState conf tags (.recording r)).isSome) :
    sourceState conf tags (.recording r) = some [entry tags r] := by
  cases hr : recordingState tags r <;> simp_all [sourceState,entry]

/-- The trace is a concatenation in the order of the sources. -/
lemma getRawTrace_eq_some_iff {trace : List RawEntry} :
    getRawTrace conf tags sources = some trace ↔ Present conf tags sources ∧
      expand (fun b => (numbers conf tags b).map .int) (entry tags) (layout sources) = trace := by
  induction sources generalizing trace with
  | nil => simp [getRawTrace,Present,layout,expand]
  | cons src sources ih =>
    have rest : getRawTrace conf tags (src :: sources) = some trace ↔
        ∃ state, sourceState conf tags src = some state ∧ Present conf tags sources ∧
          state ++ expand (fun b => (numbers conf tags b).map .int) (entry tags) (layout sources) =
            trace := by
      simp [getRawTrace,Option.bind_eq_some_iff,ih]
    rw [rest,present_cons]
    cases src with
    | buffer b =>
      cases hb : bufferState conf tags b <;>
        simp [sourceState,hb,layout,expand,numbers]
    | recording r =>
      cases hr : recordingState tags r <;>
        simp [sourceState,hr,layout,expand,entry]
    | unsupported name => simp [sourceState]

lemma buffer_mem_layout {b : Buffer} : .inl b ∈ layout sources ↔ .buffer b ∈ sources := by
  induction sources with
  | nil => simp [layout]
  | cons src sources ih => cases src <;> simp [layout,ih]

lemma recording_mem_layout {r : Recording} : .inr r ∈ layout sources ↔ .recording r ∈ sources := by
  induction sources with
  | nil => simp [layout]
  | cons src sources ih => cases src <;> simp [layout,ih]

lemma int_injective : Function.Injective RawEntry.int := fun _ _ h => RawEntry.int.inj h

/-- Sources that are there have the same state when their numbers and elements agree. -/
lemma sourceState_eq_iff (h : Present conf tags sources) (h' : Present conf tags' sources) :
    (∀ src ∈ sources, sourceState conf tags src = sourceState conf tags' src) ↔
      (∀ b, Sum.inl b ∈ layout sources → numbers conf tags b = numbers conf tags' b) ∧
        ∀ r, Sum.inr r ∈ layout sources → entry tags r = entry tags' r := by
  simp only [buffer_mem_layout,recording_mem_layout]
  constructor
  · intro same
    constructor
    · intro b hb
      have states := same _ hb
      rw [sourceState_buffer (h _ hb),sourceState_buffer (h' _ hb),Option.some_inj] at states
      exact int_injective.list_map states
    · intro r hr
      have states := same _ hr
      rw [sourceState_recording (h _ hr),sourceState_recording (h' _ hr),Option.some_inj] at states
      exact List.head_eq_of_cons_eq states
  · rintro ⟨buffers,recordings⟩ src hsrc
    cases src with
    | buffer b =>
      rw [sourceState_buffer (h _ hsrc),sourceState_buffer (h' _ hsrc),buffers b hsrc]
    | recording r =>
      rw [sourceState_recording (h _ hsrc),sourceState_recording (h' _ hsrc),recordings r hsrc]
    | unsupported name => rfl

/-- What the trace determines: the numbers between two single elements, and these. -/
lemma getRawTrace_eq_iff (h : Present conf tags sources) (h' : Present conf tags' sources) :
    getRawTrace conf tags sources = getRawTrace conf tags' sources ↔
      (∀ r ∈ allStretches (layout sources),
        r.flatMap (numbers conf tags) = r.flatMap (numbers conf tags')) ∧
      ∀ r, Sum.inr r ∈ layout sources → entry tags r = entry tags' r := by
  have unmarked (t : Tags) (b : Buffer) : ∀ x ∈ (numbers conf t b).map RawEntry.int,
      ¬x.IsRecording := by
    intro x hx
    obtain ⟨n,-,rfl⟩ := List.mem_map.mp hx
    exact id
  rw [getRawTrace_eq_some_iff.mpr ⟨h,rfl⟩,getRawTrace_eq_some_iff.mpr ⟨h',rfl⟩,Option.some_inj,
    expand_eq_iff (layout sources) (unmarked tags) (unmarked tags') (entry_isRecording tags)
      (entry_isRecording tags')]
  simp only [← List.map_flatMap,int_injective.list_map.eq_iff]

/-- No two states that differ have the same trace, if no weights cancel. -/
lemma separates_of_determined (h : Determined (CanHold conf) (layout sources)) :
    Separates conf sources := by
  intro tags tags' trace trace' htrace htrace'
  have here := (getRawTrace_eq_some_iff.mp htrace).1
  have here' := (getRawTrace_eq_some_iff.mp htrace').1
  rw [sourceState_eq_iff here here',← Option.some_inj,← htrace,← htrace',
    getRawTrace_eq_iff here here']
  constructor
  · rintro ⟨stretch,recordings⟩
    refine ⟨fun b hb => ?_,recordings⟩
    have perm := h.perm (fun b _ => numbers_canHold b) (fun b _ => numbers_canHold b) stretch hb
    exact perm.eq_of_pairwise' (numbers_sorted b) (numbers_sorted b)
  · rintro ⟨buffers,recordings⟩
    exact ⟨fun r hr => List.flatMap_congr fun b hb => buffers b (mem_of_mem_allStretches hr hb),
      recordings⟩

/-- A state in which every buffer holds the same number, and nothing is recorded. -/
def filled (tag x : ℤ) (k : Buffer → ℕ) : Tags where
  dcache := some (List.replicate (k .dataCache) tag)
  icache := some (List.replicate (k .instrCache) x)
  dtb := some (List.replicate (k .dtlb) (true,x))
  branchPred := some fun _ => none
  branchPredictionLog := some ""
  accessLog := some ""
  commit := some ""

lemma filled_present (h : Supported sources) (tag x : ℤ) (k : Buffer → ℕ) :
    Present conf (filled tag x k) sources := by
  intro src hsrc
  cases src with
  | buffer b => cases b <;> rfl
  | recording r => cases r <;> rfl
  | unsupported name => exact absurd hsrc (h name)

lemma insertionSort_replicate (n : ℕ) (x : ℤ) :
    (List.replicate n x).insertionSort (· ≤ ·) = List.replicate n x :=
  List.perm_replicate.mp (List.perm_insertionSort _ _)

/-- A tag of the data cache that is shown as the number, if there is one. -/
lemma exists_tag {x n : ℤ} (can : n ≠ 0 → CanHold conf .dataCache x) :
    ∃ tag, n ≠ 0 → (if conf.ipc then process conf tag else tag) = x := by
  by_cases hn : n=0
  · exact ⟨0,fun h => absurd hn h⟩
  by_cases ipc : conf.ipc
  · obtain ⟨tag,h⟩ := can hn ipc
    exact ⟨tag,fun _ => by rw [if_pos ipc,h]⟩
  · exact ⟨x,fun _ => if_neg ipc⟩

lemma numbers_filled {tag x : ℤ} {k : Buffer → ℕ}
    (htag : k .dataCache ≠ 0 → (if conf.ipc then process conf tag else tag) = x)
    (hx : k .dtlb ≠ 0 → CanHold conf .dtlb x) (b : Buffer) :
    numbers conf (filled tag x k) b = List.replicate (k b) x := by
  cases b with
  | dataCache =>
    rw [← insertionSort_replicate]
    change List.insertionSort _ (if conf.ipc then List.map (process conf) (.replicate _ tag)
      else .replicate _ tag) = _
    by_cases hk : k .dataCache = 0
    · simp [hk]
    · rw [List.map_replicate,← apply_ite (List.replicate _),htag hk]
  | instrCache => exact insertionSort_replicate _ _
  | dtlb =>
    rw [← insertionSort_replicate]
    change List.insertionSort _ (if conf.ipc then List.filter (fun t => Inside conf t) (List.map _
      (List.filter _ (.replicate _ (true,x)))) else List.map _ (List.filter _ (.replicate _ _))) = _
    by_cases hk : k .dtlb = 0
    · simp [hk]
    · have inside := hx hk
      by_cases ipc : conf.ipc
      · simp [ipc,inside ipc]
      · simp [ipc]

/-- Weights that cancel give two states that differ and have the same trace. -/
lemma determined_of_separates (supported : Supported sources) (h : Separates conf sources) :
    Determined (CanHold conf) (layout sources) := by
  intro w x balanced can b hb
  obtain ⟨tag,htag⟩ := exists_tag (can .dataCache)
  have htag' (k : Buffer → ℕ) (hk : ∀ b, k b ≠ 0 → w b ≠ 0) (b : Buffer) :
      numbers conf (filled tag x k) b = List.replicate (k b) x :=
    numbers_filled (fun h => htag (hk _ h)) (fun h => can _ (hk _ h)) b
  have more := htag' (fun b => (w b).toNat) (by intro b; omega)
  have less := htag' (fun b => (-w b).toNat) (by intro b; omega)
  have here : Present conf (filled tag x fun b => (w b).toNat) sources :=
    filled_present supported tag x _
  have here' : Present conf (filled tag x fun b => (-w b).toNat) sources :=
    filled_present supported tag x _
  have same : getRawTrace conf (filled tag x fun b => (w b).toNat) sources =
      getRawTrace conf (filled tag x fun b => (-w b).toNat) sources := by
    refine (getRawTrace_eq_iff here here').mpr ⟨fun r hr => ?_,fun r _ => by cases r <;> rfl⟩
    rw [funext more,funext less]
    exact flatMap_replicate_eq (balanced r hr) x
  have trace := getRawTrace_eq_some_iff.mpr ⟨here,rfl⟩
  have states := (h _ _ _ _ trace (same ▸ trace)).mp rfl
  have agree := ((sourceState_eq_iff here here').mp states).1 b hb
  rw [more,less] at agree
  have lengths := congrArg List.length agree
  simp only [List.length_replicate] at lengths
  omega

/-- The trace separates its sources exactly when a source is unknown, so that there is no trace, or
the entries of no two different fillings cancel between the single elements. -/
theorem separates_iff : Separates conf sources ↔
    (∃ name, .unsupported name ∈ sources) ∨ Determined (CanHold conf) (layout sources) := by
  constructor
  · intro h
    by_cases supported : Supported sources
    · exact .inr (determined_of_separates supported h)
    · simp only [Supported,not_forall,not_not] at supported
      exact .inl supported
  · rintro (⟨name,unknown⟩ | h)
    · intro tags tags' trace trace' htrace
      have here := (getRawTrace_eq_some_iff.mp htrace).1 _ unknown
      cases here
    · exact separates_of_determined h

/-- A line of the data cache that is shown as the number of a line of the instruction cache. -/
theorem not_separates_dataCache_instrCache : ∃ tags tags' : Tags, ∃ trace,
    getRawTrace {} tags [.buffer .dataCache,.buffer .instrCache] = some trace ∧
    getRawTrace {} tags' [.buffer .dataCache,.buffer .instrCache] = some trace ∧
    sourceState {} tags (.buffer .dataCache) ≠ sourceState {} tags' (.buffer .dataCache) ∧
    ¬Separates {} [.buffer .dataCache,.buffer .instrCache] := by
  have trace : getRawTrace {} { dcache := some [0x3080,0x3040], icache := some [0x1040] }
      [.buffer .dataCache,.buffer .instrCache] = some [.int 0x40,.int 0x80,.int 0x1040] := rfl
  have trace' : getRawTrace {} { dcache := some [0x3040], icache := some [0x80,0x1040] }
      [.buffer .dataCache,.buffer .instrCache] = some [.int 0x40,.int 0x80,.int 0x1040] := rfl
  have differ : sourceState {} { dcache := some [0x3080,0x3040], icache := some [0x1040] }
      (.buffer .dataCache) ≠ sourceState {} { dcache := some [0x3040], icache := some [0x80,0x1040] }
        (.buffer .dataCache) := by
    intro same
    have lengths := congrArg (Option.map List.length) same
    exact absurd lengths (by decide +kernel)
  refine ⟨_,_,_,trace,trace',differ,fun h => differ ?_⟩
  exact (h _ _ _ _ trace trace').mp rfl _ List.mem_cons_self

end Separation

end ProteanAmulet.X86Gem5
