import ProteanAmulet.KernelProtocol
import ProteanAmulet.Library.Pages

/-! The pages on which `trace_show` prints: what fits on them, and that nothing is lost in between. -/
namespace ProteanAmulet.KernelExecutor
open Pages (Cut)

/-- The characters that are printed for some measurements. -/
def lines (ms : List Measurement) : List Char := ms.flatMap fun m => m.line.toList

def lineLengths (ms : List Measurement) : List ℕ := ms.map fun m => m.line.length

/-- What a call writes to its buffer, without the terminating NUL. -/
def Reply.text (r : Reply) : List Char := lines r.printed ++ if r.done then "done\n".toList else []

/-- Successive calls of `trace_show`, up to the first one that ends with `done`. -/
inductive Session (results : Option (ℕ → Measurement)) : State → List Reply → Prop
  | last {s : State} (done : (traceShow s results).1.done) : Session results s [(traceShow s results).1]
  | more {s : State} {rs : List Reply} (more : (traceShow s results).1.done = false)
    (ok : (traceShow s results).1.error = false) (rest : Session results (traceShow s results).2 rs) :
    Session results s ((traceShow s results).1 :: rs)

/-- A call of `trace_show` can start a measurement. -/
structure Startable (s : State) : Prop where
  measurements : s.measurements ≠ none
  inputs : s.inputs ≠ none
  testCaseReady : s.testCaseReady
  inputsReady : s.inputsReady
  idle : s.nextMeasurementId<0

/-- The calls stay within the page, and together they print all measurements. -/
def Paged (s : State) (ms : ℕ → Measurement) : Prop :=
  ∃ rs, Session (some ms) s rs ∧ (∀ r ∈ rs, r.text.length+1 ≤ 4096) ∧
    rs.flatMap Reply.text = lines (lastFirst ms s.nInputs.toNat) ++ "done\n".toList

/-- The trailer has a place on the last page, when lines are put on pages that are closed as soon as
they have 4012 characters. -/
def TrailerFits (lengths : List ℕ) : Prop :=
  ∃ pages page, Cut (4096-84) lengths pages page ∧ page.sum+6 ≤ 4096

section Lines
variable (m : Measurement)

lemma length_toString (n : ℕ) : (toString n).length = (Nat.toDigits 10 n).length := by
  rw [← String.length_toList,Nat.toString_eq_repr,Nat.toList_repr]

lemma toString_length (v : BitVec 64) : (toString v.toNat).length ≤ 20 := by
  rw [length_toString,Nat.length_toDigits_le_iff (by decide) (by decide)]
  exact v.isLt.trans (by decide)

lemma line_length_eq : m.line.length = (toString m.htrace.toNat).length+(toString m.pfc0.toNat).length+
    (toString m.pfc1.toNat).length+(toString m.pfc2.toNat).length+4 := by
  unfold Measurement.line
  simp only [String.length_append]
  have comma : ",".length = 1 := rfl
  have newline : "\n".length = 1 := rfl
  omega

lemma line_length_le : m.line.length ≤ 84 := by
  have h₀ := toString_length m.htrace
  have h₁ := toString_length m.pfc0
  have h₂ := toString_length m.pfc1
  have h₃ := toString_length m.pfc2
  rw [line_length_eq]
  omega

lemma length_lines (ms : List Measurement) : (lines ms).length = (lineLengths ms).sum := by
  simp [lines,lineLengths,List.length_flatMap,String.length_toList]

lemma lines_append (ms ms' : List Measurement) : lines (ms ++ ms') = lines ms ++ lines ms' :=
  List.flatMap_append

lemma length_lines_lt (ms : ℕ → Measurement) {k n : ℕ} (h : k<n) :
    (lines (lastFirst ms k)).length<(lines (lastFirst ms n)).length := by
  induction n with
  | zero => omega
  | succ n ih =>
    have some : 0<(ms n).line.length := by
      rw [line_length_eq]
      omega
    have step : (lines (lastFirst ms (n+1))).length =
        (ms n).line.length+(lines (lastFirst ms n)).length := by
      simp [lines,lastFirst,String.length_toList]
    rcases Nat.lt_succ_iff_lt_or_eq.mp h with lt | rfl
    · have := ih lt
      omega
    · omega

end Lines

section Calls
variable {s : State} {ms : ℕ → Measurement} {k : ℕ}

/-- The printing loop stops with the line that fills the page. -/
lemma printFrom_page (ms : ℕ → Measurement) (k count : ℕ) :
    ((printFrom ms k count).1 ≠ [] →
      count+(lineLengths (printFrom ms k count).1).dropLast.sum<4096-84) ∧
    ((printFrom ms k count).2 ≠ 0 → 4096-84 ≤ count+(lineLengths (printFrom ms k count).1).sum) := by
  induction k generalizing count with
  | zero => simp [printFrom]
  | succ k ih =>
    unfold printFrom
    split
    next full => simpa [lineLengths] using full
    next room =>
      obtain ⟨below,above⟩ := ih (count+(ms k).line.length)
      dsimp only
      generalize printFrom ms k (count+(ms k).line.length) = rest at below above
      simp only [lineLengths,List.map_cons,List.sum_cons] at below above ⊢
      constructor
      · intro _
        cases hr : rest.1 with
        | nil => simpa using room
        | cons m l =>
          have := below (by simp [hr])
          rw [hr,List.map_cons] at this
          rw [List.map_cons,List.dropLast_cons_cons,List.sum_cons,← Nat.add_assoc]
          exact this
      · intro left
        have := above left
        omega

/-- Something is printed in each call. -/
lemma printFrom_left_lt (k : ℕ) : (printFrom ms (k+1) 0).2<k+1 := by
  have le (k count : ℕ) : (printFrom ms k count).2 ≤ k := by
    induction k generalizing count with
    | zero => exact le_rfl
    | succ k ih =>
      unfold printFrom
      split
      · exact le_rfl
      · exact (ih _).trans (Nat.le_succ k)
  exact Nat.lt_succ_of_le (le k _)

/-- The next call prints from the measurements below `k`. -/
def Prints (s : State) (ms : ℕ → Measurement) (k : ℕ) : Prop :=
  ∃ s' started, traceShow s (some ms) = printResults s' ms started ∧ s'.measurements = some ms ∧
    (s'.nextMeasurementId+1).toNat = k

/-- What such a call does. -/
lemma Prints.call (h : Prints s ms k) :
    (traceShow s (some ms)).1.printed = (printFrom ms k 0).1 ∧
      (traceShow s (some ms)).1.error = false ∧
      ((traceShow s (some ms)).1.done ↔ (printFrom ms k 0).2 = 0) ∧
      ((printFrom ms k 0).2 ≠ 0 → Prints (traceShow s (some ms)).2 ms (printFrom ms k 0).2) := by
  obtain ⟨s',started,call,held,rfl⟩ := h
  rw [call]
  refine ⟨rfl,rfl,decide_eq_true_iff,?_⟩
  intro left
  have next := printResults_left s' ms started
  have going : ¬(printResults s' ms started).2.nextMeasurementId<0 := by omega
  refine ⟨(printResults s' ms started).2,false,?_,held,next⟩
  have held' : (printResults s' ms started).2.measurements = some ms := held
  obtain ⟨none | idle,-⟩ | ⟨-,-,idle,-⟩ | ⟨ms',same,-,next⟩ :=
    traceShow_cases (printResults s' ms started).2 (some ms)
  · rw [held'] at none
    cases none
  · exact absurd idle going
  · exact absurd idle going
  · rw [held'] at same
    cases same
    exact next

lemma Prints.session (h : Prints s ms k) : ∃ rs, Session (some ms) s rs := by
  induction k using Nat.strong_induction_on generalizing s with
  | _ k ih =>
    obtain ⟨-,ok,done,next⟩ := h.call
    by_cases left : (printFrom ms k 0).2 = 0
    · exact ⟨_,.last (done.mpr left)⟩
    · have less : (printFrom ms k 0).2<k := by
        cases k with
        | zero => exact absurd rfl left
        | succ k => exact printFrom_left_lt k
      obtain ⟨rs,hrs⟩ := ih _ less (next left)
      refine ⟨_,.more ?_ ok hrs⟩
      rw [Bool.eq_false_iff]
      exact fun e => left (done.mp e)

/-- The pages of the session, and what is written on them. -/
lemma Session.pages {rs : List Reply} (session : Session (some ms) s rs) (h : Prints s ms k) :
    ∃ pages page, Cut (4096-84) (lineLengths (lastFirst ms k)) pages page ∧
      rs.map (fun r => r.text.length) = pages.map List.sum ++ [page.sum+5] ∧
      rs.flatMap Reply.text = lines (lastFirst ms k) ++ "done\n".toList := by
  induction session generalizing k with
  | @last s done =>
    obtain ⟨printed,-,hd,-⟩ := h.call
    have left := hd.mp done
    have all : lastFirst ms k = (printFrom ms k 0).1 ++ lastFirst ms (printFrom ms k 0).2 :=
      printFrom_spec k 0
    rw [left,lastFirst,List.append_nil] at all
    have text : (traceShow s (some ms)).1.text = lines (lastFirst ms k) ++ "done\n".toList := by
      rw [Reply.text,printed,← all,done,if_pos rfl]
    refine ⟨[],_,Cut.last ?_,?_,?_⟩
    · by_cases none : (printFrom ms k 0).1 = []
      · simp [all,none,lineLengths]
      · have := (printFrom_page ms k 0).1 none
        rw [Nat.zero_add] at this
        rwa [all]
    · rw [List.map_singleton,text,List.length_append,length_lines]
      rfl
    · rw [List.flatMap_singleton,text]
  | @more s rs more ok rest ih =>
    obtain ⟨printed,-,hd,next⟩ := h.call
    have left : (printFrom ms k 0).2 ≠ 0 := by
      intro zero
      rw [hd.mpr zero] at more
      cases more
    obtain ⟨pages,page,cut,lengths,texts⟩ := ih (next left)
    have text : (traceShow s (some ms)).1.text = lines (printFrom ms k 0).1 := by
      rw [Reply.text,printed,more,if_neg Bool.false_ne_true,List.append_nil]
    have below := (printFrom_page ms k 0).1
    have above := (printFrom_page ms k 0).2 left
    rw [Nat.zero_add] at below above
    have some : (printFrom ms k 0).1 ≠ [] := by
      intro none
      simp [none,lineLengths] at above
    have later : lineLengths (lastFirst ms (printFrom ms k 0).2) ≠ [] := by
      rw [lineLengths,Ne,List.map_eq_nil_iff,lastFirst_eq_nil_iff]
      exact left
    refine ⟨lineLengths (printFrom ms k 0).1 :: pages,page,?_,?_,?_⟩
    · rw [printFrom_spec k 0,lineLengths,List.map_append]
      exact Cut.cons ⟨below some,above⟩ later cut
    · rw [List.map_cons,lengths,text,length_lines]
      rfl
    · rw [List.flatMap_cons,texts,text,← List.append_assoc,← lines_append,← printFrom_spec]

lemma Startable.prints (start : Startable s) (ms : ℕ → Measurement) :
    Prints s ms ((((s.nInputs-1).setWidth 32).toInt+1).toNat) := by
  obtain ⟨held,hm⟩ := Option.ne_none_iff_exists'.mp start.measurements
  obtain ⟨b,hb⟩ := Option.ne_none_iff_exists'.mp start.inputs
  have ready : ¬(s.testCaseReady = false ∨ s.inputsReady = false) := by
    simp [start.testCaseReady,start.inputsReady]
  refine ⟨{ s with
    measurements := some ms
    nextMeasurementId := ((s.nInputs-1).setWidth 32).toInt },true,?_,rfl,rfl⟩
  unfold traceShow
  simp only [hm,if_pos start.idle,if_neg ready,hb]

/-- The counter is an `int`. -/
lemma count_eq {n : BitVec 64} (h : n.toNat ≤ 2^31) :
    (((n-1).setWidth 32).toInt+1).toNat = n.toNat := by
  rcases Nat.lt_or_eq_of_le h with few | limit
  · rw [toInt_pred few]
    omega
  · rw [BitVec.eq_of_toNat_eq (limit.trans (show 2^31 = (BitVec.ofNat 64 (2^31)).toNat by decide))]
    decide

lemma count_lt {n : BitVec 64} (h : 2^31<n.toNat) :
    (((n-1).setWidth 32).toInt+1).toNat<n.toNat := by
  have := BitVec.toInt_lt (x := (n-1).setWidth 32)
  omega

/-- If all is printed, the counter has begun with the last measurement. -/
lemma Paged.count_le (start : Startable s) (h : Paged s ms) : s.nInputs.toNat ≤ 2^31 := by
  obtain ⟨rs,session,-,texts⟩ := h
  obtain ⟨-,-,-,-,printed⟩ := session.pages (start.prints ms)
  by_contra many
  have less := length_lines_lt ms (count_lt (Nat.lt_of_not_le many))
  rw [List.append_cancel_right (printed.symm.trans texts)] at less
  exact lt_irrefl _ less

lemma Paged.trailerFits (start : Startable s) (h : Paged s ms) :
    TrailerFits (lineLengths (lastFirst ms s.nInputs.toNat)) := by
  have count := count_eq (h.count_le start)
  obtain ⟨rs,session,bound,-⟩ := h
  obtain ⟨pages,page,cut,lengths,-⟩ := session.pages (start.prints ms)
  rw [count] at cut
  refine ⟨pages,page,cut,?_⟩
  have last : page.sum+5 ∈ rs.map fun r => r.text.length := by
    rw [lengths]
    exact List.mem_append_right _ (List.mem_singleton_self _)
  obtain ⟨r,hr,length⟩ := List.mem_map.mp last
  have := bound r hr
  omega

/-- A page without the trailer always has room for its last line. -/
lemma full_le {pages : List (List ℕ)} {page p : List ℕ} {l : List Measurement}
    (cut : Cut (4096-84) (lineLengths l) pages page) (hp : p ∈ pages) : p.sum<4096 := by
  have below := (cut.full p hp).1
  rcases List.eq_nil_or_concat' p with rfl | ⟨front,x,rfl⟩
  · simp
  · have mem : x ∈ lineLengths l := by
      rw [← cut.whole]
      exact List.mem_append_left _ (List.mem_flatten.mpr ⟨_,hp,by simp⟩)
    obtain ⟨m,-,rfl⟩ := List.mem_map.mp mem
    have := line_length_le m
    rw [List.dropLast_concat] at below
    rw [List.sum_append,List.sum_singleton]
    omega

/-- The output is complete and stays within its pages exactly if the trailer has a place on the last
page and the number of inputs can be counted down with an `int`. -/
theorem traceShow_paged_iff (s : State) (ms : ℕ → Measurement) (start : Startable s) :
    Paged s ms ↔ s.nInputs.toNat ≤ 2^31 ∧
      TrailerFits (lineLengths (lastFirst ms s.nInputs.toNat)) := by
  constructor
  · intro h
    exact ⟨h.count_le start,h.trailerFits start⟩
  · rintro ⟨few,pages',page',cut',room⟩
    obtain ⟨rs,session⟩ := (start.prints ms).session
    obtain ⟨pages,page,cut,lengths,texts⟩ := session.pages (start.prints ms)
    rw [count_eq few] at cut texts
    obtain ⟨rfl,rfl⟩ := cut.unique cut'
    refine ⟨rs,session,?_,texts⟩
    intro r hr
    have mem : r.text.length ∈ pages.map List.sum ++ [page.sum+5] := by
      rw [← lengths]
      exact List.mem_map_of_mem hr
    rcases List.mem_append.mp mem with full | last
    · obtain ⟨p,hp,sum⟩ := List.mem_map.mp full
      have := full_le cut hp
      omega
    · have := List.mem_singleton.mp last
      omega

/-- A module that is ready to measure. -/
def readyState (nInputs : BitVec 64) : State where
  testCaseReady := true
  inputsReady := true
  nInputs := nInputs
  inputs := some ⟨nInputs.toNat*inputSize,fun _ => 0⟩
  measurements := some fun _ => ⟨0,0,0,0⟩

lemma readyState_startable (nInputs : BitVec 64) : Startable (readyState nInputs) := by
  constructor
  · exact Option.some_ne_none _
  · exact Option.some_ne_none _
  · rfl
  · rfl
  · exact Int.negSucc_lt_zero 0

theorem traceShow_paged_two : Startable (readyState 2) ∧
    Paged (readyState 2) fun i => ⟨BitVec.ofNat 64 i,1,20,300⟩ := by
  refine ⟨readyState_startable 2,(traceShow_paged_iff _ _ (readyState_startable 2)).mpr ⟨by decide,?_⟩⟩
  exact ⟨[],_,Cut.last (by decide +kernel),by decide +kernel⟩

/-- The largest values, but for one line that is shorter by 21 characters. -/
def longLines (i : ℕ) : Measurement :=
  let max := BitVec.allOnes 64
  if i=1 then ⟨max,max,BitVec.ofNat 64 (10^17),0⟩ else ⟨max,max,max,max⟩

lemma longLines_length (i : ℕ) : (longLines i).line.length = if i=1 then 63 else 84 := by
  have max : (toString (BitVec.allOnes 64).toNat).length = 20 := by
    rw [length_toString]
    decide +kernel
  rw [line_length_eq,longLines]
  split
  · have short : (toString (BitVec.ofNat 64 (10^17)).toNat).length = 18 := by
      rw [length_toString]
      decide +kernel
    have zero : (toString (0 : BitVec 64).toNat).length = 1 := by
      rw [length_toString]
      decide +kernel
    simp only [max,short,zero]
  · simp only [max]

lemma longLines_lengths (n : ℕ) : lineLengths (lastFirst longLines n) =
    (List.range n).reverse.map fun i => if i=1 then 63 else 84 := by
  induction n with
  | zero => rfl
  | succ n ih =>
    rw [lastFirst,lineLengths,List.map_cons,← lineLengths,ih,longLines_length,List.range_succ]
    simp

/-- 49 lines have 4095 characters, and then the trailer follows. -/
theorem traceShow_not_paged : ¬Paged (readyState 49) longLines := by
  intro h
  obtain ⟨pages,page,cut,room⟩ := h.trailerFits (readyState_startable 49)
  rw [longLines_lengths] at cut
  obtain ⟨-,rfl⟩ := cut.unique (Cut.last (by decide +kernel))
  exact absurd room (by decide +kernel)

end Calls

end ProteanAmulet.KernelExecutor
