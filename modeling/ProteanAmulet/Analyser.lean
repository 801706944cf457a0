import ProteanAmulet.Library.Grouping
import Mathlib.Data.Int.Bitwise
import Mathlib.Algebra.Order.Group.Abs
import Mathlib.Algebra.Order.Group.Int
import Mathlib.Data.List.Range

/-! The equivalence analyser: inputs are grouped by contract trace, each group by hardware
trace, and a group with several hardware traces is a violation of the contract. The coverage
hook, the statistics counters and the JSON dump of the classes are not modelled. -/
namespace ProteanAmulet

abbrev CTrace := ℤ
abbrev HTrace := ℤ

structure Measurement (ι : Type) where
  inputId : ℕ
  input : ι
  ctrace : CTrace
  htrace : HTrace
  deriving DecidableEq, Repr

abbrev HTraceMap (ι : Type) := List (HTrace × List (Measurement ι))

/-- A dictionary is the list of its entries in insertion order. -/
structure EquivalenceClass (ι : Type) where
  ctrace : CTrace
  measurements : List (Measurement ι)
  htraceMap : HTraceMap ι := []
  deriving DecidableEq, Repr

/-- Measurements with htrace 0 are failed ones and enter no group. -/
def EquivalenceClass.buildHtraceMap {ι : Type} (eqCls : EquivalenceClass ι) :
    EquivalenceClass ι :=
  { eqCls with
    htraceMap := Grouping.group (·.htrace) (eqCls.measurements.filter (·.htrace ≠ 0)) }

namespace EquivalenceAnalyser
variable {ι : Type}

/-- The loop over `enumerate(ctraces)`; an index missing in `inputs` or `htraces` raises. -/
def measure (inputs : List ι) (htraces : List HTrace) :
    ℕ → List CTrace → Option (List (Measurement ι))
  | _, [] => some []
  | i, ctrace :: rest => do
    let input ← inputs[i]?
    let htrace ← htraces[i]?
    let ms ← measure inputs htraces (i+1) rest
    return ⟨i,input,ctrace,htrace⟩ :: ms

def buildEquivalenceClasses (inputs : List ι) (ctraces : List CTrace) (htraces : List HTrace) :
    Option (List (EquivalenceClass ι)) := do
  let ms ← measure inputs htraces 0 ctraces
  let eqClassMap := Grouping.group (·.ctrace) ms
  let effective := (eqClassMap.map fun e => ({ ctrace := e.1, measurements := e.2 } :
    EquivalenceClass ι)).filter fun c => 1 < c.measurements.length
  return (effective.insertionSort fun x y => x.ctrace ≤ y.ctrace).map
    EquivalenceClass.buildHtraceMap

/-- `max(htraces, key=abs)`: the first element of largest absolute value. Python raises on an
empty list, which the caller never passes. -/
def maxByAbs : List HTrace → HTrace
  | [] => 0
  | h :: t => t.foldl (fun m x => if |m| < |x| then x else m) h

def checkIfAllSubsets (htraces : List HTrace) : Bool :=
  let maxHtrace := maxByAbs htraces
  htraces.all fun htrace => Int.land |htrace| maxHtrace == |htrace|

def filterViolations (permitSubsets : Bool) (inputs : List ι) (ctraces : List CTrace)
    (htraces : List HTrace) : Option (List (EquivalenceClass ι)) := do
  let classes ← buildEquivalenceClasses inputs ctraces htraces
  return classes.filter fun eqCls =>
    if eqCls.htraceMap.length < 2 then false
    else if !permitSubsets then true
    else !checkIfAllSubsets (eqCls.htraceMap.map Prod.fst)

/-- What the enumeration produces: one measurement per index, in order. -/
structure Measured (inputs : List ι) (ctraces : List CTrace) (htraces : List HTrace)
    (ms : List (Measurement ι)) : Prop where
  ids : ms.map (·.inputId) = List.range ctraces.length
  entries : ∀ m ∈ ms, inputs[m.inputId]? = some m.input ∧
    ctraces[m.inputId]? = some m.ctrace ∧ htraces[m.inputId]? = some m.htrace

lemma measure_from (inputs : List ι) (htraces : List HTrace) (ctraces : List CTrace) (i : ℕ)
    (hi : i+ctraces.length ≤ inputs.length) (hh : i+ctraces.length ≤ htraces.length) :
    ∃ ms, measure inputs htraces i ctraces = some ms ∧
      ms.map (·.inputId) = List.range' i ctraces.length ∧
      ∀ m ∈ ms, i ≤ m.inputId ∧ inputs[m.inputId]? = some m.input ∧
        ctraces[m.inputId-i]? = some m.ctrace ∧ htraces[m.inputId]? = some m.htrace := by
  induction ctraces generalizing i with
  | nil => exact ⟨[],rfl,rfl,by simp⟩
  | cons c rest ih =>
    simp only [List.length_cons] at hi hh
    obtain ⟨ms,hms,hids,hent⟩ := ih (i+1) (by omega) (by omega)
    have hxi : i < inputs.length := by omega
    have hyi : i<htraces.length := by omega
    have hx : inputs[i]? = some inputs[i] := List.getElem?_eq_getElem hxi
    have hy : htraces[i]? = some htraces[i] := List.getElem?_eq_getElem hyi
    refine ⟨⟨i,inputs[i],c,htraces[i]⟩ :: ms,?_,?_,?_⟩
    · rw [measure,hx,hy,hms]
      rfl
    · simp [List.range'_succ,hids]
    · intro m hm
      rcases List.mem_cons.mp hm with rfl | hm
      · exact ⟨le_rfl,hx,by simp,hy⟩
      · obtain ⟨hle,h1,h2,h3⟩ := hent m hm
        refine ⟨by omega,h1,?_,h3⟩
        rw [show m.inputId-i=(m.inputId-(i+1))+1 by omega]
        simpa using h2

theorem measure_measured (inputs : List ι) (ctraces : List CTrace) (htraces : List HTrace)
    (hi : inputs.length=ctraces.length) (hh : htraces.length=ctraces.length) :
    ∃ ms, measure inputs htraces 0 ctraces = some ms ∧ Measured inputs ctraces htraces ms := by
  obtain ⟨ms,hms,hids,hent⟩ := measure_from inputs htraces ctraces 0 (by omega) (by omega)
  refine ⟨ms,hms,by rw [hids,List.range_eq_range'],fun m hm => ?_⟩
  obtain ⟨-,h1,h2,h3⟩ := hent m hm
  exact ⟨h1,by simpa using h2,h3⟩

lemma Measured.exists_of_index {inputs : List ι} {ctraces : List CTrace} {htraces : List HTrace}
    {ms : List (Measurement ι)} (h : Measured inputs ctraces htraces ms) {i : ℕ} {c : CTrace}
    (hc : ctraces[i]? = some c) : ∃ m ∈ ms, m.inputId = i ∧ m.ctrace = c := by
  have hlt : i<ctraces.length := (List.getElem?_eq_some_iff.mp hc).1
  have hi : i ∈ ms.map (·.inputId) := by rw [h.ids]; exact List.mem_range.mpr hlt
  obtain ⟨m,hm,rfl⟩ := List.mem_map.mp hi
  exact ⟨m,hm,rfl,Option.some.inj ((h.entries m hm).2.1.symm.trans hc)⟩

/-- Selecting one contract trace keeps the indices with that trace, each once and in order. -/
lemma Measured.filter_ids {inputs : List ι} {ctraces : List CTrace} {htraces : List HTrace}
    {ms : List (Measurement ι)} (h : Measured inputs ctraces htraces ms) (c : CTrace) :
    (ms.filter (·.ctrace=c)).map (·.inputId) =
      (List.range ctraces.length).filter (fun i => ctraces[i]? = some c) := by
  rw [← h.ids,List.filter_map]
  congr 1
  refine List.filter_congr fun m hm => ?_
  have hc := (h.entries m hm).2.1
  simp [hc]

/-- A class as the analyser must report it for `ctrace`. -/
structure ClassOf (inputs : List ι) (ctraces : List CTrace) (htraces : List HTrace)
    (c : EquivalenceClass ι) : Prop where
  ids : c.measurements.map (·.inputId) =
    (List.range ctraces.length).filter (fun i => ctraces[i]? = some c.ctrace)
  entries : ∀ m ∈ c.measurements, inputs[m.inputId]? = some m.input ∧ m.ctrace = c.ctrace ∧
    htraces[m.inputId]? = some m.htrace
  keys : (c.htraceMap.map Prod.fst).Nodup
  groups : ∀ h g, (h,g) ∈ c.htraceMap ↔
    h ≠ 0 ∧ g ≠ [] ∧ g = c.measurements.filter (·.htrace=h)

lemma ClassOf.ctrace_of_mem {inputs : List ι} {ctraces : List CTrace} {htraces : List HTrace}
    {c : EquivalenceClass ι} (hc : ClassOf inputs ctraces htraces c) {m : Measurement ι}
    (hm : m ∈ c.measurements) : ctraces[m.inputId]? = some c.ctrace := by
  have hid : m.inputId ∈ c.measurements.map (·.inputId) := List.mem_map.mpr ⟨m,hm,rfl⟩
  rw [hc.ids,List.mem_filter] at hid
  exact of_decide_eq_true hid.2

/-- The last member of a group is a member of the class with the group's trace. -/
lemma ClassOf.representative {inputs : List ι} {ctraces : List CTrace} {htraces : List HTrace}
    {c : EquivalenceClass ι} (hc : ClassOf inputs ctraces htraces c) {h : HTrace}
    {g : List (Measurement ι)} (hg : (h,g) ∈ c.htraceMap) :
    ∃ last, g.getLast? = some last ∧ last ∈ c.measurements ∧ last.htrace=h ∧ h ≠ 0 := by
  obtain ⟨h0,hne,hgf⟩ := (hc.groups h g).mp hg
  have hf : g.getLast hne ∈ c.measurements.filter (·.htrace=h) := hgf ▸ List.getLast_mem hne
  have hf := List.mem_filter.mp hf
  exact ⟨_,List.getLast?_eq_some_getLast hne,hf.1,of_decide_eq_true hf.2,h0⟩

/-- Two measurements with contract trace `c` have distinct non-zero hardware traces. -/
def Violating (ctraces : List CTrace) (htraces : List HTrace) (c : CTrace) : Prop :=
  ∃ (i j : ℕ) (h h' : HTrace), ctraces[i]? = some c ∧ ctraces[j]? = some c ∧ htraces[i]? = some h ∧
    htraces[j]? = some h' ∧ h ≠ 0 ∧ h' ≠ 0 ∧ h ≠ h'

lemma buildHtraceMap_groups (c : EquivalenceClass ι) (h : HTrace) (g : List (Measurement ι)) :
    (h,g) ∈ c.buildHtraceMap.htraceMap ↔
      h ≠ 0 ∧ g ≠ [] ∧ g = c.measurements.filter (·.htrace=h) := by
  have hf := (Grouping.fibres_group (·.htrace) (c.measurements.filter (·.htrace ≠ 0))).2 h g
  simp only [EquivalenceClass.buildHtraceMap]
  rw [hf,List.filter_filter]
  by_cases h0 : h=0
  · subst h0
    have he : c.measurements.filter (fun m => decide (m.htrace=0) && decide (m.htrace≠0)) = [] :=
      List.filter_eq_nil_iff.mpr fun m _ => by simp
    rw [he]
    simp
  · have he : c.measurements.filter (fun m => decide (m.htrace=h) && decide (m.htrace≠0)) =
        c.measurements.filter (·.htrace=h) := by
      refine List.filter_congr fun m _ => ?_
      by_cases hm : m.htrace=h <;> simp [hm,h0]
    rw [he]
    simp [h0]

lemma mem_buildHtraceMap_keys (c : EquivalenceClass ι) (h : HTrace) :
    h ∈ c.buildHtraceMap.htraceMap.map Prod.fst ↔ h ≠ 0 ∧ ∃ m ∈ c.measurements, m.htrace=h := by
  have hk := (Grouping.fibres_group (·.htrace) (c.measurements.filter (·.htrace ≠ 0))).mem_keys h
  simp only [EquivalenceClass.buildHtraceMap]
  rw [hk]
  constructor
  · rintro ⟨m,hm,rfl⟩
    have hm' := List.mem_filter.mp hm
    exact ⟨by simpa using hm'.2,m,hm'.1,rfl⟩
  · rintro ⟨h0,m,hm,rfl⟩
    exact ⟨m,List.mem_filter.mpr ⟨hm,by simpa using h0⟩,rfl⟩

lemma nodup_two_le_iff {l : List HTrace} (hn : l.Nodup) :
    2 ≤ l.length ↔ ∃ h ∈ l, ∃ h' ∈ l, h ≠ h' := by
  match l with
  | [] => simp
  | [a] => simp
  | a :: b :: t =>
    have hab : a ≠ b := fun he => by simp [he] at hn
    simp only [List.length_cons]
    exact ⟨fun _ => ⟨a,by simp,b,by simp,hab⟩,fun _ => by omega⟩

/-! ### The subset filter -/

/-- Every bit of `h'` is set in `h`. -/
def Superset (h h' : HTrace) : Prop := ∀ n, Int.testBit h' n = true → Int.testBit h n = true

lemma land_eq_left_iff {h' h : HTrace} (hn' : 0 ≤ h') (hn : 0 ≤ h) :
    Int.land h' h = h' ↔ Superset h h' := by
  obtain ⟨a,rfl⟩ := Int.eq_ofNat_of_zero_le hn
  obtain ⟨b,rfl⟩ := Int.eq_ofNat_of_zero_le hn'
  have hand : Int.land (b : ℤ) (a : ℤ) = ((b &&& a : ℕ) : ℤ) := rfl
  rw [hand,Int.natCast_inj]
  constructor
  · intro he n hn
    have hb : (b &&& a).testBit n = true := by rw [he]; exact hn
    rw [Nat.testBit_and,Bool.and_eq_true] at hb
    exact hb.2
  · intro hs
    refine Nat.eq_of_testBit_eq fun n => ?_
    rw [Nat.testBit_and]
    cases hb : b.testBit n with
    | false => rfl
    | true => exact hs n hb

lemma Superset.le {h h' : HTrace} (hs : Superset h h') (hn : 0 ≤ h) (hn' : 0 ≤ h') : h' ≤ h := by
  have he := (land_eq_left_iff hn' hn).mpr hs
  obtain ⟨a,rfl⟩ := Int.eq_ofNat_of_zero_le hn
  obtain ⟨b,rfl⟩ := Int.eq_ofNat_of_zero_le hn'
  have hand : b &&& a = b := Int.natCast_inj.mp he
  have hle : b &&& a ≤ a := Nat.and_le_right
  exact Int.ofNat_le.mpr (hand ▸ hle)

lemma foldl_maxByAbs (t : List HTrace) (h : HTrace) :
    let m := t.foldl (fun m x => if |m| < |x| then x else m) h
    (m=h ∨ m ∈ t) ∧ |h| ≤ |m| ∧ ∀ x ∈ t, |x| ≤ |m| := by
  induction t generalizing h with
  | nil => simp
  | cons y t ih =>
    simp only [List.foldl_cons]
    obtain ⟨hm,hh,ht⟩ := ih (if |h| < |y| then y else h)
    split_ifs at hm hh ht ⊢ with hy
    · refine ⟨Or.inr ?_,hy.le.trans hh,?_⟩
      · rcases hm with hm | hm
        · rw [hm]; exact List.mem_cons_self
        · exact List.mem_cons_of_mem _ hm
      · intro x hx
        rcases List.mem_cons.mp hx with rfl | hx
        · exact hh
        · exact ht x hx
    · refine ⟨hm.imp_right (List.mem_cons_of_mem _),hh,?_⟩
      intro x hx
      rcases List.mem_cons.mp hx with rfl | hx
      · exact (not_lt.mp hy).trans hh
      · exact ht x hx

lemma maxByAbs_spec {l : List HTrace} (hl : l ≠ []) :
    maxByAbs l ∈ l ∧ ∀ x ∈ l, |x| ≤ |maxByAbs l| := by
  cases l with
  | nil => exact absurd rfl hl
  | cons h t =>
    obtain ⟨hm,hh,ht⟩ := foldl_maxByAbs t h
    refine ⟨?_,?_⟩
    · rcases hm with hm | hm
      · exact List.mem_cons.mpr (Or.inl hm)
      · exact List.mem_cons_of_mem _ hm
    · intro x hx
      rcases List.mem_cons.mp hx with rfl | hx
      · exact hh
      · exact ht x hx

/-- Comparing with the largest trace only is enough: a superset of all is the largest. -/
theorem checkIfAllSubsets_iff {l : List HTrace} (hl : l ≠ []) (hn : ∀ h ∈ l, 0 ≤ h) :
    checkIfAllSubsets l = true ↔ ∃ h ∈ l, ∀ h' ∈ l, h' ≠ h → Superset h h' := by
  obtain ⟨hm,hle⟩ := maxByAbs_spec hl
  have habs : ∀ h ∈ l, |h| = h := fun h hh => abs_of_nonneg (hn h hh)
  have hall : checkIfAllSubsets l = true ↔ ∀ h' ∈ l, Superset (maxByAbs l) h' := by
    simp only [checkIfAllSubsets,List.all_eq_true,beq_iff_eq]
    refine forall₂_congr fun h' hh' => ?_
    rw [habs h' hh',land_eq_left_iff (hn h' hh') (hn _ hm)]
  rw [hall]
  constructor
  · intro h
    exact ⟨_,hm,fun h' hh' _ => h h' hh'⟩
  · rintro ⟨h,hh,hsup⟩
    have hmax : h = maxByAbs l := by
      by_contra hne
      have h1 := (hsup _ hm (Ne.symm hne)).le (hn h hh) (hn _ hm)
      have h2 := hle h hh
      rw [habs h hh,habs _ hm] at h2
      exact hne (le_antisymm h2 h1)
    subst hmax
    intro h' hh'
    by_cases he : h' = maxByAbs l
    · rw [he]; exact fun _ hb => hb
    · exact hsup h' hh' he

/-! ### Exactness of the violation filter -/

lemma classOf_of_group {inputs : List ι} {ctraces : List CTrace} {htraces : List HTrace}
    {ms vs : List (Measurement ι)} (h : Measured inputs ctraces htraces ms) (c : CTrace)
    (hvs : vs = ms.filter (·.ctrace=c)) :
    ClassOf inputs ctraces htraces
      (EquivalenceClass.buildHtraceMap ({ ctrace := c, measurements := vs } :
        EquivalenceClass ι)) where
  ids := by subst hvs; exact h.filter_ids c
  entries := by
    subst hvs
    intro m hm
    obtain ⟨hm,hc⟩ := List.mem_filter.mp hm
    obtain ⟨h1,-,h3⟩ := h.entries m hm
    exact ⟨h1,of_decide_eq_true hc,h3⟩
  keys := (Grouping.fibres_group _ _).1
  groups := buildHtraceMap_groups _

/-- The classes before the htrace filter: sorted, and one for each contract trace that
occurs at least twice. -/
structure Effective (inputs : List ι) (ctraces : List CTrace) (htraces : List HTrace)
    (ms : List (Measurement ι)) (cs : List (EquivalenceClass ι)) : Prop where
  sorted : (cs.map (·.ctrace)).Pairwise (· < ·)
  classOf : ∀ c ∈ cs, ClassOf inputs ctraces htraces c
  members : ∀ c ∈ cs, c.measurements = ms.filter (·.ctrace=c.ctrace)
  built : ∀ c ∈ cs, c = c.buildHtraceMap
  complete : ∀ k, 1<(ms.filter (·.ctrace=k)).length → k ∈ cs.map (·.ctrace)

theorem buildEquivalenceClasses_effective (inputs : List ι) (ctraces : List CTrace)
    (htraces : List HTrace) (hi : inputs.length=ctraces.length)
    (hh : htraces.length=ctraces.length) :
    ∃ ms cs, Measured inputs ctraces htraces ms ∧
      buildEquivalenceClasses inputs ctraces htraces = some cs ∧
      Effective inputs ctraces htraces ms cs := by
  obtain ⟨ms,hms,hmeas⟩ := measure_measured inputs ctraces htraces hi hh
  have hfib := Grouping.fibres_group (·.ctrace) ms
  set eff := ((Grouping.group (·.ctrace) ms).map fun e => ({ ctrace := e.1, measurements := e.2 } :
    EquivalenceClass ι)).filter fun c => 1 < c.measurements.length with heff
  set le : EquivalenceClass ι → EquivalenceClass ι → Prop := fun x y => x.ctrace ≤ y.ctrace
  have hmem : ∀ c, c ∈ eff ↔ c.htraceMap = [] ∧ 1<c.measurements.length ∧
      c.measurements = ms.filter (·.ctrace=c.ctrace) := by
    intro c
    rw [heff,List.mem_filter,List.mem_map]
    constructor
    · rintro ⟨⟨⟨k,vs⟩,hkv,rfl⟩,hlen⟩
      exact ⟨rfl,by simpa using hlen,((hfib.2 k vs).mp hkv).2⟩
    · rintro ⟨h0,hlen,hvs⟩
      refine ⟨⟨(c.ctrace,c.measurements),(hfib.2 _ _).mpr ⟨?_,hvs⟩,?_⟩,by simpa using hlen⟩
      · intro he; rw [he] at hlen; simp at hlen
      · rw [← h0]
  have hnodup : (eff.map (·.ctrace)).Nodup := by
    have hkeys : ((Grouping.group (·.ctrace) ms).map fun e => ({ ctrace := e.1, measurements := e.2 } :
        EquivalenceClass ι)).map (·.ctrace) = (Grouping.group (·.ctrace) ms).map Prod.fst := by
      simp [Function.comp_def]
    refine List.Nodup.sublist (List.filter_sublist.map _) ?_
    rw [hkeys]
    exact hfib.1
  refine ⟨ms,(eff.insertionSort le).map EquivalenceClass.buildHtraceMap,hmeas,?_,?_⟩
  · simp only [buildEquivalenceClasses,hms,Option.bind_eq_bind,Option.bind_some]
    rfl
  have hback : ∀ c ∈ (eff.insertionSort le).map EquivalenceClass.buildHtraceMap,
      ∃ d ∈ eff, c = d.buildHtraceMap := by
    intro c hc
    obtain ⟨d,hd,rfl⟩ := List.mem_map.mp hc
    exact ⟨d,(List.mem_insertionSort le).mp hd,rfl⟩
  have hctr : ((eff.insertionSort le).map EquivalenceClass.buildHtraceMap).map (·.ctrace) =
      (eff.insertionSort le).map (·.ctrace) := by
    simp [Function.comp_def,EquivalenceClass.buildHtraceMap]
  refine ⟨?_,?_,?_,?_,?_⟩
  · rw [hctr]
    have hle : ((eff.insertionSort le).map (·.ctrace)).Pairwise (· ≤ ·) := by
      have : Std.Total le := ⟨fun a b => le_total a.ctrace b.ctrace⟩
      have : IsTrans _ le := ⟨fun a b c hab hbc => le_trans (α := ℤ) hab hbc⟩
      exact List.pairwise_map.mpr (List.pairwise_insertionSort le eff)
    have hnd : ((eff.insertionSort le).map (·.ctrace)).Nodup :=
      ((List.perm_insertionSort le eff).map _).nodup_iff.mpr hnodup
    exact (hle.and hnd).imp fun h => lt_of_le_of_ne h.1 h.2
  · intro c hc
    obtain ⟨d,hd,rfl⟩ := hback c hc
    obtain ⟨h0,-,hd⟩ := (hmem d).mp hd
    have := classOf_of_group hmeas d.ctrace hd
    obtain ⟨k,vs,hm⟩ := d
    subst h0
    exact this
  · intro c hc
    obtain ⟨d,hd,rfl⟩ := hback c hc
    exact ((hmem d).mp hd).2.2
  · intro c hc
    obtain ⟨d,hd,rfl⟩ := hback c hc
    rfl
  · intro k hk
    rw [hctr]
    refine List.mem_map.mpr ⟨⟨k,ms.filter (·.ctrace=k),[]⟩,?_,rfl⟩
    exact (List.mem_insertionSort le).mpr ((hmem _).mpr ⟨rfl,hk,rfl⟩)

lemma Effective.mem_keys {inputs : List ι} {ctraces : List CTrace} {htraces : List HTrace}
    {ms : List (Measurement ι)} {cs : List (EquivalenceClass ι)}
    (he : Effective inputs ctraces htraces ms cs) {c : EquivalenceClass ι} (hc : c ∈ cs)
    (h : HTrace) : h ∈ c.htraceMap.map Prod.fst ↔
      h ≠ 0 ∧ ∃ m ∈ ms, m.ctrace = c.ctrace ∧ m.htrace = h := by
  rw [he.built c hc,mem_buildHtraceMap_keys,he.members c hc]
  simp only [List.mem_filter,decide_eq_true_eq,and_assoc]
  rfl

/-- A class of the analyser has two hardware traces exactly when its contract trace is
violated. -/
lemma Effective.two_le_iff {inputs : List ι} {ctraces : List CTrace} {htraces : List HTrace}
    {ms : List (Measurement ι)} {cs : List (EquivalenceClass ι)}
    (hm : Measured inputs ctraces htraces ms) (he : Effective inputs ctraces htraces ms cs)
    {c : EquivalenceClass ι} (hc : c ∈ cs) :
    2 ≤ c.htraceMap.length ↔ Violating ctraces htraces c.ctrace := by
  have hlen : c.htraceMap.length = (c.htraceMap.map Prod.fst).length := by simp
  rw [hlen,nodup_two_le_iff (he.classOf c hc).keys]
  constructor
  · rintro ⟨h,hh,h',hh',hne⟩
    obtain ⟨h0,m,hmm,hmc,rfl⟩ := (he.mem_keys hc h).mp hh
    obtain ⟨h0',m',hmm',hmc',rfl⟩ := (he.mem_keys hc h').mp hh'
    obtain ⟨-,h2,h3⟩ := hm.entries m hmm
    obtain ⟨-,h2',h3'⟩ := hm.entries m' hmm'
    exact ⟨m.inputId,m'.inputId,m.htrace,m'.htrace,hmc ▸ h2,hmc' ▸ h2',h3,h3',h0,h0',hne⟩
  · rintro ⟨i,j,h,h',hi,hj,hhi,hhj,h0,h0',hne⟩
    obtain ⟨m,hmm,rfl,hmc⟩ := hm.exists_of_index hi
    obtain ⟨m',hmm',rfl,hmc'⟩ := hm.exists_of_index hj
    have e1 := Option.some.inj ((hm.entries m hmm).2.2.symm.trans hhi)
    have e2 := Option.some.inj ((hm.entries m' hmm').2.2.symm.trans hhj)
    exact ⟨h,(he.mem_keys hc h).mpr ⟨h0,m,hmm,hmc,e1⟩,
      h',(he.mem_keys hc h').mpr ⟨h0',m',hmm',hmc',e2⟩,hne⟩

lemma Effective.mem_of_violating {inputs : List ι} {ctraces : List CTrace}
    {htraces : List HTrace} {ms : List (Measurement ι)} {cs : List (EquivalenceClass ι)}
    (hm : Measured inputs ctraces htraces ms) (he : Effective inputs ctraces htraces ms cs)
    {k : CTrace} (hv : Violating ctraces htraces k) : k ∈ cs.map (·.ctrace) := by
  apply he.complete
  obtain ⟨i,j,h,h',hi,hj,hhi,hhj,-,-,hne⟩ := hv
  obtain ⟨m,hmm,rfl,hmc⟩ := hm.exists_of_index hi
  obtain ⟨m',hmm',rfl,hmc'⟩ := hm.exists_of_index hj
  have hmem : m ∈ ms.filter (·.ctrace=k) := List.mem_filter.mpr ⟨hmm,by simpa using hmc⟩
  have hmem' : m' ∈ ms.filter (·.ctrace=k) := List.mem_filter.mpr ⟨hmm',by simpa using hmc'⟩
  have hmne : m ≠ m' := by
    rintro rfl
    exact hne (Option.some.inj (hhi.symm.trans hhj))
  by_contra hlt
  obtain ⟨a,ha⟩ | h0 : (∃ a, ms.filter (·.ctrace=k) = [a]) ∨ ms.filter (·.ctrace=k) = [] := by
    cases hl : ms.filter (·.ctrace=k) with
    | nil => exact Or.inr rfl
    | cons a t =>
      rw [hl,List.length_cons] at hlt
      exact Or.inl ⟨a,by rw [List.length_eq_zero_iff.mp (by omega : t.length=0)]⟩
  · rw [ha,List.mem_singleton] at hmem hmem'
    exact hmne (hmem.trans hmem'.symm)
  · rw [h0] at hmem
    simp at hmem

/-- One of the class's hardware traces contains all the others. -/
def Covered (c : EquivalenceClass ι) : Prop :=
  ∃ h ∈ c.htraceMap.map Prod.fst, ∀ h' ∈ c.htraceMap.map Prod.fst, h' ≠ h → Superset h h'

/-- Without the subset option the analyser reports exactly the violated contract traces, in
increasing order, each with all its measurements; with it, exactly those reported classes are
dropped that have a trace covering their other traces. -/
theorem filterViolations_exact (inputs : List ι) (ctraces : List CTrace) (htraces : List HTrace)
    (hi : inputs.length=ctraces.length) (hh : htraces.length=ctraces.length)
    (hn : ∀ h ∈ htraces, 0 ≤ h) :
    ∃ vs ws, filterViolations false inputs ctraces htraces = some vs ∧
      (vs.map (·.ctrace)).Pairwise (· < ·) ∧
      (∀ c, c ∈ vs.map (·.ctrace) ↔ Violating ctraces htraces c) ∧
      (∀ v ∈ vs, ClassOf inputs ctraces htraces v) ∧
      filterViolations true inputs ctraces htraces = some ws ∧ ws.Sublist vs ∧
      ∀ v ∈ vs, v ∈ ws ↔ ¬ Covered v := by
  obtain ⟨ms,cs,hm,hcs,he⟩ := buildEquivalenceClasses_effective inputs ctraces htraces hi hh
  set vs := cs.filter (fun c => !decide (c.htraceMap.length<2)) with hvs
  set ws := vs.filter (fun c => !checkIfAllSubsets (c.htraceMap.map Prod.fst)) with hws
  have hmemv : ∀ v, v ∈ vs ↔ v ∈ cs ∧ 2 ≤ v.htraceMap.length := by
    intro v
    simp only [hvs,List.mem_filter,Bool.not_eq_true',decide_eq_false_iff_not,Nat.not_lt]
  refine ⟨vs,ws,?_,?_,?_,?_,?_,List.filter_sublist,?_⟩
  · simp only [filterViolations,hcs,Option.bind_eq_bind,Option.bind_some,hvs]
    congr 1
    refine List.filter_congr fun c _ => ?_
    by_cases h2 : c.htraceMap.length<2 <;> simp [h2]
  · exact (he.sorted.sublist (List.filter_sublist.map _))
  · intro k
    constructor
    · intro hk
      obtain ⟨v,hv,rfl⟩ := List.mem_map.mp hk
      obtain ⟨hvc,h2⟩ := (hmemv v).mp hv
      exact (he.two_le_iff hm hvc).mp h2
    · intro hk
      obtain ⟨v,hvc,rfl⟩ := List.mem_map.mp (he.mem_of_violating hm hk)
      exact List.mem_map.mpr ⟨v,(hmemv v).mpr ⟨hvc,(he.two_le_iff hm hvc).mpr hk⟩,rfl⟩
  · exact fun v hv => he.classOf v ((hmemv v).mp hv).1
  · simp only [filterViolations,hcs,Option.bind_eq_bind,Option.bind_some,hws,hvs,
      List.filter_filter]
    congr 1
    refine List.filter_congr fun c _ => ?_
    by_cases h2 : c.htraceMap.length<2 <;> simp [h2]
  · intro v hv
    obtain ⟨hvc,h2⟩ := (hmemv v).mp hv
    have hne : v.htraceMap.map Prod.fst ≠ [] := by
      intro h0
      rw [List.map_eq_nil_iff] at h0
      simp [h0] at h2
    have hnn : ∀ h ∈ v.htraceMap.map Prod.fst, 0 ≤ h := by
      intro h hk
      obtain ⟨-,m,hmm,-,rfl⟩ := (he.mem_keys hvc h).mp hk
      exact hn _ (List.mem_of_getElem? (hm.entries m hmm).2.2)
    rw [hws,List.mem_filter,Bool.not_eq_true',← Bool.not_eq_true,checkIfAllSubsets_iff hne hnn]
    exact and_iff_right hv

/-- Four inputs with two contract traces: trace 1 is violated, trace 2 lost a measurement. -/
theorem filterViolations_exact_four :
    ∃ vs ws, filterViolations false ["a","b","c","d"] [1,1,2,2] [4,3,5,0] = some vs ∧
      (vs.map (·.ctrace)).Pairwise (· < ·) ∧
      (∀ c, c ∈ vs.map (·.ctrace) ↔ Violating [1,1,2,2] [4,3,5,0] c) ∧
      (∀ v ∈ vs, ClassOf ["a","b","c","d"] [1,1,2,2] [4,3,5,0] v) ∧
      filterViolations true ["a","b","c","d"] [1,1,2,2] [4,3,5,0] = some ws ∧ ws.Sublist vs ∧
      ∀ v ∈ vs, v ∈ ws ↔ ¬ Covered v :=
  filterViolations_exact ["a","b","c","d"] [1,1,2,2] [4,3,5,0] rfl rfl (by decide)

end EquivalenceAnalyser
end ProteanAmulet
