import ProteanAmulet.Generator.Passes
import ProteanAmulet.Library.Liveness

/-! When the patches for undefined flags do their work. The search accepts patches for one order
of execution; the insertion puts them into the block in the other. -/
namespace ProteanAmulet

namespace FlagsOperand

lemma mem_getFlagList {o : FlagsOperand} {types : List FlagMode} {f : Flag} :
    f ∈ o.getFlagList types ↔ ∃ m ∈ types, (f,m) ∈ flagNames.zip o.flagValues := by
  unfold getFlagList
  simp only [List.mem_filterMap,Prod.exists]
  constructor
  · rintro ⟨g,m,h,hf⟩
    split_ifs at hf with hm
    obtain rfl := Option.some.inj hf
    exact ⟨m,hm,h⟩
  · rintro ⟨m,hm,h⟩
    exact ⟨f,m,h,by simp [hm]⟩

/-- Each flag has one mode. -/
lemma mode_unique {o : FlagsOperand} {f : Flag} {m m' : FlagMode}
    (h : (f,m) ∈ flagNames.zip o.flagValues) (h' : (f,m') ∈ flagNames.zip o.flagValues) :
    m=m' := by
  obtain ⟨i,hi,hm⟩ := List.mem_iff_getElem.mp h
  obtain ⟨j,hj,hm'⟩ := List.mem_iff_getElem.mp h'
  rw [List.getElem_zip] at hm hm'
  have names : flagNames.Nodup := by decide
  rw [List.length_zip] at hi hj
  have hij : flagNames.get ⟨i,by omega⟩ = flagNames.get ⟨j,by omega⟩ :=
    (congrArg Prod.fst hm).trans (congrArg Prod.fst hm').symm
  obtain rfl := names.getElem_inj_iff.mp hij
  exact (congrArg Prod.snd hm).symm.trans (congrArg Prod.snd hm')

lemma not_mem_getUndefFlags {o : FlagsOperand} {f : Flag} (h : f ∈ o.getWriteFlags) :
    f ∉ o.getUndefFlags := by
  intro hu
  obtain ⟨m,hm,h⟩ := mem_getFlagList.mp h
  obtain ⟨m',hm',hu⟩ := mem_getFlagList.mp hu
  obtain rfl := mode_unique h hu
  simp_all

/-- The flags as resources of flags operands. -/
def usage : Usage FlagsOperand Flag where
  reads o f := f ∈ o.getReadFlags
  writes o f := f ∈ o.getWriteFlags
  clobbers o f := f ∈ o.getUndefFlags
  not_clobbers := not_mem_getUndefFlags

end FlagsOperand

namespace Generator.X86PatchUndefinedFlagsPass
open Drawing

/-- The flags as resources of instructions. -/
def flagUsage : Usage Instruction Flag where
  reads i f := ∃ o, i.getFlagsOperand = some o ∧ f ∈ o.getReadFlags
  writes i f := ∃ o, i.getFlagsOperand = some o ∧ f ∈ o.getWriteFlags
  clobbers i f := ∃ o, i.getFlagsOperand = some o ∧ f ∈ o.getUndefFlags
  not_clobbers := by
    rintro i f ⟨o,ho,hw⟩ ⟨o',ho',hu⟩
    obtain rfl := Option.some.inj (ho.symm.trans ho')
    exact FlagsOperand.not_mem_getUndefFlags hw hu

/-- The code whose flags the pass looks after. -/
def code (bb : BasicBlock) : List Instruction :=
  bb.instructions ++ (conditionalTerminator bb).toList

/-- Every flag read in the block, the conditional terminator included, has been written there
before by an instruction after which none has left it undefined. -/
def Patched (bb : BasicBlock) : Prop := flagUsage.WellDefined (code bb)

section Search
variable (flagsToSet : List Flag)

/-- The test of a candidate in `find_flags_patch`. -/
def Accepts (undefFlags : List Flag) (o : FlagsOperand) : Prop :=
  (o.getUndefFlags.filter fun i => i ∉ undefFlags ∧ i ∈ flagsToSet) = [] ∧
    undefFlags.filter (· ∉ o.getWriteFlags) ≠ undefFlags

instance (undefFlags : List Flag) (o : FlagsOperand) :
    Decidable (Accepts flagsToSet undefFlags o) := inferInstanceAs (Decidable (_ ∧ _))

/-- The flags operands of the patches that `find_flags_patch` finds among the candidates.
Nothing is accepted any more when there is no flag left to patch. -/
def select : List FlagsOperand → List Flag → Option (List FlagsOperand)
  | [], undefFlags => if undefFlags = [] then some [] else none
  | o :: candidates, undefFlags =>
    if Accepts flagsToSet undefFlags o then
      (select candidates (undefFlags.filter (· ∉ o.getWriteFlags))).map (o :: ·)
    else select candidates undefFlags

/-- No candidate that the search accepts leaves undefined a flag that is still to be patched
by the candidates after it. -/
def Orderly : List FlagsOperand → List Flag → Prop
  | [], _ => True
  | o :: candidates, undefFlags =>
    if Accepts flagsToSet undefFlags o then
      (∀ f ∈ undefFlags, f ∉ o.getUndefFlags) ∧
        Orderly candidates (undefFlags.filter (· ∉ o.getWriteFlags))
    else Orderly candidates undefFlags

/-- A sequence that sets all of `undefFlags` and spoils none of `flagsToSet`. -/
def Repairs (undefFlags : List Flag) (patches : List FlagsOperand) : Prop :=
  (∀ f ∈ undefFlags, FlagsOperand.usage.Defined patches f) ∧
    ∀ f ∈ flagsToSet, f ∉ undefFlags → ∀ o ∈ patches, f ∉ o.getUndefFlags

variable {flagsToSet}

lemma Accepts.undef {undefFlags : List Flag} {o : FlagsOperand}
    (h : Accepts flagsToSet undefFlags o) {f : Flag} (hf : f ∈ o.getUndefFlags)
    (hs : f ∈ flagsToSet) : f ∈ undefFlags := by
  by_contra hu
  have := List.filter_eq_nil_iff.mp h.1 f hf
  simp_all

lemma select_nil (candidates : List FlagsOperand) : select flagsToSet candidates [] = some [] := by
  induction candidates with
  | nil => rfl
  | cons o candidates ih => simpa [select,Accepts] using ih

lemma select_cons {o : FlagsOperand} {candidates fs : List FlagsOperand} {U : List Flag}
    (h : select flagsToSet (o :: candidates) U = some fs) :
    (Accepts flagsToSet U o ∧ ∃ gs, fs = o :: gs ∧
      select flagsToSet candidates (U.filter (· ∉ o.getWriteFlags)) = some gs) ∨
    (¬Accepts flagsToSet U o ∧ select flagsToSet candidates U = some fs) := by
  unfold select at h
  split_ifs at h with ha
  · obtain ⟨gs,hg,rfl⟩ := Option.map_eq_some_iff.mp h
    exact Or.inl ⟨ha,gs,rfl,hg⟩
  · exact Or.inr ⟨ha,h⟩

lemma select_subset {candidates : List FlagsOperand} : ∀ {U : List Flag} {fs : List FlagsOperand},
    select flagsToSet candidates U = some fs → fs ⊆ candidates := by
  induction candidates with
  | nil =>
    intro U fs h
    have : fs = [] := by simp_all [select]
    simp [this]
  | cons o candidates ih =>
    intro U fs h
    rcases select_cons h with ⟨-,gs,rfl,hg⟩ | ⟨-,hg⟩
    · exact List.cons_subset_cons o (ih hg)
    · exact List.subset_cons_of_subset o (ih hg)

/-- An accepted patch leaves undefined only what is still to be patched. -/
lemma select_undef {candidates : List FlagsOperand} : ∀ {U : List Flag} {fs : List FlagsOperand},
    select flagsToSet candidates U = some fs →
    ∀ p ∈ fs, ∀ f ∈ p.getUndefFlags, f ∈ flagsToSet → f ∈ U := by
  induction candidates with
  | nil =>
    intro U fs h
    have : fs = [] := by simp_all [select]
    simp [this]
  | cons o candidates ih =>
    intro U fs h p hp f hf hs
    rcases select_cons h with ⟨ha,gs,rfl,hg⟩ | ⟨-,hg⟩
    · rcases List.mem_cons.mp hp with rfl | hp
      · exact ha.undef hf hs
      · exact (List.mem_filter.mp (ih hg p hp f hf hs)).1
    · exact ih hg p hp f hf hs

/-- In the order of the search, the accepted patches do what they are for. -/
lemma select_repairs {candidates : List FlagsOperand} : ∀ {U : List Flag} {fs : List FlagsOperand},
    U ⊆ flagsToSet → select flagsToSet candidates U = some fs → Repairs flagsToSet U fs := by
  have keep {U : List Flag} {candidates fs : List FlagsOperand}
      (h : select flagsToSet candidates U = some fs) :
      ∀ f ∈ flagsToSet, f ∉ U → ∀ o ∈ fs, f ∉ o.getUndefFlags :=
    fun f hs hu o ho hf => hu (select_undef h o ho f hf hs)
  induction candidates with
  | nil =>
    intro U fs hU h
    have : U = [] := by
      by_contra hn
      simp [select,hn] at h
    exact ⟨by simp [this],keep h⟩
  | cons o candidates ih =>
    intro U fs hU h
    refine ⟨fun f hf => ?_,keep h⟩
    rcases select_cons h with ⟨-,gs,rfl,hg⟩ | ⟨-,hg⟩
    · have rest : U.filter (· ∉ o.getWriteFlags) ⊆ flagsToSet :=
        fun g hg => hU (List.mem_filter.mp hg).1
      by_cases hw : f ∈ o.getWriteFlags
      · exact ⟨[],o,gs,rfl,hw,fun p hp => keep hg f (hU hf) (by simp [hw]) p hp⟩
      · obtain ⟨a,w,b,rfl,set⟩ := (ih rest hg).1 f (by simp [hf,hw])
        exact ⟨o :: a,w,b,rfl,set⟩
    · exact (ih hU hg).1 f hf

/-- A patch found earlier writes nothing that a later one leaves undefined. -/
lemma select_late {candidates : List FlagsOperand} : ∀ {U : List Flag} {fs : List FlagsOperand},
    select flagsToSet candidates U = some fs → ∀ x p y, fs = x ++ p :: y →
    ∀ f ∈ p.getUndefFlags, f ∈ flagsToSet → ∀ o ∈ x, f ∉ o.getWriteFlags := by
  induction candidates with
  | nil =>
    intro U fs h x p y hx
    have : fs = [] := by simp_all [select]
    simp [this] at hx
  | cons o candidates ih =>
    intro U fs h x p y hx f hf hs q hq
    rcases select_cons h with ⟨-,gs,rfl,hg⟩ | ⟨-,hg⟩
    · cases x with
      | nil => simp at hq
      | cons q' x =>
        obtain ⟨rfl,rfl⟩ := List.cons.inj hx
        rcases List.mem_cons.mp hq with rfl | hq
        · have left := select_undef hg p (by simp) f hf hs
          simpa using (List.mem_filter.mp left).2
        · exact ih hg x p y rfl f hf hs q hq
    · exact ih hg x p y hx f hf hs q hq

lemma select_orderly {candidates : List FlagsOperand} : ∀ {U : List Flag} {fs : List FlagsOperand},
    U ⊆ flagsToSet → select flagsToSet candidates U = some fs →
    (Orderly flagsToSet candidates U ↔ ∀ p ∈ fs, ∀ f ∈ p.getUndefFlags, f ∉ flagsToSet) := by
  induction candidates with
  | nil =>
    intro U fs _ h
    have : fs = [] := by simp_all [select]
    simp [this,Orderly]
  | cons o candidates ih =>
    intro U fs hU h
    rcases select_cons h with ⟨ha,gs,rfl,hg⟩ | ⟨ha,hg⟩
    · have rest : U.filter (· ∉ o.getWriteFlags) ⊆ flagsToSet :=
        fun g hg => hU (List.mem_filter.mp hg).1
      have head : (∀ f ∈ U, f ∉ o.getUndefFlags) ↔ ∀ f ∈ o.getUndefFlags, f ∉ flagsToSet :=
        ⟨fun h f hf hs => h f (ha.undef hf hs) hf,fun h f hf hu => h f hu (hU hf)⟩
      rw [Orderly,if_pos ha,ih rest hg,head,List.forall_mem_cons]
    · rw [Orderly,if_neg ha,ih hU hg]

end Search

/-- What `find_flags_patch` is given at an instruction: the flags left undefined that have to be
set. -/
def undefToSet (flags : FlagsOperand) (flagsToSet : List Flag) : List Flag :=
  flags.getUndefFlags.filter (· ∈ flagsToSet)

/-- The flags to set in front of an instruction and of the patches behind it. -/
def nextFlags (patches : List FlagsOperand) (flags : FlagsOperand) (flagsToSet : List Flag) :
    List Flag :=
  (patches ++ [flags]).foldl (fun l o => l.filter (· ∉ o.getWriteFlags)) flagsToSet ∪
    flags.getReadFlags

/-- The arguments of the calls of `find_flags_patch` for a block, given by the flags of its
instructions in inverse order. -/
def calls (candidates : List FlagsOperand) :
    List (Option FlagsOperand) → List Flag → List (List Flag × List Flag)
  | [], flagsToSet => if flagsToSet = [] then [] else [(flagsToSet,flagsToSet)]
  | none :: rest, flagsToSet => calls candidates rest flagsToSet
  | some flags :: rest, flagsToSet =>
    let undefFlags := undefToSet flags flagsToSet
    if undefFlags = [] then calls candidates rest (nextFlags [] flags flagsToSet)
    else (undefFlags,flagsToSet) :: match select flagsToSet candidates undefFlags with
      | none => []
      | some patches => calls candidates rest (nextFlags patches flags flagsToSet)

def candidateFlags (candidates : List InstructionSpec) : List FlagsOperand :=
  candidates.filterMap (·.flagsOperand)

def blockCalls (candidates : List InstructionSpec) (bb : BasicBlock) :
    List (List Flag × List Flag) :=
  calls (candidateFlags candidates) ((code bb).map (·.getFlagsOperand)).reverse []

lemma mem_foldl_filter {fs : List FlagsOperand} {f : Flag} : ∀ {l : List Flag},
    f ∈ fs.foldl (fun l o => l.filter (· ∉ o.getWriteFlags)) l ↔
      f ∈ l ∧ ∀ o ∈ fs, f ∉ o.getWriteFlags := by
  induction fs with
  | nil => simp
  | cons o fs ih =>
    intro l
    rw [List.foldl_cons,ih,List.forall_mem_cons,List.mem_filter,decide_eq_true_iff,and_assoc]

lemma mem_nextFlags {patches : List FlagsOperand} {flags : FlagsOperand} {l : List Flag}
    {f : Flag} : f ∈ nextFlags patches flags l ↔ f ∈ flags.getReadFlags ∨
      f ∉ flags.getWriteFlags ∧ f ∈ l ∧ ∀ o ∈ patches, f ∉ o.getWriteFlags := by
  rw [nextFlags,List.mem_union_iff,mem_foldl_filter]
  simp only [List.forall_mem_append,List.forall_mem_singleton]
  tauto

section Usage
variable {i : Instruction} {o : FlagsOperand} {f : Flag}

lemma flagUsage_reads (h : i.getFlagsOperand = some o) :
    flagUsage.reads i f ↔ f ∈ o.getReadFlags := by simp [flagUsage,h]

lemma flagUsage_writes (h : i.getFlagsOperand = some o) :
    flagUsage.writes i f ↔ f ∈ o.getWriteFlags := by simp [flagUsage,h]

lemma flagUsage_clobbers (h : i.getFlagsOperand = some o) :
    flagUsage.clobbers i f ↔ f ∈ o.getUndefFlags := by simp [flagUsage,h]

/-- An instruction without flags does nothing to them. -/
lemma live_cons_none (h : i.getFlagsOperand = none) (l : List Instruction) :
    flagUsage.Live (i :: l) f ↔ flagUsage.Live l f := by simp [flagUsage,h]

lemma unclobbered_cons_none (h : i.getFlagsOperand = none) (l : List Instruction) :
    flagUsage.Unclobbered (i :: l) ↔ flagUsage.Unclobbered l := by simp [flagUsage,h]

end Usage

section Patches
variable {ps l : List Instruction} {fs candidates : List FlagsOperand} {U L : List Flag}

lemma patch_flags (hps : ps.map (·.getFlagsOperand) = fs.map some) {p : Instruction} (hp : p ∈ ps) :
    ∃ o ∈ fs, p.getFlagsOperand = some o := by
  have h : p.getFlagsOperand ∈ fs.map some := hps ▸ List.mem_map_of_mem hp
  obtain ⟨o,ho,h⟩ := List.mem_map.mp h
  exact ⟨o,ho,h.symm⟩

lemma exists_patch (hps : ps.map (·.getFlagsOperand) = fs.map some) {o : FlagsOperand}
    (ho : o ∈ fs) : ∃ p ∈ ps, p.getFlagsOperand = some o := by
  have h : some o ∈ ps.map (·.getFlagsOperand) := hps ▸ List.mem_map_of_mem ho
  exact List.mem_map.mp h

lemma patches_quiet (hps : ps.map (·.getFlagsOperand) = fs.map some)
    (quiet : ∀ o ∈ fs, o.getReadFlags = []) : ∀ p ∈ ps, ∀ f, ¬flagUsage.reads p f := by
  intro p hp f
  obtain ⟨o,ho,h⟩ := patch_flags hps hp
  simp [flagUsage_reads h,quiet o ho]

lemma patches_live (hps : ps.map (·.getFlagsOperand) = fs.map some)
    (quiet : ∀ o ∈ fs, o.getReadFlags = []) (live : ∀ f, f ∈ L ↔ flagUsage.Live l f) (f : Flag) :
    flagUsage.Live (ps.reverse ++ l) f ↔ f ∈ L ∧ ∀ o ∈ fs, f ∉ o.getWriteFlags := by
  rw [Usage.live_append_of_not_reads fun p hp => patches_quiet hps quiet p (by simpa using hp),live]
  refine and_congr_right fun _ => ⟨fun h o ho => ?_,fun h p hp => ?_⟩
  · obtain ⟨p,hp,hf⟩ := exists_patch hps ho
    exact fun hw => h p (by simpa using hp) ((flagUsage_writes hf).mpr hw)
  · obtain ⟨o,ho,hf⟩ := patch_flags hps (List.mem_reverse.mp hp)
    exact fun hw => h o ho ((flagUsage_writes hf).mp hw)

/-- Inserted last to first, the patches do no harm exactly when the search was orderly. -/
lemma patches_unclobbered (hps : ps.map (·.getFlagsOperand) = fs.map some)
    (quiet : ∀ o ∈ fs, o.getReadFlags = []) (live : ∀ f, f ∈ L ↔ flagUsage.Live l f)
    (hU : U ⊆ L) (hfs : select L candidates U = some fs) :
    flagUsage.Unclobbered (ps.reverse ++ l) ↔
      flagUsage.Unclobbered l ∧ Orderly L candidates U := by
  rw [Usage.unclobbered_reverse_append ps (patches_quiet hps quiet),select_orderly hU hfs]
  · refine and_congr_right fun _ => ⟨fun h o ho f hf hs => ?_,fun h p hp f hc hl => ?_⟩
    · obtain ⟨p,hp,hpo⟩ := exists_patch hps ho
      exact h p hp f ((flagUsage_clobbers hpo).mpr hf) ((live f).mp hs)
    · obtain ⟨o,ho,hpo⟩ := patch_flags hps hp
      exact h o ho f ((flagUsage_clobbers hpo).mp hc) ((live f).mpr hl)
  · rintro x p y rfl f hc hl j hj hw
    rw [List.map_append,List.map_cons] at hps
    obtain ⟨x',r,rfl,hx,hr⟩ := List.map_eq_append_iff.mp hps.symm
    obtain ⟨o,y',rfl,ho,-⟩ := List.map_eq_cons_iff.mp hr
    obtain ⟨o',ho',hjo⟩ := patch_flags hx.symm hj
    exact select_late hfs x' o y' rfl f ((flagUsage_clobbers ho.symm).mp hc) ((live f).mpr hl) o' ho'
      ((flagUsage_writes hjo).mp hw)

end Patches

section Outcome
variable {conf : GeneratorConf} {candidates : List InstructionSpec}

/-- The instruction set cannot make an instruction of a candidate. -/
def Ungenerated (conf : GeneratorConf) (candidates : List InstructionSpec) (e : GeneratorError) :
    Prop := ∃ spec ∈ candidates, ∃ t, generateInstruction conf spec t = .error e

/-- The exceptions of the pass. -/
def Raises (conf : GeneratorConf) (candidates : List InstructionSpec) (e : GeneratorError) : Prop :=
  e.isGeneratorException ∨ Ungenerated conf candidates e

lemma generateInstruction_outcome {spec : InstructionSpec} (h : spec ∈ candidates) :
    Outcome (generateInstruction conf spec) (FromSpec conf spec) (Ungenerated conf candidates) := by
  intro t
  cases hg : generateInstruction conf spec t with
  | ok r => exact (generateInstruction_from spec).ok hg
  | error e => exact ⟨spec,h,t,hg⟩

lemma searchPatch_outcome (L : List Flag) {specs : List InstructionSpec}
    (hs : specs ⊆ candidates) (hf : ∀ spec ∈ specs, ∃ o, spec.flagsOperand = some o) :
    ∀ {U : List Flag}, U ≠ [] → Outcome (searchPatch conf L specs U) (fun r =>
      if r.2 = [] then ∃ fs, select L (candidateFlags specs) U = some fs ∧
        r.1.map (·.getFlagsOperand) = fs.map some
      else select L (candidateFlags specs) U = none) (Ungenerated conf candidates) := by
  induction specs with
  | nil => exact fun hU => Outcome.pure (by simp [hU,candidateFlags,select])
  | cons spec specs ih =>
    intro U hU
    have rest {V : List Flag} (hV : V ≠ []) :=
      ih (fun c hc => hs (by simp [hc])) (fun c hc => hf c (by simp [hc])) hV
    obtain ⟨o,ho⟩ := hf spec (by simp)
    have flags : candidateFlags (spec :: specs) = o :: candidateFlags specs := by
      simp [candidateFlags,ho]
    unfold searchPatch
    refine (generateInstruction_outcome (hs (by simp))).bind fun patch hp => ?_
    rw [hp.getFlagsOperand,ho,flags]
    dsimp only
    by_cases ha : Accepts L U o
    · have test := ha
      unfold Accepts at test
      rw [if_pos test]
      simp only [select,if_pos ha]
      split_ifs with hn
      · rw [hn,select_nil]
        exact Outcome.pure (by simp [hp.getFlagsOperand,ho])
      · refine (rest hn).bind fun r hr => Outcome.pure ?_
        dsimp only
        split_ifs at hr ⊢ with hm
        · obtain ⟨fs,hfs,hr⟩ := hr
          exact ⟨o :: fs,by rw [hfs,Option.map_some],by simp [hr,hp.getFlagsOperand,ho]⟩
        · rw [hr,Option.map_none]
    · have test := ha
      unfold Accepts at test
      rw [if_neg test]
      simp only [select,if_neg ha]
      exact rest hU

/-- The flags of the patches for `U`. -/
def Found (candidates : List FlagsOperand) (U L : List Flag) (fs : List FlagsOperand) : Prop :=
  if U = [] then fs = [] else select L candidates U = some fs

lemma neededPatches_outcome (hf : ∀ spec ∈ candidates, ∃ o, spec.flagsOperand = some o)
    (U L : List Flag) : Outcome (neededPatches conf candidates U L) (fun ps =>
      ∃ fs, Found (candidateFlags candidates) U L fs ∧
        ps.map (·.getFlagsOperand) = fs.map some) (Raises conf candidates) := by
  unfold neededPatches Found
  split_ifs with hU
  · exact Outcome.pure ⟨[],rfl,rfl⟩
  have search : Outcome (searchPatch conf L candidates U) _ (Raises conf candidates) :=
    (searchPatch_outcome L (List.Subset.refl _) hf hU).mono (fun _ h => h) fun _ h => Or.inr h
  refine search.bind fun r hr => ?_
  dsimp only
  split_ifs at hr ⊢ with hm
  · obtain ⟨fs,hfs,hr⟩ := hr
    refine Outcome.pure ⟨fs,hfs,?_⟩
    rw [← hr,List.map_map]
    rfl
  · exact Outcome.throw (Or.inl rfl)

section Found
variable {os fs : List FlagsOperand} {U L : List Flag} {ps l : List Instruction}

lemma Found.subset (h : Found os U L fs) : fs ⊆ os := by
  unfold Found at h
  split_ifs at h
  · simp [h]
  · exact select_subset h

lemma Found.covers (h : Found os U L fs) (hU : U ⊆ L) {f : Flag} (hf : f ∈ U) :
    ∃ o ∈ fs, f ∈ o.getWriteFlags := by
  unfold Found at h
  rw [if_neg (List.ne_nil_of_mem hf)] at h
  obtain ⟨a,w,b,rfl,hw,-⟩ := (select_repairs hU h).1 f hf
  exact ⟨w,by simp,hw⟩

lemma Found.unclobbered (h : Found os U L fs) (hps : ps.map (·.getFlagsOperand) = fs.map some)
    (quiet : ∀ o ∈ os, o.getReadFlags = []) (live : ∀ f, f ∈ L ↔ flagUsage.Live l f) (hU : U ⊆ L) :
    flagUsage.Unclobbered (ps.reverse ++ l) ↔
      flagUsage.Unclobbered l ∧ (U ≠ [] → Orderly L os U) := by
  have subset := h.subset
  unfold Found at h
  split_ifs at h with hn
  · subst h
    obtain rfl : ps = [] := by simpa using hps
    simp [hn]
  · rw [patches_unclobbered hps (fun o ho => quiet o (subset ho)) live hU h]
    simp [hn]

end Found

/-- The candidates have flags to write and none to read. -/
structure Candidates (candidates : List InstructionSpec) : Prop where
  flags : ∀ spec ∈ candidates, ∃ o, spec.flagsOperand = some o
  quiet : ∀ o ∈ candidateFlags candidates, o.getReadFlags = []

/-- A call that finds its patches. -/
def Answered (candidates : List FlagsOperand) (call : List Flag × List Flag) : Prop :=
  call.1 ⊆ call.2 ∧ ∃ fs, select call.2 candidates call.1 = some fs

lemma foldl_discard {ps : List Instruction} {fs : List FlagsOperand}
    (hps : ps.map (·.getFlagsOperand) = fs.map some) (L : List Flag) :
    ps.foldl discard L = fs.foldl (fun l o => l.filter (· ∉ o.getWriteFlags)) L := by
  induction ps generalizing fs L with
  | nil =>
    obtain rfl : fs = [] := by simpa using hps.symm
    rfl
  | cons p ps ih =>
    obtain ⟨o,fs,rfl,ho,h⟩ := List.map_eq_cons_iff.mp hps.symm
    have hd : discard L p = L.filter (· ∉ o.getWriteFlags) := by
      rw [discard,show p.getFlagsOperand = some o from ho.symm]
    rw [List.foldl_cons,List.foldl_cons,ih h.symm,hd]

/-- One turn of the walk: the flags to set are those live in front of what is placed, and the
call it makes, if any, decides whether a live flag is spoiled. -/
lemma patchInstruction_outcome (hc : Candidates candidates) (inst : Instruction)
    {l : List Instruction} {L : List Flag} (live : ∀ f, f ∈ L ↔ flagUsage.Live l f) :
    Outcome (patchInstruction conf candidates inst L) (fun r =>
      (∀ f, f ∈ r.2 ↔ flagUsage.Live (inst :: r.1 ++ l) f) ∧ ∃ first,
        (∀ rest, calls (candidateFlags candidates) (inst.getFlagsOperand :: rest) L =
          first ++ calls (candidateFlags candidates) rest r.2) ∧
        (flagUsage.Unclobbered (inst :: r.1 ++ l) ↔ flagUsage.Unclobbered l ∧
          ∀ c ∈ first, Orderly c.2 (candidateFlags candidates) c.1) ∧
        ∀ c ∈ first, Answered (candidateFlags candidates) c) (Raises conf candidates) := by
  unfold patchInstruction
  cases hi : inst.getFlagsOperand with
  | none =>
    refine Outcome.pure ⟨fun f => ?_,[],by simp [calls],?_,by simp⟩
    · simpa [live_cons_none hi] using live f
    · simp [unclobbered_cons_none hi]
  | some flags =>
    refine (neededPatches_outcome hc.flags (undefToSet flags L) L).bind ?_
    rintro ps ⟨fs,found,hps⟩
    have hU : undefToSet flags L ⊆ L := fun f hf => by simpa using (List.mem_filter.mp hf).2
    have quiet : ∀ o ∈ fs, o.getReadFlags = [] := fun o ho => hc.quiet o (found.subset ho)
    have between := patches_live hps quiet live
    have next : discard (ps.foldl discard L) inst ∪ flags.getReadFlags = nextFlags fs flags L := by
      rw [discard,hi,foldl_discard hps,nextFlags,List.foldl_append]
      rfl
    have covered : ∀ f, flagUsage.clobbers inst f → ¬flagUsage.Live (ps.reverse ++ l) f := by
      intro f hf hl
      obtain ⟨hs,hw⟩ := (between f).mp hl
      have hu : f ∈ undefToSet flags L := by
        simpa [undefToSet,hs] using (flagUsage_clobbers hi).mp hf
      obtain ⟨o,ho,hfo⟩ := found.covers hU hu
      exact hw o ho hfo
    refine Outcome.pure ⟨fun f => ?_,
      if undefToSet flags L = [] then [] else [(undefToSet flags L,L)],fun rest => ?_,?_,?_⟩
    · simp only [next,List.cons_append,Usage.live_cons,flagUsage_reads hi,flagUsage_writes hi,
        between,mem_nextFlags]
    · rw [next]
      unfold Found at found
      simp only [calls]
      split_ifs at found ⊢ with hu
      · simp [found]
      · simp [found]
    · simp only [List.cons_append,Usage.unclobbered_cons]
      rw [found.unclobbered hps hc.quiet live hU]
      split_ifs with hu <;> simp_all
    · unfold Found at found
      split_ifs at found ⊢ with hu
      · simp
      · simpa using ⟨hU,fs,found⟩

/-- The whole walk over a block that ends in `tail`. -/
lemma walk_outcome (hc : Candidates candidates) (tail : List Instruction) :
    ∀ (rev placed : List Instruction) (L : List Flag),
    (∀ f, f ∈ L ↔ flagUsage.Live (placed ++ tail) f) →
    Outcome (walk conf candidates rev placed L) (fun out =>
      (∀ f, ¬flagUsage.Live (out ++ tail) f) ∧
      (flagUsage.Unclobbered (out ++ tail) ↔ flagUsage.Unclobbered (placed ++ tail) ∧
        ∀ c ∈ calls (candidateFlags candidates) (rev.map (·.getFlagsOperand)) L,
          Orderly c.2 (candidateFlags candidates) c.1) ∧
      ∀ c ∈ calls (candidateFlags candidates) (rev.map (·.getFlagsOperand)) L,
        Answered (candidateFlags candidates) c) (Raises conf candidates)
  | [], placed, L, live => by
    refine (neededPatches_outcome hc.flags L L).bind ?_
    rintro ps ⟨fs,found,hps⟩
    have quiet : ∀ o ∈ fs, o.getReadFlags = [] := fun o ho => hc.quiet o (found.subset ho)
    refine Outcome.pure ⟨fun f hl => ?_,?_,?_⟩
    · rw [List.append_assoc,patches_live hps quiet live] at hl
      obtain ⟨o,ho,hw⟩ := found.covers (List.Subset.refl L) hl.1
      exact hl.2 o ho hw
    · rw [List.append_assoc,found.unclobbered hps hc.quiet live (List.Subset.refl L)]
      simp only [List.map_nil,calls]
      split_ifs with hL <;> simp [hL]
    · unfold Found at found
      simp only [List.map_nil,calls]
      split_ifs at found ⊢ with hL
      · simp
      · simpa using ⟨List.Subset.refl L,fs,found⟩
  | inst :: rest, placed, L, live => by
    refine (patchInstruction_outcome hc inst live).bind ?_
    rintro ⟨patches,L'⟩ ⟨live',first,hcalls,clean,answered⟩
    have shape : inst :: patches ++ (placed ++ tail) = inst :: patches ++ placed ++ tail := by simp
    rw [shape] at clean
    refine (walk_outcome hc tail rest (inst :: patches ++ placed) L' fun f => by
      rw [live' f,shape]).weaken ?_
    rintro out ⟨dead,clean',answered'⟩
    rw [List.map_cons,hcalls]
    refine ⟨dead,?_,?_⟩
    · rw [clean',clean,List.forall_mem_append,and_assoc]
    · rw [List.forall_mem_append]
      exact ⟨answered,answered'⟩

lemma terminatorFlags_outcome (bb : BasicBlock) {E : GeneratorError → Prop} :
    Outcome (terminatorFlags conf candidates bb) (fun L =>
      (∀ f, f ∈ L ↔ flagUsage.Live (conditionalTerminator bb).toList f) ∧
      ∀ rest, calls (candidateFlags candidates)
        ((conditionalTerminator bb).toList.map (·.getFlagsOperand) ++ rest) [] =
          calls (candidateFlags candidates) rest L) E := by
  unfold terminatorFlags
  cases conditionalTerminator bb with
  | none => exact Outcome.pure (by simp)
  | some terminator =>
    have eq : patchInstruction conf candidates terminator [] = pure ([],
        terminator.getFlagsOperand.elim [] fun flags => nextFlags [] flags []) := by
      unfold patchInstruction
      cases hi : terminator.getFlagsOperand with
      | none => rfl
      | some flags => simp [neededPatches,discard,hi,nextFlags]
    dsimp only
    rw [eq,pure_bind]
    refine Outcome.pure ?_
    cases hi : terminator.getFlagsOperand with
    | none => simp [calls,hi,live_cons_none hi]
    | some flags =>
      refine ⟨fun f => ?_,fun rest => ?_⟩
      · simp [mem_nextFlags,flagUsage_reads hi]
      · simp [hi,calls,undefToSet]

/-- A block: its flags are well defined exactly when every search for it was orderly. -/
def BlockPatched (candidates : List InstructionSpec) (bb bb' : BasicBlock) : Prop :=
  (Patched bb' ↔ ∀ c ∈ blockCalls candidates bb, Orderly c.2 (candidateFlags candidates) c.1) ∧
    ∀ c ∈ blockCalls candidates bb, Answered (candidateFlags candidates) c

lemma runOnBlock_outcome (hc : Candidates candidates) (bb : BasicBlock) :
    Outcome (runOnBlock conf candidates bb) (BlockPatched candidates bb)
      (Raises conf candidates) := by
  refine (terminatorFlags_outcome bb).bind ?_
  rintro L ⟨live,hcalls⟩
  refine (walk_outcome hc (conditionalTerminator bb).toList bb.instructions.reverse [] L
    (by simpa using live)).bind ?_
  rintro out ⟨dead,clean,answered⟩
  have same : blockCalls candidates bb =
      calls (candidateFlags candidates) (bb.instructions.reverse.map (·.getFlagsOperand)) L := by
    rw [← hcalls,blockCalls,code,← List.map_reverse,List.reverse_append,List.map_append]
    cases conditionalTerminator bb <;> rfl
  have start : flagUsage.Unclobbered ([] ++ (conditionalTerminator bb).toList) := by
    cases conditionalTerminator bb <;> simp [Usage.Unclobbered]
  refine Outcome.pure ⟨?_,by rwa [same]⟩
  rw [same]
  change flagUsage.WellDefined (out ++ (conditionalTerminator bb).toList) ↔ _
  rw [Usage.wellDefined_iff,and_iff_left dead,clean,and_iff_right start]

/-- The blocks one by one. -/
lemma runOnTestCase_outcome (conf : GeneratorConf) (hc : Candidates candidates) (tc : TestCase) :
    Outcome (runOnTestCase conf candidates tc)
      (fun tc' => List.Forall₂ (BlockPatched candidates) tc.blocks tc'.blocks)
      (Raises conf candidates) := by
  have function (func : Function) : Outcome (do
      return { func with
        entry := ← runOnBlock conf candidates func.entry
        nodes := ← func.nodes.mapM (runOnBlock conf candidates)
        exit := ← runOnBlock conf candidates func.exit } : Gen Function)
      (fun func' => List.Forall₂ (BlockPatched candidates) func.allBb func'.allBb)
      (Raises conf candidates) := by
    refine (runOnBlock_outcome hc func.entry).bind fun entry he => ?_
    refine (Outcome.mapM fun bb _ => runOnBlock_outcome hc bb).bind fun nodes hn => ?_
    refine (runOnBlock_outcome hc func.exit).bind fun exit hx => ?_
    exact Outcome.pure (.cons he (List.rel_append hn (.cons hx .nil)))
  refine (Outcome.mapM fun func _ => function func).bind fun functions h => ?_
  exact Outcome.pure (List.rel_flatMap h fun _ _ h => h)

lemma blocks_patched {l l' : List BasicBlock} (h : List.Forall₂ (BlockPatched candidates) l l') :
    ((∀ bb ∈ l', Patched bb) ↔ ∀ bb ∈ l, ∀ c ∈ blockCalls candidates bb,
      Orderly c.2 (candidateFlags candidates) c.1) ∧
    ∀ bb ∈ l, ∀ c ∈ blockCalls candidates bb, Answered (candidateFlags candidates) c := by
  induction h with
  | nil => simp
  | cons hd _ ih =>
    rw [List.forall_mem_cons,List.forall_mem_cons,List.forall_mem_cons,hd.1,ih.1]
    exact ⟨Iff.rfl,hd.2,ih.2⟩

lemma patchCandidates_candidates (instructions : List InstructionSpec) :
    Candidates (patchCandidates instructions) := by
  constructor
  · intro spec hs
    have hw : writes spec := by simp_all [patchCandidates]
    obtain ⟨op,hop,hf⟩ := List.any_eq_true.mp hw
    have some : (spec.implicitOperands ++ spec.operands).findSome? (·.flagsOperand) ≠ none := by
      intro hn
      have := List.findSome?_eq_none_iff.mp hn op (by
        rw [InstructionSpec.allOperands,List.mem_append] at hop
        exact List.mem_append.mpr hop.symm)
      cases op <;> simp_all [OperandSpec.flagsOperand]
    exact Option.ne_none_iff_exists'.mp some
  · intro o ho
    obtain ⟨spec,hs,ho⟩ := List.mem_filterMap.mp ho
    have hr : reads spec = false := by simp_all [patchCandidates]
    obtain ⟨op,hop,hf⟩ := List.exists_of_findSome?_eq_some ho
    have mem : op ∈ spec.allOperands := by
      rw [InstructionSpec.allOperands,List.mem_append]
      exact (List.mem_append.mp hop).symm
    cases op with
    | flags o' =>
      obtain rfl := Option.some.inj hf
      have none := List.any_eq_false.mp hr _ mem
      refine List.eq_nil_iff_forall_not_mem.mpr fun f hf => ?_
      obtain ⟨m,hm,hz⟩ := FlagsOperand.mem_getFlagList.mp hf
      exact none (List.any_eq_true.mpr ⟨m,(List.of_mem_zip hz).2,by simpa using hm⟩)
    | _ => cases hf

/-- The pass sets every flag before it is read exactly when no search for a patch accepts a
candidate that leaves undefined a flag which the candidates after it are to set: these are
inserted in front of it. When no sequence of candidates can repair the flags that are asked for,
the pass raises an exception: its own, unless an instruction cannot be generated. -/
theorem runOnTestCase_patched_iff (conf : GeneratorConf) (instructions : List InstructionSpec)
    (tc : TestCase) (t : Stream' ℕ) :
    (∀ tc' t', runOnTestCase conf (patchCandidates instructions) tc t = .ok (tc',t') →
      ((∀ bb ∈ tc'.blocks, Patched bb) ↔
        ∀ bb ∈ tc.blocks, ∀ c ∈ blockCalls (patchCandidates instructions) bb,
          Orderly c.2 (candidateFlags (patchCandidates instructions)) c.1)) ∧
    ((∃ bb ∈ tc.blocks, ∃ c ∈ blockCalls (patchCandidates instructions) bb,
        ¬∃ patches ⊆ candidateFlags (patchCandidates instructions), Repairs c.2 c.1 patches) →
      ∃ e, runOnTestCase conf (patchCandidates instructions) tc t = .error e ∧
        (e.isGeneratorException ∨ Ungenerated conf (patchCandidates instructions) e)) := by
  have outcome := runOnTestCase_outcome conf (patchCandidates_candidates instructions) tc t
  refine ⟨fun tc' t' h => ?_,fun ⟨bb,hbb,c,hcalls,hno⟩ => ?_⟩
  · rw [h] at outcome
    exact (blocks_patched outcome).1
  · cases h : runOnTestCase conf (patchCandidates instructions) tc t with
    | error e =>
      rw [h] at outcome
      exact ⟨e,rfl,outcome⟩
    | ok r =>
      rw [h] at outcome
      obtain ⟨subset,fs,hfs⟩ := (blocks_patched outcome).2 bb hbb c hcalls
      exact absurd ⟨fs,select_subset hfs,select_repairs subset hfs⟩ hno

end Outcome

section Example

/-- A flags operand for the flags that the status of an operation sets: CF, PF, AF, ZF, SF and
OF. -/
def statusFlags (cf pf af zf sf of : FlagMode) : FlagsOperand :=
  ⟨[cf,pf,af,zf,sf,.none,.none,.none,of],rfl⟩

def imulSpec : InstructionSpec :=
  { name := "IMUL", category := "BASE-BINARY"
    operands := [.reg ["RAX","RBX"] 64 true true,.reg ["RAX","RBX"] 64 true false]
    implicitOperands := [.flags (statusFlags .w .undef .undef .undef .undef .w)] }

def decSpec : InstructionSpec :=
  { name := "DEC", category := "BASE-BINARY"
    operands := [.reg ["RAX","RBX"] 64 true true]
    implicitOperands := [.flags (statusFlags .none .w .w .w .w .w)] }

def div : Instruction :=
  { name := "DIV", category := "BASE-BINARY"
    operands := [.reg "EBX" 32 true false]
    implicitOperands := [.reg "EAX" 32 true true,.reg "EDX" 32 true true,
      .flags (statusFlags .undef .undef .undef .undef .undef .undef)] }

def lahf : Instruction :=
  { name := "LAHF", category := "BASE-FLAGOP"
    implicitOperands := [.reg "AH" 8 false true,.flags (statusFlags .r .r .r .r .r .none)] }

def divLahf : TestCase :=
  ⟨[{ name := ".function_main", entry := { name := ".bb_main.entry" }
      nodes := [{ name := ".bb_main.0", instructions := [div,lahf] }]
      exit := { name := ".bb_main.exit" } }]⟩

/-- The search takes IMUL for CF and then DEC for the other flags, the block gets DEC and then
IMUL, which leaves them undefined again. -/
theorem runOnTestCase_not_patched : ∃ tc' t',
    runOnTestCase {} (patchCandidates [imulSpec,decSpec]) divLahf (fun _ => 0) = .ok (tc',t') ∧
      ¬∀ bb ∈ tc'.blocks, Patched bb := by
  refine ⟨_,_,rfl,fun h => ?_⟩
  have patched := h _ (List.mem_cons_of_mem _ List.mem_cons_self) [_,_,_] lahf [] rfl .PF
    ⟨_,rfl,by decide⟩
  replace patched := (Usage.defined_concat (l := [_,_])).mp patched
  rcases patched with ⟨o,ho,hw⟩ | ⟨-,hc⟩
  · cases ho
    revert hw
    decide
  · exact hc ⟨_,rfl,by decide⟩

end Example

end Generator.X86PatchUndefinedFlagsPass

end ProteanAmulet
