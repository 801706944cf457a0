import Mathlib.Data.List.Nodup
import Mathlib.Data.List.Pairwise
import Mathlib.Data.List.TakeWhile
import ProteanAmulet.Generator.Reading
import ProteanAmulet.Library.Concatenation

/-! The names of the blocks that belong to a function. `Function` and the second pass of the parser
remove the beginning of a label with `lstrip`, which takes away more than a fixed text. -/
namespace ProteanAmulet.Generator.X86Generator
open Text

def functionPrefix : List Char := ".function_".toList

def mainLabel : List Char := ".function_main".toList

/-- The names of the blocks of `generate_function`, which uses `removeprefix` for those in between. -/
def generatedBlocks (label : List Char) (nodeCount : ℕ) : List (List Char) :=
  let funcName := (afterPrefix functionPrefix label).getD label
  entryOf label :: (List.range nodeCount).map
    (fun i => ".bb_".toList ++ funcName ++ '.' :: Nat.toDigits 10 i) ++ [exitOf label]

/-- The functions that are found in a file. -/
def functionsOf (file : List Line) : List FunctionLabels := (firstPass {} file).functions

/-- The functions that have been found when some of the lines were seen. -/
def foundIn (lines : List (List Char)) : List FunctionLabels :=
  lines.foldl addLabel ({} : FirstPass).functions

/-- Functions and their entry and exit blocks correspond to each other. -/
structure NamesCorrespond (file : List Line) : Prop where
  named : ∀ f ∈ functionsOf file, ∀ s, f.name = functionPrefix ++ s →
    entryOf f.name = ".bb_".toList ++ s ++ ".entry".toList ∧
      exitOf f.name = ".bb_".toList ++ s ++ ".exit".toList
  /-- Functions with different names share no block. -/
  unshared : ∀ f ∈ functionsOf file, ∀ f' ∈ functionsOf file, f.name ≠ f'.name →
    f.allBb.Disjoint f'.allBb
  /-- The same, if the functions are generated. -/
  generated : ∀ f ∈ functionsOf file, ∀ f' ∈ functionsOf file, f.name ≠ f'.name → ∀ n n',
    (generatedBlocks f.name n).Disjoint (generatedBlocks f'.name n')
  /-- There is one entry of `bb_names` for each block. -/
  oneEntry : (blockNames (functionsOf file)).Nodup
  /-- A label makes its function the current one of the first pass. -/
  firstPass : ∀ before line after, seenLines false file = before ++ line :: after →
    isFunctionLabel line → (foundIn (before ++ [line])).getLast?.map (·.name) = some line.dropLast
  /-- A label leads to the entry of its function in the second pass. -/
  secondPass : ∀ line ∈ seenLines false file, isFunctionLabel line →
    ∃ before f after, functionsOf file = before ++ f :: after ∧ f.name = line.dropLast ∧
      ∀ conf instructions s li,
        parseLine conf instructions (blockNames (functionsOf file)) s li line =
          pure { s with current := (blockNames before).length, terminatorsStarted := false }

/-- Behind the prefix the name does not begin with a character of the prefix. -/
def KeepsName (name : List Char) : Prop :=
  ∀ s, name = functionPrefix ++ s → ∀ c ∈ s.head?, c ∉ functionPrefix

/-- A label that makes a function. -/
def makesFunction (line : List Char) : Bool := isFunctionLabel line && line.dropLast ≠ mainLabel

/-- A label that makes a block. -/
def makesNode (line : List Char) : Bool :=
  line.head? = some '.' && !isByte line && !isFunctionLabel line &&
    !"entry".toList.isSuffixOf line.dropLast && !"exit".toList.isSuffixOf line.dropLast

/-- What the text of a file has to be like. -/
structure SafeNames (file : List Line) : Prop where
  keeps : ∀ line ∈ seenLines false file, isFunctionLabel line → KeepsName line.dropLast
  /-- The label of the main function does not come behind the label of another one. -/
  mainFirst : ∀ before line after, seenLines false file = before ++ line :: after →
    line.dropLast = mainLabel → ∀ other ∈ before, isFunctionLabel other → other.dropLast = mainLabel
  /-- No function and no block is labelled twice, which the assembler does not allow either. -/
  functions : (((seenLines false file).filter makesFunction).map List.dropLast).Nodup
  nodes : (((seenLines false file).filter makesNode).map List.dropLast).Nodup

section Text

lemma functionPrefix_eq : functionPrefix = ['.','f','u','n','c','t','i','o','n','_'] := by
  decide +kernel

lemma strippedName_append (s : List Char) :
    strippedName (functionPrefix ++ s) = s.dropWhile fun c => c ∈ functionPrefix := by
  unfold strippedName
  rw [List.dropWhile_append_of_pos]
  · rfl
  · intro c hc
    exact decide_eq_true hc

lemma strippedName_eq_iff (s : List Char) :
    strippedName (functionPrefix ++ s) = s ↔ ∀ c ∈ s.head?, c ∉ functionPrefix := by
  rw [strippedName_append]
  cases s with
  | nil => simp
  | cons c s =>
    by_cases hc : c ∈ functionPrefix
    · have shorter : (s.dropWhile fun c => c ∈ functionPrefix) ≠ c :: s := by
        intro h
        have length := (List.dropWhile_suffix (l := s) fun c => c ∈ functionPrefix).length_le
        rw [h,List.length_cons] at length
        omega
      simp [hc,shorter]
    · simp [hc]

instance : DecidablePred KeepsName := fun name =>
  decidable_of_iff (∀ s ∈ afterPrefix functionPrefix name, ∀ c ∈ s.head?, c ∉ functionPrefix) <| by
    simp only [mem_afterPrefix,KeepsName]

lemma keepsName_append {s : List Char} :
    KeepsName (functionPrefix ++ s) ↔ ∀ c ∈ s.head?, c ∉ functionPrefix := by
  constructor
  · intro h
    exact h s rfl
  · intro h s' hs
    rw [← List.append_cancel_left hs]
    exact h

/-- The names are right exactly when nothing else is stripped. -/
lemma named_iff {name s : List Char} (h : name = functionPrefix ++ s) :
    (entryOf name = ".bb_".toList ++ s ++ ".entry".toList ∧
      exitOf name = ".bb_".toList ++ s ++ ".exit".toList) ↔ KeepsName name := by
  rw [h,keepsName_append,← strippedName_eq_iff,entryOf,exitOf,List.append_left_inj,
    List.append_left_inj,List.append_right_inj,and_self]

/-- The block with a number, or with the word `entry` or `exit`. -/
def blockOf (s t : List Char) : List Char := ".bb_".toList ++ s ++ '.' :: t

/-- The two words have no dot, so that they are found again behind the last one. -/
lemma words_spec : '.' ∉ "entry".toList ∧ '.' ∉ "exit".toList ∧ "entry".toList ≠ "exit".toList := by
  decide +kernel

lemma entryOf_eq (name : List Char) : entryOf name = blockOf (strippedName name) "entry".toList := by
  rw [entryOf,blockOf,show ".entry".toList = '.' :: "entry".toList by decide +kernel]

lemma exitOf_eq (name : List Char) : exitOf name = blockOf (strippedName name) "exit".toList := by
  rw [exitOf,blockOf,show ".exit".toList = '.' :: "exit".toList by decide +kernel]

/-- The part behind the last dot, and what stands before it. -/
lemma blockOf_inj {s s' t t' : List Char} (ht : '.' ∉ t) (ht' : '.' ∉ t')
    (h : blockOf s t = blockOf s' t') : s=s' ∧ t=t' := by
  rw [blockOf,blockOf,List.append_assoc,List.append_assoc] at h
  have reversed := congrArg List.reverse (List.append_cancel_left h)
  simp only [List.reverse_append,List.reverse_cons,List.append_assoc,List.singleton_append] at reversed
  have noDot : ∀ y ∈ t.reverse, ¬y = '.' := fun y hy e => ht (e ▸ List.mem_reverse.mp hy)
  have noDot' : ∀ y ∈ t'.reverse, ¬y = '.' := fun y hy e => ht' (e ▸ List.mem_reverse.mp hy)
  obtain ⟨tails,-,heads⟩ := Concatenation.append_left_cancel_of_marker noDot noDot' rfl rfl reversed
  exact ⟨List.reverse_injective heads,List.reverse_injective tails⟩

end Text

section Labels
variable {functions : List FunctionLabels} {line : List Char}

lemma functionsOf_eq (file : List Line) : functionsOf file = foundIn (seenLines false file) :=
  firstPass_eq_foldl {} file

lemma foundIn_append (lines : List (List Char)) (line : List Char) :
    foundIn (lines ++ [line]) = addLabel (foundIn lines) line := by
  rw [foundIn,List.foldl_append]
  rfl

lemma isFunctionLabel_eq : isFunctionLabel line = functionPrefix.isPrefixOf line := rfl

lemma isFunctionLabel_iff : isFunctionLabel line ↔ ∃ s, line = functionPrefix ++ s := by
  rw [isFunctionLabel_eq,List.isPrefixOf_iff_prefix]
  constructor
  · rintro ⟨s,h⟩
    exact ⟨s,h.symm⟩
  · rintro ⟨s,h⟩
    exact ⟨s,h.symm⟩

lemma head?_of_isFunctionLabel (h : isFunctionLabel line) : line.head? = some '.' := by
  obtain ⟨s,rfl⟩ := isFunctionLabel_iff.mp h
  rw [functionPrefix_eq]
  rfl

lemma isByte_of_isFunctionLabel (h : isFunctionLabel line) : isByte line = false := by
  obtain ⟨s,rfl⟩ := isFunctionLabel_iff.mp h
  rw [functionPrefix_eq]
  simp [isByte,List.isPrefixOf]

lemma addLabel_function (h : isFunctionLabel line) :
    addLabel functions line =
      if line.dropLast = mainLabel then functions else functions ++ [⟨line.dropLast,[]⟩] := by
  unfold addLabel
  rw [head?_of_isFunctionLabel h,isByte_of_isFunctionLabel h,h]
  exact if_neg (by simp)

lemma addLabel_other (h : isFunctionLabel line = false) :
    addLabel functions line =
      if makesNode line then insertNode line.dropLast functions else functions := by
  unfold addLabel makesNode
  dsimp only
  rw [h]
  generalize "entry".toList.isSuffixOf line.dropLast = entry
  generalize "exit".toList.isSuffixOf line.dropLast = exit
  by_cases head : line.head? = some '.'
  · cases isByte line <;> cases entry <;> cases exit <;> simp [head]
  · simp [head]

lemma insertNode_append (name : List Char) (functions : List FunctionLabels) (f : FunctionLabels) :
    insertNode name (functions ++ [f]) = functions ++ [{ f with nodes := f.nodes ++ [name] }] := by
  unfold insertNode
  rw [List.length_append,List.length_singleton,Nat.add_sub_cancel,List.modify_eq_take_drop]
  simp

lemma addLabel_names (h : functions ≠ []) : (addLabel functions line).map (·.name) =
    functions.map (·.name) ++ if makesFunction line then [line.dropLast] else [] := by
  cases label : isFunctionLabel line with
  | true =>
    rw [addLabel_function label,makesFunction,label]
    by_cases main : line.dropLast = mainLabel
    · simp [main]
    · simp [main]
  | false =>
    obtain ⟨functions,f,rfl⟩ := List.eq_nil_or_concat' functions |>.resolve_left h
    have old : makesFunction line = false := by simp [makesFunction,label]
    rw [addLabel_other label,old,if_neg Bool.false_ne_true,List.append_nil]
    split_ifs with node
    · simp [insertNode_append]
    · rfl

lemma addLabel_nodes (h : functions ≠ []) : (addLabel functions line).flatMap (·.nodes) =
    functions.flatMap (·.nodes) ++ if makesNode line then [line.dropLast] else [] := by
  cases label : isFunctionLabel line with
  | true =>
    have old : makesNode line = false := by simp [makesNode,label]
    rw [addLabel_function label,old,if_neg Bool.false_ne_true,List.append_nil]
    split_ifs with main
    · rfl
    · simp
  | false =>
    rw [addLabel_other label]
    obtain ⟨functions,f,rfl⟩ := List.eq_nil_or_concat' functions |>.resolve_left h
    split_ifs
    · simp [insertNode_append]
    · simp

/-- The functions and the blocks are those of the labels, in the order of the file. -/
lemma foundIn_spec (lines : List (List Char)) : foundIn lines ≠ [] ∧
    (foundIn lines).map (·.name) = mainLabel :: (lines.filter makesFunction).map List.dropLast ∧
    (foundIn lines).flatMap (·.nodes) = (lines.filter makesNode).map List.dropLast := by
  induction lines using List.reverseRecOn with
  | nil => exact ⟨List.cons_ne_nil _ _,rfl,rfl⟩
  | append_singleton lines line ih =>
    obtain ⟨some,names,nodes⟩ := ih
    have names' : (addLabel (foundIn lines) line).map (·.name) = (foundIn lines).map (·.name) ++
        if makesFunction line then [line.dropLast] else [] := addLabel_names some
    rw [names] at names'
    rw [foundIn_append,addLabel_nodes some,names',nodes,List.filter_append,List.filter_append]
    refine ⟨?_,?_,?_⟩
    · intro empty
      simp [empty] at names'
    · cases h : makesFunction line <;> simp [h]
    · cases h : makesNode line <;> simp [h]

lemma exists_of_isFunctionLabel (h : isFunctionLabel line) (colon : line ≠ functionPrefix) :
    ∃ s, line.dropLast = functionPrefix ++ s := by
  obtain ⟨s,rfl⟩ := isFunctionLabel_iff.mp h
  have some : s ≠ [] := by
    rintro rfl
    exact colon (List.append_nil _)
  exact ⟨s.dropLast,List.dropLast_append_of_ne_nil some⟩

lemma lastIndex_of_not_mem {name : List Char} {names : List (List Char)} (h : name ∉ names) :
    lastIndex name names = none := by
  induction names with
  | nil => rfl
  | cons other names ih =>
    rw [List.mem_cons,not_or] at h
    rw [lastIndex,ih h.2]
    exact if_neg (Ne.symm h.1)

lemma lastIndex_append_cons {name : List Char} {names : List (List Char)} (h : name ∉ names)
    (before : List (List Char)) : lastIndex name (before ++ name :: names) = some before.length := by
  induction before with
  | nil =>
    rw [List.nil_append,lastIndex,lastIndex_of_not_mem h]
    exact if_pos rfl
  | cons other before ih =>
    rw [List.cons_append,lastIndex,ih]
    rfl

end Labels

section Files
variable {file : List Line} {f f' : FunctionLabels} {bb : List Char}

lemma names_eq (file : List Line) : (functionsOf file).map (·.name) =
    mainLabel :: ((seenLines false file).filter makesFunction).map List.dropLast := by
  rw [functionsOf_eq]
  exact (foundIn_spec _).2.1

lemma nodes_eq (file : List Line) : (functionsOf file).flatMap (·.nodes) =
    ((seenLines false file).filter makesNode).map List.dropLast := by
  rw [functionsOf_eq]
  exact (foundIn_spec _).2.2

/-- Where the functions of a file come from. -/
lemma name_of_mem (hf : f ∈ functionsOf file) : f.name = mainLabel ∨
    ∃ line ∈ seenLines false file, isFunctionLabel line ∧ f.name = line.dropLast := by
  have mem : f.name ∈ (functionsOf file).map (·.name) := List.mem_map_of_mem hf
  rw [names_eq,List.mem_cons,List.mem_map] at mem
  apply mem.imp_right
  rintro ⟨line,hl,name⟩
  obtain ⟨hl,label⟩ := List.mem_filter.mp hl
  exact ⟨line,hl,(Bool.and_eq_true_iff.mp label).1,name.symm⟩

lemma exists_of_label {line : List Char} (hl : line ∈ seenLines false file)
    (label : isFunctionLabel line) : ∃ f ∈ functionsOf file, f.name = line.dropLast := by
  have mem : line.dropLast ∈ (functionsOf file).map (·.name) := by
    rw [names_eq,List.mem_cons]
    by_cases main : line.dropLast = mainLabel
    · exact Or.inl main
    · apply Or.inr
      apply List.mem_map_of_mem
      rw [List.mem_filter,makesFunction,label,Bool.true_and]
      exact ⟨hl,decide_eq_true main⟩
  simpa using mem

lemma mainLabel_eq : mainLabel = functionPrefix ++ ['m','a','i','n'] := by decide +kernel

lemma keepsName_mainLabel : KeepsName mainLabel := by decide +kernel

lemma prefixed_of_mem (colon : functionPrefix ∉ seenLines false file) (hf : f ∈ functionsOf file) :
    ∃ s, f.name = functionPrefix ++ s := by
  rcases name_of_mem hf with main | ⟨line,hl,label,name⟩
  · exact ⟨_,main.trans mainLabel_eq⟩
  · rw [name]
    apply exists_of_isFunctionLabel label
    rintro rfl
    exact colon hl

/-- The blocks between the entry and the exit are never called like these. -/
lemma ending_of_mem (hf : f ∈ functionsOf file) (hb : bb ∈ f.nodes) :
    ¬"entry".toList <:+ bb ∧ ¬"exit".toList <:+ bb := by
  have mem : bb ∈ (functionsOf file).flatMap (·.nodes) := List.mem_flatMap.mpr ⟨f,hf,hb⟩
  rw [nodes_eq,List.mem_map] at mem
  obtain ⟨line,hl,rfl⟩ := mem
  have node := (List.mem_filter.mp hl).2
  simp only [makesNode,Bool.and_eq_true,Bool.not_eq_true'] at node
  simp only [← List.isSuffixOf_iff_suffix,node.1.2,node.2]
  exact ⟨Bool.false_ne_true,Bool.false_ne_true⟩

lemma entryOf_notMem (hf : f ∈ functionsOf file) (name : List Char) : entryOf name ∉ f.nodes := by
  intro mem
  apply (ending_of_mem hf mem).1
  rw [entryOf_eq,blockOf,List.append_cons]
  exact List.suffix_append _ _

lemma exitOf_notMem (hf : f ∈ functionsOf file) (name : List Char) : exitOf name ∉ f.nodes := by
  intro mem
  apply (ending_of_mem hf mem).2
  rw [exitOf_eq,blockOf,List.append_cons]
  exact List.suffix_append _ _

lemma entryOf_ne_exitOf (name name' : List Char) : entryOf name ≠ exitOf name' := by
  rw [entryOf_eq,exitOf_eq]
  intro h
  exact words_spec.2.2 (blockOf_inj words_spec.1 words_spec.2.1 h).2

lemma strippedName_of_entryOf {name name' : List Char} (h : entryOf name = entryOf name') :
    strippedName name = strippedName name' := by
  rw [entryOf_eq,entryOf_eq] at h
  exact (blockOf_inj words_spec.1 words_spec.1 h).1

lemma strippedName_of_exitOf {name name' : List Char} (h : exitOf name = exitOf name') :
    strippedName name = strippedName name' := by
  rw [exitOf_eq,exitOf_eq] at h
  exact (blockOf_inj words_spec.2.1 words_spec.2.1 h).1

lemma mem_allBb : bb ∈ f.allBb ↔ bb = entryOf f.name ∨ bb ∈ f.nodes ∨ bb = exitOf f.name := by
  simp [FunctionLabels.allBb]

/-- Two functions share a block only if their names lead to the same text or if a label of a block
stands in both of them. -/
lemma allBb_disjoint (hf : f ∈ functionsOf file) (hf' : f' ∈ functionsOf file)
    (stripped : strippedName f.name ≠ strippedName f'.name) (nodes : f.nodes.Disjoint f'.nodes) :
    f.allBb.Disjoint f'.allBb := by
  intro bb hb hb'
  rcases mem_allBb.mp hb with rfl | hb | rfl
  · rcases mem_allBb.mp hb' with h | h | h
    · exact stripped (strippedName_of_entryOf h)
    · exact entryOf_notMem hf' _ h
    · exact entryOf_ne_exitOf _ _ h
  · rcases mem_allBb.mp hb' with rfl | h | rfl
    · exact entryOf_notMem hf _ hb
    · exact nodes hb h
    · exact exitOf_notMem hf _ hb
  · rcases mem_allBb.mp hb' with h | h | h
    · exact entryOf_ne_exitOf _ _ h.symm
    · exact exitOf_notMem hf' _ h
    · exact stripped (strippedName_of_exitOf h)

lemma allBb_nodup (hf : f ∈ functionsOf file) (nodes : f.nodes.Nodup) : f.allBb.Nodup := by
  rw [FunctionLabels.allBb,List.cons_append,List.nodup_cons,List.nodup_append_comm]
  constructor
  · rw [List.mem_append,List.mem_singleton,not_or]
    exact ⟨entryOf_notMem hf _,entryOf_ne_exitOf _ _⟩
  · exact List.nodup_cons.mpr ⟨exitOf_notMem hf _,nodes⟩

lemma mem_generatedBlocks {s : List Char} {n : ℕ}
    (stripped : strippedName (functionPrefix ++ s) = s)
    (hb : bb ∈ generatedBlocks (functionPrefix ++ s) n) : ∃ t, '.' ∉ t ∧ bb = blockOf s t := by
  have rest : afterPrefix functionPrefix (functionPrefix ++ s) = some s := mem_afterPrefix.mpr rfl
  simp only [generatedBlocks,rest,Option.getD_some,List.mem_append,List.mem_cons,List.mem_map,
    List.not_mem_nil,or_false] at hb
  rcases hb with (rfl | ⟨i,-,rfl⟩) | rfl
  · rw [entryOf_eq,stripped]
    exact ⟨_,words_spec.1,rfl⟩
  · refine ⟨_,?_,rfl⟩
    intro dot
    have digit := Nat.isDigit_of_mem_toDigits (by decide) (by decide) dot
    exact absurd digit (by decide)
  · rw [exitOf_eq,stripped]
    exact ⟨_,words_spec.2.1,rfl⟩

section Safe
variable (safe : SafeNames file) (colon : functionPrefix ∉ seenLines false file)
include safe

lemma SafeNames.keepsName (hf : f ∈ functionsOf file) : KeepsName f.name := by
  rcases name_of_mem hf with main | ⟨line,hl,label,name⟩
  · rw [main]
    exact keepsName_mainLabel
  · rw [name]
    exact safe.keeps line hl label

include colon in
lemma SafeNames.stripped (hf : f ∈ functionsOf file) (hf' : f' ∈ functionsOf file)
    (names : f.name ≠ f'.name) : strippedName f.name ≠ strippedName f'.name := by
  obtain ⟨s,hs⟩ := prefixed_of_mem colon hf
  obtain ⟨s',hs'⟩ := prefixed_of_mem colon hf'
  have kept := safe.keepsName hf
  have kept' := safe.keepsName hf'
  rw [hs] at kept names
  rw [hs'] at kept' names
  rw [hs,hs',(strippedName_eq_iff s).mpr (keepsName_append.mp kept),
    (strippedName_eq_iff s').mpr (keepsName_append.mp kept')]
  rintro rfl
  exact names rfl

lemma SafeNames.nodes_disjoint (hf : f ∈ functionsOf file) (hf' : f' ∈ functionsOf file)
    (names : f.name ≠ f'.name) : f.nodes.Disjoint f'.nodes := by
  have distinct := safe.nodes
  rw [← nodes_eq,List.nodup_flatMap] at distinct
  have symmetric : Std.Symm (Function.onFun List.Disjoint FunctionLabels.nodes) :=
    ⟨fun _ _ h => h.symm⟩
  apply distinct.2.forall hf hf'
  rintro rfl
  exact names rfl

/-- The main function is made without a label, and no label makes it again. -/
lemma SafeNames.names_nodup : ((functionsOf file).map (·.name)).Nodup := by
  rw [names_eq,List.nodup_cons]
  refine ⟨?_,safe.functions⟩
  rw [List.mem_map]
  rintro ⟨line,hl,main⟩
  have made := (List.mem_filter.mp hl).2
  rw [makesFunction,main] at made
  simp at made

include colon in
lemma SafeNames.blockNames_nodup : (blockNames (functionsOf file)).Nodup := by
  rw [blockNames,List.nodup_flatMap]
  constructor
  · intro f hf
    have distinct := safe.nodes
    rw [← nodes_eq,List.nodup_flatMap] at distinct
    exact allBb_nodup hf (distinct.1 f hf)
  · apply (List.pairwise_map.mp safe.names_nodup).imp_of_mem
    intro f f' hf hf' names
    exact allBb_disjoint hf hf' (safe.stripped colon hf hf' names) (safe.nodes_disjoint hf hf' names)

include colon in
lemma SafeNames.generated_disjoint (hf : f ∈ functionsOf file) (hf' : f' ∈ functionsOf file)
    (names : f.name ≠ f'.name) (n n' : ℕ) :
    (generatedBlocks f.name n).Disjoint (generatedBlocks f'.name n') := by
  obtain ⟨s,hs⟩ := prefixed_of_mem colon hf
  obtain ⟨s',hs'⟩ := prefixed_of_mem colon hf'
  have kept := safe.keepsName hf
  have kept' := safe.keepsName hf'
  rw [hs] at kept
  rw [hs'] at kept'
  intro bb hb hb'
  rw [hs] at hb
  rw [hs'] at hb'
  obtain ⟨t,ht,rfl⟩ := mem_generatedBlocks ((strippedName_eq_iff s).mpr (keepsName_append.mp kept)) hb
  obtain ⟨t',ht',h⟩ :=
    mem_generatedBlocks ((strippedName_eq_iff s').mpr (keepsName_append.mp kept')) hb'
  rw [hs,hs',(blockOf_inj ht ht' h).1] at names
  exact names rfl

include colon in
/-- The entry is found under its name, for it is the only block that has it. -/
lemma SafeNames.secondPass {line : List Char} (hl : line ∈ seenLines false file)
    (label : isFunctionLabel line) : ∃ before f after, functionsOf file = before ++ f :: after ∧
      f.name = line.dropLast ∧ ∀ conf instructions s li,
        parseLine conf instructions (blockNames (functionsOf file)) s li line =
          pure { s with current := (blockNames before).length, terminatorsStarted := false } := by
  obtain ⟨f,hf,name⟩ := exists_of_label hl label
  obtain ⟨before,after,split⟩ := List.append_of_mem hf
  refine ⟨before,f,after,split,name,?_⟩
  intro conf instructions s li
  have distinct := safe.blockNames_nodup colon
  have blocks : blockNames (functionsOf file) =
      blockNames before ++ entryOf f.name :: (f.nodes ++ [exitOf f.name] ++ blockNames after) := by
    rw [split,blockNames,List.flatMap_append,List.flatMap_cons]
    rfl
  rw [blocks] at distinct ⊢
  have unique := (List.nodup_cons.mp distinct.of_append_right).1
  have text : isTrivial line = false := by
    obtain ⟨s,rfl⟩ := isFunctionLabel_iff.mp label
    rw [functionPrefix_eq]
    rfl
  rw [parseLine_label _ _ _ text (by rw [isLabel,label,Bool.true_or]),labelName,if_pos label,← name,
    selectBlock,lastIndex_append_cons unique]

lemma SafeNames.firstPass {before after : List (List Char)} {line : List Char}
    (split : seenLines false file = before ++ line :: after) (label : isFunctionLabel line) :
    (foundIn (before ++ [line])).getLast?.map (·.name) = some line.dropLast := by
  rw [foundIn_append,addLabel_function label]
  split_ifs with main
  -- The first label of the main function does nothing: only the main function is there yet.
  · have none : before.filter makesFunction = [] := by
      rw [List.filter_eq_nil_iff]
      intro other ho made
      rw [makesFunction,Bool.and_eq_true] at made
      exact of_decide_eq_true made.2 (safe.mainFirst before line after split main other ho made.1)
    rw [← List.getLast?_map,(foundIn_spec before).2.1,none,main]
    rfl
  · rw [List.getLast?_concat]
    rfl

end Safe

/-- Behind another function the label of the main function changes nothing. -/
lemma mainFirst_of_found {before : List (List Char)} {line : List Char}
    (main : line.dropLast = mainLabel) (label : isFunctionLabel line)
    (found : (foundIn (before ++ [line])).getLast?.map (·.name) = some line.dropLast) :
    ∀ other ∈ before, isFunctionLabel other → other.dropLast = mainLabel := by
  rw [foundIn_append,addLabel_function label,if_pos main,← List.getLast?_map,
    (foundIn_spec before).2.1,main] at found
  intro other ho hother
  by_contra different
  have made : other ∈ before.filter makesFunction := by
    rw [List.mem_filter,makesFunction,hother,Bool.true_and]
    exact ⟨ho,decide_eq_true different⟩
  have some := List.ne_nil_of_mem (List.mem_map_of_mem (f := List.dropLast) made)
  rw [List.getLast?_cons,List.getLast?_eq_some_getLast some,Option.getD_some,Option.some_inj] at found
  obtain ⟨last,hlast,same⟩ := List.mem_map.mp (List.getLast_mem some)
  have makes := (List.mem_filter.mp hlast).2
  rw [makesFunction,same,found] at makes
  simp at makes

lemma isFunctionLabel_of_main {line : List Char} (main : line.dropLast = mainLabel) :
    isFunctionLabel line := by
  rw [isFunctionLabel_iff]
  refine ⟨['m','a','i','n'] ++ line.drop (line.length-1),?_⟩
  rw [← List.append_assoc,← mainLabel_eq,← main,List.dropLast_eq_take,List.take_append_drop]

/-- With one entry for each block no function is labelled twice. -/
lemma functionLabels_nodup (oneEntry : (blockNames (functionsOf file)).Nodup) :
    (((seenLines false file).filter makesFunction).map List.dropLast).Nodup := by
  have names : ((functionsOf file).map (·.name)).Nodup := by
    apply List.pairwise_map.mpr
    apply (List.nodup_flatMap.mp oneEntry).2.imp
    intro f f' disjoint same
    have entry : entryOf f.name ∈ f'.allBb := mem_allBb.mpr (Or.inl (congrArg entryOf same))
    exact disjoint (mem_allBb.mpr (Or.inl rfl)) entry
  rw [names_eq] at names
  exact (List.nodup_cons.mp names).2

lemma nodeLabels_nodup (oneEntry : (blockNames (functionsOf file)).Nodup) :
    (((seenLines false file).filter makesNode).map List.dropLast).Nodup := by
  have distinct := List.nodup_flatMap.mp oneEntry
  rw [← nodes_eq,List.nodup_flatMap]
  constructor
  · intro f hf
    have nodup := distinct.1 f hf
    rw [FunctionLabels.allBb] at nodup
    exact (List.nodup_cons.mp nodup.of_append_left).2
  · apply distinct.2.imp
    intro f f' disjoint bb hb hb'
    exact disjoint (mem_allBb.mpr (Or.inr (Or.inl hb))) (mem_allBb.mpr (Or.inr (Or.inl hb')))

/-- Functions and blocks correspond exactly if nothing of a name is stripped, the main function comes
first and labels are distinct. The text `.function_` alone, without a colon, is no label. -/
theorem names_correspond_iff (file : List Line) (colon : functionPrefix ∉ seenLines false file) :
    NamesCorrespond file ↔ SafeNames file := by
  constructor
  · intro h
    refine ⟨?_,?_,functionLabels_nodup h.oneEntry,nodeLabels_nodup h.oneEntry⟩
    · intro line hl label
      obtain ⟨f,hf,name⟩ := exists_of_label hl label
      obtain ⟨s,hs⟩ := prefixed_of_mem colon hf
      rw [← name]
      exact (named_iff hs).mp (h.named f hf s hs)
    · intro before line after split main
      have label := isFunctionLabel_of_main main
      exact mainFirst_of_found main label (h.firstPass before line after split label)
  · intro safe
    refine ⟨?_,?_,?_,safe.blockNames_nodup colon,?_,?_⟩
    · intro f hf s hs
      exact (named_iff hs).mpr (safe.keepsName hf)
    · intro f hf f' hf' names
      exact allBb_disjoint hf hf' (safe.stripped colon hf hf' names) (safe.nodes_disjoint hf hf' names)
    · intro f hf f' hf' names
      exact safe.generated_disjoint colon hf hf' names
    · intro before line after split label
      exact safe.firstPass split label
    · intro line hl label
      exact safe.secondPass colon hl label

/-- A test case with a second function, whose name is given. -/
def twoFunctions (first second : String) : List Line :=
  [".test_case_enter:\n",".function_main:\n",".bb_main.entry:\n",".bb_main.0:\n",
    first ++ ":\n",second ++ ":\n",".test_case_exit:\n"].map String.toList

theorem names_correspond_numbers :
    functionPrefix ∉ seenLines false (twoFunctions ".function_1" ".function_2") ∧
      NamesCorrespond (twoFunctions ".function_1" ".function_2") := by
  have colon : functionPrefix ∉ seenLines false (twoFunctions ".function_1" ".function_2") := by
    decide +kernel
  refine ⟨colon,(names_correspond_iff _ colon).mpr ⟨by decide +kernel,?_,by decide +kernel,
    by decide +kernel⟩⟩
  intro before line after split main other ho
  have later : ∀ l ∈ (seenLines false (twoFunctions ".function_1" ".function_2")).tail,
      l.dropLast ≠ mainLabel := by decide +kernel
  cases before with
  | nil => cases ho
  | cons first before =>
    rw [split] at later
    exact absurd main (later line (by simp))

theorem names_not_correspond : ¬NamesCorrespond (twoFunctions ".function_1" ".function_f1") := by
  intro h
  exact absurd h.oneEntry (by decide +kernel)

end Files

end ProteanAmulet.Generator.X86Generator
