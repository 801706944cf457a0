import ProteanAmulet.Generator.Reading
import ProteanAmulet.Library.Buckets
import ProteanAmulet.Library.Grouping
import ProteanAmulet.Library.Pointwise
import Mathlib.Data.List.ReduceOption
import Mathlib.Data.List.Zip

/-! Which instructions the addresses of a parsed file are mapped to. Addresses follow the lines of
the file, and `map_addresses` counts them along the blocks in memory. -/
namespace ProteanAmulet.Generator.X86Generator
open Drawing Text

section Lines
variable (conf : GeneratorConf) (instructions : List InstructionSpec)

/-- A line that the assembler makes an instruction of. Outside of the body all lines with a dot are
directives. -/
def isInstruction (line : List Char) : Phase → Bool
  | .body _ => !isTrivial line && !isLabel line && !isProtectPrefix line
  | .header | .footer => !isTrivial line && line.head? ≠ some '.'

/-- Lines of the body come with their number. -/
def numbered (li : ℕ) (line : List Char) : Phase → Option (ℕ × List Char)
  | .body _ => some (li,line)
  | .header | .footer => none

/-- The instruction lines in the order of the file. -/
def instructionLines : Phase → ℕ → List Line → List (Option (ℕ × List Char))
  | _, _, [] => []
  | ph, li, raw :: rest =>
    let line := strip raw
    (if isInstruction line ph then [numbered li line ph] else []) ++
      instructionLines (ph.next conf instructions raw) (li+1) rest

/-- The instruction lines between the header and the footer. -/
def bodyLines (ph : Phase) (li : ℕ) (lines : List Line) : List (ℕ × List Char) :=
  (instructionLines conf instructions ph li lines).reduceOption

/-- The place of a terminator or of another instruction of a block. -/
def placeOf (block : ℕ) (terminator : Bool) : ℕ := 2*block+terminator.toNat

variable (names : List (List Char))

/-- The places that the instruction lines of the body have in memory. -/
def places : Phase → ℕ → List Line → List ℕ
  | _, _, [] => []
  | .header, current, raw :: rest => places (Phase.header.next conf instructions raw) current rest
  | .footer, _, _ :: _ => []
  | .body started, current, raw :: rest =>
    let line := strip raw
    let ph := (Phase.body started).next conf instructions raw
    if isTrivial line then places ph current rest
    else if isLabel line then places ph ((lastIndex (labelName line) names).getD current) rest
    else if isProtectPrefix line then places ph current rest
    else placeOf current (lineTerminates conf instructions line) :: places ph current rest

/-- The blocks of the lines are in the order that they have in memory, and terminators are the last
lines of their blocks. -/
def InOrder (file : List Line) : Prop :=
  (places conf instructions (blockNames (firstPass {} file).functions) .header 0 file).Pairwise
    (· ≤ ·)

instance (file : List Line) : Decidable (InOrder conf instructions file) :=
  inferInstanceAs (Decidable (List.Pairwise _ _))

/-- What an instruction line is to be mapped to. -/
def Sends (pairs : List (ℕ × Mapped)) : Option (ℕ × List Char) → ℕ → Prop
  | none, address => addressMap pairs address = some .unmapped
  | some (li,line), address => ∃ inst, addressMap pairs address = some (.parsed li inst) ∧
      ∃ t t', parseInstruction conf instructions line li t = .ok (inst,t')

/-- There is one address for every instruction line. -/
def AssemblesLines (assemble : List Line → Option (List ℕ)) (file : List Line) : Prop :=
  ∀ addressList, assemble file = some addressList → addressList.Nodup ∧
    addressList.length = (instructionLines conf instructions .header 0 file).length

end Lines

section Layout
variable {conf : GeneratorConf} {instructions : List InstructionSpec}

lemma bodyLines_cons (ph : Phase) (li : ℕ) (raw : Line) (rest : List Line) :
    bodyLines conf instructions ph li (raw :: rest) =
      (if isInstruction (strip raw) ph then [numbered li (strip raw) ph] else []).reduceOption ++
        bodyLines conf instructions (ph.next conf instructions raw) (li+1) rest := by
  rw [bodyLines,instructionLines]
  exact List.reduceOption_append ..

lemma instructionLines_footer (li : ℕ) (lines : List Line) :
    ∃ n, instructionLines conf instructions .footer li lines = List.replicate n none := by
  induction lines generalizing li with
  | nil => exact ⟨0,rfl⟩
  | cons raw rest ih =>
    obtain ⟨n,hn⟩ := ih (li+1)
    rw [instructionLines]
    split_ifs with here
    · exact ⟨n+1,by rw [List.replicate_succ]; exact congrArg _ hn⟩
    · exact ⟨n,hn⟩

lemma bodyLines_footer (li : ℕ) (lines : List Line) :
    bodyLines conf instructions .footer li lines = [] := by
  obtain ⟨n,hn⟩ : ∃ n, instructionLines conf instructions .footer li lines = List.replicate n none :=
    instructionLines_footer li lines
  rw [bodyLines,hn]
  exact List.reduceOption_replicate_none

/-- Behind the header the lines of the body come first. -/
lemma instructionLines_body (started : Bool) (li : ℕ) (lines : List Line) :
    ∃ n, instructionLines conf instructions (.body started) li lines =
      (bodyLines conf instructions (.body started) li lines).map some ++ List.replicate n none := by
  induction lines generalizing started li with
  | nil => exact ⟨0,rfl⟩
  | cons raw rest ih =>
    have next : ∃ n, instructionLines conf instructions
        ((Phase.body started).next conf instructions raw) (li+1) rest =
        (bodyLines conf instructions ((Phase.body started).next conf instructions raw) (li+1)
          rest).map some ++ List.replicate n none := by
      cases after : (Phase.body started).next conf instructions raw with
      | header =>
        rw [Phase.next] at after
        split_ifs at after
      | body started' => exact ih started' (li+1)
      | footer =>
        rw [bodyLines_footer]
        exact instructionLines_footer (li+1) rest
    obtain ⟨n,hn⟩ := next
    refine ⟨n,?_⟩
    rw [instructionLines,bodyLines_cons,hn,List.map_append,List.append_assoc]
    split_ifs <;> rfl

lemma firstPass_prologue {s : FirstPass} (hs : s.started = true) (lines : List Line) :
    (firstPass s lines).numPrologueInstructions = s.numPrologueInstructions := by
  induction lines generalizing s with
  | nil => rfl
  | cons raw rest ih =>
    have running : ¬(!s.started) = true := by simp [hs]
    rw [firstPass,if_neg running]
    split_ifs
    · exact ih hs
    · rfl
    · exact ih (s := { s with functions := addLabel s.functions (strip raw) }) hs

/-- The prologue is counted by the first pass. -/
lemma instructionLines_header {s : FirstPass} (hs : s.started = false) (li : ℕ) (lines : List Line) :
    ∃ k n, instructionLines conf instructions .header li lines = List.replicate k none ++
        (bodyLines conf instructions .header li lines).map some ++ List.replicate n none ∧
      (firstPass s lines).numPrologueInstructions = s.numPrologueInstructions+k := by
  induction lines generalizing s li with
  | nil => exact ⟨0,0,rfl,rfl⟩
  | cons raw rest ih =>
    have waiting : (!s.started) = true := by simp [hs]
    have body : bodyLines conf instructions .header li (raw :: rest) =
        bodyLines conf instructions (Phase.header.next conf instructions raw) (li+1) rest := by
      rw [bodyLines_cons]
      split_ifs <;> rfl
    rw [instructionLines,body,firstPass,if_pos waiting]
    by_cases text : isTrivial (strip raw)
    · have other : strip raw ≠ testCaseEnter := by
        intro enter
        rw [enter] at text
        exact absurd text (by decide)
      have no : isInstruction (strip raw) .header = false := by rw [isInstruction,text]; rfl
      rw [if_pos text,no,if_neg Bool.false_ne_true,Phase.next,if_neg other]
      exact ih hs (li+1)
    · rw [if_neg text]
      by_cases enter : strip raw = testCaseEnter
      · have no : isInstruction testCaseEnter .header = false := by decide
        have dot : testCaseEnter.head? = some '.' := by decide
        rw [Phase.next,if_pos enter,enter,no,if_neg Bool.false_ne_true,if_pos dot]
        obtain ⟨n,hn⟩ : ∃ n, instructionLines conf instructions (.body false) (li+1) rest = _ :=
          instructionLines_body false (li+1) rest
        refine ⟨0,n,by rw [hn]; rfl,firstPass_prologue ?_ rest⟩
        simp
      · rw [Phase.next,if_neg enter,isInstruction]
        by_cases dot : (strip raw).head? = some '.'
        · rw [if_pos dot,if_neg (by simp [dot])]
          exact ih (s := { s with started := strip raw = testCaseEnter }) (decide_eq_false enter) (li+1)
        · rw [if_neg dot,if_pos (by simp [dot,text])]
          obtain ⟨k,n,hl,hf⟩ := ih (s := { s with
            started := strip raw = testCaseEnter
            numPrologueInstructions := s.numPrologueInstructions+1 }) (decide_eq_false enter) (li+1)
          refine ⟨k+1,n,?_,?_⟩
          · rw [hl,List.replicate_succ]
            rfl
          · rw [hf]
            dsimp only
            omega

end Layout

section Names
variable {conf : GeneratorConf} {instructions : List InstructionSpec} {line : List Char} {li : ℕ}

lemma not_mem_upper (l : List Char) : 'b' ∉ upper l := by
  intro h
  obtain ⟨c,-,hc⟩ := List.mem_map.mp h
  by_cases small : 'a'.val ≤ c.val ∧ c.val ≤ 'z'.val
  · have upperCase : c.toUpper = ⟨c.val+('A'.val - 'a'.val),_⟩ := dif_pos small
    have value : (c.val+('A'.val - 'a'.val)).toNat = 'b'.val.toNat :=
      congrArg (fun c => c.val.toNat) (upperCase.symm.trans hc)
    have low := UInt32.le_iff_toNat_le.mp small.1
    have high := UInt32.le_iff_toNat_le.mp small.2
    have sum := UInt32.toNat_add c.val ('A'.val - 'a'.val)
    have shift : ('A'.val - 'a'.val).toNat = 4294967264 := by decide
    have first : 'a'.val.toNat = 97 := by decide
    have last : 'z'.val.toNat = 122 := by decide
    have letter : 'b'.val.toNat = 98 := by decide
    omega
  · have same : c.toUpper = c := dif_neg small
    apply small
    rw [same.symm.trans hc]
    decide

lemma not_mem_asmSynonyms {name key : List Char} (h : asmSynonyms name = some key) : 'b' ∉ key := by
  obtain ⟨p,hp,hk⟩ := List.exists_of_findSome?_eq_some h
  split_ifs at hk with same
  cases hk
  clear h same
  revert p
  decide

/-- The keys of specifications are in upper case. -/
lemma not_mem_findName {name key : List Char} {ws : List (List Char)}
    (h : (findName name ws).2 = some key) : 'b' ∉ key := by
  induction ws generalizing name with
  | nil => cases h
  | cons word rest ih =>
    rw [findName] at h
    split_ifs at h
    · exact ih h
    · cases synonym : asmSynonyms (upper word) with
      | none =>
        rw [synonym] at h
        cases h
        exact not_mem_upper _
      | some key' =>
        rw [synonym] at h
        cases h
        rw [List.mem_append,not_or]
        exact ⟨not_mem_upper name,not_mem_asmSynonyms synonym⟩

lemma matchingSpecs_subset {raw : List (List Char)} {specs matching : List InstructionSpec}
    (h : matchingSpecs conf li raw specs = .ok matching) : matching ⊆ specs := by
  induction specs generalizing matching with
  | nil =>
    cases h
    exact List.Subset.refl _
  | cons spec specs ih =>
    obtain ⟨here,-,h⟩ := Except.bind_eq_ok.mp h
    obtain ⟨rest,hr,h⟩ := Except.bind_eq_ok.mp h
    cases h
    split_ifs
    · exact List.cons_subset_cons spec (ih hr)
    · exact List.subset_cons_of_subset spec (ih hr)

lemma findSpec_name {spec : InstructionSpec} {raw : List (List Char)}
    (h : findSpec conf instructions line li = .ok (spec,raw)) :
    (findName [] (words line)).2 = some spec.name.toList := by
  unfold findSpec at h
  dsimp only at h
  split_ifs at h with none
  · cases h
  · obtain ⟨matching,hm,h⟩ := Except.bind_eq_ok.mp h
    have mem : spec ∈ matching := by
      cases chosen : if 1 < matching.length ∧ matching.filter (·.hasMagicValue) ≠ [] then
          matching.filter (·.hasMagicValue) else matching with
      | nil =>
        rw [chosen] at h
        cases h
      | cons first rest =>
        rw [chosen] at h
        cases h
        have mem : spec ∈ spec :: rest := List.mem_cons_self
        rw [← chosen] at mem
        split_ifs at mem
        · exact (List.mem_filter.mp mem).1
        · exact mem
    have named := (List.mem_filter.mp (matchingSpecs_subset hm mem)).2
    exact (of_decide_eq_true named).symm

/-- Only the prefix is left out when addresses are counted. -/
lemma parseInstruction_name {t : Stream' ℕ} {r : Instruction × Stream' ℕ}
    (h : parseInstruction conf instructions line li t = .ok r) :
    r.1.name ≠ ".byte 0x36" ↔ isProtectPrefix line = false := by
  cases hp : isProtectPrefix line with
  | true =>
    rw [parseInstruction_protect hp] at h
    cases h
    simp [protectPrefix]
  | false =>
    obtain ⟨spec,raw,operands,_,hs,-,-,hr⟩ := parseInstruction_spec hp h
    refine iff_of_true ?_ rfl
    rw [hr]
    intro same
    have key := not_mem_findName (findSpec_name hs)
    have name : spec.name = ".byte 0x36" := same
    rw [name] at key
    exact key (by decide)

end Names

section Lookup

/-- What `map_addresses` maps the addresses to, by their places. -/
lemma mapAddresses_sends {tc : ParsedTestCase} {a b c : List ℕ} {pairs : List (ℕ × Mapped)}
    (nodup : (a ++ b ++ c).Nodup) (ha : a.length = tc.numPrologueInstructions)
    (hb : b.length = (inMemory tc.blocks).length)
    (h : mapAddresses tc (a ++ b ++ c) = .ok pairs) :
    (∀ address ∈ a ++ c, addressMap pairs address = some .unmapped) ∧
    List.Forall₂ (fun p address => addressMap pairs address = some (.parsed p.1 p.2))
      (inMemory tc.blocks) b := by
  generalize values : ((inMemory tc.blocks).map fun p => Mapped.parsed p.1 p.2) = vs at *
  have length : b.length = vs.length := by rw [← values,List.length_map,hb]
  have mapped : ((a ++ b ++ c).drop tc.numPrologueInstructions).zip vs = b.zip vs := by
    rw [List.append_assoc,← ha,List.drop_left]
    have zipped : (b ++ c).zip (vs ++ []) = b.zip vs ++ c.zip [] := List.zip_append length
    rwa [List.append_nil,List.zip_nil_right,List.append_nil] at zipped
  have keys : (b.zip vs).map (·.1) = b := List.map_fst_zip (le_of_eq length)
  unfold mapAddresses at h
  dsimp only at h
  rw [values,mapped,keys] at h
  split_ifs at h
  cases h
  have outside : (((a ++ b ++ c).filter (· ∉ b)).map fun x => (x,Mapped.unmapped)).map (·.1) =
      (a ++ b ++ c).filter (· ∉ b) := by
    rw [List.map_map]
    exact List.map_id _
  have bNodup : b.Nodup := (nodup.of_append_left).of_append_right
  have found {address : ℕ} {v : Mapped} (member : (address,v) ∈ b.zip vs ++
      ((a ++ b ++ c).filter (· ∉ b)).map fun x => (x,Mapped.unmapped)) :
      addressMap (b.zip vs ++ ((a ++ b ++ c).filter (· ∉ b)).map fun x => (x,Mapped.unmapped))
        address = some v := by
    refine Grouping.lookup_of_mem ?_ (List.mem_reverse.mpr member)
    rw [List.map_reverse,List.nodup_reverse,List.map_append,keys,outside,List.nodup_append']
    refine ⟨bNodup,nodup.filter _,fun x inside out => ?_⟩
    exact of_decide_eq_true (List.mem_filter.mp out).2 inside
  constructor
  · intro address member
    have out : address ∉ b := by
      intro inside
      rcases List.mem_append.mp member with first | last
      · exact List.disjoint_of_nodup_append nodup.of_append_left first inside
      · exact List.disjoint_of_nodup_append nodup (List.mem_append_right a inside) last
    refine found (List.mem_append_right _ (List.mem_map.mpr ⟨address,?_,rfl⟩))
    refine List.mem_filter.mpr ⟨?_,decide_eq_true out⟩
    rcases List.mem_append.mp member with first | last
    · exact List.mem_append_left c (List.mem_append_left b first)
    · exact List.mem_append_right (a ++ b) last
  · refine List.forall₂_iff_zip.mpr ⟨hb.symm,fun {p address} member => ?_⟩
    refine found (List.mem_append_left _ ?_)
    rw [← values,List.zip_map_right]
    refine List.mem_map.mpr ⟨(address,p),?_,rfl⟩
    rw [← List.zip_swap]
    exact List.mem_map.mpr ⟨(p,address),member,rfl⟩

end Lookup

/-- An instruction that has been parsed, with its place. -/
abbrev Placed := ℕ × ℕ × Instruction

/-- The blocks hold what has been placed, in the order in which it came. -/
structure Collected (blocks : List ParsedBlock) (placed : List Placed) : Prop where
  bound : ∀ p ∈ placed, p.1<2*blocks.length
  instructions : ∀ i bb, blocks[i]? = some bb →
    bb.instructions = (placed.filter (·.1 = placeOf i false)).map (·.2)
  terminators : ∀ i bb, blocks[i]? = some bb →
    bb.terminators = (placed.filter (·.1 = placeOf i true)).map (·.2)

section Collecting
variable {blocks : List ParsedBlock} {placed : List Placed}

lemma placeOf_inj {i j : ℕ} {b b' : Bool} : placeOf i b = placeOf j b' ↔ i = j ∧ b = b' := by
  cases b <;> cases b' <;> simp [placeOf] <;> omega

lemma flatMap_range_two {β : Type} (f : ℕ → List β) (n : ℕ) :
    (List.range (2*n)).flatMap f =
      (List.range n).flatMap fun i => f (placeOf i false) ++ f (placeOf i true) := by
  induction n with
  | zero => rfl
  | succ n ih =>
    rw [Nat.mul_succ,List.range_succ,List.range_succ,List.range_succ]
    simp only [List.flatMap_append,List.flatMap_singleton,ih,List.append_assoc]
    rfl

/-- Memory is read place by place. -/
lemma Collected.flatMap (h : Collected blocks placed) :
    (blocks.flatMap fun bb => bb.instructions ++ bb.terminators) =
      (buckets (·.1) (2*blocks.length) placed).map (·.2) := by
  have each : (blocks.map fun bb => bb.instructions ++ bb.terminators) =
      (List.range blocks.length).map fun i => (placed.filter (·.1 = placeOf i false)).map (·.2) ++
        (placed.filter (·.1 = placeOf i true)).map (·.2) := by
    apply List.ext_getElem?
    intro i
    rw [List.getElem?_map,List.getElem?_map]
    cases hi : blocks[i]? with
    | none =>
      rw [List.getElem?_eq_none (by rw [List.length_range]; exact List.getElem?_eq_none_iff.mp hi)]
      rfl
    | some bb =>
      obtain ⟨inside,-⟩ := List.getElem?_eq_some_iff.mp hi
      rw [List.getElem?_range inside]
      exact congrArg some (congrArg₂ _ (h.instructions i bb hi) (h.terminators i bb hi))
  rw [buckets,List.map_flatMap,flatMap_range_two,List.flatMap_def,each]
  rfl

/-- An instruction is added to the current block. -/
lemma Collected.insert (h : Collected blocks placed) {current : ℕ} (hc : current<blocks.length)
    {f : ParsedBlock → ParsedBlock} (terminator : Bool) (entry : ℕ × Instruction)
    (hi : ∀ bb, (f bb).instructions = bb.instructions ++ if terminator then [] else [entry])
    (ht : ∀ bb, (f bb).terminators = bb.terminators ++ if terminator then [entry] else []) :
    Collected (blocks.modify current f) (placed ++ [(placeOf current terminator,entry)]) := by
  have here (i : ℕ) (b : Bool) : ([(placeOf current terminator,entry)].filter
      (·.1 = placeOf i b)).map (·.2) = if current = i ∧ terminator = b then [entry] else [] := by
    by_cases same : current = i ∧ terminator = b
    · rw [if_pos same,same.1,same.2]
      simp
    · rw [if_neg same,← placeOf_inj] at *
      simp [same]
  have changed {i : ℕ} {bb' : ParsedBlock} (h : (blocks.modify current f)[i]? = some bb') :
      ∃ bb, blocks[i]? = some bb ∧ bb' = if current = i then f bb else bb := by
    rw [List.getElem?_modify,Option.map_eq_map,Option.map_eq_some_iff] at h
    obtain ⟨bb,hbb,rfl⟩ := h
    refine ⟨bb,hbb,?_⟩
    split_ifs <;> rfl
  constructor
  · intro p hp
    rw [List.length_modify]
    rcases List.mem_append.mp hp with hp | hp
    · exact h.bound p hp
    · rw [List.mem_singleton.mp hp,placeOf]
      have one := Bool.toNat_le terminator
      omega
  · intro i bb' hbb'
    obtain ⟨bb,hbb,rfl⟩ := changed hbb'
    rw [List.filter_append,List.map_append,here,← h.instructions i bb hbb]
    by_cases same : current = i
    · rw [if_pos same,hi]
      cases terminator <;> simp [same]
    · simp [same]
  · intro i bb' hbb'
    obtain ⟨bb,hbb,rfl⟩ := changed hbb'
    rw [List.filter_append,List.map_append,here,← h.terminators i bb hbb]
    by_cases same : current = i
    · rw [if_pos same,ht]
      cases terminator <;> simp [same]
    · simp [same]

end Collecting

/-- All but the prefix are counted. -/
def isCounted (p : Placed) : Bool := p.2.2.name ≠ ".byte 0x36"

/-- What has been placed comes from the line. -/
def ComesFrom (conf : GeneratorConf) (instructions : List InstructionSpec) (line : ℕ × List Char)
    (p : Placed) : Prop :=
  p.2.1 = line.1 ∧ ∃ t t', parseInstruction conf instructions line.2 line.1 t = .ok (p.2.2,t')

section Run
variable {conf : GeneratorConf} {instructions : List InstructionSpec} {names : List (List Char)}

lemma lastIndex_lt {name : List Char} {i : ℕ} (h : lastIndex name names = some i) :
    i<names.length := by
  induction names generalizing i with
  | nil => cases h
  | cons other names ih =>
    rw [lastIndex] at h
    cases later : lastIndex name names with
    | some j =>
      rw [later] at h
      cases h
      exact Nat.succ_lt_succ (ih later)
    | none =>
      rw [later] at h
      split_ifs at h
      cases h
      exact Nat.succ_pos _

lemma places_footer (current : ℕ) (lines : List Line) :
    places conf instructions names .footer current lines = [] := by
  cases lines <;> rfl

/-- The instruction of a line is counted unless it is the prefix. -/
lemma parsed_collects {li current : ℕ} {raw : Line} {started : Bool} {inst : Instruction}
    {t t' : Stream' ℕ} (text : isTrivial (strip raw) = false) (label : isLabel (strip raw) = false)
    (parsed : parseInstruction conf instructions (strip raw) li t = .ok (inst,t'))
    {terminator : Bool} (ht : isTerminator inst = terminator) (rest : List Line) :
    places conf instructions names (.body started) current (raw :: rest) =
      ([(placeOf current terminator,li,inst)].filter isCounted).map (·.1) ++
        places conf instructions names ((Phase.body started).next conf instructions raw) current
          rest ∧
    List.Forall₂ (ComesFrom conf instructions)
      (if isInstruction (strip raw) (.body started) then
        [numbered li (strip raw) (.body started)] else []).reduceOption
      ([(placeOf current terminator,li,inst)].filter isCounted) := by
  have counted := parseInstruction_name parsed
  have terminates : lineTerminates conf instructions (strip raw) = terminator :=
    (parseInstruction_terminates parsed).symm.trans ht
  rw [places,text,if_neg Bool.false_ne_true,label,if_neg Bool.false_ne_true,isInstruction,text,
    label,terminates]
  cases pre : isProtectPrefix (strip raw) with
  | true =>
    have uncounted : isCounted (placeOf current terminator,li,inst) = false := by
      refine decide_eq_false fun other => ?_
      rw [pre] at counted
      exact Bool.noConfusion (counted.mp other)
    rw [List.filter_cons_of_neg (by rw [uncounted]; exact Bool.false_ne_true)]
    exact ⟨rfl,.nil⟩
  | false =>
    have here : isCounted (placeOf current terminator,li,inst) := decide_eq_true (counted.mpr pre)
    rw [List.filter_cons_of_pos here]
    exact ⟨rfl,.cons ⟨rfl,t,t',parsed⟩ .nil⟩

/-- What one line of the body adds. -/
lemma LineStep.collects {s s' : SecondPass} {li : ℕ} {raw : Line}
    (step : LineStep conf instructions names s li (strip raw) s') (started : Bool) {placed : List Placed}
    (hc : Collected s.blocks placed) (hcur : s.current<s.blocks.length)
    (hn : names.length = s.blocks.length) (rest : List Line) :
    ∃ new, Collected s'.blocks (placed ++ new) ∧ s'.blocks.length = s.blocks.length ∧
      s'.current<s'.blocks.length ∧
      places conf instructions names (.body started) s.current (raw :: rest) =
        (new.filter isCounted).map (·.1) ++ places conf instructions names
          ((Phase.body started).next conf instructions raw) s'.current rest ∧
      List.Forall₂ (ComesFrom conf instructions)
        (if isInstruction (strip raw) (.body started) then
          [numbered li (strip raw) (.body started)] else []).reduceOption (new.filter isCounted) := by
  cases step with
  | skip text =>
    refine ⟨[],by rwa [List.append_nil],rfl,hcur,?_,?_⟩
    · rw [places,if_pos text]
      rfl
    · rw [isInstruction,text]
      exact .nil
  | label text label found =>
    refine ⟨[],by rwa [List.append_nil],rfl,?_,?_,?_⟩
    · exact hn ▸ lastIndex_lt found
    · rw [places,text,if_neg Bool.false_ne_true,if_pos label,found]
      rfl
    · rw [isInstruction,text,label]
      exact .nil
  | terminator text label parsed terminator =>
    refine ⟨[(placeOf s.current true,li,_)],?_,List.length_modify ..,?_,
      parsed_collects text label parsed terminator rest⟩
    · exact hc.insert hcur true _ (fun _ => (List.append_nil _).symm) fun _ => rfl
    · rwa [SecondPass.insertTerminator,List.length_modify]
  | instruction text label parsed terminator free =>
    refine ⟨[(placeOf s.current false,li,_)],?_,List.length_modify ..,?_,
      parsed_collects text label parsed terminator rest⟩
    · exact hc.insert hcur false _ (fun _ => rfl) fun _ => (List.append_nil _).symm
    · rwa [SecondPass.insertAfter,List.length_modify]

/-- What the second pass collects from some lines. -/
lemma secondPass_collects {ph : Phase} {lines : List Line} {s s' : SecondPass} {li : ℕ}
    {t t' : Stream' ℕ} (hs : s.InPhase ph) (hph : ph ≠ .footer) {placed : List Placed}
    (hc : Collected s.blocks placed) (hcur : s.current<s.blocks.length)
    (hn : names.length = s.blocks.length)
    (ok : secondPass conf instructions names s li lines t = .ok (s',t')) :
    ∃ new, Collected s'.blocks (placed ++ new) ∧
      places conf instructions names ph s.current lines = (new.filter isCounted).map (·.1) ∧
      List.Forall₂ (ComesFrom conf instructions) (bodyLines conf instructions ph li lines)
        (new.filter isCounted) := by
  induction lines generalizing ph s li t placed with
  | nil =>
    cases ok
    refine ⟨[],by rwa [List.append_nil],?_,.nil⟩
    cases ph <;> rfl
  | cons raw rest ih =>
    rw [secondPass] at ok
    cases ph with
    | header =>
      rw [hs.1,Bool.not_false,if_pos rfl] at ok
      have body : bodyLines conf instructions .header li (raw :: rest) =
          bodyLines conf instructions (Phase.header.next conf instructions raw) (li+1) rest := by
        rw [bodyLines_cons]
        split_ifs <;> rfl
      rw [body,places]
      refine ih (s := { s with started := strip raw = testCaseEnter }) hs.header ?_ hc hcur hn ok
      rw [Phase.next]
      split_ifs <;> simp
    | body started =>
      rw [hs.1,Bool.not_true,if_neg Bool.false_ne_true] at ok
      by_cases exit : strip raw = testCaseExit
      · rw [if_pos exit] at ok
        cases ok
        have label : isLabel testCaseExit := by decide
        have text : isTrivial testCaseExit = false := by decide
        refine ⟨[],by rwa [List.append_nil],?_,?_⟩
        · rw [places,exit,text,if_neg Bool.false_ne_true,if_pos label,Phase.next,if_pos exit,
            places_footer]
          rfl
        · rw [bodyLines_cons,Phase.next,if_pos exit,bodyLines_footer,exit,isInstruction,text,label]
          exact .nil
      · rw [if_neg exit] at ok
        obtain ⟨s₁,t₁,hp,ok⟩ := bind_eq_ok.mp ok
        have step := parseLine_step hp
        obtain ⟨new,hc₁,length,hcur₁,hplaces,hlines⟩ := step.collects started hc hcur hn rest
        have inBody : (Phase.body started).next conf instructions raw ≠ .footer := by
          rw [Phase.next,if_neg exit]
          split_ifs <;> simp
        obtain ⟨later,hc₂,hplaces₂,hlines₂⟩ := ih (step.inPhase hs exit) inBody hc₁ hcur₁
          (hn.trans length.symm) ok
        refine ⟨new ++ later,by rwa [← List.append_assoc],?_,?_⟩
        · rw [hplaces,hplaces₂,List.filter_append,List.map_append]
        · rw [bodyLines_cons,List.filter_append]
          exact List.rel_append hlines hlines₂
    | footer => exact absurd rfl hph

end Run

section Results
variable {conf : GeneratorConf} {instructions : List InstructionSpec} {file : List Line}
  {assemble : List Line → Option (List ℕ)}

lemma bodyLines_increasing (ph : Phase) (li : ℕ) (lines : List Line) :
    ((bodyLines conf instructions ph li lines).map (·.1)).Pairwise (· < ·) ∧
      ∀ line ∈ bodyLines conf instructions ph li lines, li ≤ line.1 := by
  induction lines generalizing ph li with
  | nil => exact ⟨.nil,fun line h => nomatch h⟩
  | cons raw rest ih =>
    obtain ⟨increasing,later⟩ := ih (ph.next conf instructions raw) (li+1)
    have here : (if isInstruction (strip raw) ph then [numbered li (strip raw) ph]
        else []).reduceOption = [] ∨ (if isInstruction (strip raw) ph then
          [numbered li (strip raw) ph] else []).reduceOption = [(li,strip raw)] := by
      split_ifs
      · cases ph with
        | body started => exact .inr rfl
        | header => exact .inl rfl
        | footer => exact .inl rfl
      · exact .inl rfl
    rw [bodyLines_cons]
    rcases here with here | here
    · rw [here]
      exact ⟨increasing,fun line h => Nat.le_of_succ_le (later line h)⟩
    · rw [here]
      refine ⟨List.pairwise_cons.mpr ⟨?_,increasing⟩,?_⟩
      · intro i hi
        obtain ⟨line,hline,rfl⟩ := List.mem_map.mp hi
        exact later line hline
      · intro line h
        rcases List.mem_cons.mp h with rfl | h
        · exact le_rfl
        · exact Nat.le_of_succ_le (later line h)

lemma addLabel_ne_nil {functions : List FunctionLabels} (h : functions ≠ []) (line : List Char) :
    addLabel functions line ≠ [] := by
  rw [addLabel]
  split_ifs
  · exact h
  · exact h
  · simp
  · exact h
  · rw [← List.length_pos_iff] at h ⊢
    rwa [insertNode,List.length_modify]

lemma firstPass_functions {s : FirstPass} (hs : s.functions ≠ []) (lines : List Line) :
    (firstPass s lines).functions ≠ [] :=
  firstPass_keeps (P := (· ≠ [])) (fun _ line h => addLabel_ne_nil h line) hs lines

lemma blockNames_length_pos {functions : List FunctionLabels} (h : functions ≠ []) :
    0<(blockNames functions).length := by
  cases functions with
  | nil => exact absurd rfl h
  | cons func rest => simp [blockNames,FunctionLabels.allBb]

lemma collected_emptyBlocks (names : List (List Char)) : Collected (emptyBlocks names).blocks [] where
  bound p hp := nomatch hp
  instructions i bb h := by
    rw [emptyBlocks,List.getElem?_map,Option.map_eq_some_iff] at h
    obtain ⟨name,-,rfl⟩ := h
    rfl
  terminators i bb h := by
    rw [emptyBlocks,List.getElem?_map,Option.map_eq_some_iff] at h
    obtain ⟨name,-,rfl⟩ := h
    rfl

/-- The instructions in memory are those of the body, by their places. -/
lemma parseText_collects {t t' : Stream' ℕ} {tc : ParsedTestCase}
    (ok : parseText conf instructions file t = .ok (tc,t')) :
    ∃ (placed : List Placed) (n : ℕ), (∀ p ∈ placed, p.1<n) ∧
      inMemory tc.blocks = (buckets (·.1) n placed).map (·.2) ∧
      places conf instructions (blockNames (firstPass {} file).functions) .header 0 file =
        placed.map (·.1) ∧
      List.Forall₂ (ComesFrom conf instructions) (bodyLines conf instructions .header 0 file)
        placed := by
  obtain ⟨-,functions,-,second,hs,hc⟩ := parseText_eq_ok.mp ok
  have first : 0<(emptyBlocks (blockNames tc.functions)).blocks.length := by
    rw [emptyBlocks,List.length_map,functions]
    exact blockNames_length_pos (firstPass_functions (by simp) file)
  obtain ⟨new,collected,hplaces,hlines⟩ := secondPass_collects
    (show SecondPass.InPhase _ .header from ⟨rfl,rfl⟩) (by simp)
    (collected_emptyBlocks _) first (List.length_map _).symm hs
  refine ⟨new.filter isCounted,_,fun p hp => collected.bound p (List.mem_filter.mp hp).1,?_,?_,hlines⟩
  · rw [inMemory_connectFrom hc,inMemory,collected.flatMap,List.nil_append,List.filter_map,
      Buckets.filter]
    rfl
  · rw [← functions]
    exact hplaces

/-- The lines are sent to their instructions if these are in memory in the same order. -/
lemma sends_iff {pairs : List (ℕ × Mapped)} {lines : List (ℕ × List Char)} {placed : List Placed}
    {n : ℕ} {addresses : List ℕ} (hk : ∀ p ∈ placed, p.1<n)
    (increasing : (lines.map (·.1)).Pairwise (· < ·))
    (hl : List.Forall₂ (ComesFrom conf instructions) lines placed)
    (hm : List.Forall₂ (fun p address => addressMap pairs address = some (.parsed p.1 p.2))
      ((buckets (·.1) n placed).map (·.2)) addresses) :
    List.Forall₂ (Sends conf instructions pairs) (lines.map some) addresses ↔
      (placed.map (·.1)).Pairwise (· ≤ ·) := by
  have numbers : lines.map (·.1) = placed.map (·.2.1) := by
    rw [← List.forall₂_eq_eq_eq,List.forall₂_map_left_iff,List.forall₂_map_right_iff]
    exact hl.imp fun _ _ h => h.1.symm
  rw [List.pairwise_map,← Buckets.eq_self_iff hk]
  rw [List.forall₂_map_left_iff] at hm ⊢
  constructor
  · intro hs
    have same : lines.map (·.1) = (buckets (·.1) n placed).map (·.2.1) := by
      rw [← List.forall₂_eq_eq_eq,List.forall₂_map_left_iff,List.forall₂_map_right_iff]
      refine Pointwise.comp ?_ hs hm.flip
      rintro line address p ⟨inst,here,-⟩ there
      exact (Mapped.parsed.inj (Option.some.inj (here.symm.trans there))).1
    have distinct : (placed.map (·.2.1)).Nodup := by
      rw [← numbers]
      exact increasing.imp fun lt => ne_of_lt lt
    refine Buckets.eq_of_map_eq (List.inj_on_of_nodup_map distinct) ?_ (List.Subset.refl placed)
      (same.symm.trans numbers)
    exact fun p hp => (Buckets.mem.mp hp).1
  · intro ordered
    rw [ordered] at hm
    refine Pointwise.comp ?_ hl hm
    rintro line p address ⟨number,parsed⟩ there
    rw [number] at there
    exact ⟨p.2.2,there,parsed⟩

/-- The addresses of all lines are mapped to what was parsed from these lines, exactly if the lines
are in the order that their instructions have in memory. -/
theorem addressMap_iff (ha : AssemblesLines conf instructions assemble file) {t t' : Stream' ℕ}
    {tc : ParsedTestCase} {pairs : List (ℕ × Mapped)}
    (ok : parseExistingTestCase assemble conf instructions file t = .ok ((tc,pairs),t')) :
    (∃ addressList, assemble file = some addressList ∧
      List.Forall₂ (Sends conf instructions pairs)
        (instructionLines conf instructions .header 0 file) addressList) ↔
      InOrder conf instructions file := by
  obtain ⟨tc',t₁,text,ok⟩ := bind_eq_ok.mp ok
  cases assembled : assemble file with
  | none =>
    rw [assembled] at ok
    cases ok
  | some addressList =>
    rw [assembled] at ok
    obtain ⟨pairs',t₂,mapped,ok⟩ := bind_eq_ok.mp ok
    obtain ⟨mapped,-⟩ := lift_eq_ok.mp mapped
    cases ok
    obtain ⟨nodup,length⟩ := ha addressList assembled
    obtain ⟨placed,n,hk,memory,hplaces,hlines⟩ := parseText_collects text
    obtain ⟨k,m,shape,prologue⟩ : ∃ k m, instructionLines conf instructions .header 0 file = _ ∧ _ :=
      instructionLines_header (s := {}) rfl 0 file
    have prologue' : tc.numPrologueInstructions = k := by
      rw [(parseText_eq_ok.mp text).2.2.1,prologue]
      exact Nat.zero_add k
    rw [shape,List.length_append,List.length_append,List.length_replicate,List.length_replicate,
      List.length_map] at length
    obtain ⟨a,b,c,rfl,hA,hB,hC⟩ := Pointwise.exists_append_three length
    have count : b.length = (inMemory tc.blocks).length := by
      rw [hB,hlines.length_eq,memory,List.length_map,(Buckets.perm hk).length_eq]
    obtain ⟨outside,inside⟩ := mapAddresses_sends nodup (hA.trans prologue'.symm) count mapped
    rw [memory] at inside
    have unmapped {l : List ℕ} {i : ℕ} (hl : l.length = i) (sub : l ⊆ a ++ c) :
        List.Forall₂ (Sends conf instructions pairs) (List.replicate i none) l := by
      refine List.forall₂_iff_zip.mpr ⟨by rw [List.length_replicate,hl],fun {x y} h => ?_⟩
      obtain ⟨hx,hy⟩ := List.of_mem_zip h
      rw [List.eq_of_mem_replicate hx]
      exact outside y (sub hy)
    rw [InOrder,hplaces,← sends_iff hk (bodyLines_increasing .header 0 file).1 hlines inside]
    constructor
    · rintro ⟨_,same,sends⟩
      cases same
      rw [shape,Pointwise.append_iff (by simp [hA,hB]),Pointwise.append_iff (by simp [hA])] at sends
      exact sends.1.2
    · intro sends
      refine ⟨_,rfl,?_⟩
      rw [shape,Pointwise.append_iff (by simp [hA,hB]),Pointwise.append_iff (by simp [hA])]
      exact ⟨⟨unmapped hA (List.subset_append_left a c),sends⟩,
        unmapped hC (List.subset_append_right a c)⟩

/-- The result of a run that is known in part. -/
lemma exists_ok {τ : Type} {x : Gen τ} {t : Stream' ℕ} {β : Type} {f : τ → β} {b : β}
    (h : (x t).toOption.map (fun r => f r.1) = some b) : ∃ r t', x t = .ok (r,t') ∧ f r = b := by
  cases ok : x t with
  | error e =>
    rw [ok] at h
    cases h
  | ok r =>
    rw [ok] at h
    exact ⟨r.1,r.2,rfl,Option.some.inj h⟩

def nopSpec : InstructionSpec :=
  { name := "NOP", operands := [], implicitOperands := [], category := "BASE-NOP" }
def clcSpec : InstructionSpec :=
  { name := "CLC", operands := [], implicitOperands := [], category := "BASE-FLAGOP" }

/-- Two blocks with one instruction each. -/
def twoBlocks (first second : String) : List Line :=
  [".test_case_enter:\n",first,"NOP\n",second,"CLC\n",".test_case_exit:\n"].map String.toList

/-- The entry and then the exit. -/
theorem addressMap_entry_exit :
    let file := twoBlocks ".bb_main.entry:\n" ".bb_main.exit:\n"
    let assemble (_ : List Line) : Option (List ℕ) := some [0,1]
    ∃ t tc pairs t', parseExistingTestCase assemble {} [nopSpec,clcSpec] file t =
      .ok ((tc,pairs),t') ∧ ∃ addressList, assemble file = some addressList ∧
        List.Forall₂ (Sends {} [nopSpec,clcSpec] pairs)
          (instructionLines {} [nopSpec,clcSpec] .header 0 file) addressList := by
  intro file assemble
  have run : (parseExistingTestCase assemble {} [nopSpec,clcSpec] file fun _ => 0).toOption.map
      (fun _ => ()) = some () := by decide +kernel
  obtain ⟨⟨tc,pairs⟩,t',ok,-⟩ := exists_ok (f := fun _ => ()) run
  refine ⟨_,tc,pairs,t',ok,(addressMap_iff ?_ ok).mpr (by decide +kernel)⟩
  rintro _ ⟨⟩
  decide +kernel

/-- The exit and then the entry: the first instruction of the file is the second one in memory. -/
theorem not_addressMap_exit_entry :
    let file := twoBlocks ".bb_main.exit:\n" ".bb_main.entry:\n"
    let assemble (_ : List Line) : Option (List ℕ) := some [0,1]
    AssemblesLines {} [nopSpec,clcSpec] assemble file ∧
    ∃ t tc pairs t', parseExistingTestCase assemble {} [nopSpec,clcSpec] file t =
      .ok ((tc,pairs),t') ∧ ¬∃ addressList, assemble file = some addressList ∧
        List.Forall₂ (Sends {} [nopSpec,clcSpec] pairs)
          (instructionLines {} [nopSpec,clcSpec] .header 0 file) addressList := by
  intro file assemble
  constructor
  · rintro _ ⟨⟩
    decide +kernel
  · have run : (parseExistingTestCase assemble {} [nopSpec,clcSpec] file fun _ => 0).toOption.map
        (fun r => addressMap r.1.2 0) = some (some (.parsed 4 (.fromSpec clcSpec false))) := by
      decide +kernel
    obtain ⟨⟨tc,pairs⟩,t',ok,first⟩ := exists_ok
      (f := fun r : ParsedTestCase × List (ℕ × Mapped) => addressMap r.2 0) run
    refine ⟨_,tc,pairs,t',ok,?_⟩
    rintro ⟨_,⟨⟩,sends⟩
    have lines : instructionLines {} [nopSpec,clcSpec] .header 0 file =
        [some (2,"NOP".toList),some (4,"CLC".toList)] := by decide +kernel
    rw [lines] at sends
    obtain ⟨⟨inst,mapped,-⟩,-⟩ := List.forall₂_cons.mp sends
    exact absurd (mapped.symm.trans first) (by simp)

end Results

end ProteanAmulet.Generator.X86Generator
