import ProteanAmulet.KernelExecutor
import ProteanAmulet.Library.Memory

/-! How `load_template` puts a test case into the code of a measurement. The compiled template is
searched for three markers, at any byte; what lies between them is copied around the test case. -/
namespace ProteanAmulet.KernelExecutor
open Memory

/-- `MAX_MEASUREMENT_CODE_SIZE`, the size of the buffer for the code. -/
def maxMeasurementCodeSize : ℕ := 4096*2

def templateEnter : ℕ := 0x0fff379000000000

def templateInsertTc : ℕ := 0x0fff2f9000000000

def templateReturn : ℕ := 0x0fff279000000000

/-- `RET`. -/
def ret : Byte := 0xC3

section Template
variable (template : ℕ → Byte)

/-- The eight bytes at a position of the template. -/
def quad (pos : ℕ) : ℕ := fromBytes (Memory.read template pos 8)

/-- The loop that skips until the beginning of the template. -/
def skip (pos : ℕ) : Option ℕ :=
  if maxMeasurementCodeSize ≤ pos then none
  else if quad template pos = templateEnter then some (pos+8)
  else skip (pos+1)
termination_by maxMeasurementCodeSize-pos

/-- The loop that copies the first part of the template. It returns the positions in the template and
in the code. -/
def copyHead (pos codePos : ℕ) (code : ℕ → Byte) : Option (ℕ × ℕ) × (ℕ → Byte) :=
  if maxMeasurementCodeSize ≤ pos then (none,code)
  else if quad template pos = templateInsertTc then (some (pos+8,codePos),code)
  else copyHead (pos+1) (codePos+1) (Function.update code codePos (template pos))
termination_by maxMeasurementCodeSize-pos

/-- The loop that writes the rest of the template, and the `RET` behind it. -/
def copyTail (pos codePos : ℕ) (code : ℕ → Byte) : ℤ × (ℕ → Byte) :=
  if maxMeasurementCodeSize ≤ pos then (-2,code)
  else if quad template pos = templateInsertTc then (-3,code)
  else if quad template pos = templateReturn then (codePos,Function.update code codePos ret)
  else copyTail (pos+1) (codePos+1) (Function.update code codePos (template pos))
termination_by maxMeasurementCodeSize-pos

/-- `load_template`: what it returns, and the memory from `measurement_code` on. -/
def loadTemplate (testCase : List Byte) (code : ℕ → Byte) : ℤ × (ℕ → Byte) :=
  match skip template 0 with
  | none => (-1,code)
  | some pos =>
    match copyHead template pos 0 code with
    | (none,code) => (-1,code)
    | (some (pos,codePos),code) =>
      copyTail template pos (codePos+testCase.length) (write code codePos testCase)

end Template

/-! ### Where the markers are -/

/-- The first position from `lo` on, within the bound, at which something is found. -/
structure FirstAt (hit : ℕ → Prop) (lo pos : ℕ) : Prop where
  le : lo ≤ pos
  lt : pos < maxMeasurementCodeSize
  found : hit pos
  before : ∀ q, lo ≤ q → q<pos → ¬hit q

/-- Nothing is found from `lo` on. -/
def NoneFrom (hit : ℕ → Prop) (lo : ℕ) : Prop := ∀ q, lo ≤ q → q < maxMeasurementCodeSize → ¬hit q

section Template
variable (template : ℕ → Byte)

def Marks (marker pos : ℕ) : Prop := quad template pos = marker

instance (marker pos : ℕ) : Decidable (Marks template marker pos) :=
  inferInstanceAs (Decidable (_ = _))

/-- The end of the template, or another place for a test case. -/
def Ends (pos : ℕ) : Prop :=
  Marks template templateInsertTc pos ∨ Marks template templateReturn pos

/-- The two parts of a template that has all of its markers. -/
structure Parts (enter insert last : ℕ) : Prop where
  entered : FirstAt (Marks template templateEnter) 0 enter
  inserted : FirstAt (Marks template templateInsertTc) (enter+8) insert
  ended : FirstAt (Ends template) (insert+8) last
  returned : Marks template templateReturn last

/-- The code of a measurement, without the `RET`. -/
def assembled (enter insert last : ℕ) (testCase : List Byte) : List Byte :=
  Memory.read template (enter+8) (insert-(enter+8)) ++ testCase ++
    Memory.read template (insert+8) (last-(insert+8))

end Template

section Loops
variable {hit : ℕ → Prop} {lo pos pos' : ℕ}

lemma FirstAt.unique (h : FirstAt hit lo pos) (h' : FirstAt hit lo pos') : pos=pos' := by
  rcases Nat.lt_trichotomy pos pos' with hlt | heq | hgt
  · exact absurd h.found (h'.before pos h.le hlt)
  · exact heq
  · exact absurd h'.found (h.before pos' h'.le hgt)

lemma FirstAt.not_none (h : FirstAt hit lo pos) : ¬NoneFrom hit lo :=
  fun hn => hn pos h.le h.lt h.found

/-- A search moves on where nothing is found. -/
lemma FirstAt.succ (h : FirstAt hit (lo+1) pos) (hlo : ¬hit lo) : FirstAt hit lo pos where
  le := (Nat.le_succ lo).trans h.le
  lt := h.lt
  found := h.found
  before q hq hlt := by
    rcases Nat.eq_or_lt_of_le hq with rfl | hq
    · exact hlo
    · exact h.before q hq hlt

lemma NoneFrom.succ (h : NoneFrom hit (lo+1)) (hlo : ¬hit lo) : NoneFrom hit lo := by
  intro q hq hlt
  rcases Nat.eq_or_lt_of_le hq with rfl | hq
  · exact hlo
  · exact h q hq hlt

lemma NoneFrom.of_le (h : maxMeasurementCodeSize ≤ lo) : NoneFrom hit lo := by
  intro q hq hlt
  omega

variable (template : ℕ → Byte)

lemma skip_cases (pos : ℕ) :
    (∃ enter, FirstAt (Marks template templateEnter) pos enter ∧
      skip template pos = some (enter+8)) ∨
    (NoneFrom (Marks template templateEnter) pos ∧ skip template pos = none) := by
  fun_induction skip template pos with
  | case1 pos past => exact .inr ⟨.of_le past,rfl⟩
  | case2 pos within found =>
    exact .inl ⟨pos,⟨le_rfl,by omega,found,fun q hq hlt => absurd hq (by omega)⟩,rfl⟩
  | case3 pos within other ih =>
    refine ih.imp ?_ (And.imp_left fun h => h.succ other)
    rintro ⟨enter,first,heq⟩
    exact ⟨enter,first.succ other,heq⟩

/-- What is copied one by one is a block. -/
lemma write_block (code : ℕ → Byte) (codePos : ℕ) {pos pos' : ℕ} (h : pos+1 ≤ pos') :
    write (Function.update code codePos (template pos)) (codePos+1)
      (Memory.read template (pos+1) (pos'-(pos+1))) = write code codePos (Memory.read template pos (pos'-pos)) := by
  have length : pos'-pos = pos'-(pos+1)+1 := by omega
  have first : write code codePos [template pos] = Function.update code codePos (template pos) :=
    write_singleton code codePos (template pos)
  have next : codePos+1 = codePos+[template pos].length := rfl
  rw [length,read_succ,← first,next,write_append,List.singleton_append]

lemma copyHead_cases (pos codePos : ℕ) (code : ℕ → Byte) :
    (∃ insert, FirstAt (Marks template templateInsertTc) pos insert ∧
      copyHead template pos codePos code = (some (insert+8,codePos+(insert-pos)),
        write code codePos (Memory.read template pos (insert-pos)))) ∨
    (NoneFrom (Marks template templateInsertTc) pos ∧ copyHead template pos codePos code =
      (none,write code codePos (Memory.read template pos (maxMeasurementCodeSize-pos)))) := by
  fun_induction copyHead template pos codePos code with
  | case1 pos codePos code past =>
    refine .inr ⟨.of_le past,?_⟩
    rw [Nat.sub_eq_zero_of_le past]
    simp
  | case2 pos codePos code within found =>
    refine .inl ⟨pos,⟨le_rfl,by omega,found,fun q hq hlt => absurd hq (by omega)⟩,?_⟩
    rw [Nat.sub_self]
    simp
  | case3 pos codePos code within other ih =>
    rcases ih with ⟨insert,first,heq⟩ | ⟨never,heq⟩
    · have hle := first.le
      refine .inl ⟨insert,first.succ other,?_⟩
      rw [heq,write_block template code codePos hle]
      have : codePos+1+(insert-(pos+1)) = codePos+(insert-pos) := by omega
      rw [this]
    · refine .inr ⟨never.succ other,?_⟩
      rw [heq,write_block template code codePos (by omega)]

/-- The second part, what stops it and what is returned. -/
lemma copyTail_cases (pos codePos : ℕ) (code : ℕ → Byte) :
    (∃ last, FirstAt (Ends template) pos last ∧
      copyTail template pos codePos code =
        if quad template last = templateInsertTc then
          ((-3 : ℤ),write code codePos (Memory.read template pos (last-pos)))
        else ((codePos+(last-pos) : ℕ),write code codePos (Memory.read template pos (last-pos) ++ [ret]))) ∨
    (NoneFrom (Ends template) pos ∧ copyTail template pos codePos code =
      (-2,write code codePos (Memory.read template pos (maxMeasurementCodeSize-pos)))) := by
  fun_induction copyTail template pos codePos code with
  | case1 pos codePos code past =>
    refine .inr ⟨.of_le past,?_⟩
    rw [Nat.sub_eq_zero_of_le past]
    simp
  | case2 pos codePos code within found =>
    refine .inl ⟨pos,⟨le_rfl,by omega,.inl found,fun q hq hlt => absurd hq (by omega)⟩,?_⟩
    rw [if_pos found,Nat.sub_self]
    simp
  | case3 pos codePos code within other found =>
    refine .inl ⟨pos,⟨le_rfl,by omega,.inr found,fun q hq hlt => absurd hq (by omega)⟩,?_⟩
    rw [if_neg other,Nat.sub_self,read_zero,List.nil_append,write_singleton,Nat.add_zero]
  | case4 pos codePos code within other other' ih =>
    have neither : ¬Ends template pos := not_or.mpr ⟨other,other'⟩
    rcases ih with ⟨last,first,heq⟩ | ⟨never,heq⟩
    · have hle := first.le
      refine .inl ⟨last,first.succ neither,?_⟩
      have count : codePos+1+(last-(pos+1)) = codePos+(last-pos) := by omega
      have length : codePos+1+(Memory.read template (pos+1) (last-(pos+1))).length =
          codePos+(Memory.read template pos (last-pos)).length := by
        rw [read_length,read_length,count]
      rw [heq,← write_append,← write_append,write_block template code codePos hle,count,length]
    · refine .inr ⟨never.succ neither,?_⟩
      rw [heq,write_block template code codePos (by omega)]

/-- Something is found, or it is not. -/
lemma found_or (hit : ℕ → Prop) (lo : ℕ) : (∃ pos, FirstAt hit lo pos) ∨ NoneFrom hit lo := by
  by_cases h : ∃ pos, lo ≤ pos ∧ pos < maxMeasurementCodeSize ∧ hit pos
  · classical
    obtain ⟨hle,hlt,hfound⟩ := Nat.find_spec h
    refine .inl ⟨Nat.find h,hle,hlt,hfound,fun q hq hq' hhit => ?_⟩
    exact Nat.find_min h hq' ⟨hq,hq'.trans hlt,hhit⟩
  · refine .inr fun q hq hlt hhit => h ⟨q,hq,hlt,hhit⟩

end Loops

/-! ### The code that is built -/

section Outcomes
variable (template : ℕ → Byte)

/-- No place for a test case is found. -/
def Headless : Prop :=
  NoneFrom (Marks template templateEnter) 0 ∨ ∃ enter,
    FirstAt (Marks template templateEnter) 0 enter ∧
      NoneFrom (Marks template templateInsertTc) (enter+8)

/-- The place for the test case is found, and what ends the template as far as it is searched. -/
def Placed (tail : ℕ → Prop) : Prop :=
  ∃ enter insert, FirstAt (Marks template templateEnter) 0 enter ∧
    FirstAt (Marks template templateInsertTc) (enter+8) insert ∧ tail (insert+8)

/-- The end of the template is not found. -/
def Endless : Prop := Placed template (NoneFrom (Ends template))

/-- There is another place for a test case before the end. -/
def Repeated : Prop := Placed template fun lo =>
  ∃ again, FirstAt (Ends template) lo again ∧ Marks template templateInsertTc again

/-- All markers are found. -/
def Whole : Prop := ∃ enter insert last, Parts template enter insert last

lemma template_cases :
    Headless template ∨ Endless template ∨ Repeated template ∨ Whole template := by
  rcases found_or (Marks template templateEnter) 0 with ⟨enter,henter⟩ | never
  · rcases found_or (Marks template templateInsertTc) (enter+8) with ⟨insert,hinsert⟩ | never
    · rcases found_or (Ends template) (insert+8) with ⟨last,hlast⟩ | never
      · rcases hlast.found with again | returned
        · exact .inr (.inr (.inl ⟨enter,insert,henter,hinsert,last,hlast,again⟩))
        · exact .inr (.inr (.inr ⟨enter,insert,last,henter,hinsert,hlast,returned⟩))
      · exact .inr (.inl ⟨enter,insert,henter,hinsert,never⟩)
    · exact .inl (.inr ⟨enter,henter,never⟩)
  · exact .inl (.inl never)

variable (testCase : List Byte) (code : ℕ → Byte) {template}

lemma skip_first {enter : ℕ} (h : FirstAt (Marks template templateEnter) 0 enter) :
    skip template 0 = some (enter+8) := by
  rcases skip_cases template 0 with ⟨enter',h',heq⟩ | ⟨never,-⟩
  · rw [heq,h.unique h']
  · exact absurd never h.not_none

lemma loadTemplate_placed {enter insert : ℕ}
    (henter : FirstAt (Marks template templateEnter) 0 enter)
    (hinsert : FirstAt (Marks template templateInsertTc) (enter+8) insert) :
    loadTemplate template testCase code =
      copyTail template (insert+8) (insert-(enter+8)+testCase.length)
        (write code 0 (Memory.read template (enter+8) (insert-(enter+8)) ++ testCase)) := by
  rw [loadTemplate,skip_first henter]
  dsimp only
  rcases copyHead_cases template (enter+8) 0 code with ⟨insert',h',heq⟩ | ⟨never,-⟩
  · have length : insert-(enter+8) =
        0+(Memory.read template (enter+8) (insert-(enter+8))).length := by simp
    obtain rfl := hinsert.unique h'
    rw [heq,← write_append,← length,Nat.zero_add]
  · exact absurd never hinsert.not_none

lemma loadTemplate_headless (h : Headless template) :
    (loadTemplate template testCase code).1 = -1 := by
  rw [loadTemplate]
  rcases h with never | ⟨enter,henter,never⟩
  · rcases skip_cases template 0 with ⟨enter,h,-⟩ | ⟨-,heq⟩
    · exact absurd never h.not_none
    · rw [heq]
  · rw [skip_first henter]
    dsimp only
    rcases copyHead_cases template (enter+8) 0 code with ⟨insert,h,-⟩ | ⟨-,heq⟩
    · exact absurd never h.not_none
    · rw [heq]

lemma loadTemplate_endless (h : Endless template) :
    (loadTemplate template testCase code).1 = -2 := by
  obtain ⟨enter,insert,henter,hinsert,never⟩ := h
  rw [loadTemplate_placed testCase code henter hinsert]
  rcases copyTail_cases template (insert+8) (insert-(enter+8)+testCase.length)
    (write code 0 (Memory.read template (enter+8) (insert-(enter+8)) ++ testCase))
    with ⟨last,h,-⟩ | ⟨-,heq⟩
  · exact absurd never h.not_none
  · rw [heq]

lemma loadTemplate_repeated (h : Repeated template) :
    (loadTemplate template testCase code).1 = -3 := by
  obtain ⟨enter,insert,henter,hinsert,again,hagain,marks⟩ := h
  rw [loadTemplate_placed testCase code henter hinsert]
  rcases copyTail_cases template (insert+8) (insert-(enter+8)+testCase.length)
    (write code 0 (Memory.read template (enter+8) (insert-(enter+8)) ++ testCase))
    with ⟨last,h,heq⟩ | ⟨never,-⟩
  · obtain rfl := hagain.unique h
    have again' : quad template again = templateInsertTc := marks
    rw [heq,if_pos again']
  · exact absurd never hagain.not_none

lemma loadTemplate_parts {enter insert last : ℕ} (h : Parts template enter insert last) :
    loadTemplate template testCase code =
      (((assembled template enter insert last testCase).length : ℤ),
        write code 0 (assembled template enter insert last testCase ++ [ret])) := by
  have other : quad template last ≠ templateInsertTc := by
    rw [show quad template last = templateReturn from h.returned]
    decide
  rw [loadTemplate_placed testCase code h.entered h.inserted]
  rcases copyTail_cases template (insert+8) (insert-(enter+8)+testCase.length)
    (write code 0 (Memory.read template (enter+8) (insert-(enter+8)) ++ testCase))
    with ⟨last',h',heq⟩ | ⟨never,-⟩
  · obtain rfl := h.ended.unique h'
    have length : insert-(enter+8)+testCase.length =
        0+(Memory.read template (enter+8) (insert-(enter+8)) ++ testCase).length := by simp
    rw [heq,if_neg other,length,write_append,assembled]
    simp [Nat.add_assoc]
  · exact absurd never h.ended.not_none

end Outcomes

/-- The code is the two parts of the template around the test case, with a `RET`; without them each
error says what is missing. Nothing else of the memory changes where it succeeds. -/
theorem loadTemplate_exact (template : ℕ → Byte) (testCase : List Byte) (code : ℕ → Byte) :
    (∀ enter insert last, Parts template enter insert last →
      loadTemplate template testCase code =
        (((assembled template enter insert last testCase).length : ℤ),
          write code 0 (assembled template enter insert last testCase ++ [ret]))) ∧
    (0 ≤ (loadTemplate template testCase code).1 ↔ Whole template) ∧
    ((loadTemplate template testCase code).1 = -1 ↔ Headless template) ∧
    ((loadTemplate template testCase code).1 = -2 ↔ Endless template) ∧
    ((loadTemplate template testCase code).1 = -3 ↔ Repeated template) := by
  have h₁ : Headless template → (loadTemplate template testCase code).1 = -1 :=
    loadTemplate_headless testCase code
  have h₂ : Endless template → (loadTemplate template testCase code).1 = -2 :=
    loadTemplate_endless testCase code
  have h₃ : Repeated template → (loadTemplate template testCase code).1 = -3 :=
    loadTemplate_repeated testCase code
  have h₄ : Whole template → 0 ≤ (loadTemplate template testCase code).1 := by
    rintro ⟨enter,insert,last,h⟩
    rw [loadTemplate_parts testCase code h]
    exact Int.natCast_nonneg _
  have cases := template_cases template
  refine ⟨fun _ _ _ h => loadTemplate_parts testCase code h,?_⟩
  -- the four cases return different numbers
  generalize (loadTemplate template testCase code).1 = r at *
  grind

/-- With the test cases that `test_case_store` admits, the loader keeps to its buffer exactly if the
markers at the ends of the template are at most 4112 bytes apart. -/
theorem loadTemplate_inside_iff {template : ℕ → Byte} {enter insert last : ℕ}
    (h : Parts template enter insert last) :
    (∀ testCase : List Byte, testCase.length < maxTestCaseSize → ∀ code x,
      maxMeasurementCodeSize ≤ x → (loadTemplate template testCase code).2 x = code x) ↔
    last ≤ enter+4112 := by
  have hle := h.inserted.le
  have hle' := h.ended.le
  have length : ∀ testCase, (assembled template enter insert last testCase).length =
      last-(enter+16)+testCase.length := by
    intro testCase
    simp only [assembled,List.length_append,read_length]
    omega
  constructor
  · intro inside
    by_contra far
    have long : (List.replicate (maxTestCaseSize-1) (0 : Byte)).length = 4095 :=
      List.length_replicate
    generalize List.replicate (maxTestCaseSize-1) (0 : Byte) = longest at long
    -- the byte behind the code is written as well, and it lies outside
    have outside := inside longest (by rw [long]; decide) (fun _ => 0)
      (assembled template enter insert last longest).length (by
        rw [length,long,maxMeasurementCodeSize]
        omega)
    have written := write_last (fun _ => (0 : Byte)) 0 (assembled template enter insert last longest) ret
    rw [Nat.zero_add] at written
    rw [loadTemplate_parts longest _ h] at outside
    exact absurd (written.symm.trans outside) (by decide)
  · intro near testCase hlt code x hx
    rw [loadTemplate_parts testCase code h]
    refine write_outside code 0 _ (.inr ?_)
    rw [List.length_append,length,List.length_singleton]
    simp only [maxTestCaseSize,maxMeasurementCodeSize] at hlt hx
    omega

/-- A template that is nothing but its markers. -/
def bareTemplate (i : ℕ) : Byte :=
  ([0,0,0,0,0x90,0x37,0xff,0x0f, 0,0,0,0,0x90,0x2f,0xff,0x0f, 0,0,0,0,0x90,0x27,0xff,0x0f] :
    List Byte).getD i 0

lemma bareTemplate_parts : Parts bareTemplate 0 8 16 where
  entered := ⟨le_rfl,by decide,by decide,fun q hq hlt => absurd hq (by omega)⟩
  inserted := ⟨le_rfl,by decide,by decide,fun q hq hlt => absurd hq (by omega)⟩
  ended := ⟨le_rfl,by decide,.inr (by decide),fun q hq hlt => absurd hq (by omega)⟩
  returned := by decide

theorem loadTemplate_inside_iff_bare : Parts bareTemplate 0 8 16 ∧
    ∀ testCase : List Byte, testCase.length < maxTestCaseSize → ∀ code x,
      maxMeasurementCodeSize ≤ x → (loadTemplate bareTemplate testCase code).2 x = code x :=
  ⟨bareTemplate_parts,(loadTemplate_inside_iff bareTemplate_parts).mpr (by decide)⟩

end ProteanAmulet.KernelExecutor
