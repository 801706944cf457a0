import ProteanAmulet.Generator.Parser

/-! The minimisation of test cases. A cursor walks from the end of the file to the header, and at
every line that is not preserved a change is tried and kept if the violation is still there. -/
namespace ProteanAmulet.Postprocessor
open Generator Generator.X86Generator Drawing Text

section Lists
variable {α : Type*}

/-- `l[i]` of Python, where negative places count from the end. -/
def pyGet (l : List α) (i : ℤ) : Option α :=
  if 0 ≤ i then l[i.toNat]? else if 0 ≤ l.length+i then l[(l.length+i).toNat]? else none

/-- The place that a bound of a slice stands for. -/
def pyBound (l : List α) (i : ℤ) : ℕ := if 0 ≤ i then i.toNat else (l.length+i).toNat

/-- `l[:i]`. -/
def pyTake (l : List α) (i : ℤ) : List α := l.take (pyBound l i)

/-- `l[i:]`. -/
def pyDrop (l : List α) (i : ℤ) : List α := l.drop (pyBound l i)

@[simp] lemma pyGet_natCast (l : List α) (i : ℕ) : pyGet l (i : ℤ) = l[i]? := by simp [pyGet]
@[simp] lemma pyTake_natCast (l : List α) (i : ℕ) : pyTake l (i : ℤ) = l.take i := by
  simp [pyTake,pyBound]
@[simp] lemma pyDrop_natCast (l : List α) (i : ℕ) : pyDrop l (i : ℤ) = l.drop i := by
  simp [pyDrop,pyBound]

end Lists

/-- Empty lines, instructions used for sandboxing, fences and labels. -/
def isPreserved (line : List Char) : Bool :=
  line = [] || "instrumentation".toList <:+: line || "LFENCE".toList <:+: line ||
    line.head? = some '.'

def skipInstruction (instructions : List Line) (i : ℤ) : List Line :=
  pyTake instructions i ++ pyDrop instructions (i+1)

def fence : Line := "LFENCE\n".toList

def pushFence (instructions : List Line) (i : ℤ) : List Line :=
  pyTake instructions i ++ [fence] ++ pyDrop instructions i

section Probe
variable {τ : Type} (parse : List Line → Gen τ) (violates : List Line → Bool)
  (modifier : List Line → ℤ → List Line)

/-- The loop of `_probe_test_case`; `none` when the fuel is used up. -/
def probe : ℕ → List Line → ℤ → Gen (Option (List Line))
  | 0, _, _ => return none
  | fuel+1, instructions, cursor =>
    match pyGet instructions (cursor-1) with
    | none => throw .index
    | some raw =>
      let line := strip raw
      if line = testCaseEnter then return some instructions
      else if isPreserved line then probe fuel instructions (cursor-1)
      else do
        let tmpInstructions := modifier instructions (cursor-1)
        let _ ← parse tmpInstructions
        if violates tmpInstructions then probe fuel tmpInstructions (cursor-1)
        else probe fuel instructions (cursor-1)

/-- `_probe_test_case`: the lines that are left, and what is parsed from them. -/
def probeTestCase (fuel : ℕ) (file : List Line) : Gen (Option (List Line × τ)) := do
  match ← probe parse violates modifier fuel file file.length with
  | none => return none
  | some instructions => return some (instructions,← parse instructions)

def minimizeTestCase : ℕ → List Line → Gen (Option (List Line × τ)) :=
  probeTestCase parse violates skipInstruction

def addFences : ℕ → List Line → Gen (Option (List Line × τ)) :=
  probeTestCase parse violates pushFence

end Probe

/-- The file up to and with its last header, and what follows it. -/
structure Split (file before : List Line) (header : Line) (after : List Line) : Prop where
  eq : file = before ++ header :: after
  header : strip header = testCaseEnter
  last : ∀ raw ∈ after, strip raw ≠ testCaseEnter

/-- What the probes can make of the lines behind a prefix: `R l a b` when `a` stands behind `l` and
has become `b`. Changes are only made where they are allowed. -/
structure Modifies (modifier : List Line → ℤ → List Line) (allowed : List Line → Line → Prop)
    (R : List Line → List Line → List Line → Prop) : Prop where
  nil : ∀ l, R l [] []
  keep : ∀ l raw {a b}, R (l ++ [raw]) a b → R l (raw :: a) (raw :: b)
  change : ∀ l raw {a b}, R (l ++ [raw]) a b → allowed l raw →
    ∃ b', modifier (l ++ raw :: b) l.length = l ++ b' ∧ R l (raw :: a) b'

section Run
variable {τ : Type} {parse : List Line → Gen τ} {violates : List Line → Bool}
  {modifier : List Line → ℤ → List Line} {allowed : List Line → Line → Prop}
  {R : List Line → List Line → List Line → Prop} {E : GeneratorError → Prop}

/-- One turn of the loop, at the line behind `l`. -/
lemma probe_at (parse : List Line → Gen τ) (violates : List Line → Bool)
    (modifier : List Line → ℤ → List Line) (l b : List Line) (raw : Line) (fuel : ℕ) :
    probe parse violates modifier (fuel+1) (l ++ raw :: b) (l.length+1) =
      if strip raw = testCaseEnter then return some (l ++ raw :: b)
      else if isPreserved (strip raw) then probe parse violates modifier fuel (l ++ raw :: b) l.length
      else parse (modifier (l ++ raw :: b) l.length) >>= fun _ =>
        if violates (modifier (l ++ raw :: b) l.length) then
          probe parse violates modifier fuel (modifier (l ++ raw :: b) l.length) l.length
        else probe parse violates modifier fuel (l ++ raw :: b) l.length := by
  have place : (l.length : ℤ)+1-1 = l.length := by omega
  have here : pyGet (l ++ raw :: b) (l.length : ℤ) = some raw := by simp
  rw [probe,place,here]

variable {file before after : List Line} {header : Line}

/-- The loop between the header and the end: `todo` has not been looked at, and `done` has become
`back`. -/
lemma probe_run (hm : Modifies modifier allowed R) (split : Split file before header after)
    (ha : ∀ todo raw done, after = todo ++ raw :: done → ¬isPreserved (strip raw) →
      allowed (before ++ header :: todo) raw)
    (hp : ∀ todo a b, after = todo ++ a → R (before ++ header :: todo) a b →
      Drawing.Outcome (parse (before ++ header :: todo ++ b)) (fun _ => True) E)
    (todo : List Line) {done back : List Line} (htodo : after = todo ++ done)
    (hR : R (before ++ header :: todo) done back)
    (hv : violates (before ++ header :: todo ++ back)) {fuel : ℕ} (hf : todo.length<fuel) :
    Drawing.Outcome (probe parse violates modifier fuel (before ++ header :: todo ++ back)
      (before ++ header :: todo).length) (fun r => ∃ back', r = some (before ++ header :: back') ∧
        R (before ++ [header]) after back' ∧ violates (before ++ header :: back')) E := by
  induction todo using List.reverseRecOn generalizing done back fuel with
  | nil =>
    obtain ⟨fuel,rfl⟩ := Nat.exists_eq_succ_of_ne_zero (Nat.ne_of_gt hf)
    have stop := probe_at parse violates modifier before back header fuel
    rw [if_pos split.header] at stop
    have place : ((before ++ [header]).length : ℤ) = before.length+1 := by simp
    have shape : before ++ [header] ++ back = before ++ header :: back := by simp
    rw [shape] at hv ⊢
    rw [place,stop]
    refine .pure ⟨back,rfl,?_,hv⟩
    rw [htodo]
    exact hR
  | append_singleton todo raw ih =>
    obtain ⟨fuel,rfl⟩ := Nat.exists_eq_succ_of_ne_zero (Nat.ne_of_gt (Nat.zero_lt_of_lt hf))
    have small : todo.length<fuel := by
      rw [List.length_append,List.length_singleton] at hf
      omega
    have htodo' : after = todo ++ raw :: done := by rw [htodo,List.append_assoc]; rfl
    have other : strip raw ≠ testCaseEnter := split.last raw (by rw [htodo']; simp)
    have grown : before ++ header :: (todo ++ [raw]) = before ++ header :: todo ++ [raw] := by simp
    have shape : before ++ header :: todo ++ [raw] ++ back = before ++ header :: todo ++ raw :: back := by
      simp
    have place : ((before ++ header :: todo ++ [raw]).length : ℤ) =
        (before ++ header :: todo).length+1 := by
      rw [List.length_append]
      rfl
    rw [grown] at hR hv ⊢
    rw [shape] at hv ⊢
    have unchanged := ih htodo' (hm.keep _ raw hR) hv small
    rw [place,probe_at,if_neg other]
    by_cases preserved : isPreserved (strip raw)
    · rw [if_pos preserved]
      exact unchanged
    · rw [if_neg preserved]
      obtain ⟨back',changed,hR'⟩ := hm.change _ raw hR (ha todo raw done htodo' preserved)
      rw [changed]
      refine (hp _ _ _ htodo' hR').bind fun _ _ => ?_
      split_ifs with still
      · exact ih htodo' hR' still small
      · exact unchanged

/-- From the end of the file to its last header. -/
lemma probe_file (hm : Modifies modifier allowed R) (split : Split file before header after)
    (ha : ∀ todo raw done, after = todo ++ raw :: done → ¬isPreserved (strip raw) →
      allowed (before ++ header :: todo) raw)
    (hp : ∀ todo a b, after = todo ++ a → R (before ++ header :: todo) a b →
      Drawing.Outcome (parse (before ++ header :: todo ++ b)) (fun _ => True) E)
    (hv : violates file) {fuel : ℕ} (hf : file.length<fuel) :
    Drawing.Outcome (probe parse violates modifier fuel file file.length)
      (fun r => ∃ after', r = some (before ++ header :: after') ∧
        R (before ++ [header]) after after' ∧ violates (before ++ header :: after')) E := by
  have whole : before ++ header :: after ++ [] = file := by rw [List.append_nil,split.eq]
  have hv' : violates (before ++ header :: after ++ []) := by
    rw [whole]
    exact hv
  have short : after.length<fuel := by
    rw [split.eq,List.length_append,List.length_cons] at hf
    omega
  have run := probe_run hm split ha hp after (List.append_nil after).symm (hm.nil _) hv' short
  rwa [whole,← split.eq] at run

/-- `_probe_test_case` ends, and what it returns still violates. -/
theorem probeTestCase_file (hm : Modifies modifier allowed R)
    (split : Split file before header after)
    (ha : ∀ todo raw done, after = todo ++ raw :: done → ¬isPreserved (strip raw) →
      allowed (before ++ header :: todo) raw)
    (hp : ∀ todo a b, after = todo ++ a → R (before ++ header :: todo) a b →
      Drawing.Outcome (parse (before ++ header :: todo ++ b)) (fun _ => True) E)
    (hv : violates file) {fuel : ℕ} (hf : file.length<fuel) :
    Drawing.Outcome (probeTestCase parse violates modifier fuel file)
      (fun r => ∃ after' tc, r = some (before ++ header :: after',tc) ∧
        R (before ++ [header]) after after' ∧ violates (before ++ header :: after')) E := by
  refine (probe_file hm split ha hp hv hf).bind ?_
  rintro _ ⟨after',rfl,hR,still⟩
  have final := hp [] after after' rfl hR
  rw [List.append_assoc] at final
  exact final.bind fun tc _ => .pure ⟨after',tc,rfl,hR,still⟩

end Run

section Modifiers

/-- Lines that are preserved are kept in their order. -/
def Skipped (a b : List Line) : Prop :=
  b.Sublist a ∧ (b.filter fun raw => isPreserved (strip raw)) = a.filter fun raw =>
    isPreserved (strip raw)

lemma modifies_skipInstruction :
    Modifies skipInstruction (fun _ raw => ¬isPreserved (strip raw)) fun _ => Skipped where
  nil _ := ⟨.refl _,rfl⟩
  keep _ raw a b h := by
    refine ⟨h.1.cons_cons raw,?_⟩
    rw [List.filter_cons,List.filter_cons,h.2]
  change l raw a b h hp := by
    refine ⟨b,?_,h.1.cons raw,?_⟩
    · have next : (l.length : ℤ)+1 = ((l.length+1 : ℕ) : ℤ) := by omega
      rw [skipInstruction,next,pyTake_natCast,pyDrop_natCast]
      simp
    · rw [List.filter_cons,if_neg hp,h.2]

/-- Fences are inserted between the lines. -/
inductive Fenced : List Line → List Line → Prop
  | nil : Fenced [] []
  | keep (raw : Line) {a b : List Line} : Fenced a b → Fenced (raw :: a) (raw :: b)
  | insert {a b : List Line} : Fenced a b → Fenced a (fence :: b)

lemma pushFence_at (l b : List Line) (raw : Line) :
    pushFence (l ++ raw :: b) l.length = l ++ fence :: raw :: b := by
  rw [pushFence,pyTake_natCast,pyDrop_natCast]
  simp

lemma modifies_pushFence : Modifies pushFence (fun _ _ => True) fun _ => Fenced where
  nil _ := .nil
  keep _ raw _ _ h := .keep raw h
  change l raw _ b h _ := ⟨_,pushFence_at l b raw,.insert (.keep raw h)⟩

end Modifiers

section Header

lemma firstPass_started {s : FirstPass} {file : List Line} (h : (firstPass s file).started) :
    s.started ∨ ∃ raw ∈ file, strip raw = testCaseEnter := by
  induction file generalizing s with
  | nil => exact .inl h
  | cons raw rest ih =>
    have later {s' : FirstPass} (h : (firstPass s' rest).started)
        (hs : s'.started → s.started ∨ strip raw = testCaseEnter) :
        s.started ∨ ∃ r ∈ raw :: rest, strip r = testCaseEnter := by
      rcases ih h with started | ⟨r,hr,he⟩
      · exact (hs started).imp_right fun he => ⟨raw,List.mem_cons_self,he⟩
      · exact .inr ⟨r,List.mem_cons_of_mem _ hr,he⟩
    rw [firstPass] at h
    by_cases trivial_ : isTrivial (strip raw)
    · rw [if_pos trivial_] at h
      exact later h .inl
    rw [if_neg trivial_] at h
    cases started : s.started with
    | true => exact .inl rfl
    | false =>
      rw [started,Bool.not_false,if_pos rfl] at h
      rw [started] at later
      exact later h fun he => .inr (of_decide_eq_true he)

/-- A file that is parsed has a last header. -/
lemma exists_split {file : List Line} (h : ∃ raw ∈ file, strip raw = testCaseEnter) :
    ∃ before header after, Split file before header after := by
  induction file with
  | nil => simp at h
  | cons raw rest ih =>
    by_cases later : ∃ r ∈ rest, strip r = testCaseEnter
    · obtain ⟨before,header,after,split⟩ := ih later
      exact ⟨raw :: before,header,after,by rw [split.eq]; rfl,split.header,split.last⟩
    · obtain ⟨r,hr,he⟩ := h
      rcases List.mem_cons.mp hr with rfl | hr
      · exact ⟨[],r,rest,rfl,he,fun r' hr' he' => later ⟨r',hr',he'⟩⟩
      · exact absurd ⟨r,hr,he⟩ later

lemma exists_split_of_accepted {assemble : List Line → Option (List ℕ)} {conf : GeneratorConf}
    {instructions : List InstructionSpec} {file : List Line} {t : Stream' ℕ}
    {r : (ParsedTestCase × List (ℕ × Mapped)) × Stream' ℕ}
    (h : parseExistingTestCase assemble conf instructions file t = .ok r) :
    ∃ before header after, Split file before header after := by
  have text : Ensures (parseText conf instructions file) fun _ => (firstPass {} file).started := by
    by_cases started : (firstPass {} file).started
    · exact Drawing.Outcome.any.weaken fun _ _ => started
    · unfold parseText
      dsimp only
      rw [Bool.not_eq_true] at started
      rw [if_pos (by rw [started]; rfl)]
      exact Drawing.Outcome.bind (P := fun _ => False) (Drawing.Outcome.throw (E := fun _ => True) trivial)
        fun _ h => h.elim
  have whole : Ensures (parseExistingTestCase assemble conf instructions file)
      fun _ => (firstPass {} file).started :=
    text.bind fun _ started => Drawing.Outcome.any.weaken fun _ _ => started
  obtain ⟨accepted,t'⟩ := r
  have started : (firstPass {} file).started := whole.ok h
  exact exists_split ((firstPass_started started).resolve_left (by decide))

end Header

/-- What is left of a file when lines have been removed. -/
structure Minimized (file final : List Line) : Prop where
  sublist : final.Sublist file
  preserved : (final.filter fun raw => isPreserved (strip raw)) = file.filter fun raw =>
    isPreserved (strip raw)
  header : ∃ before header after after', Split file before header after ∧
    final = before ++ header :: after'

/-- The lines up to the last header stay, and fences are inserted behind it. -/
def WithFences (file final : List Line) : Prop :=
  ∃ before header after after', Split file before header after ∧
    final = before ++ header :: after' ∧ Fenced after after'

lemma minimized_of_skipped {file before after after' : List Line} {header : Line}
    (split : Split file before header after) (h : Skipped after after') :
    Minimized file (before ++ header :: after') where
  sublist := by
    rw [split.eq]
    exact (List.Sublist.refl before).append (h.1.cons_cons header)
  preserved := by
    rw [split.eq,List.filter_append,List.filter_append,List.filter_cons,List.filter_cons,h.2]
  header := ⟨before,header,after,after',split,rfl⟩

section Results
variable {assemble : List Line → Option (List ℕ)} {conf : GeneratorConf}
  {instructions : List InstructionSpec} {violates : List Line → Bool} {file : List Line}

/-- Both probes of an accepted file that violates end, and what they return still violates. -/
theorem probeTestCase_violates
    (accepted : ∃ t r, parseExistingTestCase assemble conf instructions file t = .ok r)
    (hv : violates file) {fuel : ℕ} (hf : file.length<fuel) :
    Ensures (minimizeTestCase (parseExistingTestCase assemble conf instructions) violates fuel file)
      (fun r => ∃ final tc, r = some (final,tc) ∧ violates final ∧ Minimized file final) ∧
    Ensures (addFences (parseExistingTestCase assemble conf instructions) violates fuel file)
      (fun r => ∃ final tc, r = some (final,tc) ∧ violates final ∧ WithFences file final) := by
  obtain ⟨t,r,accepted⟩ := accepted
  obtain ⟨before,header,after,split⟩ := exists_split_of_accepted accepted
  constructor
  · refine (probeTestCase_file modifies_skipInstruction split (fun _ _ _ _ => id)
      (fun _ _ _ _ _ => .any) hv hf).weaken ?_
    rintro _ ⟨after',tc,rfl,hR,still⟩
    exact ⟨_,tc,rfl,still,minimized_of_skipped split hR⟩
  · refine (probeTestCase_file modifies_pushFence split (fun _ _ _ _ _ => trivial)
      (fun _ _ _ _ _ => .any) hv hf).weaken ?_
    rintro _ ⟨after',tc,rfl,hR,still⟩
    exact ⟨_,tc,rfl,still,before,header,after,after',split,rfl,hR⟩

/-- Two instructions, of which one has to stay. -/
theorem probeTestCase_violates_nop :
    let nop : Line := "NOP\n".toList
    let file : List Line := [".test_case_enter:\n".toList,nop,nop,".test_case_exit:\n".toList]
    let assemble (file : List Line) : Option (List ℕ) := some (List.range (file.count nop))
    let instructions : List InstructionSpec :=
      [{ name := "NOP", operands := [], implicitOperands := [], category := "BASE-NOP" }]
    let parse := parseExistingTestCase assemble {} instructions
    Ensures (minimizeTestCase parse (fun file => nop ∈ file) 5 file)
      (fun r => ∃ final tc, r = some (final,tc) ∧ nop ∈ final ∧ Minimized file final) ∧
    Ensures (addFences parse (fun file => nop ∈ file) 5 file)
      (fun r => ∃ final tc, r = some (final,tc) ∧ nop ∈ final ∧ WithFences file final) := by
  intro nop file assemble instructions parse
  have ok : ((parseExistingTestCase assemble {} instructions file fun _ => 0).toOption).isSome := by
    decide +kernel
  have accepted : ∃ t r, parseExistingTestCase assemble {} instructions file t = .ok r := by
    cases h : parseExistingTestCase assemble {} instructions file fun _ => 0 with
    | error e =>
      rw [h] at ok
      cases ok
    | ok r => exact ⟨_,r,h⟩
  have both : Ensures (minimizeTestCase parse (fun file => nop ∈ file) 5 file) _ ∧
      Ensures (addFences parse (fun file => nop ∈ file) 5 file) _ :=
    probeTestCase_violates accepted (by decide) (by decide)
  simpa using both

end Results

end ProteanAmulet.Postprocessor
