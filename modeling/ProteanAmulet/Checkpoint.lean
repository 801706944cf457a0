import ProteanAmulet.Library.Toml

/-! The checkpoints of gem5 that the executor turns into TOML. A value is cut at its second equals sign
and put between quotes as it is. -/
namespace ProteanAmulet.X86Gem5
open Text Toml

/-- `format_checkpoint_file`, at one line. -/
def formatLine (line : List Char) : List Char :=
  if '=' ∈ line then
    let spl := splitOn '=' line
    spl.getD 0 [] ++ '=' :: '"' :: (spl.getD 1 []).filter (· ≠ '\n') ++ ['"']
  else if '[' ∈ line then
    let id_ := ((strip line).drop 1).dropLast
    '[' :: replaceChar ']' "--".toList (replaceChar '[' "--".toList id_) ++ [']']
  else line

/-- `format_checkpoint_file`, from the text of one file to that of the other. -/
def formatCheckpoint (text : List Char) : List Char := joinLines ((lines text).map formatLine)

/-- The lines of a section of a checkpoint, as gem5 writes them. Values stand there without quotes. -/
def sectionLines (t : Table) : List (List Char) :=
  List.replicate t.blanks [] ++ ('[' :: t.name ++ [']']) ::
    t.entries.map fun e => keyText e ++ '=' :: e.raw

def checkpointText (cp : List Table) : List Char := (cp.flatMap sectionLines).flatMap (· ++ ['\n'])

/-- The name of a section with its brackets renamed. -/
def renamed (name : List Char) : List Char :=
  replaceChar ']' "--".toList (replaceChar '[' "--".toList name)

/-- The sections of a checkpoint under their new names, with two empty lines for each one. -/
def renamedSections (cp : List Table) : List Table :=
  cp.map fun t => { t with blanks := 2*t.blanks, name := renamed t.name }

/-- The names are such that TOML can have them, and the values are printable. -/
structure WellFormed (cp : List Table) : Prop where
  legal : Legal (renamedSections cp)
  printable : ∀ s ∈ contents cp, ∀ c ∈ s.2, Printable c

section Survival
variable (read : List Char → Option (List Char → List Char → Option (List Char)))

/-- The converted file can be read, and has the full text of every value. -/
def ReadsBack (cp : List Table) : Prop :=
  ∃ m, read (formatCheckpoint (checkpointText cp)) = some m ∧
    ∀ s ∈ contents (renamedSections cp), m s.1.1 s.1.2 = some s.2

/-- Two checkpoints survive the conversion, and they are not taken for each other. -/
structure Survive (cp cp' : List Table) : Prop where
  first : ReadsBack read cp
  second : ReadsBack read cp'
  apart : formatCheckpoint (checkpointText cp) = formatCheckpoint (checkpointText cp') →
    ∀ s ∈ contents (renamedSections cp), ∀ s' ∈ contents (renamedSections cp'), s.1=s'.1 → s.2=s'.2

end Survival

/-- Neither an equals sign, which the converter splits at, nor what has to be escaped in a string. -/
def Free (cp : List Table) : Prop := ∀ s ∈ contents cp, ∀ c ∈ s.2, c ≠ '=' ∧ c ≠ '"' ∧ c ≠ '\\'

section Conversion
variable {cp : List Table}

/-- The document that a checkpoint is converted to. -/
def converted (cp : List Table) : List Table :=
  mapRaw (fun value => value.takeWhile (· ≠ '=')) (renamedSections cp)

/-- The table that a section is converted to. -/
def convertedSection (t : Table) : Table where
  blanks := 2*t.blanks
  name := renamed t.name
  entries := t.entries.map fun e => { e with raw := e.raw.takeWhile (· ≠ '=') }

lemma converted_eq (cp : List Table) : converted cp = cp.map convertedSection :=
  List.map_map

lemma convertedSection_mem {t : Table} (ht : t ∈ cp) : convertedSection t ∈ converted cp := by
  rw [converted_eq]
  exact List.mem_map_of_mem ht

lemma mem_renamed {name : List Char} {c : Char} (hc : c ∈ name) :
    c = '[' ∨ c = ']' ∨ c ∈ renamed name := by
  by_cases opening : c = '['
  · exact Or.inl opening
  by_cases closing : c = ']'
  · exact Or.inr (Or.inl closing)
  apply Or.inr
  apply Or.inr
  refine List.mem_flatMap.mpr ⟨c,List.mem_flatMap.mpr ⟨c,hc,?_⟩,?_⟩
  · rw [if_neg opening]
    exact List.mem_singleton_self c
  · rw [if_neg closing]
    exact List.mem_singleton_self c

lemma notMem_name {name : List Char} (legal : Dotted (renamed name)) {c : Char} (hc : bareChar c = false)
    (other : c ≠ '.' ∧ c ≠ '[' ∧ c ≠ ']') : c ∉ name := by
  intro mem
  rcases mem_renamed mem with h | h | h
  · exact other.2.1 h
  · exact other.2.2 h
  · exact legal.notMem hc other.1 h

lemma strip_header (name : List Char) : strip ('[' :: name ++ [']','\n']) = '[' :: name ++ [']'] := by
  have first : ('[' :: name ++ [']','\n']).dropWhile isSpace = '[' :: name ++ [']','\n'] := by
    rw [List.cons_append,List.dropWhile_cons_of_neg (by decide)]
  have last : (['\n',']'] ++ ('[' :: name).reverse).dropWhile isSpace =
      ']' :: ('[' :: name).reverse := by
    rw [List.cons_append,List.dropWhile_cons_of_pos (by decide),List.singleton_append,
      List.dropWhile_cons_of_neg (by decide)]
  rw [strip,first,dropWhileEnd,List.reverse_append]
  change ((['\n',']'] ++ ('[' :: name).reverse).dropWhile isSpace).reverse = _
  rw [last,List.reverse_cons,List.reverse_reverse]

lemma formatLine_header {name : List Char} (legal : Dotted (renamed name)) :
    formatLine ('[' :: name ++ [']'] ++ ['\n']) = '[' :: renamed name ++ [']'] := by
  have equals : '=' ∉ name := notMem_name legal (by decide) (by decide)
  have noEntry : '=' ∉ '[' :: name ++ [']'] ++ ['\n'] := by simp [equals]
  have header : '[' ∈ '[' :: name ++ [']'] ++ ['\n'] := List.mem_cons_self
  have inner : (('[' :: name ++ [']']).drop 1).dropLast = name := by
    change (name ++ [']']).dropLast = name
    exact List.dropLast_concat
  rw [formatLine,if_neg noEntry,if_pos header,List.append_assoc,List.singleton_append,strip_header]
  dsimp only
  rw [inner,renamed]

/-- The value up to the next equals sign, without the end of the line. -/
lemma filter_takeWhile {value : List Char} (h : '\n' ∉ value) :
    ((value ++ ['\n']).takeWhile (· ≠ '=')).filter (· ≠ '\n') = value.takeWhile (· ≠ '=') := by
  induction value with
  | nil => rfl
  | cons c value ih =>
    rw [List.mem_cons,not_or] at h
    by_cases hc : c = '='
    · simp [hc]
    · rw [List.cons_append,List.takeWhile_cons_of_pos (by simpa using hc),
        List.takeWhile_cons_of_pos (by simpa using hc),
        List.filter_cons_of_pos (by simpa using Ne.symm h.1),ih h.2]

lemma formatLine_entry {e : Entry} (legal : Dotted e.key) (newline : '\n' ∉ e.raw) :
    formatLine (keyText e ++ '=' :: e.raw ++ ['\n']) =
      entryLine { e with raw := e.raw.takeWhile (· ≠ '=') } := by
  have equals : '=' ∉ keyText e := notMem_keyText legal (by decide) (by decide)
  have entry : '=' ∈ keyText e ++ '=' :: e.raw ++ ['\n'] := by simp
  have parts : keyText e ++ '=' :: e.raw ++ ['\n'] = keyText e ++ '=' :: (e.raw ++ ['\n']) := by simp
  rw [formatLine,if_pos entry,parts,splitOn_append equals]
  dsimp only
  rw [List.getD_cons_zero,List.getD_cons_succ,splitOn_head,filter_takeWhile newline]
  rfl

lemma WellFormed.section_ (h : WellFormed cp) {t : Table} (ht : t ∈ cp) : Dotted (renamed t.name) ∧
    ∀ e ∈ t.entries, Dotted e.key ∧ '\n' ∉ e.raw := by
  have mem : { t with blanks := 2*t.blanks, name := renamed t.name } ∈ renamedSections cp :=
    List.mem_map_of_mem ht
  refine ⟨h.legal.names _ mem,?_⟩
  intro e he
  refine ⟨h.legal.keys _ mem e he,?_⟩
  intro newline
  have string : ((t.name,e.key),e.raw) ∈ contents cp :=
    List.mem_flatMap.mpr ⟨t,ht,List.mem_map_of_mem he⟩
  exact absurd (h.printable _ string _ newline) (by decide)

lemma contents_renamedSections (cp : List Table) : contents (renamedSections cp) =
    (contents cp).map fun s => ((renamed s.1.1,s.1.2),s.2) := by
  simp [contents,renamedSections,List.flatMap_map,List.map_flatMap,Function.comp_def]

/-- The values are those of the checkpoint. -/
lemma forall_values {P : List Char → Prop} :
    (∀ s ∈ contents (renamedSections cp), P s.2) ↔ ∀ s ∈ contents cp, P s.2 := by
  rw [contents_renamedSections,List.forall_mem_map]

lemma forall_converted {P : List Char → List Char → List Char → Prop} :
    (∀ s ∈ contents (converted cp), P s.1.1 s.1.2 s.2) ↔
      ∀ s ∈ contents (renamedSections cp), P s.1.1 s.1.2 (s.2.takeWhile (· ≠ '=')) := by
  rw [converted,contents_mapRaw,List.forall_mem_map]

lemma checkpointText_lines (h : WellFormed cp) : ∀ line ∈ cp.flatMap sectionLines, '\n' ∉ line := by
  intro line hline
  obtain ⟨t,ht,hline⟩ := List.mem_flatMap.mp hline
  obtain ⟨name,entries⟩ := h.section_ ht
  rcases List.mem_append.mp hline with hline | hline
  · rw [List.eq_of_mem_replicate hline]
    exact List.not_mem_nil
  rcases List.mem_cons.mp hline with rfl | hline
  · have newline : '\n' ∉ t.name := notMem_name name (by decide) (by decide)
    simp [newline]
  · obtain ⟨e,he,rfl⟩ := List.mem_map.mp hline
    have newline : '\n' ∉ keyText e := notMem_keyText (entries e he).1 (by decide) (by decide)
    simp [newline,(entries e he).2]

/-- An empty line is written with a newline of its own. -/
lemma formatLine_blanks (n : ℕ) : (List.replicate n []).flatMap
    (fun line => splitOn '\n' (formatLine (line ++ ['\n']))) = List.replicate (2*n) [] := by
  induction n with
  | zero => rfl
  | succ n ih =>
    rw [List.replicate_succ,List.flatMap_cons,ih]
    rfl

lemma WellFormed.printable_converted (h : WellFormed cp) :
    ∀ s ∈ contents (converted cp), ∀ c ∈ s.2, Printable c := by
  apply (forall_converted (P := fun _ _ raw => ∀ c ∈ raw, Printable c)).mpr
  have printable := (forall_values (P := fun value => ∀ c ∈ value, Printable c)).mpr h.printable
  intro s hs c hc
  exact printable s hs c (List.takeWhile_subset _ hc)

lemma formatLine_section (h : WellFormed cp) {t : Table} (ht : t ∈ cp) :
    (sectionLines t).flatMap (fun line => splitOn '\n' (formatLine (line ++ ['\n']))) =
      tableLines (convertedSection t) := by
  obtain ⟨name,entries⟩ := h.section_ ht
  have single : ∀ line ∈ tableLines (convertedSection t), '\n' ∉ line := by
    intro line hline
    apply newline_notMem_lines (h.legal.mapRaw _) (h.printable_converted)
    exact List.mem_flatMap.mpr ⟨convertedSection t,convertedSection_mem ht,hline⟩
  rw [tableLines,List.forall_mem_append,List.forall_mem_cons] at single
  have header : '\n' ∉ '[' :: renamed t.name ++ [']'] := single.2.1
  rw [sectionLines,tableLines,List.flatMap_append]
  congr 1
  · exact formatLine_blanks t.blanks
  · rw [List.flatMap_cons,formatLine_header name,splitOn_of_not_mem header,List.singleton_append,
      List.flatMap_map,convertedSection,List.map_map]
    congr 1
    rw [List.map_eq_flatMap]
    apply List.flatMap_congr
    intro e he
    rw [formatLine_entry (entries e he).1 (entries e he).2,splitOn_of_not_mem]
    · rfl
    · exact single.2.2 _ (List.mem_map_of_mem (List.mem_map_of_mem he))

/-- The file is converted line by line. -/
lemma formatCheckpoint_text (h : WellFormed cp) :
    formatCheckpoint (checkpointText cp) = text (converted cp) := by
  rw [formatCheckpoint,checkpointText,lines_flatMap (checkpointText_lines h),List.map_map,
    ← joinLines_flatMap_splitOn,List.flatMap_map,List.flatMap_assoc,text]
  congr 1
  rw [converted_eq,List.flatMap_map]
  exact List.flatMap_congr fun t ht => formatLine_section h ht

end Conversion

section Results
variable {read : List Char → Option (List Char → List Char → Option (List Char))} {cp cp' : List Table}

/-- Nothing is cut off from the values, and nothing has to be escaped in them. -/
lemma free_iff (h : WellFormed cp) : Free cp ↔ ∀ s ∈ contents (renamedSections cp),
    s.2.takeWhile (· ≠ '=') = s.2 ∧ ∀ c ∈ s.2, Plain c := by
  have printable := (forall_values (P := fun value => ∀ c ∈ value, Printable c)).mpr h.printable
  rw [Free,← forall_values (P := fun value => ∀ c ∈ value, c ≠ '=' ∧ c ≠ '"' ∧ c ≠ '\\')]
  apply forall₂_congr
  intro s hs
  rw [List.takeWhile_eq_self_iff,← forall₂_and]
  apply forall₂_congr
  intro c hc
  rw [decide_eq_true_iff,Plain,and_iff_right (printable s hs c hc)]

/-- If nothing has to be escaped, what the converter leaves of the values is read. -/
lemma read_converted (reader : Reader read) (h : WellFormed cp)
    (plain : ∀ s ∈ contents (converted cp), ∀ c ∈ s.2, Plain c) :
    ∃ m, read (formatCheckpoint (checkpointText cp)) = some m ∧
      ∀ s ∈ contents (renamedSections cp), m s.1.1 s.1.2 = some (s.2.takeWhile (· ≠ '=')) := by
  obtain ⟨m,hm,values⟩ := reader.plain _ (h.legal.mapRaw _) plain
  rw [formatCheckpoint_text h]
  exact ⟨m,hm,(forall_converted (P := fun t k raw => m t k = some raw)).mp values⟩

/-- What is read back in full was written in full and without escapes. -/
lemma readsBack_iff (reader : Reader read) (h : WellFormed cp) : ReadsBack read cp ↔ Free cp := by
  rw [free_iff h]
  constructor
  · rintro ⟨m,hm,values⟩
    have plain : ∀ s ∈ contents (converted cp), ∀ c ∈ s.2, Plain c := by
      rw [formatCheckpoint_text h] at hm
      refine reader.escaped _ m (h.legal.mapRaw _) h.printable_converted hm ?_
      apply (forall_converted (P := fun t k raw => ∃ x, m t k = some x ∧ raw <+: x)).mpr
      intro s hs
      exact ⟨s.2,values s hs,List.takeWhile_prefix _⟩
    obtain ⟨m',hm',cut⟩ := read_converted reader h plain
    cases hm.symm.trans hm'
    intro s hs
    have whole : s.2.takeWhile (· ≠ '=') = s.2 :=
      Option.some.inj ((cut s hs).symm.trans (values s hs))
    have written := (forall_converted (P := fun _ _ raw => ∀ c ∈ raw, Plain c)).mp plain s hs
    rw [whole] at written
    exact ⟨whole,written⟩
  · intro whole
    have plain : ∀ s ∈ contents (converted cp), ∀ c ∈ s.2, Plain c := by
      apply (forall_converted (P := fun _ _ raw => ∀ c ∈ raw, Plain c)).mpr
      intro s hs
      rw [(whole s hs).1]
      exact (whole s hs).2
    obtain ⟨m,hm,cut⟩ := read_converted reader h plain
    refine ⟨m,hm,?_⟩
    intro s hs
    rw [cut s hs,(whole s hs).1]

/-- Checkpoints survive the conversion exactly if no value has an equals sign, a quote or a backslash. -/
theorem formatCheckpoint_survive_iff (reader : Reader read) (h : WellFormed cp) (h' : WellFormed cp') :
    Survive read cp cp' ↔ Free cp ∧ Free cp' := by
  constructor
  · intro survive
    exact ⟨(readsBack_iff reader h).mp survive.first,(readsBack_iff reader h').mp survive.second⟩
  · rintro ⟨free,free'⟩
    have first := (readsBack_iff reader h).mpr free
    have second := (readsBack_iff reader h').mpr free'
    refine ⟨first,second,?_⟩
    intro same s hs s' hs' key
    obtain ⟨m,hm,values⟩ := first
    obtain ⟨m',hm',values'⟩ := second
    rw [same,hm'] at hm
    cases hm
    have value := values s hs
    rw [key,values' s' hs'] at value
    exact (Option.some.inj value).symm

/-- A checkpoint with one value of the branch predictor, behind an empty line. -/
def branchPredictor (value : List Char) : List Table :=
  [⟨1,"system.cpu.branchPred".toList,[⟨"log".toList,1,value⟩]⟩]

lemma wellFormed_branchPredictor {value : List Char} (h : ∀ c ∈ value, Printable c) :
    WellFormed (branchPredictor value) where
  legal := {
    names := by
      have name : Dotted (renamed "system.cpu.branchPred".toList) := by decide +kernel
      simpa [branchPredictor,renamedSections] using name
    keys := by
      have key : Dotted "log".toList := by decide +kernel
      simpa [branchPredictor,renamedSections] using key
    distinct := List.nodup_singleton _
    apart := by simp [branchPredictor,renamedSections]
    tables := by
      have table : ¬splitOn '.' (renamed "system.cpu.branchPred".toList) ++
          (splitOn '.' "log".toList).take 1 <+:
          splitOn '.' (renamed "system.cpu.branchPred".toList) := by decide +kernel
      simpa [branchPredictor,renamedSections] using table }
  printable := by simpa [branchPredictor,contents] using h

theorem formatCheckpoint_survive_taken :
    Survive plainReader (branchPredictor "taken".toList) (branchPredictor "not taken".toList) := by
  refine (formatCheckpoint_survive_iff plainReader_reads
    (wellFormed_branchPredictor (by decide +kernel))
    (wellFormed_branchPredictor (by decide +kernel))).mpr ⟨?_,?_⟩
  · unfold Free
    decide +kernel
  · unfold Free
    decide +kernel

/-- What stands behind the second equals sign is lost, and the two states become one file. -/
theorem formatCheckpoint_not_survive : WellFormed (branchPredictor "pc=1".toList) ∧
    WellFormed (branchPredictor "pc=2".toList) ∧
    ¬∃ read, Survive read (branchPredictor "pc=1".toList) (branchPredictor "pc=2".toList) := by
  refine ⟨wellFormed_branchPredictor (by decide +kernel),
    wellFormed_branchPredictor (by decide +kernel),?_⟩
  rintro ⟨read,survive⟩
  have same : formatCheckpoint (checkpointText (branchPredictor "pc=1".toList)) =
      formatCheckpoint (checkpointText (branchPredictor "pc=2".toList)) := by decide +kernel
  have values := survive.apart same _ List.mem_cons_self _ List.mem_cons_self rfl
  exact absurd values (by decide +kernel)

end Results

end ProteanAmulet.X86Gem5
