import Mathlib.Data.List.Nodup
import Mathlib.Data.List.Pairwise
import Mathlib.Data.List.TakeWhile
import Mathlib.Tactic.Common
import ProteanAmulet.Library.Grouping
import ProteanAmulet.Library.Text

/-! Simple TOML documents: tables with keys whose values are basic strings, each on a line of its own.
What a reader makes of them is left open, but for what the format says about strings. -/
namespace Toml
open Text

structure Entry where
  key : List Char
  /-- The number of spaces behind the key. -/
  spaces : ℕ
  /-- What stands between the quotes. -/
  raw : List Char
  deriving DecidableEq

structure Table where
  /-- The number of empty lines before the table. -/
  blanks : ℕ
  name : List Char
  entries : List Entry
  deriving DecidableEq

/-- The name of the table and the key of each string, with the text between its quotes. -/
def contents (d : List Table) : List ((List Char × List Char) × List Char) :=
  d.flatMap fun t => t.entries.map fun e => ((t.name,e.key),e.raw)

def keyText (e : Entry) : List Char := e.key ++ List.replicate e.spaces ' '

def entryLine (e : Entry) : List Char := keyText e ++ '=' :: '"' :: e.raw ++ ['"']

def tableLines (t : Table) : List (List Char) :=
  List.replicate t.blanks [] ++ ('[' :: t.name ++ [']']) :: t.entries.map entryLine

def text (d : List Table) : List Char := joinLines (d.flatMap tableLines)

/-- The characters that need no quotes in a name. -/
def bareChar (c : Char) : Bool := c.isAlphanum || c = '_' || c = '-'

/-- A name of bare parts with dots between them. -/
def Dotted (name : List Char) : Prop := ∀ part ∈ splitOn '.' name, part ≠ [] ∧ ∀ c ∈ part, bareChar c

instance : DecidablePred Dotted := fun name =>
  inferInstanceAs (Decidable (∀ part ∈ splitOn '.' name, part ≠ [] ∧ ∀ c ∈ part, bareChar c))

/-- Names are bare, no table and no key is defined twice, and no key is a table at the same time. -/
structure Legal (d : List Table) : Prop where
  names : ∀ t ∈ d, Dotted t.name
  keys : ∀ t ∈ d, ∀ e ∈ t.entries, Dotted e.key
  distinct : (d.map (·.name)).Nodup
  apart : ∀ t ∈ d, t.entries.Pairwise fun e e' =>
    ¬splitOn '.' e.key <+: splitOn '.' e'.key ∧ ¬splitOn '.' e'.key <+: splitOn '.' e.key
  tables : ∀ t ∈ d, ∀ e ∈ t.entries, ∀ t' ∈ d,
    ¬splitOn '.' t.name ++ (splitOn '.' e.key).take 1 <+: splitOn '.' t'.name

/-- No control character. -/
def Printable (c : Char) : Prop := ' ' ≤ c ∧ c.toNat ≠ 127

/-- A printable character that stands for itself in a basic string. -/
def Plain (c : Char) : Prop := Printable c ∧ c ≠ '"' ∧ c ≠ '\\'

instance : DecidablePred Printable := fun _ => inferInstanceAs (Decidable (_ ∧ _))
instance : DecidablePred Plain := fun _ => inferInstanceAs (Decidable (_ ∧ _))

/-- What the format says about the strings of a document, for a reader that gives the string of a
table and a key. -/
structure Reader (read : List Char → Option (List Char → List Char → Option (List Char))) : Prop where
  /-- Plain characters are read as they stand there. -/
  plain : ∀ d, Legal d → (∀ s ∈ contents d, ∀ c ∈ s.2, Plain c) →
    ∃ m, read (text d) = some m ∧ ∀ s ∈ contents d, m s.1.1 s.1.2 = some s.2
  /-- Quotes and backslashes have to be escaped, and escapes are longer than what they stand for: if
  what is read begins everywhere with the text between the quotes, there are none. -/
  escaped : ∀ d m, Legal d → (∀ s ∈ contents d, ∀ c ∈ s.2, Printable c) → read (text d) = some m →
    (∀ s ∈ contents d, ∃ x, m s.1.1 s.1.2 = some x ∧ s.2 <+: x) → ∀ s ∈ contents d, ∀ c ∈ s.2, Plain c

section Names
variable {name : List Char}

lemma Dotted.char (h : Dotted name) {c : Char} (hc : c ∈ name) : bareChar c ∨ c = '.' := by
  have parts : c = '.' ∨ ∃ part ∈ splitOn '.' name, c ∈ part := mem_splitOn hc
  rcases parts with rfl | ⟨part,hp,hc⟩
  · exact Or.inr rfl
  · exact Or.inl ((h part hp).2 c hc)

lemma Dotted.ne_nil (h : Dotted name) : name ≠ [] := by
  rintro rfl
  exact (h [] List.mem_cons_self).1 rfl

lemma Dotted.notMem (h : Dotted name) {c : Char} (hc : bareChar c = false) (dot : c ≠ '.') :
    c ∉ name := by
  intro mem
  rcases h.char mem with bare | same
  · rw [hc] at bare
    cases bare
  · exact dot same

lemma notMem_keyText {e : Entry} (h : Dotted e.key) {c : Char} (hc : bareChar c = false)
    (other : c ≠ '.' ∧ c ≠ ' ') : c ∉ keyText e := by
  rw [keyText,List.mem_append,not_or]
  exact ⟨h.notMem hc other.1,fun mem => other.2 (List.eq_of_mem_replicate mem)⟩

/-- The table and the key of a string belong to no other one. -/
lemma Legal.contents_nodup {d : List Table} (h : Legal d) : ((contents d).map (·.1)).Nodup := by
  have keys : (contents d).map (·.1) = d.flatMap fun t => t.entries.map fun e => (t.name,e.key) := by
    simp [contents,List.map_flatMap,Function.comp_def]
  rw [keys,List.nodup_flatMap]
  constructor
  · intro t ht
    apply List.pairwise_map.mpr
    apply (h.apart t ht).imp
    intro e e' apart same
    apply apart.1
    have keys : e.key = e'.key := (Prod.ext_iff.mp same).2
    exact keys ▸ List.prefix_refl _
  · apply (List.pairwise_map.mp h.distinct).imp
    intro t t' names p hp hp'
    obtain ⟨e,-,rfl⟩ := List.mem_map.mp hp
    obtain ⟨e',-,same⟩ := List.mem_map.mp hp'
    exact names (Prod.ext_iff.mp same).1.symm

/-- Other texts between the quotes. -/
def mapRaw (f : List Char → List Char) (d : List Table) : List Table :=
  d.map fun t => { t with entries := t.entries.map fun e => { e with raw := f e.raw } }

lemma contents_mapRaw (f : List Char → List Char) (d : List Table) :
    contents (mapRaw f d) = (contents d).map fun s => (s.1,f s.2) := by
  simp [contents,mapRaw,List.flatMap_map,List.map_flatMap,Function.comp_def]

/-- The names of a document do not depend on the strings. -/
lemma Legal.mapRaw {d : List Table} (h : Legal d) (f : List Char → List Char) : Legal (mapRaw f d) where
  names := by
    simpa [Toml.mapRaw] using h.names
  keys := by
    simpa [Toml.mapRaw] using h.keys
  distinct := by
    simpa [Toml.mapRaw,Function.comp_def] using h.distinct
  apart := by
    simpa [Toml.mapRaw,List.pairwise_map] using h.apart
  tables := by
    simpa [Toml.mapRaw] using h.tables

end Names

section PlainReader

/-- The key and the string of a line, if the string has no escapes. -/
def readEntry (line : List Char) : Option (List Char × List Char) :=
  match line.dropWhile (· ≠ '=') with
  | '=' :: '"' :: cs =>
    if cs.getLast? = some '"' ∧ ∀ c ∈ cs.dropLast, Plain c then
      some (dropWhileEnd (· = ' ') (line.takeWhile (· ≠ '=')),cs.dropLast)
    else none
  | _ => none

/-- The strings of the lines behind the header of a table. -/
def readLines (table : List Char) :
    List (List Char) → Option (List ((List Char × List Char) × List Char))
  | [] => some []
  | line :: rest =>
    if line = [] then readLines table rest
    else if line.head? = some '[' then readLines (line.drop 1).dropLast rest
    else match readEntry line with
      | some (key,value) => (readLines table rest).map (((table,key),value) :: ·)
      | none => none

/-- A reader that gives up where anything would have to be escaped. -/
def plainReader (text : List Char) : Option (List Char → List Char → Option (List Char)) :=
  (readLines [] (splitOn '\n' text)).map fun strings table key => strings.lookup (table,key)

lemma dropWhileEnd_keyText {e : Entry} (key : Dotted e.key) :
    dropWhileEnd (· = ' ') (keyText e) = e.key := by
  have space : ' ' ∉ e.key := key.notMem (by decide) (by decide)
  have spaces : ∀ c ∈ List.replicate e.spaces ' ', decide (c = ' ') = true :=
    fun c hc => decide_eq_true (List.eq_of_mem_replicate hc)
  have other : e.key.reverse.dropWhile (· = ' ') = e.key.reverse := by
    apply List.dropWhile_eq_self_iff.mpr
    intro pos first
    apply space
    rw [← of_decide_eq_true first]
    exact List.mem_reverse.mp (List.getElem_mem pos)
  rw [dropWhileEnd,keyText,List.reverse_append,List.reverse_replicate,
    List.dropWhile_append_of_pos spaces,other,List.reverse_reverse]

lemma readEntry_entryLine {e : Entry} (key : Dotted e.key) : readEntry (entryLine e) =
    if ∀ c ∈ e.raw, Plain c then some (e.key,e.raw) else none := by
  have equals : '=' ∉ keyText e := notMem_keyText key (by decide) (by decide)
  have other : ∀ c ∈ keyText e, decide (c ≠ '=') = true :=
    fun c hc => decide_eq_true (ne_of_mem_of_not_mem hc equals)
  have behind : (entryLine e).dropWhile (· ≠ '=') = '=' :: '"' :: (e.raw ++ ['"']) := by
    rw [entryLine,List.append_assoc,List.dropWhile_append_of_pos other]
    rfl
  have front : (entryLine e).takeWhile (· ≠ '=') = keyText e := by
    rw [entryLine,List.append_assoc,List.takeWhile_append_of_pos other]
    simp
  rw [readEntry,behind,front]
  simp only [List.getLast?_concat,List.dropLast_concat,true_and,dropWhileEnd_keyText key]

lemma readLines_blanks (table : List Char) (n : ℕ) (rest : List (List Char)) :
    readLines table (List.replicate n [] ++ rest) = readLines table rest := by
  induction n with
  | zero => rfl
  | succ n ih => rw [List.replicate_succ,List.cons_append,readLines,if_pos rfl,ih]

lemma readLines_entries {table : List Char} {entries : List Entry}
    (keys : ∀ e ∈ entries, Dotted e.key) (rest : List (List Char)) :
    readLines table (entries.map entryLine ++ rest) = if ∀ e ∈ entries, ∀ c ∈ e.raw, Plain c then
      (readLines table rest).map ((entries.map fun e => ((table,e.key),e.raw)) ++ ·) else none := by
  induction entries with
  | nil => simp
  | cons e entries ih =>
    rw [List.forall_mem_cons] at keys
    obtain ⟨c,cs,hkey⟩ := List.exists_cons_of_ne_nil keys.1.ne_nil
    have some : entryLine e ≠ [] := by simp [entryLine]
    have noHeader : ¬(entryLine e).head? = .some '[' := by
      have bracket : '[' ∉ e.key := keys.1.notMem (by decide) (by decide)
      rw [hkey] at bracket
      simp only [entryLine,keyText,hkey,List.cons_append,List.head?_cons,Option.some_inj]
      rintro rfl
      exact bracket List.mem_cons_self
    rw [List.map_cons,List.cons_append,readLines,if_neg some,if_neg noHeader,
      readEntry_entryLine keys.1]
    simp only [List.forall_mem_cons]
    by_cases plain : ∀ c ∈ e.raw, Plain c
    · rw [if_pos plain]
      dsimp only
      rw [ih keys.2]
      by_cases later : ∀ e ∈ entries, ∀ c ∈ e.raw, Plain c
      · rw [if_pos later,if_pos ⟨plain,later⟩,Option.map_map]
        rfl
      · rw [if_neg later,if_neg fun h => later h.2]
        rfl
    · rw [if_neg plain,if_neg fun h => plain h.1]

lemma readLines_tables {d : List Table} (names : ∀ t ∈ d, Dotted t.name)
    (keys : ∀ t ∈ d, ∀ e ∈ t.entries, Dotted e.key) (table : List Char) :
    readLines table (d.flatMap tableLines) =
      if ∀ s ∈ contents d, ∀ c ∈ s.2, Plain c then some (contents d) else none := by
  induction d generalizing table with
  | nil => rfl
  | cons t d ih =>
    rw [List.forall_mem_cons] at names keys
    have first : ('[' :: t.name ++ [']']).head? = some '[' := rfl
    have header : ('[' :: t.name ++ [']']).drop 1 = t.name ++ [']'] := rfl
    have split : (∀ s ∈ contents (t :: d), ∀ c ∈ s.2, Plain c) ↔
        (∀ e ∈ t.entries, ∀ c ∈ e.raw, Plain c) ∧ ∀ s ∈ contents d, ∀ c ∈ s.2, Plain c := by
      rw [contents,List.flatMap_cons,List.forall_mem_append,List.forall_mem_map]
      rfl
    rw [List.flatMap_cons,tableLines,List.append_assoc,readLines_blanks,List.cons_append,readLines,
      if_neg (by simp),if_pos first,header,List.dropLast_concat,readLines_entries keys.1,
      ih names.2 keys.2]
    by_cases plain : ∀ e ∈ t.entries, ∀ c ∈ e.raw, Plain c
    · by_cases later : ∀ s ∈ contents d, ∀ c ∈ s.2, Plain c
      · rw [if_pos plain,if_pos later,if_pos (split.mpr ⟨plain,later⟩)]
        rfl
      · rw [if_pos plain,if_neg later,if_neg fun h => later (split.mp h).2]
        rfl
    · rw [if_neg plain,if_neg fun h => plain (split.mp h).1]

lemma newline_notMem_lines {d : List Table} (legal : Legal d)
    (printable : ∀ s ∈ contents d, ∀ c ∈ s.2, Printable c) :
    ∀ line ∈ d.flatMap tableLines, '\n' ∉ line := by
  intro line hline
  obtain ⟨t,ht,hline⟩ := List.mem_flatMap.mp hline
  rcases List.mem_append.mp hline with hline | hline
  · rw [List.eq_of_mem_replicate hline]
    exact List.not_mem_nil
  rcases List.mem_cons.mp hline with rfl | hline
  · have name : '\n' ∉ t.name := (legal.names t ht).notMem (by decide) (by decide)
    simp [name]
  · obtain ⟨e,he,rfl⟩ := List.mem_map.mp hline
    have key : '\n' ∉ keyText e := notMem_keyText (legal.keys t ht e he) (by decide) (by decide)
    have raw : '\n' ∉ e.raw := by
      intro mem
      have string : ((t.name,e.key),e.raw) ∈ contents d :=
        List.mem_flatMap.mpr ⟨t,ht,List.mem_map_of_mem he⟩
      exact absurd (printable _ string _ mem) (by decide)
    simp [entryLine,key,raw]

/-- The lines of a document are found again. -/
lemma plainReader_text {d : List Table} (legal : Legal d)
    (printable : ∀ s ∈ contents d, ∀ c ∈ s.2, Printable c) : plainReader (text d) =
      if ∀ s ∈ contents d, ∀ c ∈ s.2, Plain c then
        some fun table key => (contents d).lookup (table,key) else none := by
  have read : readLines [] (splitOn '\n' (text d)) =
      if ∀ s ∈ contents d, ∀ c ∈ s.2, Plain c then some (contents d) else none := by
    cases d with
    | nil => rfl
    | cons t d =>
      rw [text,splitOn_joinLines (by simp [tableLines]) (newline_notMem_lines legal printable),
        readLines_tables legal.names legal.keys]
  rw [plainReader,read]
  split_ifs <;> rfl

theorem plainReader_reads : Reader plainReader where
  plain d legal plain := by
    have printable : ∀ s ∈ contents d, ∀ c ∈ s.2, Printable c := fun s hs c hc => (plain s hs c hc).1
    rw [plainReader_text legal printable,if_pos plain]
    exact ⟨_,rfl,fun s hs => Grouping.lookup_of_mem legal.contents_nodup hs⟩
  escaped d m legal printable read _ := by
    rw [plainReader_text legal printable] at read
    split_ifs at read with plain
    exact plain

end PlainReader

end Toml
