import Mathlib.Data.List.Basic

/-! Texts as lists of characters, with the operations that scripts use to read them line by line. -/
namespace Text

/-- The characters of a text are tried one by one, not those of all Unicode. -/
instance decidableAll {p : Char → Prop} [DecidablePred p] (l : List Char) :
    Decidable (∀ c ∈ l, p c) :=
  List.decidableBAll p l

instance decidableFirst {p : Char → Prop} [DecidablePred p] (first : Option Char) :
    Decidable (∀ c ∈ first, p c) :=
  Option.decidableForallMem first

/-- White space, in all of Unicode. -/
def isSpace (c : Char) : Bool :=
  let n := c.toNat
  (9 ≤ n && n ≤ 13) || (0x1c ≤ n && n ≤ 0x20) || n = 0x85 || n = 0xa0 || n = 0x1680 ||
    (0x2000 ≤ n && n ≤ 0x200a) || n = 0x2028 || n = 0x2029 || n = 0x202f || n = 0x205f || n = 0x3000

def dropWhileEnd (p : Char → Bool) (l : List Char) : List Char := (l.reverse.dropWhile p).reverse

/-- Without the white space at both ends. -/
def strip (l : List Char) : List Char := dropWhileEnd isSpace (l.dropWhile isSpace)

/-- The lines of a text, each with its newline; the last one may have none. -/
def lines : List Char → List (List Char)
  | [] => []
  | c :: text =>
    if c = '\n' then [c] :: lines text
    else match lines text with
      | [] => [[c]]
      | line :: rest => (c :: line) :: rest

/-- The first word and the text behind it. -/
def takeWord (l : List Char) : List Char × List Char := l.span fun c => !isSpace c

/-- The words between white space, with a bound on their number. -/
def wordsAux : ℕ → List Char → List (List Char)
  | 0, _ => []
  | n+1, l =>
    match l.dropWhile isSpace with
    | [] => []
    | c :: rest => (takeWord (c :: rest)).1 :: wordsAux n (takeWord (c :: rest)).2

/-- The words between white space. -/
def words (l : List Char) : List (List Char) := wordsAux l.length l

/-- The parts between the occurrences of a character. -/
def splitOn (sep : Char) : List Char → List (List Char)
  | [] => [[]]
  | c :: rest =>
    if c = sep then [] :: splitOn sep rest
    else match splitOn sep rest with
      | [] => [[c]]
      | part :: parts => (c :: part) :: parts

/-- `'\n'.join(parts)`. -/
def joinLines : List (List Char) → List Char
  | [] => []
  | [line] => line
  | line :: rest => line ++ '\n' :: joinLines rest

/-- All occurrences of a character are replaced. -/
def replaceChar (c : Char) (t l : List Char) : List Char := l.flatMap fun x => if x = c then t else [x]

/-- The text before the last occurrence of a character. -/
def beforeLast (sep : Char) (l : List Char) : List Char :=
  ((l.reverse.dropWhile (· ≠ sep)).drop 1).reverse

/-- The rest behind a prefix, if the text starts with it. -/
def afterPrefix (start l : List Char) : Option (List Char) :=
  if start.isPrefixOf l then some (l.drop start.length) else none

lemma mem_afterPrefix {start l s : List Char} : s ∈ afterPrefix start l ↔ l = start ++ s := by
  rw [afterPrefix,Option.mem_def]
  split_ifs with h
  · obtain ⟨t,rfl⟩ := List.isPrefixOf_iff_prefix.mp h
    rw [List.drop_left,Option.some_inj,List.append_right_inj]
  · simp only [false_iff]
    rintro rfl
    exact h (List.isPrefixOf_iff_prefix.mpr (List.prefix_append _ _))

section Lines

lemma lines_append {line : List Char} (h : '\n' ∉ line) (text : List Char) :
    lines (line ++ '\n' :: text) = (line ++ ['\n']) :: lines text := by
  induction line with
  | nil => exact if_pos rfl
  | cons c line ih =>
    rw [List.mem_cons,not_or] at h
    rw [List.cons_append,lines,if_neg (Ne.symm h.1),ih h.2]
    rfl

/-- A text is read as the lines that it was written as. -/
lemma lines_flatMap {ls : List (List Char)} (h : ∀ line ∈ ls, '\n' ∉ line) :
    lines (ls.flatMap (· ++ ['\n'])) = ls.map (· ++ ['\n']) := by
  induction ls with
  | nil => rfl
  | cons line ls ih =>
    rw [List.forall_mem_cons] at h
    rw [List.flatMap_cons,List.append_assoc,List.singleton_append,lines_append h.1,ih h.2,List.map_cons]

variable {sep : Char} {l : List Char}

lemma splitOn_ne_nil (sep : Char) (l : List Char) : splitOn sep l ≠ [] := by
  cases l with
  | nil => exact List.cons_ne_nil _ _
  | cons c l =>
    rw [splitOn]
    split_ifs
    · exact List.cons_ne_nil _ _
    · split <;> exact List.cons_ne_nil _ _

lemma splitOn_append (h : sep ∉ l) (rest : List Char) :
    splitOn sep (l ++ sep :: rest) = l :: splitOn sep rest := by
  induction l with
  | nil => exact if_pos rfl
  | cons c l ih =>
    rw [List.mem_cons,not_or] at h
    rw [List.cons_append,splitOn,if_neg (Ne.symm h.1),ih h.2]

lemma splitOn_of_not_mem (h : sep ∉ l) : splitOn sep l = [l] := by
  induction l with
  | nil => rfl
  | cons c l ih =>
    rw [List.mem_cons,not_or] at h
    rw [splitOn,if_neg (Ne.symm h.1),ih h.2]

lemma splitOn_joinLines {ls : List (List Char)} (some : ls ≠ []) (h : ∀ line ∈ ls, '\n' ∉ line) :
    splitOn '\n' (joinLines ls) = ls := by
  induction ls with
  | nil => exact absurd rfl some
  | cons line ls ih =>
    rw [List.forall_mem_cons] at h
    cases ls with
    | nil => exact splitOn_of_not_mem h.1
    | cons next ls =>
      rw [joinLines,splitOn_append h.1,ih (List.cons_ne_nil _ _) h.2]
      exact List.cons_ne_nil _ _

lemma joinLines_splitOn (l : List Char) : joinLines (splitOn '\n' l) = l := by
  induction l with
  | nil => rfl
  | cons c l ih =>
    rw [splitOn]
    cases hl : splitOn '\n' l with
    | nil => exact absurd hl (splitOn_ne_nil '\n' l)
    | cons part parts =>
      rw [hl] at ih
      split_ifs with hc
      · rw [joinLines,ih,hc,List.nil_append]
        exact List.cons_ne_nil _ _
      · cases parts with
        | nil => exact congrArg (c :: ·) ih
        | cons _ _ => exact congrArg (c :: ·) ih

lemma joinLines_cons (line : List Char) {ls : List (List Char)} (some : ls ≠ []) :
    joinLines (line :: ls) = line ++ '\n' :: joinLines ls := by
  cases ls with
  | nil => exact absurd rfl some
  | cons _ _ => rfl

lemma joinLines_append {ls ls' : List (List Char)} (some : ls ≠ []) (some' : ls' ≠ []) :
    joinLines (ls ++ ls') = joinLines ls ++ '\n' :: joinLines ls' := by
  induction ls with
  | nil => exact absurd rfl some
  | cons line ls ih =>
    by_cases last : ls = []
    · rw [last,List.singleton_append,joinLines_cons line some',joinLines]
    · rw [List.cons_append,joinLines_cons line (List.append_ne_nil_of_left_ne_nil last _),ih last,
        joinLines_cons line last,List.append_assoc,List.cons_append]

/-- Lines that are joined again may be cut at their own newlines before. -/
lemma joinLines_flatMap_splitOn (ls : List (List Char)) :
    joinLines (ls.flatMap (splitOn '\n')) = joinLines ls := by
  induction ls with
  | nil => rfl
  | cons line ls ih =>
    by_cases last : ls = []
    · rw [last,List.flatMap_singleton,joinLines_splitOn,joinLines]
    · have some : ls.flatMap (splitOn '\n') ≠ [] := by
        obtain ⟨line',ls,rfl⟩ := List.exists_cons_of_ne_nil last
        rw [List.flatMap_cons]
        exact List.append_ne_nil_of_left_ne_nil (splitOn_ne_nil _ _) _
      rw [List.flatMap_cons,joinLines_append (splitOn_ne_nil _ _) some,ih,joinLines_splitOn,
        joinLines_cons line last]

/-- The first part ends where the separator begins. -/
lemma splitOn_head (sep : Char) (l : List Char) :
    (splitOn sep l).getD 0 [] = l.takeWhile (· ≠ sep) := by
  induction l with
  | nil => rfl
  | cons c l ih =>
    rw [splitOn]
    split_ifs with hc
    · simp [hc]
    · obtain ⟨part,parts,hl⟩ := List.exists_cons_of_ne_nil (splitOn_ne_nil sep l)
      rw [hl] at ih ⊢
      simp only [List.getD_cons_zero] at ih ⊢
      rw [ih,List.takeWhile_cons_of_pos (by simpa using hc)]

/-- Every character is a separator or stands in a part. -/
lemma mem_splitOn {c : Char} (h : c ∈ l) : c = sep ∨ ∃ part ∈ splitOn sep l, c ∈ part := by
  induction l with
  | nil => cases h
  | cons d l ih =>
    obtain ⟨part,parts,hl⟩ := List.exists_cons_of_ne_nil (splitOn_ne_nil sep l)
    rw [splitOn]
    rw [hl] at ih ⊢
    rcases List.mem_cons.mp h with rfl | h
    · by_cases hc : c = sep
      · exact Or.inl hc
      · exact Or.inr ⟨_,by rw [if_neg hc]; exact List.mem_cons_self,List.mem_cons_self⟩
    · rcases ih h with rfl | ⟨p,hp,hc⟩
      · exact Or.inl rfl
      · apply Or.inr
        split_ifs
        · exact ⟨p,List.mem_cons_of_mem _ hp,hc⟩
        · rcases List.mem_cons.mp hp with rfl | hp
          · exact ⟨_,List.mem_cons_self,List.mem_cons_of_mem d hc⟩
          · exact ⟨p,List.mem_cons_of_mem _ hp,hc⟩

end Lines

/-- A piece of a text is part of it, and the first one is where it starts. -/
lemma infix_of_mem_splitOnP (p : Char → Bool) (text : List Char) :
    (∀ piece ∈ text.splitOnP p, piece <:+: text) ∧
      ∀ piece, (text.splitOnP p).head? = some piece → piece <+: text := by
  induction text with
  | nil => simp
  | cons c text ih =>
    obtain ⟨hd,tl,hsplit⟩ := List.exists_cons_of_ne_nil (List.splitOnP_ne_nil p text)
    rw [hsplit] at ih
    obtain ⟨pieces,start⟩ := ih
    rw [List.splitOnP_cons_eq_if_modifyHead,hsplit]
    split_ifs with hc
    · constructor
      · intro piece hpiece
        rcases List.mem_cons.mp hpiece with rfl | hpiece
        · exact List.nil_infix
        · exact List.infix_cons (pieces piece hpiece)
      · intro piece hpiece
        cases hpiece
        exact List.nil_prefix
    · have first : c :: hd <+: c :: text := List.prefix_cons_inj c |>.mpr (start hd rfl)
      constructor
      · intro piece hpiece
        rcases List.mem_cons.mp hpiece with rfl | hpiece
        · exact first.isInfix
        · exact List.infix_cons (pieces piece (List.mem_cons_of_mem hd hpiece))
      · intro piece hpiece
        cases hpiece
        exact first

end Text
