import Mathlib.Algebra.Ring.Nat
import Mathlib.Data.List.Basic
import Mathlib.Tactic.Common

/-! Codes that show where they end. What is written one after the other is read back one by one,
without separators. Machine words are such codes. -/
namespace SelfDelimiting
variable {α β : Type}

/-- The decoder finds a value in front of whatever follows its code. -/
def Undoes (decode : List β → Option (α × List β)) (encode : α → List β) (ok : α → Prop) : Prop :=
  ∀ a, ok a → ∀ rest, decode (encode a ++ rest) = some (a,rest)

/-- Decode as often as there is a complete code, at most a number of times. -/
def decodeAll (decode : List β → Option (α × List β)) : ℕ → List β → List α × List β
  | 0, bs => ([],bs)
  | n+1, bs =>
    match decode bs with
    | none => ([],bs)
    | some (a,rest) => (a :: (decodeAll decode n rest).1,(decodeAll decode n rest).2)

section Codes
variable {decode : List β → Option (α × List β)} {encode : α → List β} {ok : α → Prop}

/-- A sequence of codes is read back, and reading stops where nothing can be decoded. -/
lemma Undoes.decodeAll (h : Undoes decode encode ok) {as : List α} (has : ∀ a ∈ as, ok a)
    {rest : List β} (hrest : decode rest = none) {n : ℕ} (hn : as.length ≤ n) :
    decodeAll decode n (as.flatMap encode ++ rest) = (as,rest) := by
  induction as generalizing n with
  | nil =>
    cases n with
    | zero => rfl
    | succ n =>
      rw [List.flatMap_nil,List.nil_append,SelfDelimiting.decodeAll,hrest]
  | cons a as ih =>
    rw [List.forall_mem_cons] at has
    cases n with
    | zero => exact absurd hn (Nat.not_succ_le_zero _)
    | succ n =>
      rw [List.flatMap_cons,List.append_assoc,SelfDelimiting.decodeAll,h a has.1]
      dsimp only
      rw [ih has.2 (Nat.le_of_succ_le_succ hn)]

/-- Different sequences have different encodings. -/
lemma Undoes.flatMap_injective (h : Undoes decode encode ok) (hnil : decode [] = none)
    {as as' : List α} (has : ∀ a ∈ as, ok a) (has' : ∀ a ∈ as', ok a)
    (heq : as.flatMap encode = as'.flatMap encode) : as=as' := by
  have h₁ := h.decodeAll has hnil (Nat.le_max_left as.length as'.length)
  have h₂ := h.decodeAll has' hnil (Nat.le_max_right as.length as'.length)
  rw [heq,h₂] at h₁
  exact (Prod.mk.inj h₁).1.symm

end Codes

/-! ### Words of a number of bytes -/

/-- The bytes of a number, the lowest first. -/
def wordBytes : ℕ → ℕ → List UInt8
  | 0, _ => []
  | k+1, n => UInt8.ofNat n :: wordBytes k (n/256)

def wordValue (bytes : List UInt8) : ℕ := bytes.foldr (fun byte n => byte.toNat+256*n) 0

@[simp] lemma wordBytes_length (k n : ℕ) : (wordBytes k n).length = k := by
  induction k generalizing n with
  | zero => rfl
  | succ k ih => rw [wordBytes,List.length_cons,ih]

lemma wordValue_wordBytes {k n : ℕ} (h : n<256^k) : wordValue (wordBytes k n) = n := by
  induction k generalizing n with
  | zero =>
    rw [Nat.pow_zero] at h
    exact (Nat.lt_one_iff.mp h).symm
  | succ k ih =>
    have hdiv : n/256<256^k := Nat.div_lt_of_lt_mul (by rwa [Nat.pow_succ,Nat.mul_comm] at h)
    have htail : wordValue (wordBytes k (n/256)) = n/256 := ih hdiv
    change (UInt8.ofNat n).toNat+256*wordValue (wordBytes k (n/256)) = n
    rw [htail,UInt8.toNat_ofNat']
    omega

/-- The first word of a list of bytes. -/
def splitWord (k : ℕ) (bytes : List UInt8) : Option (ℕ × List UInt8) :=
  if bytes.length<k then none else some (wordValue (bytes.take k),bytes.drop k)

lemma splitWord_undoes (k : ℕ) : Undoes (splitWord k) (wordBytes k) (· < 256^k) := by
  intro n hn rest
  have hlen : ¬(wordBytes k n ++ rest).length<k := by simp
  rw [splitWord,if_neg hlen,List.take_left' (wordBytes_length k n),
    List.drop_left' (wordBytes_length k n),wordValue_wordBytes hn]

end SelfDelimiting
