import ProteanAmulet.Model.Tracer
import Mathlib.Data.List.Basic

/-! What `get_contract_trace` feeds to its hash: the texts of the numbers of the trace, one after
the other and without separators. A text can be cut again because the letter of `0x` is no digit. -/
namespace ProteanAmulet.ContractTraces

/-- `hex` of Python, on integers of any sign and size. -/
def hex (x : ℤ) : List Char :=
  (if x<0 then ['-'] else []) ++ '0' :: 'x' :: Nat.toDigits 16 x.natAbs

/-- The bytes that have been given to `update` after the loop. -/
def updates (trace : List ℤ) : ByteArray :=
  trace.foldl (fun fed ctrace => fed ++ (String.ofList (hex ctrace)).toUTF8) ByteArray.empty

/-- `get_contract_trace`, over the digest of all bytes that a hasher has been given. -/
def getContractTrace (xxh32 : ByteArray → ℕ) (trace : List ℤ) : ℕ := xxh32 (updates trace)

section Digits

/-- A digit of a hexadecimal number. -/
def IsHexDigit (c : Char) : Prop := ∃ d<16, c = Nat.digitChar d

lemma IsHexDigit.ne {c : Char} (h : IsHexDigit c) : c ≠ 'x' ∧ c ≠ '-' := by
  obtain ⟨d,hd,rfl⟩ := h
  have table : ∀ d<16, Nat.digitChar d ≠ 'x' ∧ Nat.digitChar d ≠ '-' := by decide
  exact table d hd

lemma toDigits_step (n : ℕ) : Nat.toDigits 16 n =
    if n<16 then [Nat.digitChar n] else Nat.toDigits 16 (n/16) ++ [Nat.digitChar (n%16)] :=
  Nat.toDigits_eq_if (by decide)

lemma isHexDigit_of_mem_toDigits {n : ℕ} {c : Char} (h : c ∈ Nat.toDigits 16 n) :
    IsHexDigit c := by
  induction n using Nat.strong_induction_on with
  | _ n ih =>
    rw [toDigits_step] at h
    split at h
    next small => exact ⟨n,small,by simpa using h⟩
    next large =>
      rcases List.mem_append.mp h with earlier | last
      · exact ih (n/16) (by omega) earlier
      · exact ⟨n%16,Nat.mod_lt n (by decide),by simpa using last⟩

lemma digitChar_injective {d e : ℕ} (hd : d<16) (he : e<16)
    (h : Nat.digitChar d = Nat.digitChar e) : d=e := by
  have table : ∀ d<16, ∀ e<16, Nat.digitChar d = Nat.digitChar e → d=e := by decide
  exact table d hd e he h

lemma toDigits_injective : Function.Injective (Nat.toDigits 16) := by
  intro n
  induction n using Nat.strong_induction_on with
  | _ n ih =>
    intro m h
    have more (k : ℕ) : Nat.toDigits 16 k ≠ [] := Nat.toDigits_ne_nil
    rw [toDigits_step n,toDigits_step m] at h
    split at h <;> split at h
    next hn hm => exact digitChar_injective hn hm (List.head_eq_of_cons_eq h)
    next => exact absurd (List.append_inj' (show [] ++ _ = _ from h) rfl).1.symm (more _)
    next => exact absurd (List.append_inj' (show _ = [] ++ _ from h) rfl).1 (more _)
    next hn hm =>
      obtain ⟨high,low⟩ := List.append_inj' h rfl
      have quotient := ih (n/16) (by omega) high
      have remainder := digitChar_injective (Nat.mod_lt n (by decide)) (Nat.mod_lt m (by decide))
        (List.head_eq_of_cons_eq low)
      omega

end Digits

section Texts

/-- What can follow the digits of a number: the end, or the next number. -/
def Starts (rest : List Char) : Prop :=
  rest = [] ∨ (∃ r, rest = '0' :: 'x' :: r) ∨ ∃ r, rest = '-' :: r

lemma starts_flatMap (l : List ℤ) : Starts (l.flatMap hex) := by
  cases l with
  | nil => exact .inl rfl
  | cons x l =>
    by_cases hx : x<0
    · exact .inr (.inr ⟨_,by rw [List.flatMap_cons,hex,if_pos hx]; rfl⟩)
    · exact .inr (.inl ⟨_,by rw [List.flatMap_cons,hex,if_neg hx]; rfl⟩)

/-- A number cannot go on where another number starts. -/
lemma not_starts_digit {c : Char} {d r rest : List Char} (hc : IsHexDigit c)
    (hd : ∀ e ∈ d, IsHexDigit e) (hr : Starts r) (h : Starts rest) : rest ≠ c :: (d ++ r) := by
  rintro rfl
  rcases h with h | ⟨t,h⟩ | ⟨t,h⟩
  · cases h
  · obtain ⟨-,marker⟩ := List.cons.inj h
    cases d with
    | nil => rcases hr with rfl | ⟨u,rfl⟩ | ⟨u,rfl⟩ <;> cases marker
    | cons e d => exact (hd e List.mem_cons_self).ne.1 (List.head_eq_of_cons_eq marker)
  · exact hc.ne.2 (List.head_eq_of_cons_eq h)

/-- The digits end where the next number starts. -/
lemma digits_unique {d d' r r' : List Char} (hd : ∀ e ∈ d, IsHexDigit e)
    (hd' : ∀ e ∈ d', IsHexDigit e) (hr : Starts r) (hr' : Starts r') (h : d ++ r = d' ++ r') :
    d=d' := by
  induction d generalizing d' with
  | nil =>
    cases d' with
    | nil => rfl
    | cons c d' =>
      obtain ⟨hc,hd'⟩ := List.forall_mem_cons.mp hd'
      exact absurd h (not_starts_digit hc hd' hr' hr)
  | cons c d ih =>
    obtain ⟨hc,hd⟩ := List.forall_mem_cons.mp hd
    cases d' with
    | nil => exact absurd h.symm (not_starts_digit hc hd hr hr')
    | cons c' d' =>
      obtain ⟨rfl,tails⟩ := List.cons.inj h
      rw [ih hd (List.forall_mem_cons.mp hd').2 tails]

/-- The first number of a text can be read. -/
lemma hex_append_inj {x y : ℤ} {r r' : List Char} (hr : Starts r) (hr' : Starts r')
    (h : hex x ++ r = hex y ++ r') : x=y ∧ r=r' := by
  have digits (n m : ℕ) (same : Nat.toDigits 16 n ++ r = Nat.toDigits 16 m ++ r') :
      n=m ∧ r=r' := by
    have eq := digits_unique (fun _ => isHexDigit_of_mem_toDigits)
      (fun _ => isHexDigit_of_mem_toDigits) hr hr' same
    rw [eq] at same
    exact ⟨toDigits_injective eq,List.append_cancel_left same⟩
  by_cases hx : x<0 <;> by_cases hy : y<0 <;> simp only [hex,hx,hy,if_true,if_false] at h
  · obtain ⟨abs,rest⟩ := digits x.natAbs y.natAbs (by simpa using h)
    exact ⟨by omega,rest⟩
  · exact absurd (List.head_eq_of_cons_eq h) (by decide)
  · exact absurd (List.head_eq_of_cons_eq h) (by decide)
  · obtain ⟨abs,rest⟩ := digits x.natAbs y.natAbs (by simpa using h)
    exact ⟨by omega,rest⟩

lemma flatMap_hex_injective : Function.Injective (List.flatMap hex) := by
  have nonempty (x : ℤ) (r : List Char) : hex x ++ r ≠ [] := by simp [hex]
  intro l
  induction l with
  | nil =>
    intro l' h
    cases l' with
    | nil => rfl
    | cons y l' => exact absurd h.symm (nonempty y _)
  | cons x l ih =>
    intro l' h
    cases l' with
    | nil => exact absurd h (nonempty x _)
    | cons y l' =>
      obtain ⟨rfl,rest⟩ := hex_append_inj (starts_flatMap l) (starts_flatMap l') h
      rw [ih rest]

/-- The bytes are those of one text. -/
lemma updates_eq (trace : List ℤ) : updates trace = (String.ofList (trace.flatMap hex)).toUTF8 := by
  have general (fed : String) : trace.foldl
      (fun fed ctrace => fed ++ (String.ofList (hex ctrace)).toUTF8) fed.toUTF8 =
        (fed ++ String.ofList (trace.flatMap hex)).toUTF8 := by
    induction trace generalizing fed with
    | nil => simp
    | cons x trace ih =>
      rw [List.foldl_cons,List.flatMap_cons,String.ofList_append,← String.append_assoc,← ih]
      rfl
  simpa [updates] using general ""

/-- Equal digests come from equal traces or from two different inputs of the hash. -/
lemma getContractTrace_merged {xxh32 : ByteArray → ℕ} {l l' : List ℤ}
    (h : getContractTrace xxh32 l = getContractTrace xxh32 l') :
    l=l' ∨ updates l ≠ updates l' ∧ xxh32 (updates l) = xxh32 (updates l') := by
  by_cases bytes : updates l = updates l'
  · rw [updates_eq,updates_eq] at bytes
    exact .inl (flatMap_hex_injective
      (String.ofList_injective (String.toByteArray_inj.mp bytes)))
  · exact .inr ⟨bytes,h⟩

end Texts

/-- The bytes that are hashed determine the trace, so that only a collision of the hash itself can
merge two traces. -/
theorem updates_injective : Function.Injective updates ∧
    ∀ (xxh32 : ByteArray → ℕ) (l l' : List ℤ),
      getContractTrace xxh32 l = getContractTrace xxh32 l' →
        l=l' ∨ updates l ≠ updates l' ∧ xxh32 (updates l) = xxh32 (updates l') := by
  constructor
  · intro l l' h
    rcases @getContractTrace_merged (fun _ => 0) l l' rfl with eq | ⟨ne,-⟩
    · exact eq
    · exact absurd h ne
  · exact fun xxh32 l l' => getContractTrace_merged

/-- The digest that the tracers take. -/
def digest (xxh32 : ByteArray → ℕ) (values : List ℕ) : ℤ :=
  getContractTrace xxh32 (values.map Nat.cast)

/-- Tracers that hash the whole trace merge two traces of different values only by a collision. -/
theorem contractTrace_merged {k : Tracer} (hk : k ≠ .l1d) {xxh32 : ByteArray → ℕ}
    {trace trace' : List Obs}
    (h : Tracer.contractTrace k (digest xxh32) trace = Tracer.contractTrace k (digest xxh32) trace') :
    trace.map Obs.value = trace'.map Obs.value ∨ ∃ b b' : ByteArray, b≠b' ∧ xxh32 b = xxh32 b' := by
  have hashed (t : List Obs) : Tracer.contractTrace k (digest xxh32) t =
      getContractTrace xxh32 ((t.map Obs.value).map Nat.cast) := by
    unfold Tracer.contractTrace
    split
    · exact absurd rfl hk
    · rfl
  rw [hashed,hashed,Nat.cast_inj] at h
  rcases getContractTrace_merged h with same | ⟨ne,collision⟩
  · exact .inl (Nat.cast_injective.list_map same)
  · exact .inr ⟨_,_,ne,collision⟩

end ProteanAmulet.ContractTraces
