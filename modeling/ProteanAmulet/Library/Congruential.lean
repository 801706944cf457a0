import Mathlib.Data.Int.ModEq
import Mathlib.NumberTheory.Multiplicity

/-! Linear congruential sequences modulo a power of two: with a multiplier of the form `4n+1` and an
odd increment, the sequence comes back only after the full period. -/
namespace Congruential
variable {a c : ℤ}

def step (a c x : ℤ) : ℤ := a*x+c

lemma step_modEq {n x y : ℤ} (h : x ≡ y [ZMOD n]) : step a c x ≡ step a c y [ZMOD n] :=
  (h.mul_left a).add_right c

lemma iterate_modEq {n x y : ℤ} (h : x ≡ y [ZMOD n]) (m : ℕ) :
    (step a c)^[m] x ≡ (step a c)^[m] y [ZMOD n] := by
  induction m generalizing x y with
  | zero => exact h
  | succ m ih => exact ih (step_modEq h)

/-- The distance that `m` steps cover. -/
lemma sub_mul_iterate (x : ℤ) (m : ℕ) :
    (a-1)*((step a c)^[m] x-x) = (a^m-1)*((a-1)*x+c) := by
  induction m with
  | zero => simp
  | succ m ih =>
    rw [Function.iterate_succ_apply',step]
    calc (a-1)*(a*(step a c)^[m] x+c-x)
        = a*((a-1)*((step a c)^[m] x-x))+(a-1)*((a-1)*x+c) := by ring
      _ = (a^(m+1)-1)*((a-1)*x+c) := by
        rw [ih]
        ring

lemma emultiplicity_return (ha : 4 ∣ a-1) (hne : a ≠ 1) (hc : Odd c) (x : ℤ) (m : ℕ) :
    emultiplicity 2 ((step a c)^[m] x-x) = emultiplicity (2 : ℤ) m := by
  have odd : ¬2 ∣ a := by
    obtain ⟨b,hb⟩ := ha
    omega
  have unit : ¬2 ∣ (a-1)*x+c := by
    obtain ⟨b,hb⟩ := ha
    obtain ⟨d,rfl⟩ := hc
    rw [hb]
    intro ⟨e,he⟩
    have : 4*b*x = 2*(2*(b*x)) := by ring
    omega
  have power : emultiplicity 2 (a^m-1) = emultiplicity 2 (a-1)+emultiplicity (2 : ℤ) m := by
    simpa using Int.two_pow_sub_pow' (x := a) (y := 1) m ha odd
  have total : emultiplicity 2 (a-1)+emultiplicity 2 ((step a c)^[m] x-x) =
      emultiplicity 2 (a-1)+emultiplicity (2 : ℤ) m := by
    rw [← emultiplicity_mul Int.prime_two,sub_mul_iterate,emultiplicity_mul Int.prime_two,power,
      emultiplicity_eq_zero.mpr unit,add_zero]
  have finite : emultiplicity 2 (a-1) ≠ ⊤ := by
    rw [← finiteMultiplicity_iff_emultiplicity_ne_top]
    exact Int.finiteMultiplicity_iff.mpr ⟨by decide,sub_ne_zero.mpr hne⟩
  exact ENat.add_right_injective_of_ne_top finite total

/-- The sequence is back modulo `2^k` exactly after a multiple of `2^k` steps. -/
theorem return_iff (ha : 4 ∣ a-1) (hne : a ≠ 1) (hc : Odd c) (x : ℤ) (k m : ℕ) :
    (step a c)^[m] x ≡ x [ZMOD 2^k] ↔ 2^k ∣ m := by
  have distance : 2^k ∣ (step a c)^[m] x-x ↔ (2^k : ℤ) ∣ m := by
    rw [pow_dvd_iff_le_emultiplicity,pow_dvd_iff_le_emultiplicity,emultiplicity_return ha hne hc]
  rw [Int.modEq_comm,Int.modEq_iff_dvd,distance]
  norm_cast

end Congruential
