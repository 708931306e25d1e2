import Mathlib.Data.List.Prime
import Mathlib.NumberTheory.LucasPrimality

/-!
# Primes with certificates

A chain of Lucas steps proves large numbers prime: a step gives a base whose powers have the
largest possible order, and the prime factors of that order, which are small or proved by earlier
steps.  The check of a chain is a computation on numbers of the size of the primes.
-/

namespace Foundation.PrimeCertificates

/-- The power of `base` by the lowest `bits` bits of an exponent, modulo `modulus`. -/
def powMod (modulus : Nat) : (bits base exponent : Nat) → Nat
  | 0, _, _ => 1 % modulus
  | bits + 1, base, exponent =>
      let rest := powMod modulus bits (base * base % modulus) (exponent / 2)
      if exponent % 2 = 0 then rest else base * rest % modulus

theorem powMod_eq {modulus bits base exponent : Nat} (small : exponent < 2 ^ bits) :
    powMod modulus bits base exponent = base ^ exponent % modulus := by
  induction bits generalizing base exponent with
  | zero =>
      obtain rfl : exponent = 0 := by omega
      rfl
  | succ bits ih =>
      have square : powMod modulus bits (base * base % modulus) (exponent / 2) =
          base ^ (2 * (exponent / 2)) % modulus := by
        rw [ih (by omega), ← Nat.pow_mod, ← sq, ← pow_mul]
      rw [powMod, square]
      split
      · rename_i even
        rw [show 2 * (exponent / 2) = exponent by omega]
      · rename_i odd
        rw [Nat.mul_mod_mod, ← pow_succ', show 2 * (exponent / 2) + 1 = exponent by omega]

/-- A number, a base of the largest order, and the prime factors of that order with repetition. -/
structure LucasStep where
  number : Nat
  base : Nat
  factors : List Nat

/-- The check of one step, for numbers of at most `bits` bits: every factor is among the `primes`
proved before, and the base has no smaller order. -/
def LucasStep.check (bits : Nat) (primes : List Nat) (step : LucasStep) : Bool :=
  decide (2 ≤ step.number ∧ step.number ≤ 2 ^ bits) &&
    step.factors.prod == step.number - 1 &&
    powMod step.number bits step.base (step.number - 1) == 1 &&
    step.factors.all fun factor =>
      primes.contains factor &&
        powMod step.number bits step.base ((step.number - 1) / factor) != 1

theorem natCast_pow_eq_one_iff {number base exponent : Nat} (bits : Nat) (large : 2 ≤ number)
    (small : exponent < 2 ^ bits) :
    (base : ZMod number) ^ exponent = 1 ↔ powMod number bits base exponent = 1 := by
  rw [← Nat.cast_pow, ← Nat.cast_one, ZMod.natCast_eq_natCast_iff, Nat.ModEq,
    Nat.mod_eq_of_lt (show 1 < number from large), powMod_eq small]

theorem LucasStep.prime {bits : Nat} {primes : List Nat} {step : LucasStep}
    (checked : step.check bits primes = true) (proved : ∀ factor ∈ primes, factor.Prime) :
    step.number.Prime := by
  simp only [LucasStep.check, Bool.and_eq_true, decide_eq_true_eq, beq_iff_eq, List.all_eq_true,
    List.contains_iff_mem, bne_iff_ne] at checked
  obtain ⟨⟨⟨⟨large, small⟩, product⟩, full⟩, parts⟩ := checked
  apply lucas_primality step.number step.base
  · rw [natCast_pow_eq_one_iff bits large (by omega), full]
  · intro factor factorPrime divides
    rw [← product] at divides
    obtain ⟨found, member, same⟩ := (Prime.dvd_prod_iff factorPrime.prime).mp divides
    obtain ⟨known, order⟩ := parts found member
    obtain rfl := (Nat.prime_dvd_prime_iff_eq factorPrime (proved found known)).mp same
    have exponent := Nat.div_le_self (step.number - 1) factor
    rwa [ne_eq, natCast_pow_eq_one_iff bits large (by omega)]

/-- The check of a chain: the numbers of the steps before are primes for the steps behind. -/
def checkChain (bits : Nat) : (primes : List Nat) → List LucasStep → Bool
  | _, [] => true
  | primes, step :: steps => step.check bits primes && checkChain bits (step.number :: primes) steps

/-- Every number of a checked chain is prime. -/
theorem prime_of_checkChain {bits : Nat} {primes : List Nat} {steps : List LucasStep}
    (checked : checkChain bits primes steps = true) (proved : ∀ factor ∈ primes, factor.Prime) :
    ∀ step ∈ steps, step.number.Prime := by
  induction steps generalizing primes with
  | nil => simp
  | cons step steps ih =>
      rw [checkChain, Bool.and_eq_true] at checked
      have prime := LucasStep.prime checked.1 proved
      exact List.forall_mem_cons.mpr
        ⟨prime, ih checked.2 (List.forall_mem_cons.mpr ⟨prime, proved⟩)⟩

end Foundation.PrimeCertificates
