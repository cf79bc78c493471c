import Mathlib.GroupTheory.OrderOfElement
import Mathlib.FieldTheory.Finite.Basic
import Mathlib.Data.ZMod.Basic
import Mathlib.Tactic

/-!
# Primes by Pocklington's test

A number `n` is prime if some powers modulo `n` are what they are for a primitive root, and
enough prime factors of `n - 1` are known: their product is then a divisor of `p - 1` for
every prime divisor `p` of `n` (`dvd_pred`), so that `p` is above the root of `n` (`prime`).

The powers are computed by squaring (`powMod`); a chain of numbers, each with prime factors
from earlier in the chain, is checked by evaluation (`primes_of_check`).
-/

namespace Pocklington

/-! ## Powers -/

/-- The power `a ^ n` modulo `m`, by squaring, for exponents of `k` bits. -/
def powMod (m a : ℕ) : (k n : ℕ) → ℕ
  | 0, _ => 1 % m
  | k + 1, n =>
    let r := powMod m a k (n / 2)
    if n % 2 = 0 then r * r % m else r * r % m * a % m

theorem powMod_eq (m a : ℕ) {k n : ℕ} (hn : n < 2 ^ k) : powMod m a k n = a ^ n % m := by
  induction k generalizing n with
  | zero =>
    obtain rfl : n = 0 := by simpa using hn
    rfl
  | succ k ih =>
    have hhalf : n / 2 < 2 ^ k := by rw [pow_succ] at hn; omega
    have hsq : a ^ (n / 2) % m * (a ^ (n / 2) % m) % m = a ^ (2 * (n / 2)) % m := by
      rw [← Nat.mul_mod, ← pow_add, two_mul]
    rw [powMod, ih hhalf, hsq]
    split_ifs with heven
    · rw [show 2 * (n / 2) = n by omega]
    · rw [Nat.mod_mul_mod, ← pow_succ, show 2 * (n / 2) + 1 = n by omega]

/-! ## The test -/

/-- A prime factor `q` of `n - 1` divides `p - 1`, for every prime divisor `p` of `n`. -/
theorem dvd_pred {n p q a : ℕ} (hn : 1 < n) (hp : p.Prime) (hpn : p ∣ n) (hq : q.Prime) (hqn : q ∣ n - 1)
    (hpow : a ^ (n - 1) % n = 1) (hroot : (a ^ ((n - 1) / q) % n + (n - 1)).Coprime n) :
    q ∣ p - 1 := by
  have := Fact.mk hp
  have hone : (a : ZMod p) ^ (n - 1) = 1 := by
    have hmod := congrArg (Nat.cast : ℕ → ZMod p) (Nat.mod_mod_of_dvd (a ^ (n - 1)) hpn)
    rw [hpow] at hmod
    simpa using hmod.symm
  have hne : (a : ZMod p) ^ ((n - 1) / q) ≠ 1 := by
    intro h
    -- Otherwise `p` divided both numbers that have no common factor.
    refine hp.one_lt.ne' (Nat.dvd_one.1 (hroot ▸ Nat.dvd_gcd ?_ hpn))
    rw [← ZMod.natCast_eq_zero_iff]
    have hcast : ((a ^ ((n - 1) / q) % n : ℕ) : ZMod p) = 1 := by
      rw [← h, ← Nat.cast_pow, ZMod.natCast_eq_natCast_iff']
      exact Nat.mod_mod_of_dvd _ hpn
    have hzero : (n : ZMod p) = 0 := (ZMod.natCast_eq_zero_iff n p).2 hpn
    rw [Nat.cast_add, hcast, Nat.cast_sub hn.le, hzero, Nat.cast_one]
    ring
  -- The order of `a` has the factor `q`, and divides `p - 1`.
  have horder : orderOf (a : ZMod p) ∣ n - 1 := orderOf_dvd_of_pow_eq_one hone
  have hqorder : q ∣ orderOf (a : ZMod p) := by
    by_contra hnot
    have hcoprime : (orderOf (a : ZMod p)).Coprime q :=
      ((Nat.Prime.coprime_iff_not_dvd hq).2 hnot).symm
    rw [← Nat.mul_div_cancel' hqn] at horder
    exact hne (orderOf_dvd_iff_pow_eq_one.1 (hcoprime.dvd_of_dvd_mul_left horder))
  have hazero : (a : ZMod p) ≠ 0 := by
    rintro h
    rw [h, zero_pow (fun h0 => hne (by rw [h, h0, Nat.zero_div, pow_zero]))] at hone
    exact zero_ne_one hone
  exact hqorder.trans (orderOf_dvd_of_pow_eq_one (ZMod.pow_card_sub_one_eq_one hazero))

/-- Pocklington's test. -/
theorem prime {n a : ℕ} {qs : List ℕ} (hn : 1 < n) (hprime : ∀ q ∈ qs, q.Prime) (hnodup : qs.Nodup)
    (hdvd : ∀ q ∈ qs, q ∣ n - 1) (hpow : a ^ (n - 1) % n = 1)
    (hroot : ∀ q ∈ qs, (a ^ ((n - 1) / q) % n + (n - 1)).Coprime n)
    (hlt : n < (qs.prod + 1) ^ 2) : n.Prime := by
  by_contra hnot
  have hp := Nat.minFac_prime hn.ne'
  have hle := Nat.minFac_sq_le_self (Nat.zero_lt_of_lt hn) hnot
  have hprod : qs.prod ∣ n.minFac - 1 := by
    have hprods := Finset.prod_primes_dvd (s := qs.toFinset) (n.minFac - 1)
      (fun q hq => (hprime q (List.mem_toFinset.1 hq)).prime)
      (fun q hq => dvd_pred hn hp n.minFac_dvd (hprime q (List.mem_toFinset.1 hq))
        (hdvd q (List.mem_toFinset.1 hq)) hpow (hroot q (List.mem_toFinset.1 hq)))
    rwa [List.prod_toFinset _ hnodup, List.map_id'] at hprods
  have hprodlt : qs.prod < n.minFac :=
    (Nat.le_of_dvd (Nat.sub_pos_of_lt hp.one_lt) hprod).trans_lt (Nat.pred_lt hp.ne_zero)
  have hsq : (qs.prod + 1) ^ 2 ≤ n.minFac ^ 2 := Nat.pow_le_pow_left hprodlt 2
  omega

/-! ## Chains -/

/-- A number, with the base of its powers and prime factors of what is before it. -/
structure Entry where
  n : ℕ
  a : ℕ
  factors : List ℕ

/-- Tests an entry for numbers of `k` bits, the factors being among `primes`. -/
def Entry.check (k : ℕ) (primes : List ℕ) (e : Entry) : Bool :=
  1 < e.n && e.n < 2 ^ k && e.factors.Nodup && e.n < (e.factors.prod + 1) ^ 2 &&
    powMod e.n e.a k (e.n - 1) == 1 &&
    e.factors.all fun q => primes.contains q && (e.n - 1) % q == 0 &&
      (powMod e.n e.a k ((e.n - 1) / q) + (e.n - 1)).gcd e.n == 1

theorem Entry.prime_of_check {k : ℕ} {primes : List ℕ} (hprimes : ∀ q ∈ primes, q.Prime)
    {e : Entry} (h : e.check k primes = true) : e.n.Prime := by
  simp only [Entry.check, Bool.and_eq_true, decide_eq_true_eq, beq_iff_eq, List.all_eq_true,
    List.contains_iff_mem] at h
  obtain ⟨⟨⟨⟨⟨hn, hk⟩, hnodup⟩, hlt⟩, hpow⟩, hfactors⟩ := h
  rw [powMod_eq _ _ (by omega)] at hpow
  refine prime hn (fun q hq => hprimes q (hfactors q hq).1.1) hnodup
    (fun q hq => Nat.dvd_of_mod_eq_zero (hfactors q hq).1.2) hpow (fun q hq => ?_) hlt
  have hroot := (hfactors q hq).2
  rwa [powMod_eq _ _ ((Nat.div_le_self _ _).trans_lt (by omega))] at hroot

/-- Tests a chain, the numbers of which are primes for what comes after them. -/
def check (k : ℕ) : (primes : List ℕ) → List Entry → Bool
  | _, [] => true
  | primes, e :: es => e.check k primes && check k (e.n :: primes) es

/-- The numbers of a chain are prime. -/
theorem primes_of_check {k : ℕ} {primes : List ℕ} (hprimes : ∀ q ∈ primes, q.Prime)
    {es : List Entry} (h : check k primes es = true) : ∀ e ∈ es, e.n.Prime := by
  induction es generalizing primes with
  | nil => simp
  | cons e es ih =>
    rw [check, Bool.and_eq_true] at h
    have he := Entry.prime_of_check hprimes h.1
    rw [List.forall_mem_cons]
    exact ⟨he, ih (List.forall_mem_cons.2 ⟨he, hprimes⟩) h.2⟩

end Pocklington
