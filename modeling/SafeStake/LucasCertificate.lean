import Mathlib

/-! # Lucas certificates of primality

`p` is prime when some `a` has order `p - 1` modulo `p` (`lucas_primality`).  A
certificate names `a` and the factorization of `p - 1` into primes; checking it takes one
modular power per prime factor, computed by repeated squaring (`powMod`), which the kernel
evaluates on numbers of hundreds of bits.
-/

namespace LucasCertificate

/-- `b ^ e % m` by repeated squaring, over the `k` low bits of `e`. -/
def powMod (m : ℕ) : ℕ → ℕ → ℕ → ℕ
  | 0, _, _ => 1 % m
  | k + 1, b, e =>
    let r := powMod m k (b * b % m) (e / 2)
    if e % 2 = 1 then b * r % m else r

theorem powMod_eq (m : ℕ) : ∀ (k b e : ℕ), e < 2 ^ k → powMod m k b e = b ^ e % m
  | 0, b, e, he => by
    have he0 : e = 0 := by simpa using he
    simp [powMod, he0]
  | k + 1, b, e, he => by
    have he2 : e / 2 < 2 ^ k := by
      rw [pow_succ] at he
      omega
    -- the squares carry the high bits, the low bit decides one more factor `b`
    have ih : powMod m k (b * b % m) (e / 2) = (b * b) ^ (e / 2) % m := by
      rw [powMod_eq m k _ _ he2, ← Nat.pow_mod]
    have hsquare : (b * b) ^ (e / 2) = b ^ (2 * (e / 2)) := by
      rw [← pow_two, ← pow_mul]
    simp only [powMod, ih]
    split
    · rename_i hodd
      have he : e = 2 * (e / 2) + 1 := by omega
      rw [Nat.mul_mod_mod, hsquare, ← pow_succ', ← he]
    · rename_i heven
      have he : e = 2 * (e / 2) := by omega
      rw [hsquare, ← he]

/-- A prime that divides a product of prime powers is one of the primes. -/
theorem mem_of_prime_dvd_prod {q : ℕ} (hq : q.Prime) :
    ∀ (fs : List (ℕ × ℕ)), (∀ f ∈ fs, f.1.Prime) → q ∣ (fs.map fun f => f.1 ^ f.2).prod →
      q ∈ fs.map Prod.fst
  | [], _, hdvd => by
    simp only [List.map_nil, List.prod_nil, Nat.dvd_one] at hdvd
    exact absurd hdvd hq.one_lt.ne'
  | f :: fs, hfs, hdvd => by
    rw [List.map_cons, List.prod_cons] at hdvd
    rcases (Nat.Prime.dvd_mul hq).mp hdvd with hf | hrest
    · have hqf : q = f.1 :=
        (Nat.prime_dvd_prime_iff_eq hq (hfs f (List.mem_cons_self ..))).mp (hq.dvd_of_dvd_pow hf)
      simp [hqf]
    · have ih := mem_of_prime_dvd_prod hq fs (fun g hg => hfs g (List.mem_cons_of_mem _ hg)) hrest
      exact List.mem_cons_of_mem _ ih

/-- A number whose residue is 1 leaves remainder 1. -/
theorem mod_eq_one_of_cast_eq_one {p n : ℕ} (hp : 2 ≤ p) (h : ((n : ℕ) : ZMod p) = 1) :
    n % p = 1 := by
  have hval := congrArg ZMod.val h
  rw [ZMod.val_natCast, ZMod.val_one_eq_one_mod, Nat.mod_eq_of_lt hp] at hval
  exact hval

/-- **Lucas's test with a certificate**: `a` has order `p - 1` modulo `p`, checked at every
prime factor of `p - 1` that the factorization lists. -/
theorem prime_of_certificate {p a k : ℕ} (fs : List (ℕ × ℕ)) (hp : 2 ≤ p) (hk : p - 1 < 2 ^ k)
    (hfs : ∀ f ∈ fs, f.1.Prime) (hprod : (fs.map fun f => f.1 ^ f.2).prod = p - 1)
    (hpow : powMod p k a (p - 1) = 1) (hord : ∀ f ∈ fs, powMod p k a ((p - 1) / f.1) ≠ 1) :
    p.Prime := by
  apply lucas_primality p (a : ZMod p)
  · rw [← Nat.cast_pow, ← ZMod.natCast_mod, ← powMod_eq p k a _ hk, hpow, Nat.cast_one]
  · intro q hq hdvd hone
    obtain ⟨f, hf, rfl⟩ := List.mem_map.mp (mem_of_prime_dvd_prod hq fs hfs (hprod ▸ hdvd))
    have hlt : (p - 1) / f.1 < 2 ^ k := Nat.lt_of_le_of_lt (Nat.div_le_self _ _) hk
    apply hord f hf
    rw [powMod_eq p k a _ hlt]
    exact mod_eq_one_of_cast_eq_one hp (by rw [Nat.cast_pow]; exact hone)

end LucasCertificate
