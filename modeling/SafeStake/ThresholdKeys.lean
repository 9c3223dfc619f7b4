import SafeStake.ByteCodec
import SafeStake.Interpolation
import SafeStake.LucasCertificate

/-! # Threshold BLS keys

`GenericThresholdSignature::key_split_with_poly` shares a BLS secret key among operators
with Shamir's scheme: a random polynomial of degree below the threshold whose constant
term is the key, evaluated at each operator's id over `BigInt` and reduced modulo the
group order `MODULUS`.  `BlstThresholdSignature::unsafe_aggregate` recombines the partial
signatures of `threshold` operators with the Lagrange coefficients `lagrange_coeffs`
computes.

Scalars are `ZMod modulus`, a field once `modulus_prime` is checked; G1 and G2 are modules
over it, and a partial signature is a share times the hashed message.  Point
(de)serialization round trips are left out: they are the identity on points of the
groups.

`key_split_reconstructs`: every `threshold` distinct ids recombine the shares into the
key, and their partial signatures into the key's signature.
-/

open scoped Polynomial

namespace SafeStake.Threshold

open ByteCodec Interpolation

/-! ## Scalars -/

/-- `MODULUS`: the order of the groups of BLS12-381. -/
def modulus : ℕ := 0x73eda753299d7d483339d80809a1d80553bda402fffe5bfeffffffff00000001

/-- The factorization of `modulus - 1` into primes, with their exponents. -/
def modulusFactors : List (ℕ × ℕ) :=
  [(2, 32), (3, 1), (11, 1), (19, 1), (10177, 1), (125527, 1), (859267, 1), (906349, 2),
   (2508409, 1), (2529403, 1), (52437899, 1), (254760293, 2)]

/-- `modulus` is prime: 7 has order `modulus - 1` modulo it. -/
theorem modulus_prime : modulus.Prime := by
  refine LucasCertificate.prime_of_certificate (a := 7) (k := 256) modulusFactors
    (by norm_num [modulus]) (by norm_num [modulus]) ?_ (by decide +kernel) (by decide +kernel)
    (by decide +kernel)
  intro f hf
  simp only [modulusFactors, List.mem_cons, List.not_mem_nil, or_false] at hf
  rcases hf with rfl | rfl | rfl | rfl | rfl | rfl | rfl | rfl | rfl | rfl | rfl | rfl <;> norm_num

instance : Fact modulus.Prime := ⟨modulus_prime⟩

theorem two_pow_64_lt_modulus : 2 ^ 64 < modulus := by norm_num [modulus]

theorem modulus_lt_two_pow_256 : modulus < 2 ^ 256 := by norm_num [modulus]

/-- The modulus as the `BigInt` that `reduce` takes the remainder by. -/
theorem modulus_int_pos : (0 : ℤ) < (modulus : ℤ) := by norm_num [modulus]

/-- `u64_to_blst_scalar`. -/
def u64ToBlstScalar (v : UInt64) : ZMod modulus := (v.toNat : ZMod modulus)

/-- Distinct ids are distinct scalars: they lie below `2 ^ 64`, far below the modulus. -/
theorem u64ToBlstScalar_injective : Function.Injective u64ToBlstScalar := by
  intro a b h
  have hval := congrArg ZMod.val h
  simp only [u64ToBlstScalar, ZMod.val_natCast] at hval
  have ha := a.toNat_lt
  have hb := b.toNat_lt
  have hr := two_pow_64_lt_modulus
  rw [Nat.mod_eq_of_lt (by omega), Nat.mod_eq_of_lt (by omega)] at hval
  exact UInt64.toNat_inj.mp hval

/-- `SecretKey` of the `bls` crate: a scalar in `[1, modulus)`. -/
structure SecretKey where
  scalar : ℕ
  pos : 0 < scalar
  lt : scalar < modulus
deriving DecidableEq

/-- `SecretKey::serialize`: 32 bytes, most significant first. -/
def SecretKey.serialize (sk : SecretKey) : List UInt8 := (leBytes 32 sk.scalar).reverse

/-- `SecretKey::deserialize`: 32 bytes, most significant first, of a scalar in
`[1, modulus)`. -/
def SecretKey.deserialize (bytes : List UInt8) : Option SecretKey :=
  if h : bytes.length = 32 ∧ 0 < beNat bytes ∧ beNat bytes < modulus then
    some ⟨beNat bytes, h.2.1, h.2.2⟩
  else none

theorem SecretKey.beNat_serialize (sk : SecretKey) : beNat sk.serialize = sk.scalar := by
  have hlt : sk.scalar < 256 ^ 32 := Nat.lt_trans sk.lt (by norm_num [modulus])
  rw [SecretKey.serialize, beNat, List.reverse_reverse, leNat_leBytes, Nat.mod_eq_of_lt hlt]

theorem SecretKey.deserialize_scalar {bytes : List UInt8} {sk : SecretKey}
    (h : SecretKey.deserialize bytes = some sk) : sk.scalar = beNat bytes := by
  unfold SecretKey.deserialize at h
  split at h
  · cases h
    rfl
  · cases h

/-- A scalar in `[1, modulus)`, in as few bytes as it takes and padded to 32, reads back. -/
theorem SecretKey.deserialize_padFront {v : ℕ} (hpos : 0 < v) (hlt : v < modulus) :
    SecretKey.deserialize (padFront 32 (toBytesBe v)) = some ⟨v, hpos, hlt⟩ := by
  have hlen : (toBytesBe v).length ≤ 32 :=
    length_toBytesBe_le (Nat.lt_trans hlt modulus_lt_two_pow_256) (by norm_num)
  have hv : beNat (padFront 32 (toBytesBe v)) = v := by rw [beNat_padFront, beNat_toBytesBe]
  have hcond : (padFront 32 (toBytesBe v)).length = 32 ∧ 0 < beNat (padFront 32 (toBytesBe v)) ∧
      beNat (padFront 32 (toBytesBe v)) < modulus := by
    rw [hv]
    exact ⟨length_padFront hlen, hpos, hlt⟩
  unfold SecretKey.deserialize
  rw [dif_pos hcond]
  simp only [hv]

/-! ## Key splitting -/

/-- `math::polynomial::Polynomial`: the coefficients, constant term first. -/
structure Polynomial (α : Type) where
  coeffs : List α
deriving DecidableEq

/-- `Polynomial::eval`: Horner's rule from the leading coefficient down; zero for no
coefficients. -/
def Polynomial.eval {α : Type} [Zero α] [Add α] [Mul α] (p : Polynomial α) (x : α) : α :=
  match p.coeffs.reverse with
  | [] => 0
  | lc :: rest => rest.foldl (fun sum c => sum * x + c) lc

/-- `Polynomial::eval` computes the value of the polynomial of its coefficients. -/
theorem Polynomial.eval_eq {R : Type} [CommRing R] (p : Polynomial R) (x : R) :
    p.eval x = (ofCoeffs p.coeffs).eval x := by
  unfold Polynomial.eval
  split
  · rename_i hnil
    simp [List.reverse_eq_nil_iff.mp hnil, ofCoeffs]
  · rename_i lc rest hcons
    have hcoeffs : p.coeffs = rest.reverse ++ [lc] := by
      rw [← List.reverse_reverse p.coeffs, hcons, List.reverse_cons]
    rw [foldl_horner, hcoeffs, eval_ofCoeffs_append, List.length_reverse, add_comm]

/-- `Ring::reduce`: `%` of `BigInt` keeps the sign of the dividend, and a negative
remainder is moved up by `m`. -/
def reduce (v m : ℤ) : ℤ :=
  let result := v.tmod m
  if result < 0 then result + m else result

theorem reduce_eq_emod (v : ℤ) {m : ℤ} (hm : 0 < m) : reduce v m = v % m := by
  have hnonneg := Int.emod_nonneg v hm.ne'
  have hlt := Int.emod_lt_of_pos v hm
  have habs : (m.natAbs : ℤ) = m := Int.natAbs_of_nonneg hm.le
  simp only [reduce, Int.tmod_eq_emod]
  -- the truncated remainder is the Euclidean one, or that minus `m` for a negative dividend
  by_cases hcase : 0 ≤ v ∨ m ∣ v
  · rw [if_pos hcase, Nat.cast_zero, sub_zero, if_neg (by omega)]
  · rw [if_neg hcase, habs, if_pos (by omega)]
    omega

/-- `DvfError`, as far as key generation, threshold aggregation and the distributed key
generations raise it. -/
inductive DvfError where
  | keyGenError (msg : String)
  | insufficientSignatures (got expected : ℕ)
  | insufficientValidSignatures (got expected : ℕ)
  | invalidOperatorId (id : UInt64)
  | differentLength (x y : ℕ)
  | vssShareVerificationFailed
  | invalidDkgShare (claims : List (UInt64 × UInt64))
  | zkProofInvalidInput
  | insufficientValidPks
deriving DecidableEq, Repr

/-- How a call ends when it does not return a value: with an error, or a panic. -/
inductive Fault where
  | error (e : DvfError)
  | panic
deriving DecidableEq, Repr

/-- An `unwrap`, an `expect` or an index: `none` panics. -/
def orPanic {α : Type} : Option α → Except Fault α
  | some a => .ok a
  | none => .error .panic

@[simp] theorem orPanic_some {α : Type} (a : α) : orPanic (some a) = .ok a := rfl

/-- `Keypair`. -/
structure Keypair (G₁ : Type) where
  pk : G₁
  sk : SecretKey
deriving DecidableEq

section Keypairs

variable {G₁ : Type}

/-- `HashMap::insert` on the key pairs: the id's previous pair is replaced. -/
def insertKeypair (kps : List (UInt64 × Keypair G₁)) (id : UInt64) (kp : Keypair G₁) :
    List (UInt64 × Keypair G₁) :=
  (id, kp) :: kps.filter fun e => e.1 != id

/-- The scalar of an id's share among the key pairs, zero for an id without one. -/
def shareScalar (kps : List (UInt64 × Keypair G₁)) (id : UInt64) : ZMod modulus :=
  match kps.lookup id with
  | some kp => (kp.sk.scalar : ZMod modulus)
  | none => 0

theorem lookup_filter_ne (kps : List (UInt64 × Keypair G₁)) {id id' : UInt64}
    (hne : id' ≠ id) : (kps.filter fun e => e.1 != id).lookup id' = kps.lookup id' := by
  induction kps with
  | nil => rfl
  | cons e kps ih =>
    by_cases he : e.1 = id
    · -- the filter drops `e`, which `id'` would not have matched
      have hbeq : (id' == id) = false := beq_eq_false_iff_ne.mpr hne
      simp [he, List.lookup, hbeq, ih]
    · simp [he, List.lookup, ih]

theorem lookup_insertKeypair_self (kps : List (UInt64 × Keypair G₁)) (id : UInt64)
    (kp : Keypair G₁) : (insertKeypair kps id kp).lookup id = some kp := by
  simp [insertKeypair]

theorem lookup_insertKeypair_of_ne (kps : List (UInt64 × Keypair G₁)) {id id' : UInt64}
    (kp : Keypair G₁) (hne : id' ≠ id) :
    (insertKeypair kps id kp).lookup id' = kps.lookup id' := by
  have hbeq : (id' == id) = false := beq_eq_false_iff_ne.mpr hne
  simp [insertKeypair, List.lookup, hbeq, lookup_filter_ne kps hne]

end Keypairs

section Keys

variable {G₁ : Type} [AddCommGroup G₁] [Module (ZMod modulus) G₁] (g₁ : G₁)

/-- `SecretKey::public_key`: the scalar times the generator of G1. -/
def SecretKey.publicKey (sk : SecretKey) : G₁ := (sk.scalar : ZMod modulus) • g₁

/-- A key's scalar lies strictly between 0 and the modulus, so it is no multiple of it. -/
theorem SecretKey.cast_ne_zero (sk : SecretKey) : (sk.scalar : ZMod modulus) ≠ 0 := by
  rw [Ne, ZMod.natCast_eq_zero_iff]
  exact fun hdvd => absurd (Nat.le_of_dvd sk.pos hdvd) (Nat.not_le_of_lt sk.lt)

/-- The share of an id: the polynomial at the id over `BigInt`, reduced. -/
def shareOf (poly : Polynomial ℤ) (id : UInt64) : ℕ :=
  (reduce (poly.eval (id.toNat : ℤ)) modulus).toNat

/-- The loop of `key_split_with_poly` over the ids: a zero id is an error, a share that is
not a valid secret key (zero) makes `unwrap` panic. -/
def splitShares (poly : Polynomial ℤ) :
    List UInt64 → List (UInt64 × Keypair G₁) → Except Fault (List (UInt64 × Keypair G₁))
  | [], kps => .ok kps
  | id :: ids, kps =>
    if id = 0 then .error (.error (.keyGenError ("Invalid id " ++ toString id)))
    else
      match SecretKey.deserialize (padFront 32 (toBytesBe (shareOf poly id))) with
      | none => .error .panic
      | some share => splitShares poly ids (insertKeypair kps id ⟨share.publicKey g₁, share⟩)

/-- `GenericThresholdSignature::key_split_with_poly`.  `sample` is what
`rng.sample_vec(threshold, &MODULUS)` drew, `threshold` numbers below the modulus; its
first is replaced by the key, and indexing it panics when the threshold is 0. -/
def keySplitWithPoly (sample : List ℤ) (sk : SecretKey) (ids : List UInt64) :
    Except Fault (List (UInt64 × Keypair G₁) × Polynomial ℤ) :=
  if sample = [] then .error .panic
  else
    let poly : Polynomial ℤ := ⟨sample.set 0 (beNat sk.serialize : ℤ)⟩
    (splitShares g₁ poly ids []).map fun kps => (kps, poly)

variable {g₁}

/-- The loop leaves the pairs of the ids it does not reach as they were. -/
theorem splitShares_lookup_of_not_mem {poly : Polynomial ℤ} {id : UInt64} :
    ∀ {ids : List UInt64} {kps kps' : List (UInt64 × Keypair G₁)},
      splitShares g₁ poly ids kps = .ok kps' → id ∉ ids → kps'.lookup id = kps.lookup id
  | [], _, _, h, _ => by cases h; rfl
  | id₀ :: ids, kps, kps', h, hnot => by
    have hne : id ≠ id₀ := fun heq => hnot (heq ▸ List.mem_cons_self ..)
    unfold splitShares at h
    split at h
    · cases h
    · split at h
      · cases h
      · rename_i share _
        rw [splitShares_lookup_of_not_mem h (fun hmem => hnot (List.mem_cons_of_mem _ hmem)),
          lookup_insertKeypair_of_ne _ _ hne]

/-- **Every id the loop reaches gets its share.** -/
theorem splitShares_lookup {poly : Polynomial ℤ} :
    ∀ {ids : List UInt64} {kps kps' : List (UInt64 × Keypair G₁)},
      splitShares g₁ poly ids kps = .ok kps' →
      ∀ id ∈ ids, ∃ kp, kps'.lookup id = some kp ∧ kp.sk.scalar = shareOf poly id
  | [], _, _, _, id, hid => absurd hid List.not_mem_nil
  | id₀ :: ids, kps, kps', h, id, hid => by
    unfold splitShares at h
    split at h
    · cases h
    · split at h
      · cases h
      · rename_i share hshare
        by_cases hmem : id ∈ ids
        · exact splitShares_lookup h id hmem
        · -- `id` is `id₀`: its pair is the one inserted now, and the rest leaves it
          have hid₀ : id = id₀ := by
            rcases List.mem_cons.mp hid with rfl | hrest
            · rfl
            · exact absurd hrest hmem
          subst hid₀
          refine ⟨⟨share.publicKey g₁, share⟩, ?_, ?_⟩
          · rw [splitShares_lookup_of_not_mem h hmem, lookup_insertKeypair_self]
          · rw [SecretKey.deserialize_scalar hshare, beNat_padFront, beNat_toBytesBe]

/-- What a successful key split is: the key's polynomial, and the loop over the ids run
from no pairs. -/
theorem keySplitWithPoly_inv {sample : List ℤ} {sk : SecretKey} {ids : List UInt64}
    {kps : List (UInt64 × Keypair G₁)} {poly : Polynomial ℤ}
    (h : keySplitWithPoly g₁ sample sk ids = .ok (kps, poly)) :
    sample ≠ [] ∧ poly = ⟨sample.set 0 (sk.scalar : ℤ)⟩ ∧ splitShares g₁ poly ids [] = .ok kps := by
  unfold keySplitWithPoly at h
  split at h
  · cases h
  · rename_i hne
    dsimp only at h
    cases hsplit : splitShares g₁ ⟨sample.set 0 (beNat sk.serialize : ℤ)⟩ ids [] with
    | error e =>
      rw [hsplit] at h
      cases h
    | ok kps₀ =>
      rw [hsplit] at h
      simp only [Except.map, Except.ok.injEq, Prod.mk.injEq] at h
      obtain ⟨rfl, rfl⟩ := h
      rw [SecretKey.beNat_serialize] at hsplit ⊢
      exact ⟨hne, rfl, hsplit⟩

/-- **Every id gets its share**: after a successful key split, each id's pair holds the
polynomial at the id. -/
theorem keySplitWithPoly_lookup {sample : List ℤ} {sk : SecretKey} {ids : List UInt64}
    {kps : List (UInt64 × Keypair G₁)} {poly : Polynomial ℤ}
    (h : keySplitWithPoly g₁ sample sk ids = .ok (kps, poly)) :
    ∀ id ∈ ids, ∃ kp, kps.lookup id = some kp ∧ kp.sk.scalar = shareOf poly id :=
  splitShares_lookup (keySplitWithPoly_inv h).2.2

/-- What a successful key split is: the key's polynomial, and the pairs of the ids with
their shares. -/
theorem keySplitWithPoly_ok {sample : List ℤ} {sk : SecretKey} {ids : List UInt64}
    {kps : List (UInt64 × Keypair G₁)} {poly : Polynomial ℤ}
    (h : keySplitWithPoly g₁ sample sk ids = .ok (kps, poly)) :
    sample ≠ [] ∧ poly = ⟨sample.set 0 (sk.scalar : ℤ)⟩ ∧
      ∀ id ∈ ids, shareScalar kps id = (shareOf poly id : ZMod modulus) := by
  obtain ⟨hne, hpoly, -⟩ := keySplitWithPoly_inv h
  refine ⟨hne, hpoly, fun id hid => ?_⟩
  obtain ⟨kp, hkp, hscalar⟩ := keySplitWithPoly_lookup h id hid
  unfold shareScalar
  rw [hkp]
  exact congrArg (fun n : ℕ => (n : ZMod modulus)) hscalar

theorem shareOf_lt_modulus (poly : Polynomial ℤ) (id : UInt64) : shareOf poly id < modulus := by
  have hlt := Int.emod_lt_of_pos (poly.eval (id.toNat : ℤ)) modulus_int_pos
  have hnonneg := Int.emod_nonneg (poly.eval (id.toNat : ℤ)) modulus_int_pos.ne'
  rw [shareOf, reduce_eq_emod _ modulus_int_pos]
  omega

/-- The loop returns when every id is nonzero and has a nonzero share. -/
theorem splitShares_isOk {poly : Polynomial ℤ} :
    ∀ {ids : List UInt64} (kps : List (UInt64 × Keypair G₁)),
      (∀ id ∈ ids, id ≠ 0 ∧ 0 < shareOf poly id) → ∃ kps', splitShares g₁ poly ids kps = .ok kps'
  | [], kps, _ => ⟨kps, rfl⟩
  | id :: ids, kps, hids => by
    obtain ⟨hid, hpos⟩ := hids id (List.mem_cons_self ..)
    rw [splitShares, if_neg hid,
      SecretKey.deserialize_padFront hpos (shareOf_lt_modulus poly id)]
    exact splitShares_isOk _ fun id' hid' => hids id' (List.mem_cons_of_mem _ hid')

/-- **When a key split returns**: at a positive threshold, with every id nonzero and
with a nonzero share.  A zero id is an error, a zero share a panic. -/
theorem keySplitWithPoly_isOk {sample : List ℤ} {sk : SecretKey} {ids : List UInt64}
    (hne : sample ≠ [])
    (hids : ∀ id ∈ ids, id ≠ 0 ∧ 0 < shareOf ⟨sample.set 0 (sk.scalar : ℤ)⟩ id) :
    ∃ kps, keySplitWithPoly g₁ sample sk ids = .ok (kps, ⟨sample.set 0 (sk.scalar : ℤ)⟩) := by
  obtain ⟨kps, hkps⟩ : ∃ kps, splitShares g₁ ⟨sample.set 0 (sk.scalar : ℤ)⟩ ids [] = .ok kps :=
    splitShares_isOk [] hids
  refine ⟨kps, ?_⟩
  rw [keySplitWithPoly, if_neg hne, SecretKey.beNat_serialize]
  simp only [hkps, Except.map]

/-- A share, as a scalar, is the value at the id of the polynomial of the coefficients
taken modulo `modulus`: evaluating over `BigInt` and reducing commutes with the cast. -/
theorem shareOf_cast (poly : Polynomial ℤ) (id : UInt64) :
    (shareOf poly id : ZMod modulus) =
      (ofCoeffs (poly.coeffs.map (Int.castRingHom (ZMod modulus)))).eval (u64ToBlstScalar id) := by
  have hnonneg : 0 ≤ poly.eval (id.toNat : ℤ) % (modulus : ℤ) :=
    Int.emod_nonneg _ modulus_int_pos.ne'
  have hx : Int.castRingHom (ZMod modulus) (id.toNat : ℤ) = u64ToBlstScalar id := by
    simp [u64ToBlstScalar]
  rw [shareOf, reduce_eq_emod _ modulus_int_pos, ← Int.cast_natCast, Int.toNat_of_nonneg hnonneg,
    ZMod.intCast_mod, Polynomial.eval_eq, ← map_ofCoeffs, Polynomial.eval_map, ← hx,
    Polynomial.eval₂_hom, eq_intCast]

end Keys

/-! ## Recombination -/

/-- `lagrange_coeffs`, writing `n` coefficients for the ids `x`; `require` panics unless
there are `n` ids. -/
def lagrangeCoeffs (n : ℕ) (x : List UInt64) : Option (List (ZMod modulus)) :=
  if n = x.length then
    some ((List.range n).map fun i =>
      let xi := u64ToBlstScalar (x.getD i 0)
      (List.range n).foldl (fun p j =>
        if i ≠ j then
          let xj := u64ToBlstScalar (x.getD j 0)
          p * (xj * (xj - xi)⁻¹)
        else p) 1)
  else none

/-- The ids as scalars, by position. -/
def nodes (x : List UInt64) (j : ℕ) : ZMod modulus := u64ToBlstScalar (x.getD j 0)

/-- `lagrange_coeffs` computes the Lagrange coefficients for the value at zero. -/
theorem lagrangeCoeffs_eq (x : List UInt64) :
    lagrangeCoeffs x.length x =
      some ((List.range x.length).map (coeffAtZero (Finset.range x.length) (nodes x))) := by
  rw [lagrangeCoeffs, if_pos rfl]
  congr 1
  refine List.map_congr_left fun i _ => ?_
  rw [foldl_mul_ite_ne _ i 1, one_mul]
  rfl

/-- Distinct ids are distinct nodes. -/
theorem nodes_injOn {x : List UInt64} (hx : x.Nodup) :
    Set.InjOn (nodes x) (Finset.range x.length : Set ℕ) := by
  intro i hi j hj hij
  have hi' : i < x.length := Finset.mem_range.mp hi
  have hj' : j < x.length := Finset.mem_range.mp hj
  have hids : x[i] = x[j] := by
    have := u64ToBlstScalar_injective hij
    rwa [List.getD_eq_getElem _ _ hi', List.getD_eq_getElem _ _ hj'] at this
  exact (hx.getElem_inj_iff).mp hids

theorem getD_map_range {α : Type} (f : ℕ → α) (d : α) {n i : ℕ} (hi : i < n) :
    ((List.range n).map f).getD i d = f i := by
  rw [List.getD_eq_getElem _ _ (by simpa using hi), List.getElem_map, List.getElem_range]

theorem getD_map_of_lt {α β : Type} (f : α → β) (l : List α) (d : α) (e : β) {i : ℕ}
    (hi : i < l.length) : (l.map f).getD i e = f (l.getD i d) := by
  rw [List.getD_eq_getElem _ _ (by simpa using hi), List.getElem_map, List.getD_eq_getElem _ _ hi]

theorem getD_mem {α : Type} {l : List α} {d : α} {i : ℕ} (hi : i < l.length) : l.getD i d ∈ l := by
  rw [List.getD_eq_getElem _ _ hi]
  exact List.getElem_mem _

/-- **Recombination at zero**, for the scalars: the Lagrange coefficients of distinct ids,
more of them than the degree of `f`, weight the values of `f` at the ids into `f(0)`. -/
theorem sum_coeffAtZero_nodes (f : (ZMod modulus)[X]) {S : List UInt64} (hS : S.Nodup)
    (hdeg : f.degree < S.length) :
    ∑ i ∈ Finset.range S.length, coeffAtZero (Finset.range S.length) (nodes S) i *
      f.eval (nodes S i) = f.eval 0 :=
  sum_coeffAtZero_mul_eval _ _ (nodes_injOn hS) f (by rwa [Finset.card_range])

section Signatures

variable {G₂ : Type} [AddCommGroup G₂] [Module (ZMod modulus) G₂]

/-- `BlstThresholdSignature::unsafe_aggregate` at threshold `threshold`: the partial
signatures weighted by the Lagrange coefficients of their ids; indexing `sigs` panics when
there are fewer than `threshold` of them. -/
def unsafeAggregate (threshold : ℕ) (sigs : List G₂) (ids : List UInt64) : Option G₂ := do
  let coeffs ← lagrangeCoeffs threshold ids
  if threshold ≤ sigs.length then
    some ((List.range threshold).foldl (fun agg i => agg + coeffs.getD i 0 • sigs.getD i 0) 0)
  else none

/-- What `unsafe_aggregate` returns for as many ids as the threshold: the sum of the
partial signatures, each times its Lagrange coefficient. -/
theorem unsafeAggregate_eq (sigs : List G₂) (ids : List UInt64) (hlen : ids.length ≤ sigs.length) :
    unsafeAggregate ids.length sigs ids =
      some (∑ i ∈ Finset.range ids.length,
        coeffAtZero (Finset.range ids.length) (nodes ids) i • sigs.getD i 0) := by
  rw [unsafeAggregate, lagrangeCoeffs_eq, Option.bind_eq_bind, Option.bind_some, if_pos hlen,
    foldl_add_range, zero_add]
  congr 1
  exact Finset.sum_congr rfl fun i hi => by rw [getD_map_range _ _ (Finset.mem_range.mp hi)]

/-- **Recombination at zero**, for the signatures: the partial signatures `f(id) • H(m)` of
distinct ids, more of them than the degree of `f`, recombine into `f(0) • H(m)`. -/
theorem unsafeAggregate_eval (f : (ZMod modulus)[X]) {S : List UInt64} (hS : S.Nodup)
    (hdeg : f.degree < S.length) (hm : G₂) :
    unsafeAggregate S.length (S.map fun id => f.eval (u64ToBlstScalar id) • hm) S =
      some (f.eval 0 • hm) := by
  rw [unsafeAggregate_eq _ _ (by simp), ← sum_coeffAtZero_nodes f hS hdeg, Finset.sum_smul]
  congr 1
  refine Finset.sum_congr rfl fun i hi => ?_
  rw [getD_map_of_lt _ _ 0 _ (Finset.mem_range.mp hi), mul_smul]
  rfl

end Signatures

/-! ## Threshold aggregation -/

section Aggregation

variable {G₁ G₂ GT : Type}

/-- The loop of `threshold_aggregate` over the signatures with their keys and ids: a zero id
is an error, an id already taken is skipped, a signature that does not verify is logged and
skipped, and the loop stops once `threshold` signatures are valid.  It returns the valid
signatures with their ids, in order. -/
def collectValid (threshold : ℕ) (verify : G₂ → G₁ → Bool) :
    List (G₂ × G₁ × UInt64) → List (G₂ × UInt64) → Except DvfError (List (G₂ × UInt64))
  | [], valid => .ok valid
  | (sig, pk, id) :: rest, valid =>
    if id = 0 then .error (.invalidOperatorId id)
    else if id ∈ valid.map Prod.snd then collectValid threshold verify rest valid
    else if verify sig pk then
      if threshold ≤ (valid ++ [(sig, id)]).length then .ok (valid ++ [(sig, id)])
      else collectValid threshold verify rest (valid ++ [(sig, id)])
    else collectValid threshold verify rest valid

/-- With every signature valid and the ids nonzero and distinct, the loop takes the
signatures in order until it has `threshold` of them. -/
theorem collectValid_of_valid (threshold : ℕ) (verify : G₂ → G₁ → Bool) :
    ∀ (entries : List (G₂ × G₁ × UInt64)) (valid : List (G₂ × UInt64)),
      (∀ e ∈ entries, e.2.2 ≠ 0 ∧ verify e.1 e.2.1 = true) →
      (entries.map fun e => e.2.2).Nodup →
      (∀ e ∈ entries, e.2.2 ∉ valid.map Prod.snd) →
      valid.length < threshold → threshold ≤ valid.length + entries.length →
      collectValid threshold verify entries valid =
        .ok (valid ++ (entries.take (threshold - valid.length)).map fun e => (e.1, e.2.2))
  | [], valid, _, _, _, hlt, hle => by
    simp only [List.length_nil, Nat.add_zero] at hle
    omega
  | (sig, pk, id) :: rest, valid, hok, hnodup, hfresh, hlt, hle => by
    obtain ⟨hid, hver⟩ := hok (sig, pk, id) (List.mem_cons_self ..)
    have hnew : id ∉ valid.map Prod.snd := hfresh (sig, pk, id) (List.mem_cons_self ..)
    rw [List.map_cons, List.nodup_cons] at hnodup
    simp only [collectValid, if_neg hid, if_neg hnew, hver, if_true]
    by_cases hfull : threshold ≤ (valid ++ [(sig, id)]).length
    · -- the loop stops at this signature
      rw [if_pos hfull]
      have hk : threshold - valid.length = 1 := by
        simp only [List.length_append, List.length_singleton] at hfull
        omega
      simp [hk]
    · rw [if_neg hfull]
      simp only [List.length_append, List.length_singleton, not_le] at hfull
      have hk : threshold - valid.length = threshold - (valid.length + 1) + 1 := by omega
      -- the ids still to come are neither taken before nor this one
      have hfresh' : ∀ e ∈ rest, e.2.2 ∉ (valid ++ [(sig, id)]).map Prod.snd := by
        intro e he hmem
        rw [List.map_append, List.mem_append] at hmem
        rcases hmem with hmem | hmem
        · exact hfresh e (List.mem_cons_of_mem _ he) hmem
        · have heq : e.2.2 = id := by simpa using hmem
          exact hnodup.1 (List.mem_map.mpr ⟨e, he, heq⟩)
      rw [collectValid_of_valid threshold verify rest _
          (fun e he => hok e (List.mem_cons_of_mem _ he)) hnodup.2 hfresh'
          (by simpa using hfull) (by simp only [List.length_append, List.length_cons] at hle ⊢; omega),
        hk, List.take_succ_cons, List.length_append, List.length_singleton]
      simp

theorem zip_map_map_self {α β γ : Type} (f : α → β) (g : α → γ) :
    ∀ l : List α, (l.map f).zip ((l.map g).zip l) = l.map fun a => (f a, g a, a)
  | [] => rfl
  | a :: l => by simp [zip_map_map_self f g l]

variable [AddCommGroup G₂] [Module (ZMod modulus) G₂]

/-- `SecretKey::sign`: the key times the message hashed to G2. -/
def SecretKey.sign (sk : SecretKey) (hm : G₂) : G₂ := (sk.scalar : ZMod modulus) • hm

/-- `GenericThresholdSignature::threshold_aggregate`, with `verify` the check of a signature
under a key for the message. -/
def thresholdAggregate (threshold : ℕ) (verify : G₂ → G₁ → Bool) (sigs : List G₂)
    (pks : List G₁) (ids : List UInt64) : Except Fault G₂ :=
  if sigs.length ≠ pks.length then .error (.error (.differentLength sigs.length pks.length))
  else if sigs.length ≠ ids.length then .error (.error (.differentLength sigs.length ids.length))
  else if sigs.length < threshold then
    .error (.error (.insufficientSignatures sigs.length threshold))
  else
    match collectValid threshold verify (sigs.zip (pks.zip ids)) [] with
    | .error err => .error (.error err)
    | .ok valid =>
      if valid.length < threshold then
        .error (.error (.insufficientValidSignatures valid.length threshold))
      else orPanic (unsafeAggregate threshold (valid.map Prod.fst) (valid.map Prod.snd))

/-- With every signature valid and the ids nonzero and distinct, `threshold_aggregate`
aggregates the first `threshold` of them. -/
theorem thresholdAggregate_of_valid {threshold : ℕ} {verify : G₂ → G₁ → Bool}
    {S : List UInt64} (sigOf : UInt64 → G₂) (pkOf : UInt64 → G₁) (hS : S.Nodup)
    (hnz : ∀ id ∈ S, id ≠ 0) (hver : ∀ id ∈ S, verify (sigOf id) (pkOf id) = true)
    (ht : 0 < threshold) (hlen : threshold ≤ S.length) :
    thresholdAggregate threshold verify (S.map sigOf) (S.map pkOf) S =
      orPanic (unsafeAggregate threshold ((S.take threshold).map sigOf) (S.take threshold)) := by
  have hzip : (S.map sigOf).zip ((S.map pkOf).zip S) = S.map fun id => (sigOf id, pkOf id, id) :=
    zip_map_map_self sigOf pkOf S
  have hcollect := collectValid_of_valid threshold verify (S.map fun id => (sigOf id, pkOf id, id)) []
    (by simpa using fun id hid => ⟨hnz id hid, hver id hid⟩) (by simpa [Function.comp_def] using hS)
    (by simp)
    (by simpa using ht) (by simpa using hlen)
  have htake : (S.take threshold).length = threshold := by
    rw [List.length_take]
    omega
  rw [thresholdAggregate, hzip, hcollect]
  simp [htake, ← List.map_take, List.map_map, Function.comp_def, Nat.not_lt.mpr hlen]

/-- **Threshold signing**: valid signatures of at least `threshold` distinct nonzero ids on
the values of one polynomial of degree below the threshold aggregate into the signature of
its value at zero. -/
theorem thresholdAggregate_eval (f : (ZMod modulus)[X]) {threshold : ℕ}
    {verify : G₂ → G₁ → Bool} {S : List UInt64} (pkOf : UInt64 → G₁) (hm : G₂)
    (hS : S.Nodup) (hnz : ∀ id ∈ S, id ≠ 0)
    (hver : ∀ id ∈ S, verify (f.eval (u64ToBlstScalar id) • hm) (pkOf id) = true)
    (ht : 0 < threshold) (hlen : threshold ≤ S.length) (hdeg : f.degree < threshold) :
    thresholdAggregate threshold verify (S.map fun id => f.eval (u64ToBlstScalar id) • hm)
      (S.map pkOf) S = .ok (f.eval 0 • hm) := by
  have htake : (S.take threshold).length = threshold := by
    rw [List.length_take]
    omega
  have hrecombine := unsafeAggregate_eval f (hS.sublist (List.take_sublist _ _))
    (by rwa [htake]) hm
  rw [htake] at hrecombine
  rw [thresholdAggregate_of_valid _ _ hS hnz hver ht hlen, hrecombine]
  rfl

variable [AddCommGroup G₁] [Module (ZMod modulus) G₁] [AddCommGroup GT] [Module (ZMod modulus) GT]
  (e : G₁ →ₗ[ZMod modulus] G₂ →ₗ[ZMod modulus] GT) (g₁ : G₁)

/-- lighthouse's `Signature::verify` of the `min_pk` variant, `sig.verify(pk, msg)`, with
`hm` the message hashed to G2.  lighthouse is not in the repository, so the check is a
parameter, and all that is assumed of it is the pairing equation `e(pk, H(m)) = e(g1, sig)`,
refused for the public key at infinity (blst's `BLST_PK_IS_INFINITY`). -/
structure BlsVerifier where
  verify : G₂ → G₂ → G₁ → Bool
  verify_iff : ∀ hm sig pk, verify hm sig pk = true ↔ pk ≠ 0 ∧ e pk hm = e g₁ sig

/-- The check itself, to run the model on. -/
def BlsVerifier.pairing [DecidableEq G₁] [DecidableEq GT] : BlsVerifier e g₁ :=
  ⟨fun hm sig pk => decide (pk ≠ 0 ∧ e pk hm = e g₁ sig), fun _ _ _ => decide_eq_true_iff⟩

variable {e g₁}

/-- A scalar's signature verifies under its public key, unless that is the point at
infinity. -/
theorem BlsVerifier.verify_smul (V : BlsVerifier e g₁) {a : ZMod modulus} (hpk : a • g₁ ≠ 0)
    (hm : G₂) : V.verify hm (a • hm) (a • g₁) = true :=
  (V.verify_iff _ _ _).mpr ⟨hpk, by simp⟩

/-- Nothing verifies under the point at infinity. -/
theorem BlsVerifier.verify_zero (V : BlsVerifier e g₁) (hm sig : G₂) : V.verify hm sig 0 = false :=
  Bool.eq_false_iff.mpr fun h => ((V.verify_iff _ _ _).mp h).1 rfl

end Aggregation

/-- **Splitting and recombining a key.**  After a successful key split, the shares of any
`threshold` distinct ids, weighted by the coefficients `lagrange_coeffs` computes for those
ids, sum to the key; and `unsafe_aggregate` turns the partial signatures `share • H(m)` of
those ids, in the same order, into the key's signature `sk • H(m)`. -/
theorem key_split_reconstructs {G₁ G₂ : Type} [AddCommGroup G₁] [Module (ZMod modulus) G₁]
    [AddCommGroup G₂] [Module (ZMod modulus) G₂] (g₁ : G₁) (sample : List ℤ) (sk : SecretKey)
    (ids : List UInt64) (kps : List (UInt64 × Keypair G₁)) (poly : Polynomial ℤ)
    (hsplit : keySplitWithPoly g₁ sample sk ids = .ok (kps, poly))
    (S : List UInt64) (hS : S.Nodup) (hSids : ∀ id ∈ S, id ∈ ids)
    (hSlen : S.length = sample.length) (hm : G₂) :
    ∃ coeffs, lagrangeCoeffs sample.length S = some coeffs ∧
      ∑ i ∈ Finset.range sample.length, coeffs.getD i 0 * shareScalar kps (S.getD i 0) =
        (sk.scalar : ZMod modulus) ∧
      unsafeAggregate sample.length (S.map fun id => shareScalar kps id • hm) S =
        some ((sk.scalar : ZMod modulus) • hm) := by
  obtain ⟨hne, rfl, hshares⟩ := keySplitWithPoly_ok hsplit
  -- the shares are the values at the ids of one polynomial over the scalars
  set f := ofCoeffs ((sample.set 0 (sk.scalar : ℤ)).map (Int.castRingHom (ZMod modulus)))
    with hf
  have hdeg : f.degree < S.length := by
    have hlt := degree_ofCoeffs_lt ((sample.set 0 (sk.scalar : ℤ)).map
      (Int.castRingHom (ZMod modulus)))
    rw [List.length_map, List.length_set, ← hSlen] at hlt
    exact hlt
  have hf0 : f.eval 0 = sk.scalar := by
    obtain ⟨c, rest, rfl⟩ := List.exists_cons_of_ne_nil hne
    simp [hf]
  have hshare : ∀ id ∈ S, shareScalar kps id = f.eval (u64ToBlstScalar id) := fun id hid => by
    rw [hshares _ (hSids _ hid), shareOf_cast]
  rw [← hSlen, ← hf0]
  refine ⟨_, lagrangeCoeffs_eq S, ?_, ?_⟩
  · -- interpolation at zero over the ids of `S`
    rw [← sum_coeffAtZero_nodes f hS hdeg]
    refine Finset.sum_congr rfl fun i hi => ?_
    have hi' := Finset.mem_range.mp hi
    rw [getD_map_range _ _ hi', hshare _ (getD_mem hi')]
    rfl
  · rw [List.map_congr_left fun id hid => by rw [hshare id hid]]
    exact unsafeAggregate_eval f hS hdeg hm

/-- The key 7. -/
def sevenKey : SecretKey := ⟨7, by norm_num, by norm_num [modulus]⟩

/-- The shares of 7 under the polynomial `7 + 3 x` at the ids 1, 2 and 3, with G1 the
scalars and 1 its generator, as the split inserts them. -/
def sevenKeypairs : List (UInt64 × Keypair (ZMod modulus)) :=
  [(3, ⟨(16 : ZMod modulus) • 1, ⟨16, by norm_num, by norm_num [modulus]⟩⟩),
   (2, ⟨(13 : ZMod modulus) • 1, ⟨13, by norm_num, by norm_num [modulus]⟩⟩),
   (1, ⟨(10 : ZMod modulus) • 1, ⟨10, by norm_num, by norm_num [modulus]⟩⟩)]

/-- Splitting 7 among the ids 1, 2 and 3 at threshold 2, the ids 3 and 1 recombine it. -/
theorem key_split_two_of_three :
    ∃ coeffs, lagrangeCoeffs [5, 3].length [3, 1] = some coeffs ∧
      ∑ i ∈ Finset.range [5, 3].length,
        coeffs.getD i 0 * shareScalar sevenKeypairs ([3, 1].getD i 0) =
        (sevenKey.scalar : ZMod modulus) ∧
      unsafeAggregate [5, 3].length
        ([3, 1].map fun id => shareScalar sevenKeypairs id • (1 : ZMod modulus)) [3, 1] =
        some ((sevenKey.scalar : ZMod modulus) • (1 : ZMod modulus)) :=
  key_split_reconstructs (1 : ZMod modulus) [5, 3] sevenKey [1, 2, 3] sevenKeypairs ⟨[7, 3]⟩
    (by decide +kernel) [3, 1] (by decide +kernel) (by simp) rfl (1 : ZMod modulus)

end SafeStake.Threshold
