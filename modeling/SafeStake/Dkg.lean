import SafeStake.ThresholdKeys

/-! # Distributed key generation among honest parties

`DKGSemiHonest::run` at one party: the party deals a random key with `key_gen_with_poly`,
sends every party its share and everyone its public key, sums the shares it receives into
its group secret key and the public keys into the master public key, and exchanges the
group public keys.

`semiHonestRun` runs every party of a committee on the messages the others send.  What a
run is for is a threshold sharing (`SharingOf`): one polynomial of degree below the
threshold, of which each party holds the value at its id, with the master key its value at
zero times the generator; any `threshold` parties then sign for the master key
(`SharingOf.thresholdAggregate_verify`).  The committee's run is such a sharing when no
dealt share, no group secret and not the sum of the dealt keys is zero modulo `MODULUS`
(`Nondegenerate`); where one is, a `deserialize(..).unwrap()` panics.
-/

open scoped Polynomial

namespace SafeStake.Dkg

open ByteCodec Interpolation SafeStake.Threshold

/-! ## Loops over the ids -/

/-- A loop that may fail returns when every step does. -/
theorem mapM_ok {α β ε : Type} (f : α → Except ε β) (g : α → β) :
    ∀ (l : List α), (∀ a ∈ l, f a = .ok (g a)) → l.mapM f = .ok (l.map g)
  | [], _ => rfl
  | a :: l, h => by
    rw [List.mapM_cons, h a (List.mem_cons_self ..),
      mapM_ok f g l fun b hb => h b (List.mem_cons_of_mem _ hb)]
    rfl

/-- A table built from the ids finds each id's value. -/
theorem lookup_map_pair {β : Type} (v : UInt64 → β) {id : UInt64} :
    ∀ {ids : List UInt64}, id ∈ ids → (ids.map fun j => (j, v j)).lookup id = some (v id)
  | j :: ids, hid => by
    by_cases hj : id = j
    · subst hj
      simp
    · have hbeq : (id == j) = false := beq_eq_false_iff_ne.mpr hj
      simp [List.lookup, hbeq, lookup_map_pair v (List.mem_of_ne_of_mem hj hid)]

/-! ## What a party draws -/

/-- What a party draws for a run: the key of `Keypair::random`, and what
`rng.sample_vec(threshold, &MODULUS)` draws, `threshold` numbers below the modulus, whose
first the key replaces. -/
structure Draw where
  sk : SecretKey
  sample : List ℤ
  sample_mem : ∀ c ∈ sample, 0 ≤ c ∧ c < modulus

/-- The polynomial the party's key split builds. -/
def Draw.polynomial (d : Draw) : Threshold.Polynomial ℤ := ⟨d.sample.set 0 (d.sk.scalar : ℤ)⟩

/-- The same polynomial over the scalars: the polynomial the party deals. -/
noncomputable def Draw.poly (d : Draw) : (ZMod modulus)[X] :=
  ofCoeffs (d.polynomial.coeffs.map (Int.castRingHom (ZMod modulus)))

theorem Draw.degree_poly_lt (d : Draw) : d.poly.degree < d.sample.length := by
  have hlt := degree_ofCoeffs_lt (d.polynomial.coeffs.map (Int.castRingHom (ZMod modulus)))
  rwa [List.length_map, Draw.polynomial, List.length_set] at hlt

theorem Draw.eval_zero_poly (d : Draw) (hne : d.sample ≠ []) :
    d.poly.eval 0 = d.sk.scalar := by
  obtain ⟨c, rest, hcs⟩ := List.exists_cons_of_ne_nil hne
  simp [Draw.poly, Draw.polynomial, hcs]

/-- A share the party deals is, as a scalar, its polynomial at the id. -/
theorem Draw.shareOf_cast (d : Draw) (id : UInt64) :
    (shareOf d.polynomial id : ZMod modulus) = d.poly.eval (u64ToBlstScalar id) :=
  Threshold.shareOf_cast _ _

/-- The sum of the polynomials the parties deal: the polynomial of the group secrets. -/
noncomputable def groupPoly (ids : List UInt64) (draws : UInt64 → Draw) : (ZMod modulus)[X] :=
  (ids.map fun j => (draws j).poly).sum

theorem eval_groupPoly (ids : List UInt64) (draws : UInt64 → Draw) (x : ZMod modulus) :
    (groupPoly ids draws).eval x = (ids.map fun j => (draws j).poly.eval x).sum := by
  rw [groupPoly, Polynomial.eval_listSum, List.map_map]
  rfl

/-- The committee of a run: distinct nonzero ids, and every party drawing `t ≥ 1`
numbers. -/
structure Committee (t : ℕ) (ids : List UInt64) (draws : UInt64 → Draw) : Prop where
  nodup : ids.Nodup
  ne_zero : ∀ id ∈ ids, id ≠ 0
  pos : 0 < t
  length_sample : ∀ j ∈ ids, (draws j).sample.length = t

/-- The draws meet no zero where the code reads a key back: no dealt share, no party's
group secret and not the master secret is 0 modulo `MODULUS`.  Each holds but with
probability about `1 / MODULUS`. -/
structure Nondegenerate (ids : List UInt64) (draws : UInt64 → Draw) : Prop where
  share_ne_zero : ∀ j ∈ ids, ∀ i ∈ ids, (draws j).poly.eval (u64ToBlstScalar i) ≠ 0
  group_ne_zero : ∀ i ∈ ids, (groupPoly ids draws).eval (u64ToBlstScalar i) ≠ 0
  master_ne_zero : (groupPoly ids draws).eval 0 ≠ 0

/-- No dealt share is 0 modulo `MODULUS`: what every dealer's `key_gen_with_poly` needs to
return, the first of the `Nondegenerate` conditions. -/
def SharesNonzero (ids : List UInt64) (draws : UInt64 → Draw) : Prop :=
  ∀ j ∈ ids, ∀ i ∈ ids, (draws j).poly.eval (u64ToBlstScalar i) ≠ 0

theorem Committee.sample_ne_nil {t : ℕ} {ids : List UInt64} {draws : UInt64 → Draw}
    (hc : Committee t ids draws) {j : UInt64} (hj : j ∈ ids) : (draws j).sample ≠ [] := by
  intro hnil
  have hlen := hc.length_sample j hj
  rw [hnil, List.length_nil] at hlen
  exact absurd hlen.symm hc.pos.ne'

/-- The group polynomial has degree below the threshold, as each dealt one has. -/
theorem Committee.degree_groupPoly_lt {t : ℕ} {ids : List UInt64} {draws : UInt64 → Draw}
    (hc : Committee t ids draws) : (groupPoly ids draws).degree < t := by
  rw [← Polynomial.mem_degreeLT]
  refine list_sum_mem fun p hp => ?_
  obtain ⟨j, hj, rfl⟩ := List.mem_map.mp hp
  rw [Polynomial.mem_degreeLT, ← hc.length_sample j hj]
  exact (draws j).degree_poly_lt

/-- The master secret is the sum of the keys the parties drew. -/
theorem Committee.eval_zero_groupPoly {t : ℕ} {ids : List UInt64} {draws : UInt64 → Draw}
    (hc : Committee t ids draws) :
    (groupPoly ids draws).eval 0 = (ids.map fun j => ((draws j).sk.scalar : ZMod modulus)).sum := by
  rw [eval_groupPoly]
  congr 1
  exact List.map_congr_left fun j hj => (draws j).eval_zero_poly (hc.sample_ne_nil hj)

/-! ## Reading keys back -/

/-- A sum of shares, reduced and read back as a key, is that key when it is not zero
modulo `MODULUS`. -/
theorem secretKey_of_reduce (v : ℤ) (hv : (v : ZMod modulus) ≠ 0) :
    ∃ sk : SecretKey,
      SecretKey.deserialize (padFront 32 (toBytesBe (reduce v modulus).toNat)) = some sk ∧
        (sk.scalar : ZMod modulus) = v := by
  have hnonneg : 0 ≤ v % (modulus : ℤ) := Int.emod_nonneg _ modulus_int_pos.ne'
  have hlt : (v % (modulus : ℤ)).toNat < modulus := by
    have := Int.emod_lt_of_pos v modulus_int_pos
    omega
  -- the reduced value has the residue of `v`, which is not zero
  have hcast : (((v % (modulus : ℤ)).toNat : ℕ) : ZMod modulus) = v := by
    rw [← Int.cast_natCast, Int.toNat_of_nonneg hnonneg, ZMod.intCast_mod]
  have hpos : 0 < (v % (modulus : ℤ)).toNat := by
    refine Nat.pos_of_ne_zero fun h0 => hv ?_
    rw [← hcast, h0, Nat.cast_zero]
  rw [reduce_eq_emod _ modulus_int_pos]
  exact ⟨_, SecretKey.deserialize_padFront hpos hlt, hcast⟩

section Keys

variable {G₁ : Type} [AddCommGroup G₁] [Module (ZMod modulus) G₁]

theorem publicKey_ne_zero {g₁ : G₁} (hg : g₁ ≠ 0) {sk : SecretKey}
    (hsk : (sk.scalar : ZMod modulus) ≠ 0) : sk.publicKey g₁ ≠ 0 :=
  smul_ne_zero hsk hg

/-- The parties' public keys sum to the master secret times the generator. -/
theorem Committee.sum_publicKey {t : ℕ} {ids : List UInt64} {draws : UInt64 → Draw}
    (hc : Committee t ids draws) (g₁ : G₁) :
    (ids.map fun j => (draws j).sk.publicKey g₁).sum = (groupPoly ids draws).eval 0 • g₁ := by
  rw [hc.eval_zero_groupPoly, List.sum_smul, List.map_map]
  rfl

variable (g₁ : G₁)

/-- `GenericThresholdSignature::key_gen_with_poly`: the drawn key, split among the ids. -/
def keyGenWithPoly (d : Draw) (ids : List UInt64) :
    Except Fault (Keypair G₁ × List (UInt64 × Keypair G₁) × Threshold.Polynomial ℤ) :=
  (keySplitWithPoly g₁ d.sample d.sk ids).map fun r => (⟨d.sk.publicKey g₁, d.sk⟩, r.1, r.2)

variable {g₁}

/-- A key generation returns when the threshold is positive and every id is nonzero with
a nonzero share; each id's pair then holds the party's polynomial at the id. -/
theorem keyGenWithPoly_spec {d : Draw} {ids : List UInt64} (hne : d.sample ≠ [])
    (hids : ∀ id ∈ ids, id ≠ 0 ∧ d.poly.eval (u64ToBlstScalar id) ≠ 0) :
    ∃ kps, keyGenWithPoly g₁ d ids = .ok (⟨d.sk.publicKey g₁, d.sk⟩, kps, d.polynomial) ∧
      ∀ id ∈ ids, ∃ kp, kps.lookup id = some kp ∧ kp.sk.scalar = shareOf d.polynomial id := by
  have hpos : ∀ id ∈ ids, id ≠ 0 ∧ 0 < shareOf d.polynomial id := fun id hid => by
    refine ⟨(hids id hid).1, Nat.pos_of_ne_zero fun h0 => (hids id hid).2 ?_⟩
    rw [← d.shareOf_cast, h0, Nat.cast_zero]
  obtain ⟨kps, hkps⟩ : ∃ kps, keySplitWithPoly g₁ d.sample d.sk ids = .ok (kps, d.polynomial) :=
    keySplitWithPoly_isOk hne hpos
  refine ⟨kps, ?_, keySplitWithPoly_lookup hkps⟩
  rw [keyGenWithPoly, hkps]
  rfl

/-- In a committee whose dealt shares are not zero every party's key generation returns. -/
theorem Committee.keyGen_ok (g₁ : G₁) {t : ℕ} {ids : List UInt64} {draws : UInt64 → Draw}
    (hc : Committee t ids draws) (hshare : SharesNonzero ids draws) {j : UInt64} (hj : j ∈ ids) :
    ∃ kps, keyGenWithPoly g₁ (draws j) ids =
        .ok (⟨(draws j).sk.publicKey g₁, (draws j).sk⟩, kps, (draws j).polynomial) ∧
      ∀ id ∈ ids, ∃ kp, kps.lookup id = some kp ∧ kp.sk.scalar = shareOf (draws j).polynomial id :=
  keyGenWithPoly_spec (hc.sample_ne_nil hj) fun id hid =>
    ⟨hc.ne_zero id hid, hshare j hj id hid⟩

variable [DecidableEq G₁]

/-- `PublicKey::deserialize(..).unwrap()` on a point's bytes: the point at infinity is
refused. -/
def publicKeyOf (p : G₁) : Except Fault G₁ := if p = 0 then .error .panic else .ok p

omit [Module (ZMod modulus) G₁] in
theorem publicKeyOf_of_ne_zero {p : G₁} (hp : p ≠ 0) : publicKeyOf p = .ok p := if_neg hp

/-! ## One party's run -/

/-- What a party receives in the first exchange of `DKGSemiHonest::run`: from each other
party, its share for the party as the bytes of `SecretKey::serialize`, and its public key. -/
structure Round1 (G₁ : Type) where
  share : UInt64 → List UInt8
  pk : UInt64 → G₁

namespace DKGSemiHonest

/-- Step 0 of `run`: for each id, the share the party deals it (`unwrap` panics when there
is none), and the share and public key the party holds of that id's key: its own, or those
it received. -/
def exchangeShares (party : UInt64) (kp : Keypair G₁) (kps : List (UInt64 × Keypair G₁))
    (r1 : Round1 G₁) (ids : List UInt64) : Except Fault (List (UInt64 × ℤ × G₁)) :=
  ids.mapM fun id => (orPanic (kps.lookup id)).map fun kpId =>
    if id = party then (id, (beNat kpId.sk.serialize : ℤ), kp.pk)
    else (id, (beNat (r1.share id) : ℤ), r1.pk id)

/-- Step 1: the group secret key, the sum of the shares reduced and read back as a key;
`deserialize(..).unwrap()` panics when the sum is zero modulo `MODULUS`. -/
def groupSecretKey (results : List (UInt64 × ℤ × G₁)) : Except Fault SecretKey :=
  orPanic (SecretKey.deserialize
    (padFront 32 (toBytesBe (reduce (results.map fun r => r.2.1).sum modulus).toNat)))

/-- Step 2: the master public key, the sum of the public keys. -/
def masterPublicKey (results : List (UInt64 × ℤ × G₁)) : Except Fault G₁ :=
  publicKeyOf (results.map fun r => r.2.2).sum

/-- Step 3: each id's group public key: the party's own, or the one it received. -/
def exchangeGroupPks (party : UInt64) (gpk : G₁) (received : UInt64 → G₁)
    (ids : List UInt64) : Except Fault (List (UInt64 × G₁)) :=
  ids.mapM fun id => if id = party then .ok (id, gpk) else (publicKeyOf (received id)).map (id, ·)

variable (g₁)

/-- Steps 0 to 2 of `run`: the group secret key and the master public key. -/
def deriveKeys (party : UInt64) (ids : List UInt64) (d : Draw) (r1 : Round1 G₁) :
    Except Fault (SecretKey × G₁) := do
  let (kp, kps, _) ← keyGenWithPoly g₁ d ids
  let results ← exchangeShares party kp kps r1 ids
  let gsk ← groupSecretKey results
  let mpk ← masterPublicKey results
  pure (gsk, mpk)

/-- `DKGSemiHonest::run` at `party`, on the messages it receives: its group key pair, the
master public key, and each id's group public key. -/
def run (party : UInt64) (ids : List UInt64) (d : Draw) (r1 : Round1 G₁) (gpks : UInt64 → G₁) :
    Except Fault (Keypair G₁ × G₁ × List (UInt64 × G₁)) := do
  let (gsk, mpk) ← deriveKeys g₁ party ids d r1
  let pks ← exchangeGroupPks party (gsk.publicKey g₁) gpks ids
  pure (⟨gsk.publicKey g₁, gsk⟩, mpk, pks)

end DKGSemiHonest

/-! ## The committee -/

variable (g₁) (ids : List UInt64) (draws : UInt64 → Draw)

/-- The first exchange as delivered to `party`: each party's share for it and its public
key, as its key generation dealt them.  A party whose key generation fails sends nothing
and its peers wait for it; the runs below are those where every party gets to send, in
which the values standing for missing messages are never read. -/
def deliverRound1 (party : UInt64) : Round1 G₁ where
  share id := match keyGenWithPoly g₁ (draws id) ids with
    | .ok (_, kps, _) => ((kps.lookup party).map fun kp => kp.sk.serialize).getD []
    | .error _ => []
  pk id := match keyGenWithPoly g₁ (draws id) ids with
    | .ok (kp, _, _) => kp.pk
    | .error _ => 0

/-- The group public keys as delivered: each party's, from its steps 0 to 2. -/
def deliverGroupPks (id : UInt64) : G₁ :=
  match DKGSemiHonest.deriveKeys g₁ id ids (draws id) (deliverRound1 g₁ ids draws id) with
  | .ok (gsk, _) => gsk.publicKey g₁
  | .error _ => 0

/-- `DKGSemiHonest::run` at `party` in a committee whose messages are all delivered. -/
def semiHonestRun (party : UInt64) : Except Fault (Keypair G₁ × G₁ × List (UInt64 × G₁)) :=
  DKGSemiHonest.run g₁ party ids (draws party) (deliverRound1 g₁ ids draws party)
    (deliverGroupPks g₁ ids draws)

end Keys

/-! ## What a distributed key generation is for -/

/-- What a party's run returns: its group key pair, the master public key, and each id's
group public key. -/
abbrev DkgOutput (G₁ : Type) := Keypair G₁ × G₁ × List (UInt64 × G₁)

/-- The values at any `t` distinct ids of a polynomial of degree below `t`, weighted by the
coefficients `lagrange_coeffs` computes for the ids, give its value at 0. -/
theorem lagrangeCoeffs_interpolate (F : (ZMod modulus)[X]) {t : ℕ} (hdeg : F.degree < t)
    {S : List UInt64} (hS : S.Nodup) (hlen : S.length = t) :
    ∃ coeffs, lagrangeCoeffs t S = some coeffs ∧
      ∑ k ∈ Finset.range t, coeffs.getD k 0 * F.eval (u64ToBlstScalar (S.getD k 0)) = F.eval 0 := by
  subst hlen
  refine ⟨_, lagrangeCoeffs_eq S, ?_⟩
  rw [← sum_coeffAtZero_nodes F hS hdeg]
  refine Finset.sum_congr rfl fun k hk => ?_
  rw [getD_map_range _ _ (Finset.mem_range.mp hk)]
  rfl

section Sharing

variable {G₁ G₂ GT : Type} [AddCommGroup G₁] [Module (ZMod modulus) G₁]
  [AddCommGroup G₂] [Module (ZMod modulus) G₂] [AddCommGroup GT] [Module (ZMod modulus) GT]
  {e : G₁ →ₗ[ZMod modulus] G₂ →ₗ[ZMod modulus] GT} (g₁ : G₁)

/-- A **threshold sharing** by the polynomial `F` of degree below `t`, over a generator
`g ≠ 0` and of a master secret `F(0) ≠ 0`: each party's group secret is `F` at its id, with
the matching public key; every party holds the master key `F(0) • g` and every party's group
public key. -/
structure SharingOf (t : ℕ) (ids : List UInt64) (F : (ZMod modulus)[X])
    (out : UInt64 → DkgOutput G₁) : Prop where
  generator_ne_zero : g₁ ≠ 0
  master_ne_zero : F.eval 0 ≠ 0
  degree_lt : F.degree < t
  secret : ∀ i ∈ ids, ((out i).1.sk.scalar : ZMod modulus) = F.eval (u64ToBlstScalar i)
  publicKey : ∀ i ∈ ids, (out i).1.pk = (out i).1.sk.publicKey g₁
  master : ∀ i ∈ ids, (out i).2.1 = F.eval 0 • g₁
  groupPks : ∀ i ∈ ids, ∀ j ∈ ids, (out i).2.2.lookup j = some (out j).1.pk

variable {g₁} {t : ℕ} {ids : List UInt64} {F : (ZMod modulus)[X]} {out : UInt64 → DkgOutput G₁}

/-- The group secrets of any `t` distinct parties, weighted by the coefficients
`lagrange_coeffs` computes for their ids, give the master secret. -/
theorem SharingOf.lagrange_secret (hsh : SharingOf g₁ t ids F out) {S : List UInt64}
    (hS : S.Nodup) (hSids : ∀ id ∈ S, id ∈ ids) (hlen : S.length = t) :
    ∃ coeffs, lagrangeCoeffs t S = some coeffs ∧
      ∑ k ∈ Finset.range t, coeffs.getD k 0 * ((out (S.getD k 0)).1.sk.scalar : ZMod modulus) =
        F.eval 0 := by
  obtain ⟨coeffs, hcoeffs, hsum⟩ := lagrangeCoeffs_interpolate F hsh.degree_lt hS hlen
  refine ⟨coeffs, hcoeffs, hsum ▸ Finset.sum_congr rfl fun k hk => ?_⟩
  have hk' : k < S.length := hlen ▸ Finset.mem_range.mp hk
  rw [hsh.secret _ (hSids _ (getD_mem hk'))]

/-- **What a sharing is for**: the signatures of any `t` or more distinct parties aggregate
into the master secret's signature, which verifies under the master key every party
holds. -/
theorem SharingOf.thresholdAggregate_verify (hsh : SharingOf g₁ t ids F out)
    (V : BlsVerifier e g₁) (hm : G₂) {S : List UInt64} (hS : S.Nodup)
    (hSids : ∀ id ∈ S, id ∈ ids) (hnz : ∀ id ∈ S, id ≠ 0) (ht : 0 < t) (hlen : t ≤ S.length) :
    thresholdAggregate t (V.verify hm) (S.map fun j => (out j).1.sk.sign hm)
        (S.map fun j => (out j).1.pk) S = .ok (F.eval 0 • hm) ∧
      ∀ i ∈ ids, V.verify hm (F.eval 0 • hm) (out i).2.1 = true := by
  have hsig : ∀ j ∈ S, (out j).1.sk.sign hm = F.eval (u64ToBlstScalar j) • hm := fun j hj => by
    rw [SecretKey.sign, hsh.secret j (hSids j hj)]
  have hpk : ∀ j ∈ S, (out j).1.pk = F.eval (u64ToBlstScalar j) • g₁ := fun j hj => by
    rw [hsh.publicKey j (hSids j hj), SecretKey.publicKey, hsh.secret j (hSids j hj)]
  -- no share's public key is the point at infinity, which the check refuses
  have hne : ∀ j ∈ S, F.eval (u64ToBlstScalar j) • g₁ ≠ 0 := fun j hj => by
    rw [← hpk j hj, hsh.publicKey j (hSids j hj)]
    exact publicKey_ne_zero hsh.generator_ne_zero (SecretKey.cast_ne_zero _)
  refine ⟨?_, fun i hi => ?_⟩
  · rw [List.map_congr_left hsig]
    exact thresholdAggregate_eval F _ hm hS hnz
      (fun j hj => by rw [hpk j hj]; exact V.verify_smul (hne j hj) hm) ht hlen hsh.degree_lt
  · rw [hsh.master i hi]
    exact V.verify_smul (smul_ne_zero hsh.master_ne_zero hsh.generator_ne_zero) hm

end Sharing

/-! ## Honest runs -/

section Honest

variable {G₁ : Type} [AddCommGroup G₁] [Module (ZMod modulus) G₁] [DecidableEq G₁] {g₁ : G₁}
  {t : ℕ} {ids : List UInt64} {draws : UInt64 → Draw}

omit [DecidableEq G₁] in
/-- What the first exchange delivers to a party from each party: the share dealt to it,
and the dealer's public key. -/
theorem deliverRound1_honest (g₁ : G₁) (hc : Committee t ids draws) (hnd : Nondegenerate ids draws)
    {i j : UInt64} (hi : i ∈ ids) (hj : j ∈ ids) :
    beNat ((deliverRound1 g₁ ids draws i).share j) = shareOf (draws j).polynomial i ∧
      (deliverRound1 g₁ ids draws i).pk j = (draws j).sk.publicKey g₁ := by
  obtain ⟨kps, hkg, hlook⟩ := hc.keyGen_ok g₁ hnd.share_ne_zero hj
  obtain ⟨kp, hkp, hscalar⟩ := hlook i hi
  constructor
  · simp only [deliverRound1, hkg, hkp, Option.map_some, Option.getD_some]
    rw [SecretKey.beNat_serialize, hscalar]
  · simp only [deliverRound1, hkg]

omit [DecidableEq G₁] in
/-- Step 0 at an honest party: for each id it holds the share of that id's key dealt to it,
and that key's public key. -/
theorem exchangeShares_honest (g₁ : G₁) (hc : Committee t ids draws) (hnd : Nondegenerate ids draws)
    {i : UInt64} (hi : i ∈ ids) {kps : List (UInt64 × Keypair G₁)}
    (hlook : ∀ id ∈ ids, ∃ kp, kps.lookup id = some kp ∧
      kp.sk.scalar = shareOf (draws i).polynomial id) :
    DKGSemiHonest.exchangeShares i ⟨(draws i).sk.publicKey g₁, (draws i).sk⟩ kps
        (deliverRound1 g₁ ids draws i) ids =
      .ok (ids.map fun j => (j, (shareOf (draws j).polynomial i : ℤ), (draws j).sk.publicKey g₁)) := by
  refine mapM_ok _ _ ids fun j hj => ?_
  obtain ⟨kp, hkp, hscalar⟩ := hlook j hj
  rw [hkp, orPanic_some]
  by_cases hji : j = i
  · subst hji
    simp [Except.map, SecretKey.beNat_serialize, hscalar]
  · obtain ⟨hshare, hpk⟩ := deliverRound1_honest g₁ hc hnd hi hj
    simp [Except.map, hji, hshare, hpk]

omit [AddCommGroup G₁] [Module (ZMod modulus) G₁] [DecidableEq G₁] in
/-- Step 1 returns the sum of the shares as a key when it is not zero modulo `MODULUS`. -/
theorem groupSecretKey_of_sum {results : List (UInt64 × ℤ × G₁)}
    (hv : (((results.map fun r => r.2.1).sum : ℤ) : ZMod modulus) ≠ 0) :
    ∃ gsk : SecretKey, DKGSemiHonest.groupSecretKey results = .ok gsk ∧
      (gsk.scalar : ZMod modulus) = (((results.map fun r => r.2.1).sum : ℤ) : ZMod modulus) := by
  obtain ⟨gsk, hgsk, hcast⟩ := secretKey_of_reduce _ hv
  exact ⟨gsk, by rw [DKGSemiHonest.groupSecretKey, hgsk, orPanic_some], hcast⟩

/-- **Steps 0 to 2 at an honest party**: its group secret is the group polynomial at its
id, and its master key the master secret times the generator. -/
theorem deriveKeys_honest (hg : g₁ ≠ 0) (hc : Committee t ids draws)
    (hnd : Nondegenerate ids draws) {i : UInt64} (hi : i ∈ ids) :
    ∃ gsk : SecretKey,
      DKGSemiHonest.deriveKeys g₁ i ids (draws i) (deliverRound1 g₁ ids draws i) =
        .ok (gsk, (groupPoly ids draws).eval 0 • g₁) ∧
      (gsk.scalar : ZMod modulus) = (groupPoly ids draws).eval (u64ToBlstScalar i) := by
  obtain ⟨kps, hkg, hlook⟩ := hc.keyGen_ok g₁ hnd.share_ne_zero hi
  have hresults := exchangeShares_honest g₁ hc hnd hi hlook
  -- the shares held sum to the group polynomial at the party's id
  have hsum : ((((ids.map fun j => (j, (shareOf (draws j).polynomial i : ℤ),
      (draws j).sk.publicKey g₁)).map fun r => r.2.1).sum : ℤ) : ZMod modulus) =
        (groupPoly ids draws).eval (u64ToBlstScalar i) := by
    rw [eval_groupPoly, List.map_map, Int.cast_list_sum, List.map_map]
    congr 1
    refine List.map_congr_left fun j _ => ?_
    simp [Draw.shareOf_cast]
  obtain ⟨gsk, hgsk, hcast⟩ :=
    groupSecretKey_of_sum (by rw [hsum]; exact hnd.group_ne_zero i hi)
  -- the public keys sum to the master secret times the generator
  have hpks : ((ids.map fun j => (j, (shareOf (draws j).polynomial i : ℤ),
      (draws j).sk.publicKey g₁)).map fun r => r.2.2).sum = (groupPoly ids draws).eval 0 • g₁ := by
    rw [List.map_map]
    exact hc.sum_publicKey g₁
  have hmpk : DKGSemiHonest.masterPublicKey (ids.map fun j => (j,
      (shareOf (draws j).polynomial i : ℤ), (draws j).sk.publicKey g₁)) =
        .ok ((groupPoly ids draws).eval 0 • g₁) := by
    rw [DKGSemiHonest.masterPublicKey, hpks]
    exact publicKeyOf_of_ne_zero (smul_ne_zero hnd.master_ne_zero hg)
  refine ⟨gsk, ?_, hcast.trans hsum⟩
  simp only [DKGSemiHonest.deriveKeys, hkg, bind, Except.bind, hresults, hgsk, hmpk]
  rfl

/-- **Every honest party returns**: its group key pair, the master key, and every party's
group public key. -/
theorem semiHonestRun_honest (hg : g₁ ≠ 0) (hc : Committee t ids draws)
    (hnd : Nondegenerate ids draws) :
    ∃ gskOf : UInt64 → SecretKey,
      (∀ j ∈ ids, ((gskOf j).scalar : ZMod modulus) =
        (groupPoly ids draws).eval (u64ToBlstScalar j)) ∧
      ∀ i ∈ ids, semiHonestRun g₁ ids draws i =
        .ok (⟨(gskOf i).publicKey g₁, gskOf i⟩, (groupPoly ids draws).eval 0 • g₁,
          ids.map fun j => (j, (gskOf j).publicKey g₁)) := by
  have : Nonempty SecretKey := ⟨⟨1, Nat.one_pos, by norm_num [modulus]⟩⟩
  choose! gskOf hderive hcast using fun i (hi : i ∈ ids) => deriveKeys_honest hg hc hnd hi
  refine ⟨gskOf, hcast, fun i hi => ?_⟩
  -- every other party's group public key arrives, and is not the point at infinity
  have hgpks : DKGSemiHonest.exchangeGroupPks i ((gskOf i).publicKey g₁)
      (deliverGroupPks g₁ ids draws) ids = .ok (ids.map fun j => (j, (gskOf j).publicKey g₁)) := by
    refine mapM_ok _ _ ids fun j hj => ?_
    by_cases hji : j = i
    · subst hji
      simp
    · have hdeliver : deliverGroupPks g₁ ids draws j = (gskOf j).publicKey g₁ := by
        rw [deliverGroupPks, hderive j hj]
      have hne : (gskOf j).publicKey g₁ ≠ 0 :=
        publicKey_ne_zero hg (by rw [hcast j hj]; exact hnd.group_ne_zero j hj)
      simp [hji, hdeliver, publicKeyOf_of_ne_zero hne, Except.map]
  simp only [semiHonestRun, DKGSemiHonest.run, hderive i hi, bind, Except.bind, hgpks]
  rfl

end Honest

/-! ## Two committees of two -/

/-- Two parties' draws at threshold 2: the keys 1 and 2 with the polynomials `1 + x` and
`2 + x`. -/
def lineDraws (id : UInt64) : Draw :=
  if id = 1 then ⟨⟨1, Nat.one_pos, by norm_num [modulus]⟩, [0, 1], by
    intro c hc
    simp only [List.mem_cons, List.not_mem_nil, or_false] at hc
    rcases hc with rfl | rfl <;> norm_num [modulus]⟩
  else ⟨⟨2, Nat.two_pos, by norm_num [modulus]⟩, [0, 1], by
    intro c hc
    simp only [List.mem_cons, List.not_mem_nil, or_false] at hc
    rcases hc with rfl | rfl <;> norm_num [modulus]⟩

theorem lineDraws_committee : Committee 2 [1, 2] lineDraws :=
  ⟨by simp, by simp, by norm_num, by simp [lineDraws]⟩

/-- The shares of `1 + x` and `2 + x` at 1 and 2, their sums `5` and `7`, and the master
secret `3` are not zero. -/
theorem lineDraws_nondegenerate : Nondegenerate [1, 2] lineDraws := by
  refine ⟨?_, ?_, ?_⟩ <;>
    simp [groupPoly, lineDraws, Draw.poly, Draw.polynomial, eval_ofCoeffs_cons, u64ToBlstScalar] <;>
    decide

/-- Two parties' draws at threshold 1: the keys 1 and `MODULUS - 1`, which sum to zero. -/
def opposedDraws (id : UInt64) : Draw :=
  if id = 1 then ⟨⟨1, Nat.one_pos, by norm_num [modulus]⟩, [0], by simp [modulus]⟩
  else ⟨⟨modulus - 1, by norm_num [modulus], by norm_num [modulus]⟩, [0], by simp [modulus]⟩

theorem opposedDraws_committee : Committee 1 [1, 2] opposedDraws :=
  ⟨by simp, by simp, by norm_num, by simp [opposedDraws]⟩

/-! ## The committee's run -/

/-- **A run of honest parties is a threshold sharing of the sum of their keys.**  In a
committee without zeros every party returns; party `i`'s group secret is `∑ⱼ fⱼ(i)`, every
party holds the master key `(∑ⱼ skⱼ) • g`; `threshold` parties' group secrets, weighted by
`lagrange_coeffs`, give `∑ⱼ skⱼ`; and `threshold_aggregate` of the signatures of any
`threshold` or more of them is the master secret's signature, which verifies under the
master key. -/
theorem semi_honest_dkg_sharing {G₁ G₂ GT : Type} [AddCommGroup G₁] [Module (ZMod modulus) G₁]
    [DecidableEq G₁] [AddCommGroup G₂] [Module (ZMod modulus) G₂] [AddCommGroup GT]
    [Module (ZMod modulus) GT] {e : G₁ →ₗ[ZMod modulus] G₂ →ₗ[ZMod modulus] GT}
    (g₁ : G₁) (hg : g₁ ≠ 0) (V : BlsVerifier e g₁) (hm : G₂) (t : ℕ) (ids : List UInt64)
    (draws : UInt64 → Draw) (hc : Committee t ids draws) (hnd : Nondegenerate ids draws) :
    ∃ out : UInt64 → DkgOutput G₁,
      (∀ i ∈ ids, semiHonestRun g₁ ids draws i = .ok (out i)) ∧
      SharingOf g₁ t ids (groupPoly ids draws) out ∧
      (groupPoly ids draws).eval 0 = (ids.map fun j => ((draws j).sk.scalar : ZMod modulus)).sum ∧
      (∀ S : List UInt64, S.Nodup → (∀ id ∈ S, id ∈ ids) → S.length = t →
        ∃ coeffs, lagrangeCoeffs t S = some coeffs ∧
          ∑ k ∈ Finset.range t, coeffs.getD k 0 * ((out (S.getD k 0)).1.sk.scalar : ZMod modulus) =
            (groupPoly ids draws).eval 0) ∧
      ∀ S : List UInt64, S.Nodup → (∀ id ∈ S, id ∈ ids) → t ≤ S.length →
        thresholdAggregate t (V.verify hm) (S.map fun j => (out j).1.sk.sign hm)
            (S.map fun j => (out j).1.pk) S = .ok ((groupPoly ids draws).eval 0 • hm) ∧
          ∀ i ∈ ids, V.verify hm ((groupPoly ids draws).eval 0 • hm) (out i).2.1 = true := by
  obtain ⟨gskOf, hcast, hrun⟩ := semiHonestRun_honest hg hc hnd
  let out : UInt64 → DkgOutput G₁ := fun i =>
    (⟨(gskOf i).publicKey g₁, gskOf i⟩, (groupPoly ids draws).eval 0 • g₁,
      ids.map fun j => (j, (gskOf j).publicKey g₁))
  have hsh : SharingOf g₁ t ids (groupPoly ids draws) out :=
    ⟨hg, hnd.master_ne_zero, hc.degree_groupPoly_lt, hcast, fun _ _ => rfl, fun _ _ => rfl,
      fun _ _ _ hj => lookup_map_pair _ hj⟩
  refine ⟨out, hrun, hsh, hc.eval_zero_groupPoly,
    fun S hS hSids hlen => hsh.lagrange_secret hS hSids hlen, fun S hS hSids hlen => ?_⟩
  exact hsh.thresholdAggregate_verify V hm hS hSids (fun id hid => hc.ne_zero id (hSids id hid))
    hc.pos hlen

/-- When the group secret is zero modulo `MODULUS`, both honest parties panic: the keys 1
and `MODULUS - 1` at threshold 1 give each party the group secret 0, which
`SecretKey::deserialize` refuses. -/
theorem semi_honest_dkg_zero_secret_panics :
    Committee 1 [1, 2] opposedDraws ∧
      semiHonestRun (1 : ZMod modulus) [1, 2] opposedDraws 1 = .error .panic ∧
      semiHonestRun (1 : ZMod modulus) [1, 2] opposedDraws 2 = .error .panic :=
  ⟨opposedDraws_committee, by decide +kernel, by decide +kernel⟩

end SafeStake.Dkg
