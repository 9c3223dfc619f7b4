import SafeStake.Dkg
import SafeStake.ThresholdAggregate

/-! # The committee's signature

Once `consensus(msg)` has returned, `HotstuffOperatorCommittee::sign` asks every operator of
the committee for its signature of `msg`, drops those that return an `Err`, and hands the
others, as ids, public keys and signatures, to `threshold_aggregate`; the ids come back
with the aggregate.  The operator of the node signs with its own key (`LocalOperator`); any
other (`RemoteOperator`) fails at once on the invalid address, and otherwise sends the
request up to three times, taking the first reply that deserializes to a signature.

A remote operator's reply may be anything.  Over a pairing that is injective at the
generator, a signature that verifies under a share's public key is that share's signature,
and the aggregation skips the others.  So:

* **the committee signs with the master key**: when the operators hold the shares of a
  threshold sharing and `t` of them answer with their share's signature, whatever the
  others answer, `sign` returns the master secret's signature, which verifies under the
  master key, with the ids of every operator that answered, those whose signature did not
  verify included (`committee_sign_master`);
* **no signature below the threshold**: whatever the operators answer, `sign` returns a
  signature only if at least `threshold` of them answered with a signature that verifies
  under their public key (`committee_sign_needs_threshold`).
-/

open scoped Polynomial

namespace SafeStake.Validation

open SafeStake.Threshold SafeStake.Dkg

/-- What one try of `RemoteOperator::sign` gets within 600 ms: the reply's bytes, a receiver
interrupted, or nothing before the timeout. -/
inductive TryReply where
  | data (bytes : List UInt8)
  | interrupted
  | timeout
deriving DecidableEq, Repr

section Operators

variable {G₁ G₂ : Type}

/-- The loop over the tries: the first reply that deserializes to a signature; `none`, the
`Err(DvfError::Unknown)`, once the tries are spent. -/
def firstSignature (deserialize : List UInt8 → Option G₂) : List TryReply → Option G₂
  | [] => none
  | .data bytes :: rest =>
    match deserialize bytes with
    | some sig => some sig
    -- "Deserialize failed ..., retry"
    | none => firstSignature deserialize rest
  | _ :: rest => firstSignature deserialize rest

/-- A `TOperator`: the node's own, with its key pair, or another node's, with its public
key, whether its address is the invalid one, and what each try of a request would get. -/
inductive Operator (G₁ : Type) where
  | local (keypair : Keypair G₁)
  | remote (publicKey : G₁) (addrInvalid : Bool) (replies : List TryReply)

namespace Operator

/-- `TOperator::public_key`. -/
def publicKey : Operator G₁ → G₁
  | .local keypair => keypair.pk
  | .remote publicKey _ _ => publicKey

variable [AddCommGroup G₂] [Module (ZMod modulus) G₂]

/-- `TOperator::sign` of the message hashed to `hm`, `none` for an `Err`: `LocalOperator`
signs with its key; `RemoteOperator` fails on the invalid address, and otherwise tries
`n_try = 3` times. -/
def sign (deserialize : List UInt8 → Option G₂) (hm : G₂) : Operator G₁ → Option G₂
  | .local keypair => some (keypair.sk.sign hm)
  | .remote _ addrInvalid replies =>
    if addrInvalid then none else firstSignature deserialize (replies.take 3)

end Operator

variable [AddCommGroup G₂] [Module (ZMod modulus) G₂]

/-- What `join_all` of the operators' `sign` keeps once `flatten` drops the `Err`s: the id,
public key and signature of each operator that answered, in the order of the map. -/
def signResults (deserialize : List UInt8 → Option G₂) (hm : G₂)
    (operators : List (UInt64 × Operator G₁)) : List (UInt64 × G₁ × G₂) :=
  operators.filterMap fun o => (o.2.sign deserialize hm).map fun sig => (o.1, o.2.publicKey, sig)

/-- `HotstuffOperatorCommittee::sign`, once `consensus(msg)` has returned `Ok`, over the map
`operators` from ids to operators. -/
def HotstuffOperatorCommittee.sign (threshold : ℕ) (verify : G₂ → G₁ → Bool)
    (deserialize : List UInt8 → Option G₂) (hm : G₂) (operators : List (UInt64 × Operator G₁)) :
    Except Fault (G₂ × List UInt64) :=
  let results := signResults deserialize hm operators
  let ids := results.map (·.1)
  let pks := results.map (·.2.1)
  let sigs := results.map (·.2.2)
  (thresholdAggregate threshold verify sigs pks ids).map fun sig => (sig, ids)

/-- The operators that answer can only outnumber those that answer a given way: each of
`good` answers, and with a result that `p` accepts. -/
theorem length_filter_le_signResults (deserialize : List UInt8 → Option G₂) (hm : G₂)
    (good : UInt64 × Operator G₁ → Bool) (p : UInt64 × G₁ × G₂ → Bool) :
    ∀ operators : List (UInt64 × Operator G₁),
      (∀ o ∈ operators, good o = true →
        ∃ sig, o.2.sign deserialize hm = some sig ∧ p (o.1, o.2.publicKey, sig) = true) →
      (operators.filter good).length ≤ ((signResults deserialize hm operators).filter p).length
  | [], _ => le_refl 0
  | o :: operators, hgood => by
    have ih := length_filter_le_signResults deserialize hm good p operators
      (fun o' ho' => hgood o' (List.mem_cons_of_mem _ ho'))
    simp only [signResults, List.filterMap_cons] at ih ⊢
    by_cases ho : good o = true
    · obtain ⟨sig, hsig, hp⟩ := hgood o (List.mem_cons_self ..) ho
      rw [List.filter_cons_of_pos ho, hsig, Option.map_some, List.filter_cons_of_pos hp,
        List.length_cons, List.length_cons]
      exact Nat.succ_le_succ ih
    · rw [List.filter_cons_of_neg ho]
      -- the operator may answer or not; either way the right side does not shrink
      cases o.2.sign deserialize hm with
      | none => exact ih
      | some sig =>
        simp only [Option.map_some]
        by_cases hp : p (o.1, o.2.publicKey, sig) = true
        · rw [List.filter_cons_of_pos hp, List.length_cons]
          exact Nat.le_succ_of_le ih
        · rw [List.filter_cons_of_neg hp]
          exact ih

/-- A result is an operator's id and public key with its answer. -/
theorem mem_signResults {deserialize : List UInt8 → Option G₂} {hm : G₂}
    {operators : List (UInt64 × Operator G₁)} {r : UInt64 × G₁ × G₂}
    (hr : r ∈ signResults deserialize hm operators) :
    ∃ o ∈ operators, r.1 = o.1 ∧ r.2.1 = o.2.publicKey ∧ o.2.sign deserialize hm = some r.2.2 := by
  obtain ⟨o, ho, hsig⟩ := List.mem_filterMap.mp hr
  obtain ⟨sig, hsign, rfl⟩ := Option.map_eq_some_iff.mp hsig
  exact ⟨o, ho, rfl, rfl, hsign⟩

/-- The ids of the results come from the map's keys, in order. -/
theorem signResults_ids_sublist (deserialize : List UInt8 → Option G₂) (hm : G₂) :
    ∀ operators : List (UInt64 × Operator G₁),
      ((signResults deserialize hm operators).map (·.1)).Sublist (operators.map Prod.fst)
  | [] => List.Sublist.slnil
  | o :: operators => by
    have ih := signResults_ids_sublist deserialize hm operators
    simp only [signResults, List.filterMap_cons, List.map_cons] at ih ⊢
    cases o.2.sign deserialize hm with
    | none => exact ih.cons _
    | some sig => exact ih.cons_cons _

end Operators

/-! ## The scan skips what does not verify -/

section Scan

variable {G₁ G₂ : Type}

/-- The entries `threshold_aggregate` scans, from the results: signature, key and id. -/
def entriesOf (results : List (UInt64 × G₁ × G₂)) : List (G₂ × G₁ × UInt64) :=
  results.map fun r => (r.2.2, r.2.1, r.1)

theorem zip_entriesOf (results : List (UInt64 × G₁ × G₂)) :
    (results.map (·.2.2)).zip ((results.map (·.2.1)).zip (results.map (·.1))) =
      entriesOf results := by
  induction results with
  | nil => rfl
  | cons r results ih =>
    simp only [List.map_cons, List.zip_cons_cons, entriesOf] at ih ⊢
    rw [ih]

variable (threshold : ℕ) (verify : G₂ → G₁ → Bool)

/-- With no zero id, the scan passes over an entry whose signature does not verify as if it
were not there. -/
theorem collectValid_filter_verified :
    ∀ (entries : List (G₂ × G₁ × UInt64)) (valid : List (G₂ × UInt64)),
      (∀ e ∈ entries, e.2.2 ≠ 0) →
      collectValid threshold verify entries valid =
        collectValid threshold verify (entries.filter fun e => verify e.1 e.2.1) valid
  | [], _, _ => rfl
  | (sig, pk, id) :: rest, valid, hnz => by
    have hid : id ≠ 0 := hnz _ (List.mem_cons_self ..)
    have hrest := fun valid' => collectValid_filter_verified rest valid'
      (fun e he => hnz e (List.mem_cons_of_mem _ he))
    by_cases hver : verify sig pk = true
    · -- a verifying entry is scanned in both lists
      simp only [List.filter_cons, hver, if_true]
      simp only [collectValid, if_neg hid, hver, if_true]
      split
      · exact hrest valid
      · split
        · rfl
        · exact hrest _
    · simp only [List.filter_cons, hver, Bool.false_eq_true, if_false]
      simp only [collectValid, if_neg hid, if_neg hver]
      split <;> exact hrest valid

/-- With no zero id and at least `threshold` verifying entries, `threshold_aggregate` of the
results is that of the results whose signature verifies. -/
theorem thresholdAggregate_filter_verified [AddCommGroup G₂] [Module (ZMod modulus) G₂]
    (results : List (UInt64 × G₁ × G₂)) (hnz : ∀ r ∈ results, r.1 ≠ 0)
    (henough : threshold ≤ (results.filter fun r => verify r.2.2 r.2.1).length) :
    thresholdAggregate threshold verify (results.map (·.2.2)) (results.map (·.2.1))
        (results.map (·.1)) =
      thresholdAggregate threshold verify
        ((results.filter fun r => verify r.2.2 r.2.1).map (·.2.2))
        ((results.filter fun r => verify r.2.2 r.2.1).map (·.2.1))
        ((results.filter fun r => verify r.2.2 r.2.1).map (·.1)) := by
  have hle : (results.filter fun r => verify r.2.2 r.2.1).length ≤ results.length :=
    List.length_filter_le _ _
  -- the entries of the verifying results are the verifying entries
  have hfilter : entriesOf (results.filter fun r => verify r.2.2 r.2.1) =
      (entriesOf results).filter fun e => verify e.1 e.2.1 := by
    rw [entriesOf, entriesOf, List.filter_map]
    rfl
  have hzero : ∀ e ∈ entriesOf results, e.2.2 ≠ 0 := by
    intro e he
    obtain ⟨r, hr, rfl⟩ := List.mem_map.mp he
    exact hnz r hr
  unfold thresholdAggregate
  simp only [List.length_map, ne_eq, not_true_eq_false, if_false, zip_entriesOf,
    if_neg (show ¬results.length < threshold by omega),
    if_neg (show ¬(results.filter fun r => verify r.2.2 r.2.1).length < threshold by omega)]
  rw [hfilter, collectValid_filter_verified threshold verify _ [] hzero]

/-- `threshold_aggregate` returns only once the scan has accepted `threshold` distinct ids,
each with a signature that verifies under its key. -/
theorem threshold_le_card_verifiedIds [AddCommGroup G₂] [Module (ZMod modulus) G₂]
    {sigs : List G₂} {pks : List G₁} {ids : List UInt64} {σ : G₂}
    (h : thresholdAggregate threshold verify sigs pks ids = .ok σ) :
    threshold ≤ (verifiedIds verify (sigs.zip (pks.zip ids))).card := by
  unfold thresholdAggregate at h
  -- the three checks on the lengths passed
  split at h
  · cases h
  split at h
  · cases h
  split at h
  · cases h
  split at h
  · cases h
  rename_i valid hscan
  split at h
  · cases h
  rename_i henough
  obtain ⟨hnd, hmem⟩ := collectValid_sound threshold verify _ [] valid hscan List.nodup_nil
  -- each accepted id is a verified one, and the accepted ids are distinct
  have hsub : (valid.map Prod.snd).toFinset ⊆ verifiedIds verify (sigs.zip (pks.zip ids)) := by
    intro id hid
    obtain ⟨v, hv, rfl⟩ := List.mem_map.mp (List.mem_toFinset.mp hid)
    rcases hmem v hv with hnil | ⟨-, pk, hin, hver⟩
    · cases hnil
    · exact List.mem_toFinset.mpr (List.mem_map.mpr ⟨_, List.mem_filter.mpr ⟨hin, hver⟩, rfl⟩)
  calc threshold ≤ valid.length := Nat.le_of_not_lt henough
    _ = (valid.map Prod.snd).toFinset.card := by
        rw [List.toFinset_card_of_nodup hnd, List.length_map]
    _ ≤ (verifiedIds verify (sigs.zip (pks.zip ids))).card := Finset.card_le_card hsub

end Scan

/-! ## What verifies -/

section Pairing

variable {G₁ G₂ GT : Type} [AddCommGroup G₁] [Module (ZMod modulus) G₁]
  [AddCommGroup G₂] [Module (ZMod modulus) G₂] [AddCommGroup GT] [Module (ZMod modulus) GT]
  {e : G₁ →ₗ[ZMod modulus] G₂ →ₗ[ZMod modulus] GT} {g₁ : G₁}

/-- Over a pairing injective at the generator, a signature that verifies under a key's
public key is the key's signature. -/
theorem eq_sign_of_verify (V : BlsVerifier e g₁) (he : Function.Injective (e g₁)) {hm sig : G₂}
    {sk : SecretKey} (hver : V.verify hm sig (sk.publicKey g₁) = true) : sig = sk.sign hm := by
  have heq : e (sk.publicKey g₁) hm = e g₁ sig := ((V.verify_iff _ _ _).mp hver).2
  -- bilinearity moves the scalar from the key to the message
  have hmove : e (sk.publicKey g₁) hm = e g₁ (sk.sign hm) := by
    rw [SecretKey.publicKey, SecretKey.sign, LinearMap.map_smul, LinearMap.smul_apply,
      LinearMap.map_smul]
  exact (he (heq.symm.trans hmove))

end Pairing

/-! ## A committee of four -/

/-- The share of `id` under the polynomial `x + 3`. -/
def lineShare (id : UInt64) : SecretKey :=
  ⟨id.toNat + 3, Nat.succ_pos _, by have h := id.toNat_lt; simp only [modulus]; omega⟩

/-- The parties' outputs of a sharing of `3` by `x + 3` among the ids 1 to 4, with G1 the
scalars and 1 its generator; the master key is the public key of the value at 0. -/
def lineOutputs (id : UInt64) : DkgOutput (ZMod modulus) :=
  (⟨(lineShare id).publicKey 1, lineShare id⟩, (lineShare 0).publicKey 1,
    [1, 2, 3, 4].map fun j => (j, (lineShare j).publicKey 1))

theorem lineOutputs_sharing :
    SharingOf (1 : ZMod modulus) 2 [1, 2, 3, 4] (Polynomial.C 1 * Polynomial.X + Polynomial.C 3)
      lineOutputs :=
  ⟨one_ne_zero, by simp; decide, Polynomial.degree_linear_lt,
    fun i _ => by simp [lineOutputs, lineShare, u64ToBlstScalar, add_comm], fun _ _ => rfl,
    fun _ _ => by simp [lineOutputs, lineShare, SecretKey.publicKey],
    fun _ _ _ hj => lookup_map_pair _ hj⟩

/-- A reply's first byte as a signature; the empty reply does not deserialize. -/
def readByte (bytes : List UInt8) : Option (ZMod modulus) :=
  bytes.head?.map fun b => (b.toNat : ZMod modulus)

/-- The node's own operator 1; operator 2, which times out, then sends a reply that does not
deserialize, then its share's signature `5`; operator 3, which sends `9` instead of `6`;
and operator 4, on the invalid address. -/
def sampleOperators : List (UInt64 × Operator (ZMod modulus)) :=
  [(1, .local ⟨(lineShare 1).publicKey 1, lineShare 1⟩),
   (2, .remote ((lineShare 2).publicKey 1) false [.timeout, .data [], .data [5]]),
   (3, .remote ((lineShare 3).publicKey 1) false [.data [9]]),
   (4, .remote ((lineShare 4).publicKey 1) true [.data [7]])]

/-- The pairing of the scalars with themselves, multiplication, is injective at 1. -/
theorem mul_one_injective :
    Function.Injective (LinearMap.mul (ZMod modulus) (ZMod modulus) 1) := by
  intro a b h
  simpa using h

/-! ## The committee's signature -/

section Quorum

variable {G₁ G₂ : Type} [AddCommGroup G₂] [Module (ZMod modulus) G₂]

/-- **No signature below the threshold.**  Whatever the operators answer, `sign` returns a
signature only if at least `threshold` distinct operators answered with a signature that
verifies under their public key. -/
theorem committee_sign_needs_threshold (threshold : ℕ) (verify : G₂ → G₁ → Bool)
    (deserialize : List UInt8 → Option G₂) (hm : G₂) (operators : List (UInt64 × Operator G₁))
    {r : G₂ × List UInt64}
    (h : HotstuffOperatorCommittee.sign threshold verify deserialize hm operators = .ok r) :
    threshold ≤ (verifiedIds verify (entriesOf (signResults deserialize hm operators))).card := by
  rw [HotstuffOperatorCommittee.sign] at h
  cases hagg : thresholdAggregate threshold verify
      ((signResults deserialize hm operators).map (·.2.2))
      ((signResults deserialize hm operators).map (·.2.1))
      ((signResults deserialize hm operators).map (·.1)) with
  | error err =>
    rw [hagg] at h
    cases h
  | ok σ =>
    have hle := threshold_le_card_verifiedIds threshold verify hagg
    rwa [zip_entriesOf] at hle

/-- At threshold 1, the committee of four signs with operator 1's signature `4`, and
returns the ids of the three operators that answered. -/
theorem sample_committee_meets_threshold :
    HotstuffOperatorCommittee.sign 1
        ((BlsVerifier.pairing (LinearMap.mul (ZMod modulus) (ZMod modulus)) 1).verify 1) readByte 1 sampleOperators = .ok (4, [1, 2, 3]) ∧
      1 ≤ (verifiedIds ((BlsVerifier.pairing (LinearMap.mul (ZMod modulus) (ZMod modulus)) 1).verify 1)
        (entriesOf (signResults readByte 1 sampleOperators))).card := by
  have hsign : HotstuffOperatorCommittee.sign 1
      ((BlsVerifier.pairing (LinearMap.mul (ZMod modulus) (ZMod modulus)) 1).verify 1) readByte 1
      sampleOperators = .ok (4, [1, 2, 3]) := by decide +kernel
  exact ⟨hsign, committee_sign_needs_threshold 1 _ readByte 1 sampleOperators hsign⟩

end Quorum


section Committee

variable {G₁ G₂ GT : Type} [AddCommGroup G₁] [Module (ZMod modulus) G₁]
  [AddCommGroup G₂] [Module (ZMod modulus) G₂] [DecidableEq G₂] [AddCommGroup GT]
  [Module (ZMod modulus) GT] {e : G₁ →ₗ[ZMod modulus] G₂ →ₗ[ZMod modulus] GT} {g₁ : G₁}

/-- **The committee signs with the master key.**  When the operators' ids are distinct
nonzero members of a threshold sharing, each operator's public key is its share's, and `t`
operators answer with their share's signature, then over a pairing injective at the
generator, whatever the other operators answer, `sign` returns the master secret's
signature, which verifies under the master key every party holds, together with the ids of
every operator that answered. -/
theorem committee_sign_master {t : ℕ} {ids : List UInt64} {F : (ZMod modulus)[X]}
    {out : UInt64 → DkgOutput G₁} (hsh : SharingOf g₁ t ids F out) (V : BlsVerifier e g₁)
    (he : Function.Injective (e g₁))
    (ht : 0 < t) (deserialize : List UInt8 → Option G₂) (hm : G₂)
    (operators : List (UInt64 × Operator G₁)) (hkeys : (operators.map Prod.fst).Nodup)
    (hids : ∀ o ∈ operators, o.1 ∈ ids ∧ o.1 ≠ 0)
    (hpk : ∀ o ∈ operators, o.2.publicKey = (out o.1).1.pk)
    (hquorum : t ≤ (operators.filter fun o =>
      o.2.sign deserialize hm = some ((out o.1).1.sk.sign hm)).length) :
    HotstuffOperatorCommittee.sign t (V.verify hm) deserialize hm operators =
        .ok (F.eval 0 • hm, (signResults deserialize hm operators).map (·.1)) ∧
      ∀ i ∈ ids, V.verify hm (F.eval 0 • hm) (out i).2.1 = true := by
  -- a result's id is a member's, and its key that member's share's
  have hmember : ∀ r ∈ signResults deserialize hm operators,
      r.1 ∈ ids ∧ r.1 ≠ 0 ∧ r.2.1 = (out r.1).1.sk.publicKey g₁ := by
    intro r hr
    obtain ⟨o, ho, hid, hkey, -⟩ := mem_signResults hr
    rw [hid, hkey, hpk o ho]
    exact ⟨(hids o ho).1, (hids o ho).2, hsh.publicKey o.1 (hids o ho).1⟩
  -- a result that verifies is its share's signature
  have hshare : ∀ r ∈ (signResults deserialize hm operators).filter
      (fun r => V.verify hm r.2.2 r.2.1),
      r = (r.1, (out r.1).1.pk, (out r.1).1.sk.sign hm) := by
    intro r hr
    obtain ⟨hr, hver⟩ := List.mem_filter.mp hr
    obtain ⟨-, -, hkey⟩ := hmember r hr
    rw [hkey] at hver
    have hsig := eq_sign_of_verify V he hver
    rw [hsh.publicKey r.1 (hmember r hr).1, ← hkey, ← hsig]
  -- the operators that answer their share's signature all verify
  have hlen : t ≤ ((signResults deserialize hm operators).filter
      (fun r => V.verify hm r.2.2 r.2.1)).length := by
    refine hquorum.trans (length_filter_le_signResults deserialize hm _ _ operators ?_)
    intro o ho hgood
    refine ⟨_, of_decide_eq_true hgood, ?_⟩
    rw [hpk o ho, hsh.publicKey o.1 (hids o ho).1]
    exact V.verify_smul (publicKey_ne_zero hsh.generator_ne_zero (SecretKey.cast_ne_zero _)) hm
  generalize hS : ((signResults deserialize hm operators).filter
    (fun r => V.verify hm r.2.2 r.2.1)).map (·.1) = S
  have hverified : (signResults deserialize hm operators).filter
      (fun r => V.verify hm r.2.2 r.2.1) =
      S.map fun j => (j, (out j).1.pk, (out j).1.sk.sign hm) := by
    rw [← hS, List.map_map]
    conv_lhs => rw [← List.map_id ((signResults deserialize hm operators).filter _)]
    exact List.map_congr_left hshare
  have hSnodup : S.Nodup := by
    rw [← hS]
    exact ((signResults_ids_sublist deserialize hm operators).nodup hkeys).sublist
      (List.filter_sublist.map _)
  have hSids : ∀ j ∈ S, j ∈ ids ∧ j ≠ 0 := by
    intro j hj
    rw [← hS] at hj
    obtain ⟨r, hr, rfl⟩ := List.mem_map.mp hj
    have hr' := (List.mem_filter.mp hr).1
    exact ⟨(hmember r hr').1, (hmember r hr').2.1⟩
  have hSlen : t ≤ S.length := by
    rw [← hS, List.length_map]
    exact hlen
  obtain ⟨hagg, hmaster⟩ := hsh.thresholdAggregate_verify V hm hSnodup (fun j hj => (hSids j hj).1)
    (fun j hj => (hSids j hj).2) ht hSlen
  refine ⟨?_, hmaster⟩
  -- the results that do not verify change nothing; the others are the shares' signatures
  have hsigs : (S.map fun j => (j, (out j).1.pk, (out j).1.sk.sign hm)).map (·.2.2) =
      S.map fun j => (out j).1.sk.sign hm := List.map_map ..
  have hpks : (S.map fun j => (j, (out j).1.pk, (out j).1.sk.sign hm)).map (·.2.1) =
      S.map fun j => (out j).1.pk := List.map_map ..
  have hids' : (S.map fun j => (j, (out j).1.pk, (out j).1.sk.sign hm)).map (·.1) = S := by
    rw [List.map_map]
    exact List.map_id S
  rw [HotstuffOperatorCommittee.sign, thresholdAggregate_filter_verified t _ _
    (fun r hr => (hmember r hr).2.1) hlen, hverified, hsigs, hpks, hids', hagg]
  rfl

/-- At threshold 2, the committee of four signs with the master secret `3`: operators 1 and
2 answer their shares' signatures, and operator 3's wrong answer is skipped, though its id
is returned with the others'. -/
theorem sample_committee_signs_master :
    (sampleOperators.map Prod.fst).Nodup ∧
      (∀ o ∈ sampleOperators, o.1 ∈ [1, 2, 3, 4] ∧ o.1 ≠ 0) ∧
      (∀ o ∈ sampleOperators, o.2.publicKey = (lineOutputs o.1).1.pk) ∧
      2 ≤ (sampleOperators.filter fun o =>
        o.2.sign readByte 1 = some ((lineOutputs o.1).1.sk.sign 1)).length ∧
      (signResults readByte 1 sampleOperators).map (·.1) = [1, 2, 3] ∧
      HotstuffOperatorCommittee.sign 2
          ((BlsVerifier.pairing (LinearMap.mul (ZMod modulus) (ZMod modulus)) 1).verify 1) readByte 1
          sampleOperators =
        .ok ((Polynomial.C 1 * Polynomial.X + Polynomial.C 3 : (ZMod modulus)[X]).eval 0 • 1,
          (signResults readByte 1 sampleOperators).map (·.1)) ∧
      ∀ i ∈ [1, 2, 3, 4], (BlsVerifier.pairing (LinearMap.mul (ZMod modulus) (ZMod modulus)) 1).verify 1
        ((Polynomial.C 1 * Polynomial.X + Polynomial.C 3 : (ZMod modulus)[X]).eval 0 • 1)
        (lineOutputs i).2.1 = true := by
  have hkeys : (sampleOperators.map Prod.fst).Nodup := by decide
  have hids : ∀ o ∈ sampleOperators, o.1 ∈ [1, 2, 3, 4] ∧ o.1 ≠ 0 := by decide
  have hpk : ∀ o ∈ sampleOperators, o.2.publicKey = (lineOutputs o.1).1.pk := by decide +kernel
  have hquorum : 2 ≤ (sampleOperators.filter fun o =>
      o.2.sign readByte 1 = some ((lineOutputs o.1).1.sk.sign 1)).length := by decide +kernel
  have hresults : (signResults readByte 1 sampleOperators).map (·.1) = [1, 2, 3] := by
    decide +kernel
  have h := committee_sign_master lineOutputs_sharing
    (BlsVerifier.pairing (LinearMap.mul (ZMod modulus) (ZMod modulus)) 1) mul_one_injective (by norm_num) readByte 1 sampleOperators hkeys hids hpk
    hquorum
  exact ⟨hkeys, hids, hpk, hquorum, hresults, h⟩

end Committee

end SafeStake.Validation
