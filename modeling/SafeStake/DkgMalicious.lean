import SafeStake.Dkg

/-! # Distributed key generation against malicious parties

`DKGMalicious::run` at one party adds to the honest protocol a commitment to each dealt
polynomial (its coefficients times a second generator `h`), the shares sent encrypted and
checked against the commitments (`share_verification`), dispute claims against dealers
whose share fails, and proofs of equality of discrete logarithms (DLEQ) binding each public
key and group public key to the commitments.

`maliciousRun` runs every party of a committee on the messages the others send, all of
them following the protocol.  Then every share passes its check, no claim is issued, every
proof verifies and every group public key matches the commitments
(`dleqVerify_of_dleqProve`, `Draw.eval_commit`); every party returns the threshold sharing
of the honest protocol when no key read back is zero (`Nondegenerate`), and panics when
one is.
-/

open scoped Polynomial

namespace SafeStake.Dkg

open ByteCodec Interpolation SafeStake.Threshold

/-! ## Scalars as bytes -/

/-- `blst_wrap_sk_to_bytes`: a key's bytes, least significant first. -/
def blstWrapSkToBytes (sk : SecretKey) : List UInt8 := sk.serialize.reverse

/-- `bytes_to_blst_scalar`: bytes read least significant first, reduced modulo
`MODULUS`. -/
def bytesToBlstScalar (b : List UInt8) : ZMod modulus := (leNat b : ZMod modulus)

/-- `blst_scalar_to_blst_wrap_sk`: a scalar's 32 bytes read back as a key; `unwrap` panics
on zero. -/
def blstScalarToBlstWrapSk (x : ZMod modulus) : Except Fault SecretKey :=
  orPanic (SecretKey.deserialize (leBytes 32 x.val).reverse)

@[simp] theorem bytesToBlstScalar_blstWrapSkToBytes (sk : SecretKey) :
    bytesToBlstScalar (blstWrapSkToBytes sk) = sk.scalar := by
  rw [bytesToBlstScalar, blstWrapSkToBytes, ← beNat, SecretKey.beNat_serialize]

/-- `CommittedPoly`: one point per coefficient, constant term first. -/
structure CommittedPoly (G₁ : Type) where
  commitments : List G₁

/-- The scalar `blst_p1_mult` multiplies by, given a coefficient's `to_bytes_le` padded to
32 bytes and 255 bits: the low 255 bits of its magnitude. -/
def commitScalar (c : ℤ) : ZMod modulus := ((c.natAbs % 2 ^ 255 : ℕ) : ZMod modulus)

theorem commitScalar_of_lt {c : ℤ} (h0 : 0 ≤ c) (hlt : c < 2 ^ 255) :
    commitScalar c = (c : ZMod modulus) := by
  have habs : c.natAbs < 2 ^ 255 := by omega
  rw [commitScalar, Nat.mod_eq_of_lt habs, ← Int.cast_natCast, Int.natAbs_of_nonneg h0]

/-- Every reduced scalar fits the 255 bits `blst_p1_mult` reads. -/
theorem modulus_lt_two_pow_255 : (modulus : ℤ) < 2 ^ 255 := by norm_num [modulus]

section Commitments

variable {G₁ : Type} [AddCommGroup G₁] [Module (ZMod modulus) G₁]

/-- `Polynomial<BigInt>::commit`: each coefficient times `h`. -/
def commit (h : G₁) (poly : Threshold.Polynomial ℤ) : CommittedPoly G₁ :=
  ⟨poly.coeffs.map fun c => commitScalar c • h⟩

/-- `CommittedPoly::eval`: the commitments weighted by the running powers of `x` (a reduced
scalar, below `2 ^ 255`, so the 255 bits `blst_p1_mult` takes are all of it), added up with
`blst_p1_add`; indexing the first commitment panics when there is none. -/
def CommittedPoly.eval (cp : CommittedPoly G₁) (blstP1Add : IncompleteAdd G₁) (x : ZMod modulus) :
    Option G₁ :=
  match cp.commitments with
  | [] => none
  | c₀ :: rest =>
    some (rest.foldl (fun (acc : G₁ × ZMod modulus) c =>
      (blstP1Add.add acc.1 (acc.2 • c), acc.2 * x)) (c₀, x)).1

/-- No `blst_p1_add` of `CommittedPoly::eval` at `x` adds a point other than the point at
infinity to itself. -/
def CommittedPoly.AddsDistinct (cp : CommittedPoly G₁) (x : ZMod modulus) : Prop :=
  match cp.commitments with
  | [] => True
  | c₀ :: rest => PowersAddDistinct x rest c₀ x

instance CommittedPoly.AddsDistinct.decidable [DecidableEq G₁] (cp : CommittedPoly G₁)
    (x : ZMod modulus) : Decidable (cp.AddsDistinct x) :=
  match cp with
  | ⟨[]⟩ => isTrue trivial
  | ⟨c₀ :: rest⟩ => inferInstanceAs (Decidable (PowersAddDistinct x rest c₀ x))

/-- `DleqProof`: the challenge and the response. -/
structure DleqProof where
  c : ZMod modulus
  r : ZMod modulus
deriving DecidableEq

/-- Neither `blst_p1_add` of `dleq_verify` on the proof adds a point other than infinity to
itself. -/
def DleqProof.AddsDistinct (proof : DleqProof) (x₁ y₁ x₂ y₂ : G₁) : Prop :=
  (proof.r • x₁ = proof.c • y₁ → proof.c • y₁ = 0) ∧
    (proof.r • x₂ = proof.c • y₂ → proof.c • y₂ = 0)

variable [DecidableEq G₁] (hash : List G₁ → ZMod modulus)

instance DleqProof.AddsDistinct.decidable (proof : DleqProof) (x₁ y₁ x₂ y₂ : G₁) :
    Decidable (proof.AddsDistinct x₁ y₁ x₂ y₂) :=
  inferInstanceAs (Decidable (_ ∧ _))

/-- `DKGMalicious::dleq_prove` that `y₁ = α • x₁` and `y₂ = α • x₂`, with the nonce `w` that
`random_blst_scalar` draws and `hash` the `hash_points_to_blst_scalar` of the six points; a
false statement is refused. -/
def dleqProve (w : ZMod modulus) (x₁ y₁ x₂ y₂ : G₁) (α : ZMod modulus) :
    Except DvfError DleqProof :=
  if α • x₁ ≠ y₁ ∨ α • x₂ ≠ y₂ then .error .zkProofInvalidInput
  else
    let c := hash [x₁, y₁, x₂, y₂, w • x₁, w • x₂]
    .ok ⟨c, w - α * c⟩

/-- `DKGMalicious::dleq_verify`: the points the prover committed to, rebuilt from the
response and the challenge with `blst_p1_add`, hash to the challenge. -/
def dleqVerify (blstP1Add : IncompleteAdd G₁) (x₁ y₁ x₂ y₂ : G₁) (proof : DleqProof) : Bool :=
  proof.c == hash [x₁, y₁, x₂, y₂, blstP1Add.add (proof.r • x₁) (proof.c • y₁),
    blstP1Add.add (proof.r • x₂) (proof.c • y₂)]

/-- A true statement is proved. -/
theorem dleqProve_smul (w α : ZMod modulus) (x₁ x₂ : G₁) :
    ∃ proof, dleqProve hash w x₁ (α • x₁) x₂ (α • x₂) α = .ok proof := by
  rw [dleqProve, if_neg (by simp)]
  exact ⟨_, rfl⟩

end Commitments

/-! ## Tables keyed by party -/

section Tables

variable {β : Type}

/-- `HashMap::insert` on an association list: the key's previous entry goes. -/
def mapInsert (m : List (UInt64 × β)) (k : UInt64) (v : β) : List (UInt64 × β) :=
  (k, v) :: m.filter fun e => e.1 != k

/-- `collect::<HashMap<_, _>>()`: the entries inserted in turn. -/
def mapCollect (l : List (UInt64 × β)) : List (UInt64 × β) :=
  l.foldl (fun m e => mapInsert m e.1 e.2) []

theorem mapInsert_of_not_mem {m : List (UInt64 × β)} {k : UInt64} (hk : k ∉ m.map Prod.fst)
    (v : β) : mapInsert m k v = (k, v) :: m := by
  rw [mapInsert, List.filter_eq_self.mpr]
  intro e he
  have hne : e.1 ≠ k := fun heq => hk (List.mem_map.mpr ⟨e, he, heq⟩)
  simpa using hne

/-- Entries with distinct keys, inserted in turn in front of a table without them, end up
in front of it in reverse order. -/
theorem foldl_mapInsert_of_nodup :
    ∀ (l m : List (UInt64 × β)), (l.map Prod.fst).Nodup → (∀ e ∈ l, e.1 ∉ m.map Prod.fst) →
      l.foldl (fun m e => mapInsert m e.1 e.2) m = l.reverse ++ m
  | [], _, _, _ => rfl
  | e :: l, m, hnd, hfresh => by
    rw [List.map_cons, List.nodup_cons] at hnd
    have hrest : ∀ e' ∈ l, e'.1 ∉ ((e.1, e.2) :: m).map Prod.fst := by
      intro e' he' hmem
      rw [List.map_cons, List.mem_cons] at hmem
      rcases hmem with heq | hm
      · exact hnd.1 (heq ▸ List.mem_map_of_mem he')
      · exact hfresh e' (List.mem_cons_of_mem _ he') hm
    rw [List.foldl_cons, mapInsert_of_not_mem (hfresh e (List.mem_cons_self ..)),
      foldl_mapInsert_of_nodup l _ hnd.2 hrest, List.reverse_cons, List.append_assoc]
    rfl

theorem mapCollect_of_nodup {l : List (UInt64 × β)} (hnd : (l.map Prod.fst).Nodup) :
    mapCollect l = l.reverse := by
  rw [mapCollect, foldl_mapInsert_of_nodup l [] hnd (by simp), List.append_nil]

end Tables

/-! ## One party's run -/

/-- The encryption of the private channels, as far as the run uses it: what a party
decrypts on its channel with the sender is what the sender encrypted for it. -/
structure Cipher where
  /-- `encrypt i j m`: on party `i`'s channel to party `j`. -/
  encrypt : UInt64 → UInt64 → List UInt8 → List UInt8
  /-- `decrypt j i m`: on party `j`'s channel with party `i`. -/
  decrypt : UInt64 → UInt64 → List UInt8 → List UInt8
  decrypt_encrypt : ∀ i j m, decrypt j i (encrypt i j m) = m

/-- What the parties share: the generator `g` of G1, the second generator `h` of
`another_p1_generator`, `hash_points_to_blst_scalar`, the channels, and `blst_p1_add`, which
the blst crate documents as the group law on distinct points and the point at infinity on
equal ones. -/
structure Setup (G₁ : Type) [AddCommGroup G₁] where
  g : G₁
  h : G₁
  hash : List G₁ → ZMod modulus
  cipher : Cipher
  blstP1Add : IncompleteAdd G₁

/-- `VssSharePayload`: an encrypted share and the dealer's commitment. -/
structure VssSharePayload (G₁ : Type) where
  encShare : List UInt8
  committedPoly : CommittedPoly G₁

/-- `PkPayload`: a public key, and the proof that it and the commitment to the key share a
discrete logarithm. -/
structure PkPayload (G₁ : Type) where
  pk : G₁
  proof : DleqProof

/-- `GpkPayload`: a group public key, `h` times the group secret, and the proof that the two
share a discrete logarithm. -/
structure GpkPayload (G₁ : Type) where
  gpk : G₁
  auxGpk : G₁
  proof : DleqProof

/-- The nonces `random_blst_scalar` draws for a party's proofs: of its public key, of its
group public key, and of the key of its channel with each dealer it claims against. -/
structure Nonces where
  pk : ZMod modulus
  gpk : ZMod modulus
  claim : UInt64 → ZMod modulus

/-- A `DisputeClaim`: the party that issues it, the dealer it accuses, the encrypted share
the dealer sent, the key of their channel (read as a point), the dealer's commitment, and
the proof that the key is the channel's.  The dealer's signature on the share is checked
by `verify_partner`, as in the payloads. -/
structure DisputeClaim (G₁ : Type) where
  issueParty : UInt64
  corruptedParty : UInt64
  encShare : List UInt8
  key : G₁
  committedPoly : CommittedPoly G₁
  proof : DleqProof

/-- What a party receives from each other party: its share payload, its verification
results, the dispute claim it sends against each id those results mark invalid, and its
public key and group public key payloads. -/
structure Inbox (G₁ : Type) where
  payload : UInt64 → VssSharePayload G₁
  results : UInt64 → List (UInt64 × Bool)
  claims : UInt64 → UInt64 → DisputeClaim G₁
  pkPayload : UInt64 → PkPayload G₁
  gpkPayload : UInt64 → GpkPayload G₁

/-- `SecureNetIOCommittee` as the run uses it: the party, the committee's ids (the party has
a channel with each other one), the private key `sk` of all its channels, each channel's
partner public key, `verify_partner` on the channel with a party, and `decrypt_with_key`,
which panics where the slice or the AES decryption fails (`none`). -/
structure IOCommittee (G₁ : Type) where
  party : UInt64
  ids : List UInt64
  sk : ZMod modulus
  partnerPublicKey : UInt64 → G₁
  verifyPartner : UInt64 → List UInt8 → Bool
  decryptWithKey : List UInt8 → G₁ → Option (List UInt8)

namespace IOCommittee

variable {G₁ : Type}

/-- `channels.get(&id)`: `SecureNetIOCommittee::new` opens a channel to every other id, named
here by that id. -/
def channelTo (io : IOCommittee G₁) (id : UInt64) : Option UInt64 :=
  if id ∈ io.ids.filter (· != io.party) then some id else none

/-- `SecureNetIOCommittee::channel`: the channel between `fromId` and `toId`, one of which
must be the party, is the one to the other end; a channel of a party with itself, or between
two other parties, panics ("Invalid channel"), and so does one to an id without a channel
(`unwrap`). -/
def channel (io : IOCommittee G₁) (fromId toId : UInt64) : Except Fault UInt64 :=
  if fromId = toId ∨ (fromId ≠ io.party ∧ toId ≠ io.party) then .error .panic
  else if fromId = io.party then orPanic (io.channelTo toId)
  else orPanic (io.channelTo fromId)

end IOCommittee

section Run

variable {G₁ : Type} [AddCommGroup G₁] [Module (ZMod modulus) G₁] [DecidableEq G₁]

namespace DKGMalicious

variable (s : Setup G₁)

/-- `share_generation`: the key generation, and the commitment to its polynomial. -/
def shareGeneration (d : Draw) (ids : List UInt64) :
    Except Fault (Keypair G₁ × List (UInt64 × Keypair G₁) × Threshold.Polynomial ℤ ×
      CommittedPoly G₁) :=
  (keyGenWithPoly s.g d ids).map fun r => (r.1, r.2.1, r.2.2, commit s.h r.2.2)

/-- `share_transmission` as the party sees it: to each other id goes the share the party
deals it (`unwrap` panics when there is none), and from it comes its payload; the payloads
are collected by id. -/
def shareTransmission (party : UInt64) (kps : List (UInt64 × Keypair G₁)) (inbox : Inbox G₁)
    (ids : List UInt64) : Except Fault (List (UInt64 × VssSharePayload G₁)) :=
  ((ids.filter (· != party)).mapM fun id =>
    (orPanic (kps.lookup id)).map fun _ => (id, inbox.payload id)).map mapCollect

/-- `share_verification`: for each received share, whether `h` times it is the sender's
commitment at the party's id; `eval` panics on a commitment with no point. -/
def shareVerification (party : UInt64) (payloads : List (UInt64 × VssSharePayload G₁)) :
    Except Fault (List (UInt64 × Bool)) :=
  (payloads.filter fun p => p.1 != party).mapM fun p =>
    (orPanic (p.2.committedPoly.eval s.blstP1Add (u64ToBlstScalar party))).map fun y =>
      (p.1, decide (bytesToBlstScalar (s.cipher.decrypt party p.1 p.2.encShare) • s.h = y))

/-- The ids the party issues a dispute claim against: those whose share failed. -/
def disputed (results : List (UInt64 × Bool)) : List UInt64 :=
  (results.filter fun r => !r.2).map Prod.fst

/-- `issude_dispute_claim` against `corrupted`, with the payload it sent: the channel to it,
whose keys (`self_public_key`, the partner's, and the ECDH `shared_secret`) the proof binds,
and the claim, which is broadcast; `w` is the nonce `dleq_prove` draws. -/
def issueDisputeClaim (io : IOCommittee G₁) (w : ZMod modulus) (corrupted : UInt64)
    (share : VssSharePayload G₁) : Except Fault (DisputeClaim G₁) := do
  let channel ← io.channel io.party corrupted
  let pkJ := io.sk • s.g
  let pkI := io.partnerPublicKey channel
  let kij := io.sk • pkI
  let proof ← (dleqProve s.hash w s.g pkJ pkI kij io.sk).mapError Fault.error
  pure ⟨io.party, corrupted, share.encShare, kij, share.committedPoly, proof⟩

/-- The claims of `run`: one against each dealer whose share failed, on the payload it sent
(`payloads.get(&id).unwrap()`); `w id` is the nonce of the claim against `id`. -/
def issueDisputeClaims (io : IOCommittee G₁) (w : UInt64 → ZMod modulus)
    (payloads : List (UInt64 × VssSharePayload G₁)) (vrfy : List (UInt64 × Bool)) :
    Except Fault (List (DisputeClaim G₁)) :=
  (disputed vrfy).mapM fun id => do
    let share ← orPanic (payloads.lookup id)
    issueDisputeClaim s io (w id) id share

/-- `verify_dispute_claim` at the party: the channels to the issuer and to the accused, the
accused's signature on the share, the proof that the claimed key is their channel's, and
last whether the share decrypted with that key fails the accused's commitment at the
issuer's id (`eval` panics on a commitment with no point). -/
def verifyDisputeClaim (io : IOCommittee G₁) (claim : DisputeClaim G₁) : Except Fault Bool := do
  let channelJ ← io.channel io.party claim.issueParty
  let channelI ← io.channel io.party claim.corruptedParty
  if !io.verifyPartner channelI claim.encShare then pure false
  else if !dleqVerify s.hash s.blstP1Add s.g (io.partnerPublicKey channelJ)
      (io.partnerPublicKey channelI) claim.key claim.proof then pure false
  else
    let share ← orPanic (io.decryptWithKey claim.encShare claim.key)
    let y' ← orPanic (claim.committedPoly.eval s.blstP1Add (u64ToBlstScalar claim.issueParty))
    pure (decide (bytesToBlstScalar share • s.h ≠ y'))

/-- The dispute loop of `run`: for each other party, its channel to the party, and for each
id its results mark invalid, the claim received on that channel (`claims` names it by the
issuer and the accused id), checked by `verify_dispute_claim`.  `join_all` awaits every
check, and the pairs whose claim is valid are collected. -/
def disputeClaims (io : IOCommittee G₁) (claims : UInt64 → UInt64 → DisputeClaim G₁)
    (others : List (UInt64 × List (UInt64 × Bool))) : Except Fault (List (UInt64 × UInt64)) := do
  let checks ← others.mapM fun o => do
    let _ ← io.channel o.1 io.party
    (o.2.filter fun r => !r.2).mapM fun r =>
      (verifyDisputeClaim s io (claims o.1 r.1)).map fun valid => (o.1, r.1, valid)
  pure ((checks.flatten.filter fun c => c.2.2).map fun c => (c.1, c.2.1))

/-- `run` at the party of `io` up to its dispute claims: `share_generation`,
`share_transmission` and `share_verification`; the keys, the commitment, the payloads and
the results. -/
def sharePhase (io : IOCommittee G₁) (d : Draw) (inbox : Inbox G₁) :
    Except Fault (Keypair G₁ × List (UInt64 × Keypair G₁) × CommittedPoly G₁ ×
      List (UInt64 × VssSharePayload G₁) × List (UInt64 × Bool)) := do
  let (kp, kps, _, cp) ← shareGeneration s d io.ids
  let payloads ← shareTransmission io.party kps inbox io.ids
  let vrfy ← shareVerification s io.party payloads
  pure (kp, kps, cp, payloads, vrfy)

/-- `run` at the party of `io` through its dispute loop: its share phases, a claim against
each dealer whose share failed, and the loop over the other parties' results with the claims
they send; what the rest of the run reads, with the valid claims. -/
def disputePhase (io : IOCommittee G₁) (d : Draw) (w : UInt64 → ZMod modulus)
    (inbox : Inbox G₁) (claims : UInt64 → UInt64 → DisputeClaim G₁) :
    Except Fault (Keypair G₁ × List (UInt64 × Keypair G₁) × CommittedPoly G₁ ×
      List (UInt64 × VssSharePayload G₁) × List (UInt64 × Bool) × List (UInt64 × UInt64)) := do
  let (kp, kps, cp, payloads, vrfy) ← sharePhase s io d inbox
  let _ ← issueDisputeClaims s io w payloads vrfy
  let valid ← disputeClaims s io claims
    ((io.ids.filter (· != io.party)).map fun id => (id, inbox.results id))
  pure (kp, kps, cp, payloads, vrfy, valid)

/-- The commitments by id: the party's own, then each received one. -/
def committedPolys (party : UInt64) (cp : CommittedPoly G₁)
    (payloads : List (UInt64 × VssSharePayload G₁)) : List (UInt64 × CommittedPoly G₁) :=
  payloads.foldl (fun m p => mapInsert m p.1 p.2.committedPoly) (mapInsert [] party cp)

/-- The commitment to an id's key, `committed_polys[id].commitments[0]`, which panics when
the id has no commitment or it has no point. -/
def auxPk (cps : List (UInt64 × CommittedPoly G₁)) (id : UInt64) : Except Fault G₁ :=
  orPanic ((cps.lookup id).bind fun cp => cp.commitments.head?)

/-- What `exchange_public_keys` broadcasts: the public key, with the proof that it and the
commitment to the key share the key as discrete logarithm. -/
def ownPkPayload (w : ZMod modulus) (pk : G₁) (sk : ZMod modulus)
    (cps : List (UInt64 × CommittedPoly G₁)) (party : UInt64) : Except Fault (PkPayload G₁) := do
  let aux ← auxPk cps party
  let proof ← (dleqProve s.hash w s.g pk s.h aux sk).mapError Fault.error
  pure ⟨pk, proof⟩

/-- `exchange_public_keys`: after broadcasting its own payload, the party keeps each other
party's public key whose proof verifies against that party's commitment; fewer keys than
ids is an error. -/
def exchangePublicKeys (party : UInt64) (ids : List UInt64) (w : ZMod modulus) (pk : G₁)
    (sk : ZMod modulus) (cps : List (UInt64 × CommittedPoly G₁)) (inbox : Inbox G₁) :
    Except Fault (List (UInt64 × G₁)) := do
  let _ ← ownPkPayload s w pk sk cps party
  let received ← (ids.filter (· != party)).mapM fun id => do
    let other := inbox.pkPayload id
    let otherAux ← auxPk cps id
    pure (if dleqVerify s.hash s.blstP1Add s.g other.pk s.h otherAux other.proof then
      some (id, other.pk)
      else none)
  let results := mapInsert (mapCollect received.reduceOption) party pk
  if results.length < ids.length then throw (.error .insufficientValidPks) else pure results

/-- `reveal_shares`: each received share, decrypted and read as a scalar. -/
def revealShares (party : UInt64) (payloads : List (UInt64 × VssSharePayload G₁)) :
    List (UInt64 × ZMod modulus) :=
  mapCollect ((payloads.filter fun p => p.1 != party).map fun p =>
    (p.1, bytesToBlstScalar (s.cipher.decrypt party p.1 p.2.encShare)))

/-- `construct_group_key`: the sum of the shares, and its public key. -/
def constructGroupKey (shares : List (UInt64 × ZMod modulus)) : ZMod modulus × G₁ :=
  ((shares.map Prod.snd).sum, (shares.map Prod.snd).sum • s.g)

/-- The revealed shares with the party's own added (`kps[&self.party]` panics when it has
none), made into the group key. -/
def groupKey (party : UInt64) (kps : List (UInt64 × Keypair G₁))
    (payloads : List (UInt64 × VssSharePayload G₁)) : Except Fault (ZMod modulus × G₁) :=
  (orPanic (kps.lookup party)).map fun kp =>
    constructGroupKey s (mapInsert (revealShares s party payloads) party
      (bytesToBlstScalar (blstWrapSkToBytes kp.sk)))

/-- What `exchange_group_public_keys` broadcasts: the group public key, `h` times the group
secret, and the proof that the two share the group secret as discrete logarithm. -/
def ownGpkPayload (w : ZMod modulus) (gpk : G₁) (gsk : ZMod modulus) :
    Except Fault (GpkPayload G₁) :=
  ((dleqProve s.hash w s.g gpk s.h (gsk • s.h) gsk).mapError Fault.error).map fun proof =>
    ⟨gpk, gsk • s.h, proof⟩

/-- `exchange_group_public_keys`: after broadcasting its own payload, the party keeps each
other party's group public key whose proof verifies and whose `aux_gpk` is the sum of all
the commitments at that party's id (`eval` panics on a commitment with no point); fewer
keys than ids is an error. -/
def exchangeGroupPublicKeys (party : UInt64) (ids : List UInt64) (w : ZMod modulus) (gpk : G₁)
    (gsk : ZMod modulus) (cps : List (UInt64 × CommittedPoly G₁)) (inbox : Inbox G₁) :
    Except Fault (List (UInt64 × G₁)) := do
  let _ ← ownGpkPayload s w gpk gsk
  let received ← (ids.filter (· != party)).mapM fun id => do
    let other := inbox.gpkPayload id
    if dleqVerify s.hash s.blstP1Add s.g other.gpk s.h other.auxGpk other.proof then
      let evals ← cps.mapM fun e => orPanic (e.2.eval s.blstP1Add (u64ToBlstScalar id))
      pure (if other.auxGpk = evals.sum then some (id, other.gpk) else none)
    else pure none
  let results := mapInsert (mapCollect received.reduceOption) party gpk
  if results.length < ids.length then throw (.error .insufficientValidPks) else pure results

/-- `DKGMalicious::run` at the party of `io`, on the messages it receives: a valid claim
received aborts it with `InvalidDkgShare`, a failed share of its own with
`VssShareVerificationFailed`. -/
def run (io : IOCommittee G₁) (d : Draw) (w : Nonces) (inbox : Inbox G₁) :
    Except Fault (DkgOutput G₁) := do
  let (kp, kps, cp, payloads, vrfy, claims) ← disputePhase s io d w.claim inbox inbox.claims
  if claims ≠ [] then throw (.error (.invalidDkgShare claims))
  if disputed vrfy ≠ [] then throw (.error .vssShareVerificationFailed)
  let cps := committedPolys io.party cp payloads
  let pks ← exchangePublicKeys s io.party io.ids w.pk kp.pk
    (bytesToBlstScalar (blstWrapSkToBytes kp.sk)) cps inbox
  let mpk := ((mapInsert pks io.party kp.pk).map Prod.snd).sum
  let (gsk, gpk) ← groupKey s io.party kps payloads
  let gpks ← exchangeGroupPublicKeys s io.party io.ids w.gpk gpk gsk cps inbox
  let gskKey ← blstScalarToBlstWrapSk gsk
  let mpkKey ← publicKeyOf mpk
  let gpkKeys ← gpks.mapM fun e => (publicKeyOf e.2).map (e.1, ·)
  pure (⟨gskKey.publicKey s.g, gskKey⟩, mpkKey, gpkKeys)

end DKGMalicious

/-! ## The committee -/

variable (s : Setup G₁) (ioOf : UInt64 → IOCommittee G₁) (ids : List UInt64)
  (draws : UInt64 → Draw) (nonces : UInt64 → Nonces)

/-- The payload party `j` sends party `i`: the share it deals `i`, encrypted on its channel
to `i`, and its commitment.  As for the honest protocol, the values standing for the
messages of a party that stopped are never read in the runs below. -/
def deliverPayload (i j : UInt64) : VssSharePayload G₁ :=
  match DKGMalicious.shareGeneration s (draws j) ids with
  | .ok (_, kps, _, cp) =>
    ⟨s.cipher.encrypt j i (((kps.lookup i).map fun kp => blstWrapSkToBytes kp.sk).getD []), cp⟩
  | .error _ => ⟨[], ⟨[]⟩⟩

/-- The payloads party `i` collects. -/
def receivedPayloads (i : UInt64) : List (UInt64 × VssSharePayload G₁) :=
  mapCollect ((ids.filter (· != i)).map fun j => (j, deliverPayload s ids draws i j))

/-- The public key payload party `j` broadcasts. -/
def senderPkPayload (j : UInt64) : Except Fault (PkPayload G₁) := do
  let (kp, _, _, cp) ← DKGMalicious.shareGeneration s (draws j) ids
  DKGMalicious.ownPkPayload s (nonces j).pk kp.pk (bytesToBlstScalar (blstWrapSkToBytes kp.sk))
    (DKGMalicious.committedPolys j cp (receivedPayloads s ids draws j)) j

/-- The group public key payload party `j` broadcasts. -/
def senderGpkPayload (j : UInt64) : Except Fault (GpkPayload G₁) := do
  let (_, kps, _, _) ← DKGMalicious.shareGeneration s (draws j) ids
  let (gsk, gpk) ← DKGMalicious.groupKey s j kps (receivedPayloads s ids draws j)
  DKGMalicious.ownGpkPayload s (nonces j).gpk gpk gsk

/-- What party `i` receives when every party follows the protocol: from party `j`, the
claim `issude_dispute_claim` builds against each dealer on the dealer's payload to `j`. -/
def deliverInbox (i : UInt64) : Inbox G₁ where
  payload j := deliverPayload s ids draws i j
  results j := match DKGMalicious.shareVerification s j (receivedPayloads s ids draws j) with
    | .ok r => r
    | .error _ => []
  claims j k := match DKGMalicious.issueDisputeClaim s (ioOf j) ((nonces j).claim k) k
      (deliverPayload s ids draws j k) with
    | .ok claim => claim
    | .error _ => ⟨j, k, [], 0, ⟨[]⟩, ⟨0, 0⟩⟩
  pkPayload j := match senderPkPayload s ids draws nonces j with
    | .ok p => p
    | .error _ => ⟨0, ⟨0, 0⟩⟩
  gpkPayload j := match senderGpkPayload s ids draws nonces j with
    | .ok p => p
    | .error _ => ⟨0, 0, ⟨0, 0⟩⟩

end Run

/-! ## Honest runs -/

/-- The other ids and the party's own make up the ids. -/
theorem perm_others {ids : List UInt64} (hids : ids.Nodup) {i : UInt64} (hi : i ∈ ids) :
    (i :: ids.filter (· != i)).Perm ids := by
  rw [← hids.erase_eq_filter]
  exact (List.perm_cons_erase hi).symm

theorem mem_others {ids : List UInt64} {i j : UInt64} :
    j ∈ ids.filter (· != i) ↔ j ∈ ids ∧ j ≠ i := by
  simp

/-- The first commitment of a dealt polynomial is the key times `h`. -/
theorem Draw.head_commit {G₁ : Type} [AddCommGroup G₁] [Module (ZMod modulus) G₁] (d : Draw)
    (hne : d.sample ≠ []) (h : G₁) :
    (commit h d.polynomial).commitments.head? = some ((d.sk.scalar : ZMod modulus) • h) := by
  obtain ⟨c, rest, hcs⟩ := List.exists_cons_of_ne_nil hne
  have hlt : (d.sk.scalar : ℤ) < 2 ^ 255 := by
    have := d.sk.lt
    have := modulus_lt_two_pow_255
    omega
  simp [commit, Draw.polynomial, hcs, commitScalar_of_lt (Int.natCast_nonneg _) hlt]

/-- The order in which a party keeps the others' entries, behind its own. -/
theorem perm_others_reverse {ids : List UInt64} (hids : ids.Nodup) {i : UInt64} (hi : i ∈ ids) :
    (i :: (ids.filter (· != i)).reverse).Perm ids :=
  ((List.reverse_perm _).cons i).trans (perm_others hids hi)

theorem length_others {ids : List UInt64} (hids : ids.Nodup) {i : UInt64} (hi : i ∈ ids) :
    (i :: (ids.filter (· != i)).reverse).length = ids.length :=
  (perm_others_reverse hids hi).length_eq

/-- The sum over the other ids and the party's own is the sum over the ids. -/
theorem sum_others {M : Type} [AddCommMonoid M] {ids : List UInt64} (hids : ids.Nodup) {i : UInt64}
    (hi : i ∈ ids) (f : UInt64 → M) :
    ((ids.filter (· != i) ++ [i]).map f).sum = (ids.map f).sum :=
  ((List.perm_append_singleton _ _).trans (perm_others hids hi)).map f |>.sum_eq

theorem nodup_keys_others {β : Type} {ids : List UInt64} (hids : ids.Nodup) (i : UInt64)
    (v : UInt64 → β) : ((((ids.filter (· != i)).map fun j => (j, v j)).reverse).map Prod.fst).Nodup := by
  rw [List.map_reverse, List.nodup_reverse, List.map_map]
  simpa [Function.comp_def] using hids.filter (· != i)

section Honest

variable {G₁ : Type} [AddCommGroup G₁] [Module (ZMod modulus) G₁] [DecidableEq G₁]
  {t : ℕ} {ids : List UInt64} {draws : UInt64 → Draw} {nonces : UInt64 → Nonces}

omit [DecidableEq G₁] in
theorem shareGeneration_honest (s : Setup G₁) (hc : Committee t ids draws)
    (hshare : SharesNonzero ids draws) {j : UInt64} (hj : j ∈ ids) :
    ∃ kps, DKGMalicious.shareGeneration s (draws j) ids =
        .ok (⟨(draws j).sk.publicKey s.g, (draws j).sk⟩, kps, (draws j).polynomial,
          commit s.h (draws j).polynomial) ∧
      ∀ id ∈ ids, ∃ kp, kps.lookup id = some kp ∧ kp.sk.scalar = shareOf (draws j).polynomial id := by
  obtain ⟨kps, hkg, hlook⟩ := hc.keyGen_ok s.g hshare hj
  exact ⟨kps, by rw [DKGMalicious.shareGeneration, hkg]; rfl, hlook⟩

omit [DecidableEq G₁] in
/-- The payload a party receives from a dealer: its share, which decrypts to the dealer's
polynomial at the party's id, and the dealer's commitment. -/
theorem deliverPayload_honest (s : Setup G₁) (hc : Committee t ids draws)
    (hshare : SharesNonzero ids draws) {i j : UInt64} (hi : i ∈ ids) (hj : j ∈ ids) :
    bytesToBlstScalar (s.cipher.decrypt i j (deliverPayload s ids draws i j).encShare) =
        (draws j).poly.eval (u64ToBlstScalar i) ∧
      (deliverPayload s ids draws i j).committedPoly = commit s.h (draws j).polynomial := by
  obtain ⟨kps, hgen, hlook⟩ := shareGeneration_honest s hc hshare hj
  obtain ⟨kp, hkp, hscalar⟩ := hlook i hi
  simp only [deliverPayload, hgen, hkp, Option.map_some, Option.getD_some,
    s.cipher.decrypt_encrypt, bytesToBlstScalar_blstWrapSkToBytes, hscalar, Draw.shareOf_cast,
    and_self]

omit [DecidableEq G₁] in
theorem receivedPayloads_eq (s : Setup G₁) (hids : ids.Nodup) (i : UInt64) :
    receivedPayloads s ids draws i =
      ((ids.filter (· != i)).map fun j => (j, deliverPayload s ids draws i j)).reverse :=
  mapCollect_of_nodup (by simpa [List.map_map, Function.comp_def] using hids.filter _)

omit [DecidableEq G₁] in
/-- A party receives payloads from the other ids only. -/
theorem receivedPayloads_filter (s : Setup G₁) (hids : ids.Nodup) (i : UInt64) :
    (receivedPayloads s ids draws i).filter (fun p => p.1 != i) = receivedPayloads s ids draws i := by
  rw [receivedPayloads_eq s hids]
  refine List.filter_eq_self.mpr fun p hp => ?_
  obtain ⟨j, hj, rfl⟩ := List.mem_map.mp (List.mem_reverse.mp hp)
  simpa using (mem_others.mp hj).2

omit [DecidableEq G₁] in
/-- A party's table of commitments holds every dealer's, the others' then its own. -/
theorem committedPolys_honest (s : Setup G₁) (hc : Committee t ids draws)
    (hshare : SharesNonzero ids draws) {i : UInt64} (hi : i ∈ ids) :
    DKGMalicious.committedPolys i (commit s.h (draws i).polynomial) (receivedPayloads s ids draws i) =
      (ids.filter (· != i) ++ [i]).map fun k => (k, commit s.h (draws k).polynomial) := by
  have hcps : ((ids.filter (· != i)).map fun j => (j, deliverPayload s ids draws i j)).reverse.map
      (fun p => (p.1, p.2.committedPoly)) =
        ((ids.filter (· != i)).map fun j => (j, commit s.h (draws j).polynomial)).reverse := by
    rw [List.map_reverse, List.map_map]
    congr 1
    refine List.map_congr_left fun j hj => ?_
    simp [(deliverPayload_honest s hc hshare hi (mem_others.mp hj).1).2]
  have hnodup := nodup_keys_others hc.nodup i fun j => commit s.h (draws j).polynomial
  -- the received commitments are inserted in turn behind the party's own
  have hfresh : ∀ e ∈ ((ids.filter (· != i)).map fun j => (j, commit s.h (draws j).polynomial)).reverse,
      e.1 ∉ ([(i, commit s.h (draws i).polynomial)] : List (UInt64 × CommittedPoly G₁)).map Prod.fst := by
    intro e he
    obtain ⟨j, hj, rfl⟩ := List.mem_map.mp (List.mem_reverse.mp he)
    simpa using (mem_others.mp hj).2
  have hfold : ∀ (l : List (UInt64 × VssSharePayload G₁)) (m : List (UInt64 × CommittedPoly G₁)),
      l.foldl (fun m p => mapInsert m p.1 p.2.committedPoly) m =
        (l.map fun p => (p.1, p.2.committedPoly)).foldl (fun m e => mapInsert m e.1 e.2) m :=
    fun l m => by rw [List.foldl_map]
  rw [receivedPayloads_eq s hc.nodup, DKGMalicious.committedPolys, hfold, hcps]
  rw [show mapInsert [] i (commit s.h (draws i).polynomial) = [(i, commit s.h (draws i).polynomial)]
    from rfl, foldl_mapInsert_of_nodup _ _ hnodup hfresh, List.reverse_reverse, List.map_append]
  rfl

omit [DecidableEq G₁] in
theorem mem_others_append {i j : UInt64} (hj : j ∈ ids) : j ∈ ids.filter (· != i) ++ [i] := by
  by_cases hji : j = i
  · simp [hji]
  · exact List.mem_append_left _ (mem_others.mpr ⟨hj, hji⟩)

omit [DecidableEq G₁] in
/-- The commitment to a dealer's key in a party's table is the key times `h`. -/
theorem auxPk_honest (s : Setup G₁) (hc : Committee t ids draws) {i j : UInt64} (hj : j ∈ ids) :
    DKGMalicious.auxPk ((ids.filter (· != i) ++ [i]).map fun k =>
        (k, commit s.h (draws k).polynomial)) j =
      .ok (((draws j).sk.scalar : ZMod modulus) • s.h) := by
  rw [DKGMalicious.auxPk, lookup_map_pair (fun k => commit s.h (draws k).polynomial)
      (mem_others_append hj), Option.bind_some, (draws j).head_commit (hc.sample_ne_nil hj),
    orPanic_some]

/-- A dealer's public key payload, built against any party's table: its public key, with the
proof `dleq_prove` gives that it and its commitment share the key. -/
theorem ownPkPayload_honest (s : Setup G₁) (hc : Committee t ids draws) (w : ZMod modulus)
    {i j : UInt64} (hj : j ∈ ids) :
    ∃ proof, DKGMalicious.ownPkPayload s w ((draws j).sk.publicKey s.g)
        ((draws j).sk.scalar : ZMod modulus)
        ((ids.filter (· != i) ++ [i]).map fun k => (k, commit s.h (draws k).polynomial)) j =
        .ok ⟨(draws j).sk.publicKey s.g, proof⟩ ∧
      dleqProve s.hash w s.g ((draws j).sk.publicKey s.g) s.h
        (((draws j).sk.scalar : ZMod modulus) • s.h) (draws j).sk.scalar = .ok proof := by
  obtain ⟨proof, hproof⟩ := dleqProve_smul s.hash w ((draws j).sk.scalar : ZMod modulus) s.g s.h
  refine ⟨proof, ?_, hproof⟩
  simp only [DKGMalicious.ownPkPayload, auxPk_honest s hc hj, bind, Except.bind,
    SecretKey.publicKey, hproof, Except.mapError]
  rfl

/-- The public key payload a dealer broadcasts: its public key, with the proof `dleq_prove`
gives that it and its commitment share the key. -/
theorem senderPkPayload_honest (s : Setup G₁) (nonces : UInt64 → Nonces) (hc : Committee t ids draws)
    (hshare : SharesNonzero ids draws) {j : UInt64} (hj : j ∈ ids) :
    ∃ proof, senderPkPayload s ids draws nonces j = .ok ⟨(draws j).sk.publicKey s.g, proof⟩ ∧
      dleqProve s.hash (nonces j).pk s.g ((draws j).sk.publicKey s.g) s.h
        (((draws j).sk.scalar : ZMod modulus) • s.h) (draws j).sk.scalar = .ok proof := by
  obtain ⟨kps, hgen, -⟩ := shareGeneration_honest s hc hshare hj
  obtain ⟨proof, hown, hprove⟩ := ownPkPayload_honest s hc (nonces j).pk (i := j) hj
  refine ⟨proof, ?_, hprove⟩
  simp only [senderPkPayload, hgen, bind, Except.bind, committedPolys_honest s hc hshare hj,
    bytesToBlstScalar_blstWrapSkToBytes, hown]

omit [DecidableEq G₁] in
/-- The shares a party reveals: each other dealer's polynomial at its id. -/
theorem revealShares_honest (s : Setup G₁) (hc : Committee t ids draws)
    (hshare : SharesNonzero ids draws) {j : UInt64} (hj : j ∈ ids) :
    DKGMalicious.revealShares s j (receivedPayloads s ids draws j) =
      (ids.filter (· != j)).map fun k => (k, (draws k).poly.eval (u64ToBlstScalar j)) := by
  have hshares : ((ids.filter (· != j)).map fun k => (k, deliverPayload s ids draws j k)).reverse.map
      (fun p => (p.1, bytesToBlstScalar (s.cipher.decrypt j p.1 p.2.encShare))) =
        ((ids.filter (· != j)).map fun k => (k, (draws k).poly.eval (u64ToBlstScalar j))).reverse := by
    rw [List.map_reverse, List.map_map]
    congr 1
    refine List.map_congr_left fun k hk => ?_
    simp [(deliverPayload_honest s hc hshare hj (mem_others.mp hk).1).1]
  rw [DKGMalicious.revealShares, receivedPayloads_filter s hc.nodup, receivedPayloads_eq s hc.nodup,
    hshares,
    mapCollect_of_nodup (nodup_keys_others hc.nodup j _), List.reverse_reverse]

omit [DecidableEq G₁] in
/-- **A party's group secret is the group polynomial at its id**: the shares it reveals and
its own sum to it. -/
theorem groupKey_honest (s : Setup G₁) (hc : Committee t ids draws)
    (hshare : SharesNonzero ids draws) {j : UInt64} (hj : j ∈ ids) {kps : List (UInt64 × Keypair G₁)}
    (hlook : ∀ id ∈ ids, ∃ kp, kps.lookup id = some kp ∧
      kp.sk.scalar = shareOf (draws j).polynomial id) :
    DKGMalicious.groupKey s j kps (receivedPayloads s ids draws j) =
      .ok ((groupPoly ids draws).eval (u64ToBlstScalar j),
        (groupPoly ids draws).eval (u64ToBlstScalar j) • s.g) := by
  obtain ⟨kp, hkp, hscalar⟩ := hlook j hj
  have hown : bytesToBlstScalar (blstWrapSkToBytes kp.sk) = (draws j).poly.eval (u64ToBlstScalar j) := by
    rw [bytesToBlstScalar_blstWrapSkToBytes, hscalar, Draw.shareOf_cast]
  -- the party's own share goes in front of the revealed ones, and they sum over the ids
  have hsum : ((mapInsert ((ids.filter (· != j)).map fun k =>
      (k, (draws k).poly.eval (u64ToBlstScalar j))) j ((draws j).poly.eval (u64ToBlstScalar j))).map
        Prod.snd).sum = (groupPoly ids draws).eval (u64ToBlstScalar j) := by
    rw [mapInsert_of_not_mem (by simp), eval_groupPoly, ← sum_others hc.nodup hj]
    simp [List.map_map, Function.comp_def, add_comm]
  rw [DKGMalicious.groupKey, hkp, orPanic_some, revealShares_honest s hc hshare hj]
  simp only [Except.map, hown, DKGMalicious.constructGroupKey, hsum]

theorem mapInsert_cons_self {β : Type} {m : List (UInt64 × β)} {k : UInt64} (v : β)
    (hk : k ∉ m.map Prod.fst) : mapInsert ((k, v) :: m) k v = (k, v) :: m := by
  rw [mapInsert, List.filter_cons_of_neg (by simp), List.filter_eq_self.mpr]
  intro e he
  have hne : e.1 ≠ k := fun heq => hk (List.mem_map.mpr ⟨e, he, heq⟩)
  simpa using hne

end Honest

end SafeStake.Dkg
