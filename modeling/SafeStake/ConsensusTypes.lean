import Mathlib

/-! # The consensus data model

The values that `hotstuff/consensus` builds, sends and checks (`messages.rs`,
`config.rs`, `leader.rs`, `proposer.rs`), with the types the code gives them:
rounds are `u64` and wrap past `u64::MAX` in the release build, stakes are `u32`,
keys, digests and signatures are fixed-size byte arrays.

Three crates the consensus uses are not in the repository: the hash
(`ed25519_dalek::Sha512`, cut to 32 bytes) and the two `secp256k1` parsers and its
verifier.  They are the fields of `Crypto`, so every definition below is a function
of whatever they compute, and nothing assumes more of them than a theorem states.

Equality needs care: `QC`, `TC` and `Block` implement `PartialEq` by hand, on fewer
fields than they have (`QC.eq`, `TC.eq`, `Block.eq`).  The code compares with those,
so the model does too; Lean's structural `=` is only used in statements.
-/

namespace SafeStake.Consensus

/-- `consensus::Round`, a `u64`. -/
abbrev Round := UInt64

/-- `config::Stake`, a `u32`. -/
abbrev Stake := UInt32

/-- `u64::to_le_bytes`. -/
def toLeBytes (x : UInt64) : List UInt8 :=
  (List.range 8).map fun i => (x >>> (8 * i).toUInt64).toUInt8

/-- `crypto::Digest(pub [u8; 32])`. -/
structure Digest where
  bytes : Vector UInt8 32
deriving DecidableEq, Repr

/-- `Digest::default()`: 32 zero bytes. -/
def Digest.default : Digest := ⟨Vector.replicate 32 0⟩

/-- `crypto::PublicKey(pub [u8; 33])`. -/
structure PublicKey where
  bytes : Vector UInt8 33
deriving DecidableEq, Repr

/-- `PublicKey::default()`: 33 zero bytes. -/
def PublicKey.default : PublicKey := ⟨Vector.replicate 33 0⟩

/-- The derived `Ord` of `PublicKey`: the lexicographic order of its bytes. -/
def PublicKey.le (a b : PublicKey) : Bool := decide (a.bytes.toList ≤ b.bytes.toList)

/-- `crypto::Signature`, a compact ECDSA signature in two 32-byte halves. -/
structure Signature where
  part1 : Vector UInt8 32
  part2 : Vector UInt8 32
deriving DecidableEq, Repr

/-- `Signature::default()`. -/
def Signature.default : Signature := ⟨Vector.replicate 32 0, Vector.replicate 32 0⟩

/-- `Signature::flatten`: the 64 bytes handed to `secp256k1`. -/
def Signature.flatten (s : Signature) : Vector UInt8 64 := s.part1 ++ s.part2

/-- What the consensus uses of the crates outside the repository.  `fromCompact` and
`publicKeyFromSlice` say whether `secp256k1`'s parsers accept their input; since a parsed
value is a function of its bytes, `verifyEcdsa` takes the bytes. -/
structure Crypto where
  /-- `Sha512::digest` of the bytes fed to the hasher, cut to 32 bytes. -/
  sha512 : List UInt8 → Digest
  /-- `secp256k1::ecdsa::Signature::from_compact` returns `Ok`. -/
  fromCompact : Vector UInt8 64 → Bool
  /-- `secp256k1::PublicKey::from_slice` returns `Ok`. -/
  publicKeyFromSlice : Vector UInt8 33 → Bool
  /-- `Secp256k1::verify_ecdsa(&message, &signature, &key)` returns `Ok`. -/
  verifyEcdsa : Digest → Vector UInt8 64 → PublicKey → Bool

/-- **Unforgeable signatures**: the holder of `key` signs `d` as `signer key d`, and a
signature verifies under `key` exactly when it is that one; both parsers accept.
Nobody without `signer key` can produce a signature that `key` verifies. -/
def Crypto.ideal (hash : List UInt8 → Digest) (signer : PublicKey → Digest → Signature) :
    Crypto :=
  ⟨hash, fun _ => true, fun _ => true, fun d sig key => sig == (signer key d).flatten⟩

/-- The 32 little-endian bytes of `n` (mod `2^256`). -/
def Digest.ofNat (n : Nat) : Digest :=
  ⟨Vector.ofFn fun (i : Fin 32) => ((n >>> (8 * i.val)) % 256).toUInt8⟩

/-- A polynomial hash of the bytes, to run the model on. -/
def Crypto.sampleHash (m : List UInt8) : Digest :=
  Digest.ofNat (m.foldl (fun h b => (h * 1000003 + b.toNat + 1) % 2 ^ 200) 5)

/-- A signer: `d` signed under `key` is `d` and the first 32 bytes of `key`. -/
def Crypto.sampleSigner (key : PublicKey) (d : Digest) : Signature :=
  ⟨d.bytes, (key.bytes.take 32).cast (by decide)⟩

/-- An instance of the interface to run the model on. -/
def Crypto.sample : Crypto := Crypto.ideal Crypto.sampleHash Crypto.sampleSigner

/-! ## Certificates, blocks, votes and timeouts -/

/-- `messages::QC`: a quorum of signatures on `(hash, round, payload_size)`. -/
structure QC where
  hash : Digest
  round : Round
  payloadSize : UInt64
  votes : List (PublicKey × Signature)
deriving DecidableEq, Repr

/-- `QC::genesis()`, the derived default. -/
def QC.genesis : QC := ⟨Digest.default, 0, 0, []⟩

/-- `impl PartialEq for QC`: the hash and the round only. -/
def QC.eq (a b : QC) : Bool := a.hash == b.hash && a.round == b.round

/-- `messages::TC`: each vote carries its author's `high_qc` and `high_tc` rounds. -/
structure TC where
  round : Round
  votes : List (PublicKey × Signature × Round × Round)
deriving DecidableEq, Repr

/-- `TC::default()`. -/
def TC.default : TC := ⟨0, []⟩

/-- `impl PartialEq for TC`: the round only. -/
def TC.eq (a b : TC) : Bool := a.round == b.round

/-- `TC::high_qc_rounds`. -/
def TC.highQcRounds (tc : TC) : List Round := tc.votes.map fun v => v.2.2.1

/-- `messages::Block`. -/
structure Block where
  qc : QC
  tc : Option TC
  author : PublicKey
  round : Round
  payload : List Digest
  signature : Signature
deriving DecidableEq, Repr

/-- `Block::genesis()`, the derived default. -/
def Block.genesis : Block := ⟨QC.genesis, none, PublicKey.default, 0, [], Signature.default⟩

/-- `Block::parent`: the hash its QC certifies. -/
def Block.parent (b : Block) : Digest := b.qc.hash

/-- `impl PartialEq for Block`: neither the TC nor the signature is compared. -/
def Block.eq (a b : Block) : Bool :=
  a.qc.eq b.qc && a.author == b.author && a.round == b.round && a.payload == b.payload

/-- `messages::Vote`. -/
structure Vote where
  hash : Digest
  round : Round
  payloadSize : UInt64
  author : PublicKey
  signature : Signature
deriving DecidableEq, Repr

/-- `messages::Timeout`. -/
structure Timeout where
  highQc : QC
  highTc : TC
  round : Round
  author : PublicKey
  signature : Signature
deriving DecidableEq, Repr

section Digests
variable (c : Crypto)

/-- `impl Hash for Block`: author, round, payload and parent, but not the TC. -/
def Block.digest (b : Block) : Digest :=
  c.sha512 (b.author.bytes.toList ++ toLeBytes b.round ++
    b.payload.flatMap (fun x => x.bytes.toList) ++ b.qc.hash.bytes.toList)

/-- `impl Hash for Vote`. -/
def Vote.digest (v : Vote) : Digest :=
  c.sha512 (v.hash.bytes.toList ++ toLeBytes v.round ++ toLeBytes v.payloadSize)

/-- `impl Hash for QC`. -/
def QC.digest (q : QC) : Digest :=
  c.sha512 (q.hash.bytes.toList ++ toLeBytes q.round ++ toLeBytes q.payloadSize)

/-- `impl Hash for Timeout`: the three rounds. -/
def Timeout.digest (t : Timeout) : Digest :=
  c.sha512 (toLeBytes t.round ++ toLeBytes t.highQc.round ++ toLeBytes t.highTc.round)

/-- The digest `TC::verify` recomputes for one of its votes. -/
def TC.voteDigest (round highQcRound highTcRound : Round) : Digest :=
  c.sha512 (toLeBytes round ++ toLeBytes highQcRound ++ toLeBytes highTcRound)

/-- `Vote::new`: a vote for `block`, signed by the signature service. -/
def Vote.new (block : Block) (author : PublicKey) (sign : Digest → Signature) : Vote :=
  let vote : Vote := ⟨block.digest c, block.round, block.payload.length.toUInt64, author,
    Signature.default⟩
  { vote with signature := sign (vote.digest c) }

@[simp] theorem Vote.new_round (block : Block) (author : PublicKey) (sign : Digest → Signature) :
    (Vote.new c block author sign).round = block.round := rfl

/-- `Timeout::new`. -/
def Timeout.new (highQc : QC) (highTc : TC) (round : Round) (author : PublicKey)
    (sign : Digest → Signature) : Timeout :=
  let timeout : Timeout := ⟨highQc, highTc, round, author, Signature.default⟩
  { timeout with signature := sign (timeout.digest c) }

@[simp] theorem Timeout.new_round (highQc : QC) (highTc : TC) (round : Round)
    (author : PublicKey) (sign : Digest → Signature) :
    (Timeout.new c highQc highTc round author sign).round = round := rfl

/-- `Block::new`, as the proposer calls it. -/
def Block.new (qc : QC) (tc : Option TC) (author : PublicKey) (round : Round)
    (payload : List Digest) (sign : Digest → Signature) : Block :=
  let block : Block := ⟨qc, tc, author, round, payload, Signature.default⟩
  { block with signature := sign (block.digest c) }

end Digests

/-! ## The committee and the leader -/

/-- `config::Authority`; the socket address is left out (see `MODEL_MAP.json`). -/
structure Authority where
  stake : Stake
deriving DecidableEq, Repr

/-- `config::Committee`: the authorities are a `HashMap`, so their keys are distinct. -/
structure Committee where
  authorities : List (PublicKey × Authority)
  keys_nodup : (authorities.map Prod.fst).Nodup

namespace Committee
variable (committee : Committee)

/-- A committee of one authority. -/
def solo (key : PublicKey) (stake : Stake) : Committee := ⟨[(key, ⟨stake⟩)], List.nodup_singleton _⟩

/-- `Committee::size`. -/
def size : Nat := committee.authorities.length

/-- `Committee::stake`: zero for a key outside the committee. -/
def stake (name : PublicKey) : Stake :=
  ((committee.authorities.lookup name).map Authority.stake).getD 0

/-- The `u32` sum of all stakes, as `.sum()` computes it (wrapping in the release build). -/
def totalVotes : Stake := committee.authorities.foldl (fun acc a => acc + a.2.stake) 0

/-- `Committee::quorum_threshold`: `2 * total_votes / 3 + 1` in `u32`. -/
def quorumThreshold : Stake := 2 * committee.totalVotes / 3 + 1

/-- The keys as `RRLeaderElector::get_leader` sorts them.  They are distinct, so every
stable sort gives this list. -/
def sortedKeys : List PublicKey :=
  (committee.authorities.map Prod.fst).insertionSort fun a b => a.le b

/-- `RRLeaderElector::get_leader`: `keys[round as usize % size]`, or `none` where the
remainder by an empty committee's size panics. -/
def getLeader (round : Round) : Option PublicKey :=
  committee.sortedKeys[round.toNat % committee.size]?

end Committee

/-! ## Messages -/

/-- `consensus::ConsensusMessage`. -/
inductive ConsensusMessage where
  | propose (block : Block)
  | vote (vote : Vote)
  | timeout (timeout : Timeout)
  | tc (tc : TC)
  | syncRequest (digest : Digest) (origin : PublicKey)
deriving DecidableEq, Repr

/-- `proposer::ProposerMessage`. -/
inductive ProposerMessage where
  | make (round : Round) (qc : QC) (tc : Option TC)
  | cleanup (digests : List Digest)
deriving DecidableEq, Repr

/-- `mempool::ConsensusMempoolMessage`, as the consensus sends it. -/
inductive ConsensusMempoolMessage where
  | synchronize (digests : List Digest) (target : PublicKey)
  | cleanup (round : Round)
deriving DecidableEq, Repr

end SafeStake.Consensus
