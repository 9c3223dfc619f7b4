import SafeStake.Node

/-! # Peer input that ends the core's task

Two `expect`s of the core lie on paths a peer's message can reach.

* `Signature::verify` unwraps `secp256k1::ecdsa::Signature::from_compact`.  That parser
  rejects 64 bytes whose halves `r` or `s` are not below the order of the curve
  (`compactInRange`), and `Vote::verify` calls `Signature::verify` for any vote whose
  author has stake: a committee member's vote with such bytes ends the task
  (`handleVote_panics`).
* `make_vote` unwraps the maximum of a TC's `high_qc_rounds`, which an empty TC does not
  have (`makeVote_panics_of_empty_tc`).  A received TC is not verified by
  `handle_tc`, so an empty one reaches the leader's own proposal, which the core
  processes without verifying it.
-/

namespace SafeStake.Consensus

/-- The order of the group of secp256k1. -/
def secp256k1Order : Nat :=
  0xFFFFFFFFFFFFFFFFFFFFFFFFFFFFFFFEBAAEDCE6AF48A03BBFD25E8CD0364141

/-- A big-endian byte string as a number. -/
def bigEndian (bytes : List UInt8) : Nat := bytes.foldl (fun acc b => acc * 256 + b.toNat) 0

/-- Whether `Signature::from_compact` accepts the 64 bytes: both 32-byte halves, read
big-endian, are below the group order. -/
def compactInRange (sig : Vector UInt8 64) : Bool :=
  decide (bigEndian (sig.toList.take 32) < secp256k1Order) &&
    decide (bigEndian (sig.toList.drop 32) < secp256k1Order)

namespace Core
variable (c : Crypto)

end Core

/-- The interface with `from_compact` as secp256k1 documents it. -/
def Crypto.sampleSecp256k1 : Crypto := { Crypto.sample with fromCompact := compactInRange }

/-- The vote of round 1 for the genesis digest by the authority of byte 1, signed with
64 bytes `0xFF`. -/
def unparsableVote : Vote :=
  ⟨Digest.default, 1, 0, PublicKey.ofByte 1,
    ⟨Vector.replicate 32 0xFF, Vector.replicate 32 0xFF⟩⟩

/-- In the committee of four, the node of byte 3 at its start panics on the vote
`unparsableVote`, and — as the leader of round 2 — on its own proposal after an
empty TC of round 1. -/
theorem peer_input_panics :
    ((Core.start (PublicKey.ofByte 3) committeeOfFour ⟨[], []⟩
        (Crypto.sampleSigner (PublicKey.ofByte 3))).bind fun s =>
      Core.step Crypto.sampleSecp256k1 s (.message (.vote unparsableVote))) = none ∧
    ((Node.spawn (PublicKey.ofByte 3) committeeOfFour ⟨[], []⟩
        (Crypto.sampleSigner (PublicKey.ofByte 3))).bind
      (Node.run Crypto.sampleSecp256k1
        [.core (.message (.tc ⟨1, []⟩)), .proposer, .loopback])) = none := by
  constructor
  · exact Option.isNone_iff_eq_none.mp (by decide +kernel)
  · exact Option.isNone_iff_eq_none.mp (by decide +kernel)

end SafeStake.Consensus
