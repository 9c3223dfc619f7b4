import SafeStake.Core

/-! # One operator's consensus node

`Core::spawn` starts the core beside its `Proposer` (`proposer.rs`).  The core asks for
a block with `ProposerMessage::Make`; the proposer builds one from the digests the
mempool has handed it, broadcasts it, and sends it back to the core on `tx_loopback`.
A `Node` is the two tasks with the channels between them.  Each `NodeEvent` is one
task taking one message, so every interleaving of the two `select!` loops is a list of
`NodeEvent`s (`Node.run`).

Blocks also come back to the core from the synchronizer and the payload waiter; those
arrive as the core's own `Event.loopback`.
-/

namespace SafeStake.Consensus

/-- `proposer::Proposer`: its key, its signature service and the buffered digests.  The
buffer is a `HashSet`, drained here in the order the digests arrived. -/
structure Proposer where
  name : PublicKey
  signatureService : Digest → Signature
  buffer : List Digest

namespace Proposer

/-- `self.buffer.insert(digest)`. -/
def insert (p : Proposer) (d : Digest) : Proposer :=
  if d ∈ p.buffer then p else { p with buffer := p.buffer ++ [d] }

/-- `Proposer::make_block`: a signed block of every buffered digest; the buffer is
drained. -/
def makeBlock (c : Crypto) (p : Proposer) (round : Round) (qc : QC) (tc : Option TC) :
    Block × Proposer :=
  (Block.new c qc tc p.name round p.buffer p.signatureService, { p with buffer := [] })

/-- `ProposerMessage::Cleanup`: the digests leave the buffer. -/
def cleanup (p : Proposer) (digests : List Digest) : Proposer :=
  { p with buffer := p.buffer.filter fun x => x ∉ digests }

end Proposer

/-- A core and its proposer, with the two channels between them. -/
structure Node where
  core : Core
  proposer : Proposer
  /-- How many of the core's outputs are already on their channels. -/
  routed : Nat
  /-- `tx_proposer`: what the proposer has not taken yet. -/
  toProposer : List ProposerMessage
  /-- `tx_loopback`: the blocks the core has not taken yet. -/
  loopback : List Block
  /-- The blocks the proposer has broadcast, oldest first. -/
  proposed : List Block

/-- What happens next in a node. -/
inductive NodeEvent where
  /-- The core takes a message from the network, the timer fires, or a batch is stored. -/
  | core (e : Event)
  /-- The proposer takes a digest from the mempool. -/
  | digest (d : Digest)
  /-- The proposer takes its next message from the core. -/
  | proposer
  /-- The core takes the next block its proposer looped back. -/
  | loopback
deriving DecidableEq, Repr

namespace Node
variable (c : Crypto)

/-- The messages for the proposer among some outputs. -/
def proposerMessages (out : List Output) : List ProposerMessage :=
  out.filterMap fun
    | .proposer m => some m
    | _ => none

/-- The core's new outputs for the proposer go on `tx_proposer`. -/
def route (n : Node) : Node :=
  { n with
    routed := n.core.sent.length
    toProposer := n.toProposer ++ proposerMessages (n.core.sent.drop n.routed) }

/-- `Core::spawn` with its proposer. -/
def spawn (name : PublicKey) (committee : Committee) (store : Store)
    (signatureService : Digest → Signature) : Option Node :=
  (Core.start name committee store signatureService).map fun core =>
    route ⟨core, ⟨name, signatureService, []⟩, 0, [], [], []⟩

/-- One step of one of the two tasks; `none` once the core has panicked.  A task whose
channel is empty waits. -/
def step (n : Node) : NodeEvent → Option Node
  | .core e => (Core.step c n.core e).map fun core => route { n with core := core }
  | .digest d => some { n with proposer := n.proposer.insert d }
  | .proposer =>
    match n.toProposer with
    | [] => some n
    | .make round qc tc :: rest =>
      let made := n.proposer.makeBlock c round qc tc
      some { n with
        proposer := made.2
        toProposer := rest
        loopback := n.loopback ++ [made.1]
        proposed := n.proposed ++ [made.1] }
    | .cleanup digests :: rest =>
      some { n with proposer := n.proposer.cleanup digests, toProposer := rest }
  | .loopback =>
    match n.loopback with
    | [] => some n
    | block :: rest =>
      (Core.step c n.core (.loopback block)).map fun core =>
        route { n with core := core, loopback := rest }

/-- The node over a list of events; `none` once the core has panicked. -/
def run : List NodeEvent → Node → Option Node
  | [], n => some n
  | e :: es, n => (step c n e).bind (run es)

end Node

/-! ## A TC received twice -/

/-- The key of 33 bytes `b`. -/
def PublicKey.ofByte (b : UInt8) : PublicKey := ⟨Vector.replicate 33 b⟩

/-- Four authorities of stake 1, with the keys of bytes 1 to 4; in key order, round `r`
is led by the key of byte `r % 4 + 1`. -/
def committeeOfFour : Committee :=
  ⟨[1, 2, 3, 4].map fun b => (PublicKey.ofByte b, ⟨1⟩), by decide⟩

/-- The TC of round 1 that the authorities of bytes 1, 2 and 4 form, each of them with
the genesis QC as its high QC. -/
def tcOfRoundOne : TC :=
  ⟨1, [1, 2, 4].map fun b =>
    (PublicKey.ofByte b, Crypto.sampleSigner (PublicKey.ofByte b)
      (TC.voteDigest Crypto.sample 1 0 0), 0, 0)⟩

/-- The leader of round 2 receives a valid TC of round 1 from two peers, and its
proposer takes a digest from the mempool in between: it proposes two different blocks
of round 2. -/
theorem tc_twice_two_proposals :
    tcOfRoundOne.verify Crypto.sample committeeOfFour = .ok () ∧
    ((Node.spawn (PublicKey.ofByte 3) committeeOfFour ⟨[], []⟩
        (Crypto.sampleSigner (PublicKey.ofByte 3))).bind
      (Node.run Crypto.sample
        [.core (.message (.tc tcOfRoundOne)), .proposer, .digest (Digest.ofNat 9),
         .core (.message (.tc tcOfRoundOne)), .proposer])).map
      (fun n => n.proposed.map fun b => (b.round, b.payload.length)) = some [(2, 0), (2, 1)] := by
  decide +kernel

end SafeStake.Consensus
