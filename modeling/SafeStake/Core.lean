import SafeStake.Aggregator
import SafeStake.StateInvariant

/-! # The consensus core

`core.rs`: the state of `Core` and every handler of its event loop, each an
`EStateM Fault Core` program written in the order the Rust code runs its statements.
An `Err` raised half-way leaves the state as the handler had changed it, and a panic
ends the task (`Core.step`).

What the core does to the world is a list of `Output`s, one per message it puts on a
channel (`tx_proposer`, `tx_commit`, the network, the mempool, the synchronizer) or
per digest it hands the signature service.  The parts of the shared `Store` the core
reads are its block entries, which only the core writes, and the batch keys that the
mempool's processor writes; the latter arrive as `Event.batchStored`, interleaved with
the core's own events.

Timer resets, sleeps, log lines, `validator_id` and `recover_count` change nothing the
core computes and are left out, as are the socket addresses of the broadcasts (each
`Output.broadcast` goes to every other authority).  The `expect`s on channel sends and
on `bincode` of the core's own values cannot fail and are not modelled.
-/

namespace SafeStake.Consensus

/-- The part of the shared `Store` the core reads: blocks under their digests, and the
batch keys that the mempool's processor has written. -/
structure Store where
  blocks : List (Digest × Block)
  batches : List Digest

namespace Store

/-- `Store::read` of a block key. -/
def read (st : Store) (key : Digest) : Option Block := st.blocks.lookup key

/-- `Store::write`: the key's previous value is replaced. -/
def write (st : Store) (key : Digest) (block : Block) : Store :=
  { st with blocks := (key, block) :: st.blocks.filter (fun e => e.1 != key) }

/-- `Store::delete`. -/
def delete (st : Store) (key : Digest) : Store :=
  { st with blocks := st.blocks.filter (fun e => e.1 != key) }

end Store

/-- What the core hands the signature service to sign. -/
inductive Signed where
  | vote (v : Vote)
  | timeout (t : Timeout)
deriving DecidableEq, Repr

/-- One message the core puts on one of its channels. -/
inductive Output where
  /-- `SignatureService::request_signature`, for a vote or a timeout. -/
  | signature (request : Signed)
  /-- `tx_proposer`. -/
  | proposer (m : ProposerMessage)
  /-- `tx_commit`. -/
  | commit (block : Block)
  /-- `SimpleSender::broadcast` to the other authorities. -/
  | broadcast (m : ConsensusMessage)
  /-- `MempoolDriver`'s `tx_mempool`. -/
  | mempool (m : ConsensusMempoolMessage)
  /-- `MempoolDriver`'s payload waiter: wait for these batches, then loop the block back. -/
  | payloadWait (missing : List Digest) (block : Block)
  /-- `MempoolDriver`'s payload waiter: drop the waits of rounds up to this one. -/
  | payloadCleanup (round : Round)
  /-- `Synchronizer`'s inner channel: fetch this block's parent, then loop it back. -/
  | synchronizer (block : Block)
deriving DecidableEq, Repr

/-- `core::Core`. -/
structure Core where
  name : PublicKey
  committee : Committee
  store : Store
  signatureService : Digest → Signature
  round : Round
  lastVotedRound : Round
  lastCommittedRound : Round
  highQc : QC
  aggregator : Aggregator
  highTc : TC
  pruneDepth : UInt64
  fastCommitRequest : Int64
  /-- Everything the core has sent, oldest first. -/
  sent : List Output

/-- The core's handlers. -/
abbrev CoreM := EStateM Fault Core

/-- What the core's event loop receives: a message, a block looped back (by the
proposer, the synchronizer or the payload waiter), or the timer; and, interleaved with
these, a batch the mempool's processor writes to the shared store. -/
inductive Event where
  | message (m : ConsensusMessage)
  | loopback (block : Block)
  | timer
  | batchStored (digest : Digest)
deriving DecidableEq, Repr

/-- `Core::get_parent_block` (and the synchronizer's, up to its request): the genesis
block for the genesis QC, else the stored parent. -/
def getParentBlock (st : Store) (block : Block) : Option Block :=
  if block.qc.eq QC.genesis then some Block.genesis else st.read block.parent

/-- The walk of `Core::commit`: while `last_committed_round + 1 < parent.round` and the
13-step budget lasts, the parent's parent is pushed to the front of `to_commit`; a
missing parent ends the walk. -/
def commitAncestors (st : Store) (lastCommittedRound : Round) :
    Nat → Block → List Block → List Block
  | 0, _, toCommit => toCommit
  | n + 1, parent, toCommit =>
    if lastCommittedRound + 1 < parent.round then
      match getParentBlock st parent with
      | some ancestor => commitAncestors st lastCommittedRound n ancestor (ancestor :: toCommit)
      | none => toCommit
    else toCommit

/-- The loop of `Core::prune`: step to the parent until the genesis block or a missing
parent, deleting each block reached once `i ≥ prune_depth`.  Each step reaches a
stored block or the genesis block, so `fuel = |store| + 2` steps suffice unless the
stored parents form a cycle of hashes. -/
def pruneLoop (c : Crypto) (depth : UInt64) : Nat → UInt64 → Block → Store → Store
  | 0, _, _, st => st
  | fuel + 1, i, parent, st =>
    match getParentBlock st parent with
    | none => st
    | some ancestor =>
      if parent.eq Block.genesis then st
      else
        let st := if i + 1 ≥ depth then st.delete (ancestor.digest c) else st
        pruneLoop c depth fuel (i + 1) ancestor st

namespace Core

/-- `Core::spawn`'s initial state. -/
def new (name : PublicKey) (committee : Committee) (store : Store)
    (signatureService : Digest → Signature) : Core where
  name := name
  committee := committee
  store := store
  signatureService := signatureService
  round := 1
  lastVotedRound := 0
  lastCommittedRound := 0
  highQc := QC.genesis
  aggregator := Aggregator.new committee
  highTc := TC.default
  pruneDepth := 15
  fastCommitRequest := 0
  sent := []

/-- Put one message on a channel. -/
def send (o : Output) : CoreM Unit := modify fun s => { s with sent := s.sent ++ [o] }

/-- A Rust panic: the task ends. -/
def panic {α : Type} (msg : String) : CoreM α := throw (.panic msg)

/-- A check's `?` inside a handler. -/
def check (x : Except Fault Unit) : CoreM Unit :=
  match x with
  | .ok () => pure ()
  | .error f => throw f

/-- `self.leader_elector.get_leader(round)`. -/
def getLeader (round : Round) : CoreM PublicKey := do
  match (← get).committee.getLeader round with
  | some leader => pure leader
  | none => panic "attempt to calculate the remainder with a divisor of zero"

variable (c : Crypto)

/-- `Core::store_block`. -/
def storeBlock (block : Block) : CoreM Unit :=
  modify fun s => { s with store := s.store.write (block.digest c) block }

/-- `Synchronizer::get_parent_block`: a missing parent is requested from the
synchronizer. -/
def syncParentBlock (block : Block) : CoreM (Option Block) := do
  match getParentBlock (← get).store block with
  | some parent => pure (some parent)
  | none =>
    send (.synchronizer block)
    pure none

/-- `Synchronizer::get_ancestors`: the block's parent `b1` and grandparent `b0`. -/
def getAncestors (block : Block) : CoreM (Option (Block × Block)) := do
  let some b1 ← syncParentBlock block | pure none
  let some b0 ← syncParentBlock b1 | pure none
  pure (some (b0, b1))

/-- `Core::increase_last_voted_round`. -/
def increaseLastVotedRound (target : Round) : CoreM Unit :=
  modify fun s => { s with lastVotedRound := max s.lastVotedRound target }

/-- `Core::make_vote`: the two safety rules, the second extended by the block's TC,
whose `high_qc_rounds` must have a maximum ("Empty TC"). -/
def makeVote (block : Block) : CoreM (Option Vote) := do
  let s ← get
  let safetyRule1 := block.round > s.lastVotedRound
  let mut safetyRule2 := block.qc.round + 1 == block.round
  if let some tc := block.tc then
    let some highest := tc.highQcRounds.max? | panic "Empty TC"
    let canExtend := tc.round + 1 == block.round && block.qc.round ≥ highest
    safetyRule2 := safetyRule2 || canExtend
  if !(safetyRule1 && safetyRule2) then return none
  increaseLastVotedRound block.round
  let vote := Vote.new c block s.name s.signatureService
  send (.signature (.vote vote))
  pure (some vote)

/-- `Core::prune`. -/
def prune (block : Block) : CoreM Unit :=
  modify fun s => { s with
    store := pruneLoop c s.pruneDepth (s.store.blocks.length + 2) 0 block s.store }

/-- `Core::commit`: the ancestors the walk collects are pushed to the front of the deque,
the block itself last, and the deque is drained from the back; blocks with a payload go
to `tx_commit`. -/
def commit (block : Block) : CoreM Unit := do
  let s ← get
  if s.lastCommittedRound ≥ block.round then return
  let toCommit := block :: commitAncestors s.store s.lastCommittedRound 13 block []
  modify fun s => { s with lastCommittedRound := block.round }
  prune c block
  modify fun s => { s with
    sent := s.sent ++ (toCommit.reverse.filter (fun b => !b.payload.isEmpty)).map .commit }

/-- `Core::update_high_qc`. -/
def updateHighQc (qc : QC) : CoreM Unit :=
  modify fun s => if qc.round > s.highQc.round then { s with highQc := qc } else s

/-- `Core::update_high_tc`. -/
def updateHighTc (tc : TC) : CoreM Unit :=
  modify fun s => if tc.round > s.highTc.round then { s with highTc := tc } else s

/-- `Core::advance_round`: a round not below the current one moves the core to
`round + 1` (in `u64`) and drops the aggregator's older makers. -/
def advanceRound (round : Round) : CoreM Unit := do
  if round < (← get).round then return
  modify fun s => { s with round := round + 1, aggregator := s.aggregator.cleanup (round + 1) }

/-- `Core::process_qc`. -/
def processQc (qc : QC) : CoreM Unit := do
  advanceRound qc.round
  updateHighQc qc

/-- `Core::process_tc`. -/
def processTc (tc : TC) : CoreM Unit := do
  advanceRound tc.round
  updateHighTc tc

/-- `Core::generate_proposal`: ask the proposer for a block of the current round. -/
def generateProposal (tc : Option TC) : CoreM Unit := do
  let s ← get
  send (.proposer (.make s.round s.highQc tc))

/-- `Core::cleanup_proposer`. -/
def cleanupProposer (b0 b1 block : Block) : CoreM Unit := do
  let digests := b0.payload ++ b1.payload ++ block.payload
  if !digests.isEmpty then send (.proposer (.cleanup digests))

/-- `MempoolDriver::cleanup`. -/
def mempoolCleanup (round : Round) : CoreM Unit := do
  send (.mempool (.cleanup round))
  send (.payloadCleanup round)

/-- `MempoolDriver::verify`: whether every batch of the payload is in the store; if
not, the missing ones are requested and the block waits for them. -/
def mempoolVerify (block : Block) : CoreM Bool := do
  let stored := (← get).store.batches
  let missing := block.payload.filter fun x => !stored.contains x
  if missing.isEmpty then return true
  send (.mempool (.synchronize missing block.author))
  send (.payloadWait missing block)
  pure false

/-- `Core::handle_vote`.  Both branches of the fast-commit test propose; they differ
only in a sleep and in `fast_commit_request`. -/
def handleVote (vote : Vote) : CoreM Unit := do
  if vote.round < (← get).round then return
  check (vote.verify c (← get).committee)
  let (result, aggregator) := (← get).aggregator.addVote c vote
  modify fun s => { s with aggregator := aggregator }
  match result with
  | .error e => throw (.error e)
  | .ok none => pure ()
  | .ok (some qc) =>
    processQc qc
    let s ← get
    if s.name == (← getLeader s.round) then
      if vote.payloadSize > 0 || s.fastCommitRequest > 0 then
        modify fun s => { s with fastCommitRequest := s.fastCommitRequest - 1 }
        generateProposal none
        if vote.payloadSize > 0 then
          modify fun s => { s with fastCommitRequest := 2 }
      else
        generateProposal none

/-- `Core::handle_timeout`. -/
def handleTimeout (timeout : Timeout) : CoreM Unit := do
  if timeout.round < (← get).round then return
  check (timeout.verify c (← get).committee)
  processQc timeout.highQc
  processTc timeout.highTc
  let (result, aggregator) := (← get).aggregator.addTimeout timeout
  modify fun s => { s with aggregator := aggregator }
  match result with
  | .error e => throw (.error e)
  | .ok none => pure ()
  | .ok (some tc) =>
    processTc tc
    send (.broadcast (.tc tc))
    let s ← get
    if s.name == (← getLeader s.round) then generateProposal (some tc)

/-- `Core::local_timeout_round`. -/
def localTimeoutRound : CoreM Unit := do
  let s ← get
  increaseLastVotedRound s.round
  let timeout := Timeout.new c s.highQc s.highTc s.round s.name s.signatureService
  send (.signature (.timeout timeout))
  send (.broadcast (.timeout timeout))
  handleTimeout c timeout

/-- `Core::process_block`: the block is stored first; without both ancestors it waits;
a 2-chain `b0 ← b1` with consecutive rounds commits `b0`; a block of the current round
may get the core's vote, which the core processes itself and broadcasts. -/
def processBlock (block : Block) : CoreM Unit := do
  storeBlock c block
  let some (b0, b1) ← getAncestors block | pure ()
  cleanupProposer b0 b1 block
  if b0.round + 1 == b1.round then
    mempoolCleanup b0.round
    commit c b0
  if block.round != (← get).round then return
  let some vote ← makeVote c block | pure ()
  handleVote c vote
  send (.broadcast (.vote vote))

/-- `Core::handle_proposal`. -/
def handleProposal (block : Block) : CoreM Unit := do
  let digest := block.digest c
  let leader ← getLeader block.round
  unless block.author == leader do
    throw (.error (.wrongLeader digest block.author block.round))
  check (block.verify c (← get).committee)
  processQc block.qc
  if let some tc := block.tc then processTc tc
  unless (← mempoolVerify block) do return
  processBlock c block

/-- `Core::handle_tc`: the TC is not verified (see the `TODO` in the code). -/
def handleTc (tc : TC) : CoreM Unit := do
  processTc tc
  let s ← get
  if s.name == (← getLeader s.round) then generateProposal (some tc)

/-- The start of `Core::run`: the leader of round 1 proposes. -/
def boot : CoreM Unit := do
  let s ← get
  if s.name == (← getLeader s.round) then generateProposal none

/-- The dispatch of `Core::run`'s loop.  `SyncRequest`s are routed to the helper by the
network handler and never reach the core; the loop would panic on one. -/
def handle : Event → CoreM Unit
  | .message (.propose block) => handleProposal c block
  | .message (.vote vote) => handleVote c vote
  | .message (.timeout timeout) => handleTimeout c timeout
  | .message (.tc tc) => handleTc tc
  | .message (.syncRequest _ _) => panic "Unexpected protocol message"
  | .loopback block => processBlock c block
  | .timer => localTimeoutRound c
  | .batchStored d => modify fun s => { s with store := { s.store with batches := d :: s.store.batches } }

/-- `Core::run`'s `match result`: an `Err` is logged and the loop goes on; a panic ends
the task (`none`). -/
def settle : EStateM.Result Fault Core Unit → Option Core
  | .ok _ s => some s
  | .error (.error _) s => some s
  | .error (.panic _) _ => none

/-- One iteration of the event loop. -/
def step (s : Core) (e : Event) : Option Core := settle (handle c e s)

/-- The event loop over a list of events; `none` once the task has panicked. -/
def run : List Event → Core → Option Core
  | [], s => some s
  | e :: es, s => (step c s e).bind (run es)

/-- A core as `Core::spawn` starts it: the initial state, then the boot proposal. -/
def start (name : PublicKey) (committee : Committee) (store : Store)
    (signatureService : Digest → Signature) : Option Core :=
  settle (boot (new name committee store signatureService))

/-- `Core::spawn` followed by the first `events` of its loop; `none` once the task has
panicked. -/
def spawn (name : PublicKey) (committee : Committee) (store : Store)
    (signatureService : Digest → Signature) (events : List Event) : Option Core :=
  (start name committee store signatureService).bind (run c events)

/-! ## Runs

A property of whole runs follows from one of single handlers: `settle_eq_some` says
that a task that has not panicked is in the state its handler left, and `run_rel`
chains a preorder that every handler keeps along the events of a run. -/

section Runs
open StateInvariant
variable {c}

theorem settle_eq_some {x : CoreM Unit} {s s' : Core} (h : settle (x s) = some s') :
    final x s = s' := by
  cases hx : x s with
  | ok a t =>
    rw [hx] at h
    cases h
    exact final_of_ok hx
  | error f t =>
    rw [hx] at h
    cases f with
    | error e => cases h; exact final_of_error hx
    | panic msg => cases h

theorem start_eq_some {name : PublicKey} {committee : Committee} {store : Store}
    {signatureService : Digest → Signature} {s : Core}
    (h : start name committee store signatureService = some s) :
    final boot (new name committee store signatureService) = s :=
  settle_eq_some h

/-- **Run rule**: a preorder that every handler keeps relates the states before and
after any run that has not panicked. -/
theorem run_rel {R : Core → Core → Prop} [Std.Refl R] [IsTrans Core R]
    (h : ∀ e, Keeps R (handle c e)) :
    ∀ {es : List Event} {s s' : Core}, run c es s = some s' → R s s'
  | [], s, s', hrun => by
    cases hrun
    exact Std.Refl.refl s
  | e :: es, s, s', hrun => by
    obtain ⟨t, ht, hrest⟩ := Option.bind_eq_some_iff.mp hrun
    have hst : R s t := settle_eq_some ht ▸ h e s
    exact trans_of R hst (run_rel h hrest)

end Runs

end Core

end SafeStake.Consensus
