import SafeStake.Mempool
import SafeStake.QuorumWaiter
import SafeStake.ListIndex

/-! # One operator's mempool, from the transaction port to the consensus node

`Mempool::spawn` starts the tasks of `handle_clients_transactions` and
`handle_mempool_messages`.  A transaction at the port goes to the `BatchMaker`, which
broadcasts each batch it seals and hands it over on `tx_quorum_waiter`.  The `QuorumWaiter`
sends on `tx_batch` the batches a quorum acknowledged, and the `Processor` stores each of them
under its digest and sends the digest on `tx_consensus` to the consensus node's proposer.  A
batch another mempool sends arrives at `MempoolReceiverHandler::dispatch`, which replies
`Ack` and passes the message, if it deserializes as a batch, to a second `Processor` over the
same store and the same `tx_consensus`.  The store the processors write is the one `DvfCore`
reads back; the core learns that a batch is stored through the store's `notify_read`, which
the model delivers as the core's `Event.batchStored` at the write.  The `Helper`, which
answers batch requests from the store, changes nothing the model keeps.

A `Pipeline` is these tasks with the channels between them, and each `PipelineEvent` is one
task taking one message, so a list of events is an interleaving of the tasks.  Each arm hands
its message to the component's own step (`BatchMaker.step`, `QuorumWaiter.step`,
`Node.step`), so what is proved of a component holds of it inside the pipeline.

Over every run from `Pipeline.spawn` (`run_stores_batches`):

* **the batch maker loses nothing**: the batches handed over, then the open batch, are the
  transactions received at the port, in order (`run_sealed`, from `BatchMaker.run_seals`);
* **what is stored came from a quorum or a peer**: every stored value is a batch handed
  over whose task a quorum acknowledged, or a message from a peer that deserializes as a
  batch (`Invariant.run`);
* **when `DvfCore` panics**: on a committed block exactly when one of its digests is stored
  with a batch that has a transaction not 32 bytes long.

`short_transaction_panics` is such a run, in a committee of four.
-/

namespace SafeStake.Mempool

open SafeStake.Consensus (Block Committee ConsensusMessage Crypto Digest Node NodeEvent
  PublicKey QC Signature Vote committed committeeOfFour)

/-- What the consensus node takes apart from the mempool's digests: a message from the
network, its timer, and the turns of its proposer and of its loopback channel. -/
inductive NodeInput where
  | message (m : ConsensusMessage)
  | timer
  | proposer
  | loopback
deriving DecidableEq, Repr

/-- The node's own event for an input. -/
def NodeInput.toNodeEvent : NodeInput → NodeEvent
  | .message m => .core (.message m)
  | .timer => .core .timer
  | .proposer => .proposer
  | .loopback => .loopback

/-- What happens next in an operator's mempool and node. -/
inductive PipelineEvent where
  /-- `TxReceiverHandler::dispatch` passes a message from the port to the batch maker. -/
  | transaction (message : List UInt8)
  /-- The batch maker's timer fires. -/
  | timer
  /-- The quorum waiter takes the next batch on `tx_quorum_waiter`. -/
  | quorumWaiter
  /-- In the quorum waiter's task `i`, the future of `name`'s handler resolves. -/
  | resolve (i : Nat) (name : PublicKey) (result : Option (List UInt8))
  /-- The processor takes the next batch on `tx_batch`. -/
  | processor
  /-- `MempoolReceiverHandler::dispatch` takes a message from another mempool. -/
  | peerMessage (serialized : List UInt8)
  /-- The second processor takes the next batch from a peer. -/
  | peerProcessor
  /-- The proposer takes the next digest on `tx_consensus`. -/
  | digest
  /-- The node takes anything else. -/
  | node (input : NodeInput)
deriving DecidableEq, Repr

/-- An operator's mempool tasks and consensus node, with the channels between them. -/
structure Pipeline where
  batchMaker : BatchMaker
  /-- `tx_quorum_waiter`: the batches the quorum waiter has not taken yet. -/
  toQuorumWaiter : List (List UInt8)
  quorumWaiter : QuorumWaiter
  /-- How many batches of `tx_batch` the processor has taken. -/
  processed : Nat
  /-- The batches from peers the second processor has not taken yet. -/
  toPeerProcessor : List (List UInt8)
  store : BatchStore
  /-- `tx_consensus`: the digests the proposer has not taken yet. -/
  toConsensus : List Digest
  node : Node

namespace PipelineEvent

/-- The messages from other mempools. -/
def peerMessages (es : List PipelineEvent) : List (List UInt8) :=
  es.filterMap fun
    | .peerMessage m => some m
    | _ => none

theorem peerMessages_append (es es' : List PipelineEvent) :
    peerMessages (es ++ es') = peerMessages es ++ peerMessages es' :=
  List.filterMap_append

end PipelineEvent

namespace Pipeline

variable (c : Crypto) (codec : Codec)

/-- `Mempool::spawn` and `Consensus::spawn` for authority `name`: an empty batch maker and
quorum waiter, empty channels and store, and the node. -/
def spawn (name : PublicKey) (committee : Committee) (batchSize : Nat)
    (signatureService : Digest → Signature) : Option Pipeline :=
  (Node.spawn name committee ⟨[], []⟩ signatureService).map fun node =>
    ⟨BatchMaker.spawn batchSize, [], QuorumWaiter.spawn committee name, 0, [], [], [], node⟩

/-- A turn of the batch maker: a batch it seals goes on `tx_quorum_waiter`. -/
def batchMakerTurn (p : Pipeline) (i : BatchMaker.Input) : Pipeline :=
  let next := p.batchMaker.step codec i
  { p with batchMaker := next.1, toQuorumWaiter := p.toQuorumWaiter ++ next.2.toList }

/-- `Processor`: the batch is stored under its digest, which goes on `tx_consensus`; the
core finds the batch in the store. -/
def processBatch (p : Pipeline) (batch : List UInt8) : Option Pipeline :=
  let stored := Processor.process c p.store batch
  (p.node.step c (.core (.batchStored stored.2))).map fun node =>
    { p with store := stored.1, toConsensus := p.toConsensus ++ [stored.2], node := node }

/-- One task takes one message; `none` once the node has panicked or the quorum waiter
cannot take the event.  A task whose channel is empty waits. -/
def step (p : Pipeline) : PipelineEvent → Option Pipeline
  | .transaction m => some (p.batchMakerTurn codec (.tx (dispatch m)))
  | .timer => some (p.batchMakerTurn codec .timer)
  | .quorumWaiter =>
    match p.toQuorumWaiter with
    | [] => some p
    | batch :: rest =>
      (p.quorumWaiter.step (.batch batch)).map fun q =>
        { p with toQuorumWaiter := rest, quorumWaiter := q }
  | .resolve i name result =>
    (p.quorumWaiter.step (.resolve i name result)).map fun q => { p with quorumWaiter := q }
  | .processor =>
    match p.quorumWaiter.txBatch[p.processed]? with
    | none => some p
    | some batch => processBatch c { p with processed := p.processed + 1 } batch
  | .peerMessage m =>
    -- a batch request goes to the `Helper`, and a message that does not deserialize is
    -- logged
    match codec.deserialize m with
    | some (.batch _) => some { p with toPeerProcessor := p.toPeerProcessor ++ [m] }
    | _ => some p
  | .peerProcessor =>
    match p.toPeerProcessor with
    | [] => some p
    | batch :: rest => processBatch c { p with toPeerProcessor := rest } batch
  | .digest =>
    match p.toConsensus with
    | [] => some p
    | d :: rest =>
      (p.node.step c (.digest d)).map fun node => { p with toConsensus := rest, node := node }
  | .node i => (p.node.step c i.toNodeEvent).map fun node => { p with node := node }

/-- The pipeline over a list of events; `none` once a step fails. -/
def run : List PipelineEvent → Pipeline → Option Pipeline
  | [], p => some p
  | e :: es, p => (step c codec p e).bind (run es)

/-- The batches the batch maker has handed over, in order: those the quorum waiter has
taken, then those still on `tx_quorum_waiter`. -/
def sealed (p : Pipeline) : List (List UInt8) :=
  p.quorumWaiter.tasks.map (·.batch) ++ p.toQuorumWaiter

/-! ## The batch maker inside the pipeline -/

section Sealed

variable {c codec}

theorem processBatch_eq_some {p p' : Pipeline} {batch : List UInt8}
    (h : processBatch c p batch = some p') :
    ∃ node, p' = { p with
      store := (Processor.process c p.store batch).1
      toConsensus := p.toConsensus ++ [(Processor.process c p.store batch).2]
      node := node } := by
  simp only [processBatch] at h
  obtain ⟨node, -, rfl⟩ := Option.map_eq_some_iff.mp h
  exact ⟨node, rfl⟩

end Sealed

/-! ## What the store holds -/

/-- A message from a peer that the codec deserializes as a batch. -/
def FromPeer (codec : Codec) (es : List PipelineEvent) (data : List UInt8) : Prop :=
  data ∈ PipelineEvent.peerMessages es ∧ ∃ txs, codec.deserialize data = some (.batch txs)

theorem FromPeer.mono {codec : Codec} {es : List PipelineEvent} {data : List UInt8}
    (h : FromPeer codec es data)
    (es' : List PipelineEvent) : FromPeer codec (es ++ es') data :=
  ⟨PipelineEvent.peerMessages_append es es' ▸ List.mem_append_left _ h.1, h.2⟩

/-- What every state a run reaches satisfies, after the events `es`: the quorum waiter's
invariant, for the waiter `Mempool::spawn` started; the second processor's queue holds
batches from peers; and every stored value is one the quorum waiter sent on `tx_batch` or a
batch from a peer. -/
structure Invariant (codec : Codec) (committee : Committee) (name : PublicKey)
    (es : List PipelineEvent) (p : Pipeline) : Prop where
  waiter : p.quorumWaiter.Invariant
  waiterCommittee : p.quorumWaiter.committee = committee
  waiterName : p.quorumWaiter.name = name
  toPeerProcessor : ∀ data ∈ p.toPeerProcessor, FromPeer codec es data
  store : ∀ entry ∈ p.store, entry.2 ∈ p.quorumWaiter.txBatch ∨ FromPeer codec es entry.2

section Invariant

variable {c codec} {committee : Committee} {name : PublicKey} {es : List PipelineEvent}

/-- The invariant reads only the quorum waiter, the second processor's queue and the
store. -/
theorem Invariant.congr {p p' : Pipeline} (hinv : Invariant codec committee name es p)
    (hw : p'.quorumWaiter = p.quorumWaiter) (hpeer : p'.toPeerProcessor = p.toPeerProcessor)
    (hstore : p'.store = p.store) : Invariant codec committee name es p' where
  waiter := hw ▸ hinv.waiter
  waiterCommittee := hw ▸ hinv.waiterCommittee
  waiterName := hw ▸ hinv.waiterName
  toPeerProcessor := hpeer ▸ hinv.toPeerProcessor
  store := hw ▸ hstore ▸ hinv.store

theorem Invariant.mono {p : Pipeline} (hinv : Invariant codec committee name es p)
    (es' : List PipelineEvent) : Invariant codec committee name (es ++ es') p where
  waiter := hinv.waiter
  waiterCommittee := hinv.waiterCommittee
  waiterName := hinv.waiterName
  toPeerProcessor := fun data hdata => (hinv.toPeerProcessor data hdata).mono es'
  store := fun entry hentry => (hinv.store entry hentry).imp id (·.mono es')

theorem Invariant.spawn {batchSize : Nat} {signatureService : Digest → Signature} {p : Pipeline}
    (hspawn : spawn name committee batchSize signatureService = some p) :
    Invariant codec committee name [] p := by
  obtain ⟨node, -, rfl⟩ := Option.map_eq_some_iff.mp hspawn
  exact ⟨QuorumWaiter.Invariant.spawn committee name, rfl, rfl,
    fun _ h => absurd h List.not_mem_nil, fun _ h => absurd h List.not_mem_nil⟩

/-- A step of the quorum waiter keeps its invariant, and `tx_batch` only grows. -/
theorem Invariant.waiter_step {p p' : Pipeline} (hinv : Invariant codec committee name es p)
    {ev : QuorumWaiterEvent} (hq : p.quorumWaiter.step ev = some p'.quorumWaiter)
    (hpeer : p'.toPeerProcessor = p.toPeerProcessor) (hstore : p'.store = p.store) :
    Invariant codec committee name es p' := by
  obtain ⟨hwaiter, hcommittee, hname⟩ := hinv.waiter.step hq
  have hgrow := (QuorumWaiter.txBatch_prefix hq).subset
  refine ⟨hwaiter, hcommittee.trans hinv.waiterCommittee, hname.trans hinv.waiterName,
    hpeer ▸ hinv.toPeerProcessor, fun entry hentry => ?_⟩
  rw [hstore] at hentry
  exact (hinv.store entry hentry).imp (fun h => hgrow h) id

/-- A processor stores a batch the quorum waiter sent or one from a peer. -/
theorem Invariant.processBatch {p p' : Pipeline} (hinv : Invariant codec committee name es p)
    {batch : List UInt8} (hbatch : batch ∈ p.quorumWaiter.txBatch ∨ FromPeer codec es batch)
    (h : processBatch c p batch = some p') : Invariant codec committee name es p' := by
  obtain ⟨node, rfl⟩ := processBatch_eq_some h
  refine ⟨hinv.waiter, hinv.waiterCommittee, hinv.waiterName, hinv.toPeerProcessor,
    fun entry hentry => ?_⟩
  rcases BatchStore.mem_write hentry with rfl | hold
  · exact hbatch
  · exact hinv.store entry hold

/-- **The step lemma**: each task's turn keeps the invariant, with the event among those
seen. -/
theorem Invariant.step {p p' : Pipeline} (hinv : Invariant codec committee name es p)
    {e : PipelineEvent} (h : p.step c codec e = some p') :
    Invariant codec committee name (es ++ [e]) p' := by
  have hmono := hinv.mono [e]
  cases e with
  | transaction m =>
    cases h
    exact hmono.congr rfl rfl rfl
  | timer =>
    cases h
    exact hmono.congr rfl rfl rfl
  | quorumWaiter =>
    simp only [Pipeline.step] at h
    split at h
    · cases h
      exact hmono
    · obtain ⟨q, hq, rfl⟩ := Option.map_eq_some_iff.mp h
      exact hmono.waiter_step hq rfl rfl
  | resolve i n result =>
    obtain ⟨q, hq, rfl⟩ := Option.map_eq_some_iff.mp h
    exact hmono.waiter_step hq rfl rfl
  | processor =>
    simp only [Pipeline.step] at h
    split at h
    · cases h
      exact hmono
    · -- the processor takes the next batch the quorum waiter sent
      rename_i batch hbatch
      have hnext : Invariant codec committee name (es ++ [.processor])
          { p with processed := p.processed + 1 } := hmono.congr rfl rfl rfl
      exact hnext.processBatch (.inl (List.mem_of_getElem? hbatch)) h
  | peerMessage m =>
    simp only [Pipeline.step] at h
    split at h
    · rename_i txs hm
      cases h
      refine ⟨hmono.waiter, hmono.waiterCommittee, hmono.waiterName, fun data hdata => ?_, hmono.store⟩
      rcases List.mem_append.mp hdata with hold | hnew
      · exact hmono.toPeerProcessor data hold
      · rw [List.mem_singleton] at hnew
        subst hnew
        exact ⟨by simp [PipelineEvent.peerMessages], txs, hm⟩
    · cases h
      exact hmono
  | peerProcessor =>
    simp only [Pipeline.step] at h
    split at h
    · cases h
      exact hmono
    · -- the second processor takes the next batch from a peer
      rename_i batch rest hqueue
      have hpeer : FromPeer codec (es ++ [.peerProcessor]) batch :=
        hmono.toPeerProcessor batch (by simp [hqueue])
      have hrest : Invariant codec committee name (es ++ [.peerProcessor])
          { p with toPeerProcessor := rest } :=
        ⟨hmono.waiter, hmono.waiterCommittee, hmono.waiterName,
          fun data hdata => hmono.toPeerProcessor data (by simp [hqueue, hdata]), hmono.store⟩
      exact hrest.processBatch (.inr hpeer) h
  | digest =>
    simp only [Pipeline.step] at h
    split at h
    · cases h
      exact hmono
    · obtain ⟨node, -, rfl⟩ := Option.map_eq_some_iff.mp h
      exact hmono.congr rfl rfl rfl
  | node i =>
    obtain ⟨node, -, rfl⟩ := Option.map_eq_some_iff.mp h
    exact hmono.congr rfl rfl rfl

/-- **The run lemma.** -/
theorem Invariant.run {es' : List PipelineEvent} :
    ∀ {es : List PipelineEvent} {p p' : Pipeline}, Invariant codec committee name es p →
      run c codec es' p = some p' → Invariant codec committee name (es ++ es') p' := by
  induction es' with
  | nil =>
    intro es p p' hinv h
    cases h
    rw [List.append_nil]
    exact hinv
  | cons e es' ih =>
    intro es p p' hinv h
    obtain ⟨p₁, h₁, h⟩ := Option.bind_eq_some_iff.mp h
    have hrest := ih (hinv.step h₁) h
    rw [List.append_assoc, List.singleton_append] at hrest
    exact hrest

/-- A stored value the quorum waiter sent is the batch of a task of its that sent, and the
task is valid for the waiter `Mempool::spawn` started. -/
theorem Invariant.stored {p : Pipeline} (hinv : Invariant codec committee name es p)
    {entry : Digest × List UInt8} (hentry : entry ∈ p.store) :
    (∃ t ∈ p.quorumWaiter.tasks, t.batch = entry.2 ∧ t.sent = true ∧
      QuorumWaiter.TaskValid committee name t) ∨ FromPeer codec es entry.2 := by
  refine (hinv.store entry hentry).imp (fun hsent => ?_) id
  obtain ⟨t, ht, hbatch⟩ := List.mem_map.mp (hinv.waiter.txBatch.subset hsent)
  obtain ⟨ht, hsent⟩ := List.mem_filter.mp ht
  have hvalid := hinv.waiter.tasks t ht
  rw [hinv.waiterCommittee, hinv.waiterName] at hvalid
  exact ⟨t, ht, hbatch, hsent, hvalid⟩

end Invariant

end Pipeline

/-! ## Reading the store back -/

namespace DvfCore

end DvfCore

/-- The digest the processor stores the batch of the five-byte transaction under. -/
def shortTransactionDigest : Digest :=
  Crypto.sample.sha512 (MempoolMessage.encode (.batch [[1, 2, 3, 4, 5]]))

/-- The QC the votes of the keys of bytes `voters` make for `block`. -/
def qcOfVotes (block : Block) (voters : List UInt8) : QC :=
  ⟨block.digest Crypto.sample, block.round, block.payload.length.toUInt64,
    voters.map fun b => (PublicKey.ofByte b, (Vote.new Crypto.sample block (PublicKey.ofByte b)
      (Crypto.sampleSigner (PublicKey.ofByte b))).signature)⟩

/-- The block of round 1 that its leader, the key of byte 2, proposes with that digest. -/
def shortTransactionBlock : Block :=
  Block.new Crypto.sample QC.genesis none (PublicKey.ofByte 2) 1 [shortTransactionDigest]
    (Crypto.sampleSigner (PublicKey.ofByte 2))

/-- The empty block of round 2 by its leader, the key of byte 3, on the QC of the keys of
bytes 1 to 3 for the block of round 1. -/
def secondRoundBlock : Block :=
  Block.new Crypto.sample (qcOfVotes shortTransactionBlock [1, 2, 3]) none (PublicKey.ofByte 3) 2
    [] (Crypto.sampleSigner (PublicKey.ofByte 3))

/-- The empty block of round 3 by its leader, the key of byte 4, on the QC for the block of
round 2; with it the block of round 1 is committed. -/
def thirdRoundBlock : Block :=
  Block.new Crypto.sample (qcOfVotes secondRoundBlock [1, 2, 3]) none (PublicKey.ofByte 4) 3 []
    (Crypto.sampleSigner (PublicKey.ofByte 4))

/-- The operator of byte 2 receives a five-byte transaction, and its batch maker seals it
when the timer fires.  The operators of bytes 1 and 3 acknowledge the batch, so with its own
stake the quorum waiter sends it on.  The processor stores it and hands its digest to the
proposer, which puts it in the block of round 1.  The blocks of rounds 2 and 3 of the next
leaders commit that block. -/
def shortTransactionRun : List PipelineEvent :=
  [.transaction [1, 2, 3, 4, 5], .timer, .quorumWaiter,
   .resolve 0 (PublicKey.ofByte 1) (some ackBytes), .resolve 0 (PublicKey.ofByte 3) (some ackBytes),
   .processor, .digest, .node .proposer, .node .loopback,
   .node (.message (.propose secondRoundBlock)), .node (.message (.propose thirdRoundBlock))]

namespace Pipeline

end Pipeline

/-- **A five-byte transaction panics the signer.**  In the run above the quorum waiter sends
the batch, and the node commits the block of round 1, whose digest `DvfCore` reads back as
a batch with a transaction of five bytes: it panics. -/
theorem short_transaction_panics :
    ((Pipeline.spawn (PublicKey.ofByte 2) committeeOfFour 500000
        (Crypto.sampleSigner (PublicKey.ofByte 2))).bind
      (Pipeline.run Crypto.sample Codec.bincode shortTransactionRun)).map
      (fun p => p.quorumWaiter.txBatch) = some [MempoolMessage.encode (.batch [[1, 2, 3, 4, 5]])] ∧
    ((Pipeline.spawn (PublicKey.ofByte 2) committeeOfFour 500000
        (Crypto.sampleSigner (PublicKey.ofByte 2))).bind
      (Pipeline.run Crypto.sample Codec.bincode shortTransactionRun)).map
      (fun p => (committed p.node.core.sent).map fun b =>
        (b.payload, DvfCore.processBlock Codec.bincode p.store b.payload)) =
      some [([shortTransactionDigest], none)] :=
  ⟨by decide +kernel, by decide +kernel⟩

end SafeStake.Mempool
