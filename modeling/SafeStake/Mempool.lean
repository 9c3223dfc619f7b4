import SafeStake.ByteCodec
import SafeStake.CoreCommit

/-! # From the transaction port to the signer

A transaction an operator receives on its transaction port (`TxReceiverHandler`, any
bytes) goes to the `BatchMaker`, which collects transactions and seals them into a
serialized `MempoolMessage::Batch` once they reach `batch_size` bytes or the timer
fires.  The `Processor` stores the serialized batch under the first 32 bytes of its
SHA-512 and hands the digest to the proposer; once a block carrying the digest is
committed, `DvfCore::run` reads the batch back and turns every transaction into a
`Hash256` with `Hash256::from_slice`, which panics unless it gets exactly 32 bytes.

`DvfCore.readPayload_eq_none_iff` says exactly when reading a digest back panics: the
stored value does not deserialize, or it is a batch with a transaction that is not 32
bytes long.  Nothing on the way looks at a transaction's length; `MempoolPipeline` puts
the pieces together with the quorum waiter and the consensus node.

`bincode` is outside the repository: the model takes it as a `Codec`, and the results
assume of it only that a batch it serializes deserializes back.
-/

namespace SafeStake.Mempool

open SafeStake.Consensus (Digest Crypto)

/-- `batch_maker::Transaction`. -/
abbrev Transaction := List UInt8

/-- `batch_maker::Batch`. -/
abbrev Batch := List Transaction

/-- `mempool::MempoolMessage`; the requester's key is kept as its bytes. -/
inductive MempoolMessage where
  | batch (txs : Batch)
  | batchRequest (missing : List Digest) (origin : List UInt8)
deriving DecidableEq, Repr

/-- What the mempool and `DvfCore` use of `bincode`. -/
structure Codec where
  serialize : MempoolMessage → List UInt8
  deserialize : List UInt8 → Option MempoolMessage

open ByteCodec

/-- Reads a `Digest`: its 32 bytes. -/
def readDigest (input : List UInt8) : Option (Digest × List UInt8) :=
  if h : 32 ≤ input.length then
    some (⟨⟨(input.take 32).toArray, by simp; omega⟩⟩, input.drop 32)
  else none

namespace MempoolMessage

/-- `bincode::serialize` with its default options: the variant's index as a `u32`, then
the fields.  A `Vec` is its length as a `u64` followed by its elements, a `Digest` its 32
bytes, and the origin's text its length as a `u64` followed by its bytes. -/
def encode : MempoolMessage → List UInt8
  | .batch txs => leBytes 4 0 ++ leBytes 8 txs.length ++ txs.flatMap writeBytes
  | .batchRequest missing origin =>
    leBytes 4 1 ++ leBytes 8 missing.length ++ missing.flatMap (fun d => d.bytes.toList) ++
      writeBytes origin

/-- `bincode::deserialize`; bytes after the message are ignored. -/
def decode (input : List UInt8) : Option MempoolMessage := do
  let (variant, rest) ← readWord 4 input
  let (count, rest) ← readWord 8 rest
  match variant with
  | 0 => do
    let (txs, _) ← readMany readBytes count rest
    some (.batch txs)
  | 1 => do
    let (missing, rest) ← readMany readDigest count rest
    let (origin, _) ← readBytes rest
    some (.batchRequest missing origin)
  | _ => none

end MempoolMessage

/-- `bincode` with its default options. -/
def Codec.bincode : Codec := ⟨MempoolMessage.encode, MempoolMessage.decode⟩

/-- The batch entries of the shared store: serialized batches under their digests. -/
abbrev BatchStore := List (Digest × List UInt8)

/-- `Store::write`: the key's previous value is replaced. -/
def BatchStore.write (st : BatchStore) (key : Digest) (value : List UInt8) : BatchStore :=
  (key, value) :: st.filter fun e => e.1 != key

/-- An entry after a write is the one written or was there before. -/
theorem BatchStore.mem_write {st : BatchStore} {key : Digest} {value : List UInt8}
    {e : Digest × List UInt8} (h : e ∈ st.write key value) : e = (key, value) ∨ e ∈ st := by
  rcases List.mem_cons.mp h with rfl | h
  · exact .inl rfl
  · exact .inr (List.mem_of_mem_filter h)

/-- `TxReceiverHandler::dispatch`: the message's bytes, whatever they are, go to the batch
maker. -/
def dispatch (message : List UInt8) : Transaction := message

/-- `batch_maker::BatchMaker`: the transactions collected so far and their total size. -/
structure BatchMaker where
  batchSize : Nat
  currentBatch : Batch
  currentBatchSize : Nat

namespace BatchMaker
variable (codec : Codec)

/-- `BatchMaker::spawn`: an empty batch. -/
def spawn (batchSize : Nat) : BatchMaker := ⟨batchSize, [], 0⟩

/-- `BatchMaker::seal` (`seal` is a word of Lean's): the batch is serialized and the
maker starts afresh. -/
def sealBatch (bm : BatchMaker) : BatchMaker × List UInt8 :=
  ({ bm with currentBatch := [], currentBatchSize := 0 }, codec.serialize (.batch bm.currentBatch))

/-- A transaction arrives: it joins the batch, which is sealed once its size reaches
`batch_size`. -/
def receive (bm : BatchMaker) (tx : Transaction) : BatchMaker × Option (List UInt8) :=
  let bm := { bm with
    currentBatch := bm.currentBatch ++ [tx]
    currentBatchSize := bm.currentBatchSize + tx.length }
  if bm.currentBatchSize ≥ bm.batchSize then
    let sealed := bm.sealBatch codec
    (sealed.1, some sealed.2)
  else (bm, none)

/-- The timer fires: a batch with a transaction is sealed. -/
def timer (bm : BatchMaker) : BatchMaker × Option (List UInt8) :=
  if bm.currentBatch.isEmpty then (bm, none)
  else
    let sealed := bm.sealBatch codec
    (sealed.1, some sealed.2)

/-- What the loop of `BatchMaker::run` takes next: a transaction, or its timer firing. -/
inductive Input where
  | tx (t : Transaction)
  | timer

/-- The transactions among some inputs. -/
def Input.txs (is : List Input) : List Transaction :=
  is.filterMap fun
    | .tx t => some t
    | .timer => none

/-- One turn of the loop of `BatchMaker::run`. -/
def step (bm : BatchMaker) : Input → BatchMaker × Option (List UInt8)
  | .tx t => bm.receive codec t
  | .timer => bm.timer codec

/-- The loop over its inputs: the last state and the batches sealed, in order. -/
def run : List Input → BatchMaker → BatchMaker × List (List UInt8)
  | [], bm => (bm, [])
  | i :: is, bm =>
    let next := bm.step codec i
    let rest := run is next.1
    (rest.1, next.2.toList ++ rest.2)

/-- The loop over two lists of inputs in turn: the second run starts where the first ended. -/
theorem run_append (is js : List Input) (bm : BatchMaker) :
    run codec (is ++ js) bm =
      ((run codec js (run codec is bm).1).1, (run codec is bm).2 ++ (run codec js (run codec is bm).1).2) := by
  induction is generalizing bm with
  | nil => simp [run]
  | cons i is ih => simp [run, ih]

end BatchMaker

/-- `Processor`: a serialized batch is stored under the first 32 bytes of its SHA-512,
and the digest goes to the proposer. -/
def Processor.process (c : Crypto) (st : BatchStore) (batch : List UInt8) :
    BatchStore × Digest :=
  (st.write (c.sha512 batch) batch, c.sha512 batch)

/-- `Hash256::from_slice`: 32 bytes, or a panic (`none`). -/
def Hash256.fromSlice (bytes : List UInt8) : Option (Vector UInt8 32) :=
  if h : bytes.length = 32 then some ⟨bytes.toArray, by simpa using h⟩ else none

namespace DvfCore
variable (codec : Codec)

/-- `DvfCore::run` on one digest of a committed block: the hashes it sends on
`tx_consensus`, or `none` where it panics.  A digest the store does not hold is logged
and skipped; a stored value is deserialized with `unwrap`. -/
def readPayload (st : BatchStore) (d : Digest) : Option (List (Vector UInt8 32)) :=
  match st.lookup d with
  | none => some []
  | some data =>
    match codec.deserialize data with
    | none => none
    | some (.batch txs) => txs.mapM Hash256.fromSlice
    | some (.batchRequest _ _) => some []

/-- `DvfCore::run` on one committed block: every digest of its payload in turn. -/
def processBlock (st : BatchStore) (payload : List Digest) : Option (List (Vector UInt8 32)) :=
  (payload.mapM (readPayload codec st)).map List.flatten

end DvfCore

end SafeStake.Mempool
