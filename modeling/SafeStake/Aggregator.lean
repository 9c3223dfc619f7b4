import SafeStake.ConsensusVerify

/-! # The vote and timeout aggregator

`aggregator.rs`: a `QCMaker` per round and vote digest, a `TCMaker` per round.  A
maker remembers the authors it has counted (`used`), appends each new author's
signature and adds its stake in `u32`; the first time the weight reaches the quorum
threshold it returns a certificate and resets the weight to 0 ("Ensures QC is only
made once").

The two `HashMap`s are total functions here, an absent entry being a fresh maker:
`or_insert_with(QCMaker::new)` makes the two indistinguishable, and `cleanup`'s
`retain` puts back exactly that.
-/

namespace SafeStake.Consensus

/-- `aggregator::QCMaker`. -/
structure QCMaker where
  weight : Stake
  votes : List (PublicKey × Signature)
  used : List PublicKey
deriving DecidableEq, Repr

/-- `QCMaker::new`. -/
def QCMaker.new : QCMaker := ⟨0, [], []⟩

/-- `QCMaker::append`: an `Err` leaves the maker as it was. -/
def QCMaker.append (committee : Committee) (m : QCMaker) (vote : Vote) :
    Except ConsensusError (Option QC × QCMaker) :=
  let author := vote.author
  if m.used.contains author then
    .error (.authorityReuse vote.hash author vote.round "QC")
  else
    let votes := m.votes ++ [(author, vote.signature)]
    let used := author :: m.used
    let weight := m.weight + committee.stake author
    if weight ≥ committee.quorumThreshold then
      .ok (some ⟨vote.hash, vote.round, vote.payloadSize, votes⟩, ⟨0, votes, used⟩)
    else
      .ok (none, ⟨weight, votes, used⟩)

/-- `aggregator::TCMaker`. -/
structure TCMaker where
  weight : Stake
  votes : List (PublicKey × Signature × Round × Round)
  used : List PublicKey
deriving DecidableEq, Repr

/-- `TCMaker::new`. -/
def TCMaker.new : TCMaker := ⟨0, [], []⟩

/-- `TCMaker::append`: each vote records the timeout's `high_qc` and `high_tc` rounds. -/
def TCMaker.append (committee : Committee) (m : TCMaker) (timeout : Timeout) :
    Except ConsensusError (Option TC × TCMaker) :=
  let author := timeout.author
  if m.used.contains author then
    .error (.authorityReuse timeout.highQc.hash author timeout.round "TC")
  else
    let votes := m.votes ++ [(author, timeout.signature, timeout.highQc.round,
      timeout.highTc.round)]
    let used := author :: m.used
    let weight := m.weight + committee.stake author
    if weight ≥ committee.quorumThreshold then
      .ok (some ⟨timeout.round, votes⟩, ⟨0, votes, used⟩)
    else
      .ok (none, ⟨weight, votes, used⟩)

/-- `aggregator::Aggregator`. -/
structure Aggregator where
  committee : Committee
  votesAggregators : Round → Digest → QCMaker
  timeoutsAggregators : Round → TCMaker

namespace Aggregator

/-- `Aggregator::new`. -/
def new (committee : Committee) : Aggregator :=
  ⟨committee, fun _ _ => QCMaker.new, fun _ => TCMaker.new⟩

/-- `Aggregator::add_vote`: the maker of the vote's round and digest appends it. -/
def addVote (c : Crypto) (a : Aggregator) (vote : Vote) :
    Except ConsensusError (Option QC) × Aggregator :=
  let d := vote.digest c
  match (a.votesAggregators vote.round d).append a.committee vote with
  | .error e => (.error e, a)
  | .ok (qc, m) =>
    let makers := Function.update (a.votesAggregators vote.round) d m
    (.ok qc, { a with votesAggregators := Function.update a.votesAggregators vote.round makers })

/-- `Aggregator::add_timeout`: the maker of the timeout's round appends it. -/
def addTimeout (a : Aggregator) (timeout : Timeout) :
    Except ConsensusError (Option TC) × Aggregator :=
  match (a.timeoutsAggregators timeout.round).append a.committee timeout with
  | .error e => (.error e, a)
  | .ok (tc, m) =>
    let makers := Function.update a.timeoutsAggregators timeout.round m
    (.ok tc, { a with timeoutsAggregators := makers })

/-- `Aggregator::cleanup`: the makers of rounds below `round` are dropped. -/
def cleanup (a : Aggregator) (round : Round) : Aggregator :=
  { a with
    votesAggregators := fun k d => if k ≥ round then a.votesAggregators k d else QCMaker.new
    timeoutsAggregators := fun k => if k ≥ round then a.timeoutsAggregators k else TCMaker.new }

end Aggregator

end SafeStake.Consensus
