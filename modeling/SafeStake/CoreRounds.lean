import SafeStake.CoreVoting
import SafeStake.CoreAgreement

/-! # The rounds of the core

`advance_round` moves the core to `round + 1` from any round not below its own, and
`update_high_qc` and `update_high_tc` replace a high certificate only by one of a strictly
higher round.  The high QC's and TC's rounds therefore never go down, over any run and in
any order of events (`run_highRounds`): no handler writes them otherwise.

The core's own round is another matter.  `handle_tc` hands the TC it receives to
`process_tc` unverified (its `TODO` says so), and `round + 1` is a `u64` addition, which
wraps in the release build.  A TC of round `u64::MAX`, which any peer can send, takes every
core to round 0 (`step_tc_max_round`).  From there the core accepts the votes of rounds it
has already left, whose makers `cleanup` has dropped, and forms their QC a second time.
-/

namespace SafeStake.Consensus

open StateInvariant

/-- In key order the committee leads every round; an empty committee's remainder by its
size panics instead. -/
theorem Committee.getLeader_isSome {committee : Committee} (h : committee.authorities ≠ [])
    (round : Round) : (committee.getLeader round).isSome := by
  have hidx : round.toNat % committee.size < committee.sortedKeys.length := by
    rw [Committee.sortedKeys, List.length_insertionSort, List.length_map]
    exact Nat.mod_lt _ (List.length_pos_iff.mpr h)
  rw [Committee.getLeader, List.getElem?_eq_getElem hidx]
  rfl

/-! ## The high certificates -/

/-- Neither the high QC's round nor the high TC's round goes down. -/
def HighRounds (s s' : Core) : Prop :=
  s.highQc.round ≤ s'.highQc.round ∧ s.highTc.round ≤ s'.highTc.round

instance : Framing HighRounds where
  refl _ := ⟨UInt64.le_refl _, UInt64.le_refl _⟩
  trans _ _ _ h₁ h₂ := ⟨UInt64.le_trans h₁.1 h₂.1, UInt64.le_trans h₁.2 h₂.2⟩
  quiet _ _ h := ⟨by rw [h.2.1]; exact UInt64.le_refl _, by rw [h.2.2]; exact UInt64.le_refl _⟩
  updateHighQc _ := keeps_modify fun s => by
    split
    · exact ⟨UInt64.le_of_lt (by assumption), UInt64.le_refl _⟩
    · exact ⟨UInt64.le_refl _, UInt64.le_refl _⟩
  updateHighTc _ := keeps_modify fun s => by
    split
    · exact ⟨UInt64.le_refl _, UInt64.le_of_lt (by assumption)⟩
    · exact ⟨UInt64.le_refl _, UInt64.le_refl _⟩

namespace Core
variable (c : Crypto)

/-- Signing a vote touches neither high certificate. -/
theorem keeps_makeVote_highRounds (block : Block) : Keeps HighRounds (makeVote c block) := by
  intro s
  rcases makeVote_final c block s with h | ⟨-, h⟩
  · rw [h]
    exact Std.Refl.refl s
  · rw [h]
    exact ⟨UInt64.le_refl _, UInt64.le_refl _⟩

/-- Signing and broadcasting the timeout leave both certificates as they were, so the
state the timeout is handled in has the high rounds of `s`. -/
theorem keeps_localTimeoutRound_highRounds : Keeps HighRounds (localTimeoutRound c) := by
  intro s
  rw [localTimeoutRound_final]
  exact (keeps_handleTimeout c (localTimeout c s) : Keeps HighRounds _) { s with
    lastVotedRound := max s.lastVotedRound s.round
    sent := s.sent ++ [.signature (.timeout (localTimeout c s))] ++
      [.broadcast (.timeout (localTimeout c s))] }

/-- **The high QC's and the high TC's rounds never go down** along any run of the
core, whatever the events and in whatever order. -/
theorem run_highRounds {es : List Event} {s s' : Core} (h : run c es s = some s') :
    HighRounds s s' :=
  run_rel (keeps_handle c (keeps_makeVote_highRounds c) (keeps_localTimeoutRound_highRounds c)) h

/-- The core of the key of byte 3 in the committee of four takes the TC of round 1 that the
keys of bytes 1, 2 and 4 form, and keeps its high rounds. -/
theorem tc_raises_high_tc :
    ∃ s s', Core.start (PublicKey.ofByte 3) committeeOfFour ⟨[], []⟩
        (Crypto.sampleSigner (PublicKey.ofByte 3)) = some s ∧
      run Crypto.sample [.message (.tc tcOfRoundOne)] s = some s' ∧ HighRounds s s' := by
  refine ⟨_, _, rfl, rfl, ?_⟩
  exact @run_highRounds Crypto.sample [.message (.tc tcOfRoundOne)] _ _ rfl

/-! ## The round under an unverified TC -/

/-- The round `advance_round r` moves a core at round `current` to. -/
def advancedRound (r current : Round) : Round := if r < current then current else r + 1

theorem advancedRound_max (current : Round) : advancedRound 18446744073709551615 current = 0 := by
  have hle : current.toNat ≤ 18446744073709551615 := by
    have := current.toNat_lt
    omega
  rw [advancedRound, if_neg (UInt64.not_lt.mpr (UInt64.le_iff_toNat_le.mpr hle))]
  rfl

theorem getLeader_eq {round : Round} {s : Core} {leader : PublicKey}
    (h : s.committee.getLeader round = some leader) : getLeader round s = .ok leader s := by
  unfold getLeader
  simp only [bind, get, getThe, MonadStateOf.get, EStateM.bind, EStateM.get, h]
  rfl

theorem advanceRound_eq (r : Round) (s : Core) :
    advanceRound r s = .ok () (if r < s.round then s else
      { s with round := r + 1, aggregator := s.aggregator.cleanup (r + 1) }) := by
  unfold advanceRound
  simp only [bind, get, getThe, MonadStateOf.get, EStateM.bind, EStateM.get]
  split
  · rfl
  · rfl

theorem updateHighTc_eq (tc : TC) (s : Core) :
    updateHighTc tc s =
      .ok () (if tc.round > s.highTc.round then { s with highTc := tc } else s) :=
  rfl

/-- `process_tc` returns, at the round `advance_round` computes, with the committee and
the name it had. -/
theorem processTc_eq (tc : TC) (s : Core) :
    ∃ s', processTc tc s = .ok () s' ∧ s'.round = advancedRound tc.round s.round ∧
      s'.committee = s.committee ∧ s'.name = s.name := by
  unfold processTc
  simp only [bind, EStateM.bind, advanceRound_eq, updateHighTc_eq]
  refine ⟨_, rfl, ?_⟩
  -- the cases of `advance_round`, then of `update_high_tc`, which only sets the high TC
  unfold advancedRound
  split <;> split <;> simp_all

/-- **What a TC does to the round**: `handle_tc` returns, for every TC and from every core
with a committee, at the round `advance_round` computes from the TC's round alone. -/
theorem handleTc_eq (tc : TC) (s : Core) (h : s.committee.authorities ≠ []) :
    ∃ s', handleTc tc s = .ok () s' ∧ s'.round = advancedRound tc.round s.round := by
  obtain ⟨s₁, hs₁, hround, hcommittee, -⟩ := processTc_eq tc s
  obtain ⟨leader, hleader⟩ :=
    Option.isSome_iff_exists.mp (Committee.getLeader_isSome (hcommittee ▸ h) s₁.round)
  unfold handleTc
  simp only [bind, EStateM.bind, hs₁, get, getThe, MonadStateOf.get, EStateM.get,
    getLeader_eq hleader]
  -- whether or not the core leads the new round, the round stays
  split
  · exact ⟨_, rfl, hround⟩
  · exact ⟨_, rfl, hround⟩

/-- **A TC of round `u64::MAX` takes every core to round 0**, whatever its round, its
committee and the TC's votes. -/
theorem step_tc_max_round (s : Core) (h : s.committee.authorities ≠ [])
    (votes : List (PublicKey × Signature × Round × Round)) :
    ∃ s', step c s (.message (.tc ⟨18446744073709551615, votes⟩)) = some s' ∧ s'.round = 0 := by
  obtain ⟨s', hs', hround⟩ := handleTc_eq ⟨18446744073709551615, votes⟩ s h
  refine ⟨s', ?_, hround.trans (advancedRound_max _)⟩
  rw [step, handle, hs']
  rfl

end Core

/-! ## A core sent back to round 0 -/

/-- A TC of round `u64::MAX` without a single vote. -/
def tcOfMaxRound : TC := ⟨18446744073709551615, []⟩

/-- The core of the key of byte 3 in `committeeOfFour`, at round 1 after its spawn, takes
`tcOfMaxRound`, which does not verify, and goes to round 0. -/
theorem unverified_tc_wraps_round :
    tcOfMaxRound.verify Crypto.sample committeeOfFour = .error (.error .tcRequiresQuorum) ∧
    ∃ s₀ s₁, Core.start (PublicKey.ofByte 3) committeeOfFour ⟨[], []⟩
        (Crypto.sampleSigner (PublicKey.ofByte 3)) = some s₀ ∧ s₀.round = 1 ∧
      Core.step Crypto.sample s₀ (.message (.tc tcOfMaxRound)) = some s₁ ∧ s₁.round = 0 := by
  let s₀ := Core.new (PublicKey.ofByte 3) committeeOfFour ⟨[], []⟩
    (Crypto.sampleSigner (PublicKey.ofByte 3))
  obtain ⟨s₁, hstep, hround⟩ := Core.step_tc_max_round Crypto.sample s₀ (by decide) []
  exact ⟨by decide +kernel, s₀, s₁, rfl, rfl, hstep, hround⟩

/-! ## A QC formed twice -/

/-- The votes of the keys of bytes 1, 2 and 4, as messages, in this order. -/
def votesOfRoundOne : List Event :=
  [1, 2, 4].map fun b => .message (.vote (voteOfRoundOne b))

/-- The core of the key of byte 3 in `committeeOfFour`, whose stakes sum to 4, gets the
three votes of round 1; its aggregator returns their QC, and the core, leader of round 2,
asks its proposer for a block on it.  A peer then sends `tcOfMaxRound`, and the same votes
again: the aggregator returns the same QC a second time, and the core asks for a second
block of round 2 on it. -/
theorem qc_of_round_formed_twice :
    2 * committeeOfFour.totalStake < 2 ^ 32 ∧
    (Core.spawn Crypto.sample (PublicKey.ofByte 3) committeeOfFour ⟨[], []⟩
        (Crypto.sampleSigner (PublicKey.ofByte 3)) (votesOfRoundOne.take 2)).map
      (fun s => (s.aggregator.addVote Crypto.sample (voteOfRoundOne 4)).1) =
        some (.ok (some qcOfRoundOne)) ∧
    (Core.spawn Crypto.sample (PublicKey.ofByte 3) committeeOfFour ⟨[], []⟩
        (Crypto.sampleSigner (PublicKey.ofByte 3))
        (votesOfRoundOne ++ .message (.tc tcOfMaxRound) :: votesOfRoundOne.take 2)).map
      (fun s => (s.aggregator.addVote Crypto.sample (voteOfRoundOne 4)).1) =
        some (.ok (some qcOfRoundOne)) ∧
    (Core.spawn Crypto.sample (PublicKey.ofByte 3) committeeOfFour ⟨[], []⟩
        (Crypto.sampleSigner (PublicKey.ofByte 3))
        (votesOfRoundOne ++ .message (.tc tcOfMaxRound) :: votesOfRoundOne)).map
      (fun s => Node.proposerMessages s.sent) =
        some [.make 2 qcOfRoundOne none, .make 2 qcOfRoundOne none] := by
  decide +kernel

end SafeStake.Consensus
