import SafeStake.CoreRounds

/-! # What the aggregator hands out

A QC is built in one place (`QCMaker::append`, keyed by `Vote::digest`) and checked in
another (`QC::verify`, which hashes with `QC::digest`); so is a TC (`TCMaker::append`,
keyed by the round, and `TC::verify`, which recomputes each vote's digest from three
rounds).  The two encoders of each signed digest agree field for field
(`QC.digest_of_vote`, `TC.voteDigest_of_timeout`), and a maker stores only what
`QC::verify` and `TC::verify` accept: each author once, each with stake and a valid
signature, and a weight at most their stake (`MakerSound`).  Hence every certificate the
aggregator returns, over any sequence of `add_vote`, `add_timeout` and `cleanup` calls
whose votes and timeouts were verified, verifies (`aggregator_certificates_verify`), as
long as the total stake fits in `u32`, as it does in the committees of stake 1 per operator
that `DvfCore` builds.

Each maker returns at most one certificate when twice the total stake fits in `u32`
(`QCMaker.outputs_length_le_one`): its authors stay in `used` after the reset, and the stake
left is below the threshold.
-/

namespace SafeStake.Consensus

open WeightedQuorum StateInvariant

section Signatures
variable (c : Crypto)

def SignatureValid (digest : Digest) (key : PublicKey) (sig : Signature) : Prop :=
  c.fromCompact sig.flatten = true ∧ c.publicKeyFromSlice key.bytes = true ∧
    c.verifyEcdsa digest sig.flatten key = true

variable {c}

theorem Signature.verify_eq_ok {sig : Signature} {digest : Digest} {key : PublicKey} :
    sig.verify c digest key = .ok () ↔ SignatureValid c digest key sig := by
  unfold Signature.verify SignatureValid
  by_cases h₁ : c.fromCompact sig.flatten <;> by_cases h₂ : c.publicKeyFromSlice key.bytes <;>
    by_cases h₃ : c.verifyEcdsa digest sig.flatten key <;>
    simp [h₁, h₂, h₃, throw, throwThe, MonadExceptOf.throw, pure, Except.pure]

theorem Signature.verifyBatch_eq_ok {digest : Digest} :
    ∀ {votes : List (PublicKey × Signature)},
      Signature.verifyBatch c digest votes = .ok () ↔ ∀ p ∈ votes, SignatureValid c digest p.1 p.2
  | [] => by simp [Signature.verifyBatch, pure, Except.pure]
  | (key, sig) :: votes => by
    rw [Signature.verifyBatch, List.forall_mem_cons, ← Signature.verifyBatch_eq_ok]
    unfold SignatureValid
    by_cases h₁ : c.fromCompact sig.flatten <;> by_cases h₂ : c.publicKeyFromSlice key.bytes <;>
      by_cases h₃ : c.verifyEcdsa digest sig.flatten key <;>
      simp [h₁, h₂, h₃, throw, throwThe, MonadExceptOf.throw]

theorem TC.verifyVotes_eq_ok {round : Round} :
    ∀ {votes : List (PublicKey × Signature × Round × Round)},
      TC.verifyVotes c round votes = .ok () ↔
        ∀ v ∈ votes, SignatureValid c (TC.voteDigest c round v.2.2.1 v.2.2.2) v.1 v.2.1
  | [] => by simp [TC.verifyVotes, pure, Except.pure]
  | (author, signature, highQcRound, highTcRound) :: votes => by
    rw [TC.verifyVotes, List.forall_mem_cons, ← TC.verifyVotes_eq_ok, ← Signature.verify_eq_ok]
    cases signature.verify c (TC.voteDigest c round highQcRound highTcRound) author with
    | error e => simp [bind, Except.bind]
    | ok u => simp [bind, Except.bind]

theorem Vote.verify_eq_ok {committee : Committee} {v : Vote} :
    v.verify c committee = .ok () ↔
      committee.stake v.author ≠ 0 ∧ SignatureValid c (v.digest c) v.author v.signature := by
  rw [← Signature.verify_eq_ok]
  unfold Vote.verify
  by_cases h : committee.stake v.author = 0
  · simp [h, throw, throwThe, MonadExceptOf.throw, bind, Except.bind]
  · simp [UInt32.pos_iff_ne_zero.mpr h, h]

theorem Timeout.signed_of_verify {committee : Committee} {t : Timeout}
    (h : t.verify c committee = .ok ()) :
    committee.stake t.author ≠ 0 ∧ SignatureValid c (t.digest c) t.author t.signature := by
  unfold Timeout.verify at h
  by_cases hstake : committee.stake t.author = 0
  · simp [hstake, throw, throwThe, MonadExceptOf.throw, bind, Except.bind] at h
  · refine ⟨hstake, Signature.verify_eq_ok.mp ?_⟩
    simp only [UInt32.pos_iff_ne_zero.mpr hstake] at h
    cases hsig : t.signature.verify c (t.digest c) t.author with
    | ok u => rfl
    | error e => simp [hsig, bind, Except.bind] at h

end Signatures
/-! ## The quorum loop -/

/-- **The quorum loop accepts** distinct names that are not in `used` and all have stake;
it adds their stakes to the weight, modulo `2^32`. -/
theorem quorumWeight_of_nodup (committee : Committee) (digest : Digest) (round : Round)
    (t : String) :
    ∀ {names : List PublicKey} (weight : Stake) (used : List PublicKey),
      names.Nodup → (∀ n ∈ names, n ∉ used) → (∀ n ∈ names, committee.stake n ≠ 0) →
      ∃ total, quorumWeight committee digest round t names weight used = .ok total ∧
        total.toNat = (weight.toNat + (names.map committee.weightOf).sum) % 2 ^ 32
  | [], weight, _, _, _, _ => ⟨weight, rfl, by simp [Nat.mod_eq_of_lt (UInt32.toNat_lt _)]⟩
  | name :: names, weight, used, hnd, hfresh, hstake => by
    rw [List.nodup_cons] at hnd
    have hnew : used.contains name = false := by simpa using hfresh name (by simp)
    -- the rest of the names are fresh for `name :: used` too
    have hfresh' : ∀ n ∈ names, n ∉ name :: used := by
      intro n hn hu
      rcases List.mem_cons.mp hu with rfl | hu
      · exact hnd.1 hn
      · exact hfresh n (List.mem_cons_of_mem _ hn) hu
    obtain ⟨total, htotal, hsum⟩ := quorumWeight_of_nodup committee digest round t
      (weight + committee.stake name) (name :: used) hnd.2 hfresh' fun n hn =>
        hstake n (List.mem_cons_of_mem _ hn)
    refine ⟨total, ?_, ?_⟩
    · rw [quorumWeight, if_neg (by rw [hnew]; exact Bool.false_ne_true), if_neg (hstake name (by simp)), htotal]
    · rw [hsum, UInt32.toNat_add, List.map_cons, List.sum_cons, Committee.weightOf]
      omega

namespace Committee
variable (committee : Committee)

/-- Distinct keys weigh at most the total stake. -/
theorem sum_weightOf_le {names : List PublicKey} (h : names.Nodup) :
    (names.map committee.weightOf).sum ≤ committee.totalStake := by
  have hweight : weight committee.weightOf names.toFinset = (names.map committee.weightOf).sum :=
    List.sum_toFinset _ h
  rw [← hweight, ← committee.weight_inter_members, ← committee.weight_members]
  exact weight_mono _ Finset.inter_subset_right

end Committee

/-! ## What makes a certificate verify -/

section Verify
variable {c : Crypto} {committee : Committee}

/-- The quorum part of `QC::verify` and `TC::verify`: distinct authors, each with stake,
whose stake reaches `quorum_threshold`, pass the loop and the threshold, as long as the
total stake fits in `u32`. -/
theorem quorumWeight_reaches (hfit : committee.totalStake < 2 ^ 32) {names : List PublicKey}
    (hnd : names.Nodup) (hstake : ∀ n ∈ names, committee.stake n ≠ 0)
    (hreach : committee.quorumThreshold.toNat ≤ (names.map committee.weightOf).sum)
    (digest : Digest) (round : Round) (t : String) :
    ∃ total, quorumWeight committee digest round t names 0 [] = .ok total ∧
      total ≥ committee.quorumThreshold := by
  obtain ⟨total, htotal, hsum⟩ :=
    quorumWeight_of_nodup committee digest round t 0 [] hnd (fun _ _ => List.not_mem_nil) hstake
  -- the authors' stake is at most the total, so the `u32` sum did not wrap
  have hbound := committee.sum_weightOf_le hnd
  have hexact : total.toNat = (names.map committee.weightOf).sum := by
    rw [hsum, show (0 : Stake).toNat = 0 from rfl, Nat.zero_add]
    exact Nat.mod_eq_of_lt (by omega)
  exact ⟨total, htotal, UInt32.le_iff_toNat_le.mpr (hexact ▸ hreach)⟩

/-- **A QC verifies** whose authors are distinct, each with stake and a valid signature on
the QC's digest, and whose stake reaches `quorum_threshold`, as long as the total stake
fits in `u32`. -/
theorem QC.verify_of_signed (hfit : committee.totalStake < 2 ^ 32) {qc : QC}
    (hnd : (qc.votes.map Prod.fst).Nodup)
    (hsigned : ∀ p ∈ qc.votes, committee.stake p.1 ≠ 0 ∧ SignatureValid c (qc.digest c) p.1 p.2)
    (hreach : committee.quorumThreshold.toNat ≤
      ((qc.votes.map Prod.fst).map committee.weightOf).sum) :
    qc.verify c committee = .ok () := by
  have hstake : ∀ n ∈ qc.votes.map Prod.fst, committee.stake n ≠ 0 := by
    intro n hn
    obtain ⟨p, hp, rfl⟩ := List.mem_map.mp hn
    exact (hsigned p hp).1
  obtain ⟨total, htotal, hge⟩ :=
    quorumWeight_reaches hfit hnd hstake hreach qc.hash qc.round "QC-verify"
  have hbatch : Signature.verifyBatch c (qc.digest c) qc.votes = .ok () :=
    Signature.verifyBatch_eq_ok.mpr fun p hp => (hsigned p hp).2
  simp [QC.verify, htotal, hge, hbatch, bind, Except.bind, pure, Except.pure]

/-- **A TC verifies** whose authors are distinct, each with stake and a valid signature on
the digest `TC::verify` recomputes for its vote, and whose stake reaches
`quorum_threshold`, as long as the total stake fits in `u32`. -/
theorem TC.verify_of_signed (hfit : committee.totalStake < 2 ^ 32) {tc : TC}
    (hnd : (tc.votes.map Prod.fst).Nodup)
    (hsigned : ∀ v ∈ tc.votes, committee.stake v.1 ≠ 0 ∧
      SignatureValid c (TC.voteDigest c tc.round v.2.2.1 v.2.2.2) v.1 v.2.1)
    (hreach : committee.quorumThreshold.toNat ≤
      ((tc.votes.map Prod.fst).map committee.weightOf).sum) :
    tc.verify c committee = .ok () := by
  have hstake : ∀ n ∈ tc.votes.map Prod.fst, committee.stake n ≠ 0 := by
    intro n hn
    obtain ⟨v, hv, rfl⟩ := List.mem_map.mp hn
    exact (hsigned v hv).1
  obtain ⟨total, htotal, hge⟩ :=
    quorumWeight_reaches hfit hnd hstake hreach Digest.default tc.round "TC-verify"
  have hvotes : TC.verifyVotes c tc.round tc.votes = .ok () :=
    TC.verifyVotes_eq_ok.mpr fun v hv => (hsigned v hv).2
  simp [TC.verify, htotal, hge, hvotes, bind, Except.bind]

end Verify

/-! ## What a maker stores -/

/-- **`QC::digest` hashes what `Vote::digest` hashes**, field for field: a QC formed on a
vote's hash, round and payload size has the digest its voters signed. -/
theorem QC.digest_of_vote (c : Crypto) (vote : Vote) (votes : List (PublicKey × Signature)) :
    (⟨vote.hash, vote.round, vote.payloadSize, votes⟩ : QC).digest c = vote.digest c := rfl

/-- **The digest `TC::verify` recomputes is `Timeout::digest`** of the timeout whose rounds
the TC's vote records. -/
theorem TC.voteDigest_of_timeout (c : Crypto) (timeout : Timeout) :
    TC.voteDigest c timeout.round timeout.highQc.round timeout.highTc.round =
      timeout.digest c := rfl

/-- A maker's bookkeeping: every author once, and `used` holds exactly the authors. -/
structure Ledger (authors used : List PublicKey) : Prop where
  nodup : authors.Nodup
  used_iff : ∀ k, k ∈ used ↔ k ∈ authors

theorem Ledger.empty : Ledger [] [] := ⟨List.nodup_nil, fun _ => Iff.rfl⟩

/-- An author that `used` does not hold is appended to the authors and pushed on `used`. -/
theorem Ledger.append {authors used : List PublicKey} (h : Ledger authors used) {a : PublicKey}
    (ha : a ∉ used) : Ledger (authors ++ [a]) (a :: used) where
  nodup := by
    rw [← List.concat_eq_append]
    exact h.nodup.concat fun hmem => ha ((h.used_iff a).mpr hmem)
  used_iff k := by
    rw [List.mem_cons, h.used_iff, List.mem_append, List.mem_singleton, or_comm]

/-- One more author's stake, added in `u32`, is at most the sum of the numbers. -/
theorem toNat_add_le {w : Stake} {sum : ℕ} (h : w.toNat ≤ sum) (s : Stake) :
    (w + s).toNat ≤ sum + s.toNat := by
  rw [UInt32.toNat_add]
  exact (Nat.mod_le _ _).trans (by omega)

/-- The ledger of a maker's entries, with one more entry by a new author. -/
theorem Ledger.push {β : Type} {votes : List (PublicKey × β)} {used : List PublicKey}
    (h : Ledger (votes.map Prod.fst) used) (e : PublicKey × β) (hfresh : e.1 ∉ used) :
    Ledger ((votes ++ [e]).map Prod.fst) (e.1 :: used) := by
  rw [List.map_append]
  exact h.append hfresh

theorem Committee.sum_weightOf_push (committee : Committee) {β : Type}
    (votes : List (PublicKey × β)) (e : PublicKey × β) :
    (((votes ++ [e]).map Prod.fst).map committee.weightOf).sum =
      ((votes.map Prod.fst).map committee.weightOf).sum + (committee.stake e.1).toNat := by
  simp [Committee.weightOf]

/-- **What `QCMaker::append` does** when it returns: the author was not in `used`; the vote
goes at the end of the votes and the author onto `used`; the weight grows by the author's
stake, and once it reaches the threshold the QC of all the votes is returned and the weight
goes back to 0. -/
theorem QCMaker.append_eq_ok {committee : Committee} {m : QCMaker} {vote : Vote}
    {qc : Option QC} {m' : QCMaker} (h : m.append committee vote = .ok (qc, m')) :
    vote.author ∉ m.used ∧ m'.votes = m.votes ++ [(vote.author, vote.signature)] ∧
      m'.used = vote.author :: m.used ∧
      (m.weight + committee.stake vote.author ≥ committee.quorumThreshold ∧
          qc = some ⟨vote.hash, vote.round, vote.payloadSize, m'.votes⟩ ∧ m'.weight = 0 ∨
        ¬ m.weight + committee.stake vote.author ≥ committee.quorumThreshold ∧ qc = none ∧
          m'.weight = m.weight + committee.stake vote.author) := by
  unfold QCMaker.append at h
  dsimp only at h
  split at h
  · cases h
  · rename_i hfresh
    split at h
    · rename_i hreach
      cases h
      exact ⟨by simpa using hfresh, rfl, rfl, .inl ⟨hreach, rfl, rfl⟩⟩
    · rename_i hreach
      cases h
      exact ⟨by simpa using hfresh, rfl, rfl, .inr ⟨hreach, rfl, rfl⟩⟩

/-- **What `TCMaker::append` does** when it returns: as `QCMaker::append`, the entry being
the author, its signature and the timeout's `high_qc` and `high_tc` rounds, and the TC
being of the timeout's round. -/
theorem TCMaker.append_eq_ok {committee : Committee} {m : TCMaker} {timeout : Timeout}
    {tc : Option TC} {m' : TCMaker} (h : m.append committee timeout = .ok (tc, m')) :
    timeout.author ∉ m.used ∧
      m'.votes = m.votes ++ [(timeout.author, timeout.signature, timeout.highQc.round,
        timeout.highTc.round)] ∧
      m'.used = timeout.author :: m.used ∧
      (m.weight + committee.stake timeout.author ≥ committee.quorumThreshold ∧
          tc = some ⟨timeout.round, m'.votes⟩ ∧ m'.weight = 0 ∨
        ¬ m.weight + committee.stake timeout.author ≥ committee.quorumThreshold ∧ tc = none ∧
          m'.weight = m.weight + committee.stake timeout.author) := by
  unfold TCMaker.append at h
  dsimp only at h
  split at h
  · cases h
  · rename_i hfresh
    split at h
    · rename_i hreach
      cases h
      exact ⟨by simpa using hfresh, rfl, rfl, .inl ⟨hreach, rfl, rfl⟩⟩
    · rename_i hreach
      cases h
      exact ⟨by simpa using hfresh, rfl, rfl, .inr ⟨hreach, rfl, rfl⟩⟩

section Makers
variable (c : Crypto) (committee : Committee)

/-- **What a maker stores**, for entries of any type whose first component is the author:
each author once and in `used`, each with stake and an entry that `valid` accepts, and a
weight at most the authors' stake (equal to it until the first certificate resets the
weight).  `QCMaker` and `TCMaker` keep the same bookkeeping. -/
structure MakerSound {β : Type} (valid : PublicKey × β → Prop) (weight : Stake)
    (votes : List (PublicKey × β)) (used : List PublicKey) : Prop where
  ledger : Ledger (votes.map Prod.fst) used
  signed : ∀ e ∈ votes, committee.stake e.1 ≠ 0 ∧ valid e
  weight_le : weight.toNat ≤ ((votes.map Prod.fst).map committee.weightOf).sum

variable {c committee} {β : Type} {valid : PublicKey × β → Prop} {weight : Stake}
  {votes : List (PublicKey × β)} {used : List PublicKey}

theorem MakerSound.empty : MakerSound committee valid 0 [] [] :=
  ⟨Ledger.empty, nofun, Nat.le_refl 0⟩

/-- The entry of an author with stake, new to the maker, goes at the end of the votes and
its stake onto the weight. -/
theorem MakerSound.push (h : MakerSound committee valid weight votes used) (e : PublicKey × β)
    (hfresh : e.1 ∉ used) (hstake : committee.stake e.1 ≠ 0) (hvalid : valid e) :
    MakerSound committee valid (weight + committee.stake e.1) (votes ++ [e]) (e.1 :: used) where
  ledger := h.ledger.push e hfresh
  signed e' he' := by
    rcases List.mem_append.mp he' with he' | he'
    · exact h.signed e' he'
    · rw [List.mem_singleton] at he'
      subst he'
      exact ⟨hstake, hvalid⟩
  weight_le := by
    rw [committee.sum_weightOf_push]
    exact toNat_add_le h.weight_le _

/-- The weight goes back to 0 after a certificate; the votes stay. -/
theorem MakerSound.reset (h : MakerSound committee valid weight votes used) :
    MakerSound committee valid 0 votes used :=
  ⟨h.ledger, h.signed, Nat.zero_le _⟩

/-- A weight that reaches the threshold is reached by the authors' stake. -/
theorem MakerSound.reaches (h : MakerSound committee valid weight votes used)
    (hreach : weight ≥ committee.quorumThreshold) :
    committee.quorumThreshold.toNat ≤ ((votes.map Prod.fst).map committee.weightOf).sum :=
  (UInt32.le_iff_toNat_le.mp hreach).trans h.weight_le

variable (c committee)

/-- A sound QC maker, for the digest `d` of the votes it is keyed by. -/
def QCMaker.Sound (d : Digest) (m : QCMaker) : Prop :=
  MakerSound committee (fun p => SignatureValid c d p.1 p.2) m.weight m.votes m.used

/-- A sound TC maker, for the round it is keyed by: each signature is valid on the digest
`TC::verify` recomputes from the round and the vote's two rounds. -/
def TCMaker.Sound (round : Round) (m : TCMaker) : Prop :=
  MakerSound committee (fun v => SignatureValid c (TC.voteDigest c round v.2.2.1 v.2.2.2) v.1 v.2.1)
    m.weight m.votes m.used

variable {c committee}

/-- **Appending a verified vote** to a sound maker of its digest keeps the maker sound, and
the QC it may return verifies. -/
theorem QCMaker.Sound.append {d : Digest} {m : QCMaker} (hm : m.Sound c committee d)
    {vote : Vote} (hv : vote.verify c committee = .ok ()) (hd : vote.digest c = d)
    (hfit : committee.totalStake < 2 ^ 32) {qc : Option QC} {m' : QCMaker}
    (h : m.append committee vote = .ok (qc, m')) :
    m'.Sound c committee d ∧ ∀ q ∈ qc, q.verify c committee = .ok () := by
  obtain ⟨hstake, hsig⟩ := Vote.verify_eq_ok.mp hv
  obtain ⟨hfresh, hvotes, hused, hcase⟩ := QCMaker.append_eq_ok h
  have hpush := MakerSound.push hm (vote.author, vote.signature) hfresh hstake (hd ▸ hsig)
  rw [← hvotes, ← hused] at hpush
  unfold QCMaker.Sound
  rcases hcase with ⟨hreach, rfl, hweight⟩ | ⟨-, rfl, hweight⟩
  · -- the threshold is reached: a QC of all the votes, and the weight goes back to 0
    refine ⟨hweight ▸ hpush.reset, fun q hq => ?_⟩
    cases hq
    exact QC.verify_of_signed hfit hpush.ledger.nodup
      (fun p hp => QC.digest_of_vote c vote _ ▸ hd ▸ hpush.signed p hp) (hpush.reaches hreach)
  · exact ⟨hweight ▸ hpush, nofun⟩

/-- **Appending a verified timeout** to a sound maker of its round keeps the maker sound,
and the TC it may return verifies. -/
theorem TCMaker.Sound.append {round : Round} {m : TCMaker} (hm : m.Sound c committee round)
    {timeout : Timeout} (ht : timeout.verify c committee = .ok ()) (hr : timeout.round = round)
    (hfit : committee.totalStake < 2 ^ 32) {tc : Option TC} {m' : TCMaker}
    (h : m.append committee timeout = .ok (tc, m')) :
    m'.Sound c committee round ∧ ∀ t ∈ tc, t.verify c committee = .ok () := by
  subst hr
  obtain ⟨hstake, hsig⟩ := Timeout.signed_of_verify ht
  obtain ⟨hfresh, hvotes, hused, hcase⟩ := TCMaker.append_eq_ok h
  -- the signature on `Timeout::digest` is one on the digest `TC::verify` recomputes
  have hpush := MakerSound.push hm
    (timeout.author, timeout.signature, timeout.highQc.round, timeout.highTc.round)
    hfresh hstake (TC.voteDigest_of_timeout c timeout ▸ hsig)
  rw [← hvotes, ← hused] at hpush
  unfold TCMaker.Sound
  rcases hcase with ⟨hreach, rfl, hweight⟩ | ⟨-, rfl, hweight⟩
  · -- the threshold is reached: a TC of the timeout's round, and the weight goes back to 0
    refine ⟨hweight ▸ hpush.reset, fun t ht => ?_⟩
    cases ht
    exact TC.verify_of_signed hfit hpush.ledger.nodup hpush.signed (hpush.reaches hreach)
  · exact ⟨hweight ▸ hpush, nofun⟩

end Makers

/-! ## The aggregator -/

namespace Aggregator
variable (c : Crypto)

/-- **A sound aggregator**: each QC maker is sound for the digest it is keyed by, each TC
maker for its round. -/
structure Sound (a : Aggregator) : Prop where
  votes : ∀ r d, (a.votesAggregators r d).Sound c a.committee d
  timeouts : ∀ r, (a.timeoutsAggregators r).Sound c a.committee r

theorem sound_new (committee : Committee) : (Aggregator.new committee).Sound c :=
  ⟨fun _ _ => MakerSound.empty, fun _ => MakerSound.empty⟩

variable {c} {a : Aggregator}

/-- `cleanup` puts back fresh makers, which are sound. -/
theorem Sound.cleanup (ha : a.Sound c) (round : Round) : (a.cleanup round).Sound c where
  votes r d := by
    show (if r ≥ round then a.votesAggregators r d else QCMaker.new).Sound c a.committee d
    split
    · exact ha.votes r d
    · exact MakerSound.empty
  timeouts r := by
    show (if r ≥ round then a.timeoutsAggregators r else TCMaker.new).Sound c a.committee r
    split
    · exact ha.timeouts r
    · exact MakerSound.empty

/-- **Adding a verified vote** keeps the aggregator sound, and the QC it may return
verifies. -/
theorem Sound.addVote (ha : a.Sound c) {vote : Vote} (hv : vote.verify c a.committee = .ok ())
    (hfit : a.committee.totalStake < 2 ^ 32) :
    (a.addVote c vote).2.Sound c ∧
      ∀ qc, (a.addVote c vote).1 = .ok (some qc) → qc.verify c a.committee = .ok () := by
  unfold Aggregator.addVote
  dsimp only
  split
  · exact ⟨ha, nofun⟩
  · rename_i qc m hm
    obtain ⟨hsound, hverify⟩ := (ha.votes vote.round (vote.digest c)).append hv rfl hfit hm
    refine ⟨⟨fun r d => ?_, ha.timeouts⟩, fun q hq => hverify q (by cases hq; rfl)⟩
    -- only the maker of the vote's round and digest changed
    by_cases hr : r = vote.round
    · subst hr
      by_cases hd : d = vote.digest c
      · subst hd
        simpa using hsound
      · simpa [Function.update_of_ne hd] using ha.votes _ d
    · simpa [Function.update_of_ne hr] using ha.votes r d

/-- **Adding a verified timeout** keeps the aggregator sound, and the TC it may return
verifies. -/
theorem Sound.addTimeout (ha : a.Sound c) {timeout : Timeout}
    (ht : timeout.verify c a.committee = .ok ()) (hfit : a.committee.totalStake < 2 ^ 32) :
    (a.addTimeout timeout).2.Sound c ∧
      ∀ tc, (a.addTimeout timeout).1 = .ok (some tc) → tc.verify c a.committee = .ok () := by
  unfold Aggregator.addTimeout
  split
  · exact ⟨ha, nofun⟩
  · rename_i tc m hm
    obtain ⟨hsound, hverify⟩ := (ha.timeouts timeout.round).append ht rfl hfit hm
    refine ⟨⟨ha.votes, fun r => ?_⟩, fun t hq => hverify t (by cases hq; rfl)⟩
    by_cases hr : r = timeout.round
    · subst hr
      simpa using hsound
    · simpa [Function.update_of_ne hr] using ha.timeouts r

end Aggregator

/-! ## Every sequence of calls -/

/-- What the core asks of its aggregator: `add_vote`, `add_timeout` and `cleanup`. -/
inductive AggregatorOp where
  | addVote (vote : Vote)
  | addTimeout (timeout : Timeout)
  | cleanup (round : Round)
deriving DecidableEq, Repr

/-- A certificate the aggregator returns. -/
inductive Certificate where
  | qc (q : QC)
  | tc (t : TC)
deriving DecidableEq, Repr

/-- `QC::verify` or `TC::verify`. -/
def Certificate.verify (c : Crypto) (committee : Committee) : Certificate → Except Fault Unit
  | .qc q => q.verify c committee
  | .tc t => t.verify c committee

/-- The vote or timeout of a call passed its own `verify`, as the core checks before it
calls the aggregator. -/
def AggregatorOp.Verified (c : Crypto) (committee : Committee) : AggregatorOp → Prop
  | .addVote vote => vote.verify c committee = .ok ()
  | .addTimeout timeout => timeout.verify c committee = .ok ()
  | .cleanup _ => True

/-- What a call hands back: `Ok(Some(..))`; `Ok(None)` and an `Err` hand back nothing. -/
def returned {α : Type} : Except ConsensusError (Option α) → Option α
  | .ok x => x
  | .error _ => none

theorem eq_of_returned_eq_some {α : Type} {r : Except ConsensusError (Option α)} {x : α}
    (h : returned r = some x) : r = .ok (some x) := by
  cases r with
  | ok y => cases h; rfl
  | error e => cases h

namespace Aggregator
variable (c : Crypto)

/-- One call: the certificate it returns, if any, and the aggregator after it. -/
def apply (a : Aggregator) : AggregatorOp → Option Certificate × Aggregator
  | .addVote vote => ((returned (a.addVote c vote).1).map .qc, (a.addVote c vote).2)
  | .addTimeout timeout =>
    ((returned (a.addTimeout timeout).1).map .tc, (a.addTimeout timeout).2)
  | .cleanup round => (none, a.cleanup round)

/-- The certificates the aggregator returns over a sequence of calls, oldest first. -/
def certificates : Aggregator → List AggregatorOp → List Certificate
  | _, [] => []
  | a, op :: ops => (a.apply c op).1.toList ++ certificates (a.apply c op).2 ops

variable {c}

theorem committee_addVote (a : Aggregator) (vote : Vote) :
    (a.addVote c vote).2.committee = a.committee := by
  unfold addVote
  dsimp only
  split <;> rfl

theorem committee_addTimeout (a : Aggregator) (timeout : Timeout) :
    (a.addTimeout timeout).2.committee = a.committee := by
  unfold addTimeout
  dsimp only
  split <;> rfl

/-- No call changes the committee. -/
theorem committee_apply (a : Aggregator) (op : AggregatorOp) :
    (a.apply c op).2.committee = a.committee := by
  cases op with
  | addVote vote => exact committee_addVote a vote
  | addTimeout timeout => exact committee_addTimeout a timeout
  | cleanup round => rfl

/-- **One call**: a sound aggregator stays sound under a verified call, and the certificate
the call may return verifies. -/
theorem Sound.apply {a : Aggregator} (ha : a.Sound c) {op : AggregatorOp}
    (hop : op.Verified c a.committee) (hfit : a.committee.totalStake < 2 ^ 32) :
    (a.apply c op).2.Sound c ∧ ∀ cert ∈ (a.apply c op).1, cert.verify c a.committee = .ok () := by
  cases op with
  | addVote vote =>
    obtain ⟨hsound, hverify⟩ := ha.addVote hop hfit
    refine ⟨hsound, fun cert hcert => ?_⟩
    obtain ⟨qc, hqc, rfl⟩ := Option.mem_map.mp hcert
    exact hverify qc (eq_of_returned_eq_some hqc)
  | addTimeout timeout =>
    obtain ⟨hsound, hverify⟩ := ha.addTimeout hop hfit
    refine ⟨hsound, fun cert hcert => ?_⟩
    obtain ⟨tc, htc, rfl⟩ := Option.mem_map.mp hcert
    exact hverify tc (eq_of_returned_eq_some htc)
  | cleanup round => exact ⟨ha.cleanup round, nofun⟩

/-- **Every sequence of calls**: from a sound aggregator whose total stake fits in `u32`,
every certificate returned by verified calls verifies; the induction is on the calls, with
`Sound` as the invariant. -/
theorem Sound.certificates_verify {committee : Committee}
    (hfit : committee.totalStake < 2 ^ 32) :
    ∀ {a : Aggregator} {ops : List AggregatorOp}, a.Sound c → a.committee = committee →
      (∀ op ∈ ops, op.Verified c committee) →
      ∀ cert ∈ a.certificates c ops, cert.verify c committee = .ok ()
  | _, [], _, _, _ => nofun
  | a, op :: ops, ha, hcommittee, hops => by
    have hop : op.Verified c a.committee := hcommittee ▸ hops op List.mem_cons_self
    obtain ⟨hsound, hverify⟩ := ha.apply hop (hcommittee ▸ hfit)
    intro cert hcert
    rcases List.mem_append.mp hcert with hcert | hcert
    · exact hcommittee ▸ hverify cert (Option.mem_toList.mp hcert)
    · exact Sound.certificates_verify hfit hsound ((committee_apply a op).trans hcommittee)
        (fun op' hop' => hops op' (List.mem_cons_of_mem _ hop')) cert hcert

end Aggregator

/-- **Every certificate the aggregator hands out verifies**: for every committee whose total
stake fits in `u32`, and every sequence of `add_vote`, `add_timeout` and `cleanup` calls
whose votes and timeouts each passed their own `verify`, every QC returned passes
`QC::verify` and every TC `TC::verify`. -/
theorem aggregator_certificates_verify (c : Crypto) (committee : Committee)
    (hfit : committee.totalStake < 2 ^ 32) (ops : List AggregatorOp)
    (hops : ∀ op ∈ ops, op.Verified c committee) :
    ∀ cert ∈ (Aggregator.new committee).certificates c ops, cert.verify c committee = .ok () :=
  Aggregator.Sound.certificates_verify hfit (Aggregator.sound_new c committee) rfl hops

/-- The votes of the keys of bytes 1, 2 and 4 for the block of round 1, in the committee of
four operators of stake 1 each. -/
def votesOfRoundOneOps : List AggregatorOp :=
  [1, 2, 4].map fun b => .addVote (voteOfRoundOne b)

theorem round_one_votes_certified :
    committeeOfFour.totalStake < 2 ^ 32 ∧
      (∀ op ∈ votesOfRoundOneOps, op.Verified Crypto.sample committeeOfFour) ∧
      ∀ cert ∈ (Aggregator.new committeeOfFour).certificates Crypto.sample votesOfRoundOneOps,
        cert.verify Crypto.sample committeeOfFour = .ok () := by
  have hfit : committeeOfFour.totalStake < 2 ^ 32 := by decide
  have hops : ∀ op ∈ votesOfRoundOneOps, op.Verified Crypto.sample committeeOfFour := by
    simp only [votesOfRoundOneOps, List.map_cons, List.map_nil, List.forall_mem_cons,
      AggregatorOp.Verified]
    exact ⟨by decide +kernel, by decide +kernel, by decide +kernel, fun _ h => nomatch h⟩
  exact ⟨hfit, hops, aggregator_certificates_verify Crypto.sample committeeOfFour hfit _ hops⟩

/-! ## One certificate per maker

After its certificate a maker resets its weight to 0 but keeps its authors in `used`
("Ensures QC is only made once"), so a second certificate would need new authors whose
stake alone reaches the threshold.  With the threshold above half the total stake, as it is
when twice the total fits in `u32`, there is not enough stake left. -/

section Once
variable {committee : Committee} {β : Type} {weight : Stake} {votes : List (PublicKey × β)}
  {used : List PublicKey} {base : ℕ}

variable (committee) in
/-- A maker's weight bookkeeping: its weight and the stake `base` it has already handed
out in a certificate add up to its authors' stake. -/
structure MakerTally (weight : Stake) (votes : List (PublicKey × β)) (used : List PublicKey)
    (base : ℕ) : Prop where
  ledger : Ledger (votes.map Prod.fst) used
  balance : weight.toNat + base = ((votes.map Prod.fst).map committee.weightOf).sum

theorem MakerTally.empty : MakerTally committee (0 : Stake) ([] : List (PublicKey × β)) [] 0 :=
  ⟨Ledger.empty, rfl⟩

/-- A new author's stake, added in `u32`, does not wrap while the total fits. -/
theorem MakerTally.push (h : MakerTally committee weight votes used base) (e : PublicKey × β)
    (hfresh : e.1 ∉ used) (hfit : committee.totalStake < 2 ^ 32) :
    MakerTally committee (weight + committee.stake e.1) (votes ++ [e]) (e.1 :: used) base where
  ledger := h.ledger.push e hfresh
  balance := by
    have hbound := committee.sum_weightOf_le (h.ledger.push e hfresh).nodup
    have hbalance := h.balance
    rw [committee.sum_weightOf_push] at hbound ⊢
    rw [UInt32.toNat_add, Nat.mod_eq_of_lt (by omega)]
    omega

/-- The weight handed out in a certificate joins `base`. -/
theorem MakerTally.reset (h : MakerTally committee weight votes used base) :
    MakerTally committee 0 votes used (weight.toNat + base) :=
  ⟨h.ledger, by rw [← h.balance, show (0 : Stake).toNat = 0 from rfl, Nat.zero_add]⟩

/-- **No second certificate**: once `base` reaches the threshold, the weight cannot, when
twice the total stake fits in `u32`. -/
theorem MakerTally.not_reaches (h : MakerTally committee weight votes used base)
    (hbase : committee.quorumThreshold.toNat ≤ base) (hfit : 2 * committee.totalStake < 2 ^ 32) :
    ¬ weight ≥ committee.quorumThreshold := by
  intro hreach
  have hweight := UInt32.le_iff_toNat_le.mp hreach
  have hthreshold := committee.quorumThreshold_toNat hfit
  have hbound := committee.sum_weightOf_le h.ledger.nodup
  have hbalance := h.balance
  omega

section Append
variable {γ : Type} {e : PublicKey × β} {out : Option γ} {weight' : Stake}
  {votes' : List (PublicKey × β)} {used' : List PublicKey}

/-- One append from a tally, as `QCMaker::append` and `TCMaker::append` both make it: a new
author's entry joins the votes, and either the weight reaches the threshold and is handed
out, or nothing is handed out and the weight grows by the author's stake.  A maker that has
handed out nothing stays so, or hands out its certificate. -/
theorem MakerTally.append_open (h : MakerTally committee weight votes used 0)
    (hfresh : e.1 ∉ used) (hvotes : votes' = votes ++ [e]) (hused : used' = e.1 :: used)
    (hfit : 2 * committee.totalStake < 2 ^ 32)
    (hcase : weight + committee.stake e.1 ≥ committee.quorumThreshold ∧ weight' = 0 ∨
      out = none ∧ weight' = weight + committee.stake e.1) :
    out = none ∧ MakerTally committee weight' votes' used' 0 ∨
      ∃ base, committee.quorumThreshold.toNat ≤ base ∧ MakerTally committee weight' votes' used' base := by
  have hpush := h.push e hfresh (by omega)
  rw [← hvotes, ← hused] at hpush
  rcases hcase with ⟨hreach, rfl⟩ | ⟨rfl, rfl⟩
  · -- the certificate: the weight that reached the threshold is handed out
    exact .inr ⟨_, by simpa using UInt32.le_iff_toNat_le.mp hreach, hpush.reset⟩
  · exact .inl ⟨rfl, hpush⟩

/-- A maker that has handed out its certificate hands out nothing more. -/
theorem MakerTally.append_spent (h : MakerTally committee weight votes used base)
    (hbase : committee.quorumThreshold.toNat ≤ base)
    (hfresh : e.1 ∉ used) (hvotes : votes' = votes ++ [e]) (hused : used' = e.1 :: used)
    (hfit : 2 * committee.totalStake < 2 ^ 32)
    (hcase : weight + committee.stake e.1 ≥ committee.quorumThreshold ∧ weight' = 0 ∨
      out = none ∧ weight' = weight + committee.stake e.1) :
    out = none ∧ MakerTally committee weight' votes' used' base := by
  have hpush := h.push e hfresh (by omega)
  rw [← hvotes, ← hused] at hpush
  rcases hcase with ⟨hreach, -⟩ | ⟨rfl, rfl⟩
  · exact absurd hreach (hpush.not_reaches hbase hfit)
  · exact ⟨rfl, hpush⟩

end Append

variable (committee)

/-- A QC maker that has handed out no QC: its weight is its authors' stake. -/
def QCMaker.Open (m : QCMaker) : Prop := MakerTally committee m.weight m.votes m.used 0

/-- A QC maker that has handed out its QC: the stake handed out reaches the threshold. -/
def QCMaker.Spent (m : QCMaker) : Prop :=
  ∃ base, committee.quorumThreshold.toNat ≤ base ∧ MakerTally committee m.weight m.votes m.used base

/-- A TC maker that has handed out no TC. -/
def TCMaker.Open (m : TCMaker) : Prop := MakerTally committee m.weight m.votes m.used 0

/-- A TC maker that has handed out its TC. -/
def TCMaker.Spent (m : TCMaker) : Prop :=
  ∃ base, committee.quorumThreshold.toNat ≤ base ∧ MakerTally committee m.weight m.votes m.used base

variable {committee}

theorem QCMaker.Open.append {m : QCMaker} (hm : m.Open committee)
    (hfit : 2 * committee.totalStake < 2 ^ 32) {vote : Vote} {qc : Option QC} {m' : QCMaker}
    (h : m.append committee vote = .ok (qc, m')) : qc = none ∧ m'.Open committee ∨ m'.Spent committee := by
  obtain ⟨hfresh, hvotes, hused, hcase⟩ := QCMaker.append_eq_ok h
  exact MakerTally.append_open hm hfresh hvotes hused hfit
    (hcase.imp (fun hreach => ⟨hreach.1, hreach.2.2⟩) (fun hstay => hstay.2))

theorem QCMaker.Spent.append {m : QCMaker} (hm : m.Spent committee)
    (hfit : 2 * committee.totalStake < 2 ^ 32) {vote : Vote} {qc : Option QC} {m' : QCMaker}
    (h : m.append committee vote = .ok (qc, m')) : qc = none ∧ m'.Spent committee := by
  obtain ⟨base, hbase, htally⟩ := hm
  obtain ⟨hfresh, hvotes, hused, hcase⟩ := QCMaker.append_eq_ok h
  obtain ⟨hnone, htally'⟩ := MakerTally.append_spent htally hbase hfresh hvotes hused hfit
    (hcase.imp (fun hreach => ⟨hreach.1, hreach.2.2⟩) (fun hstay => hstay.2))
  exact ⟨hnone, base, hbase, htally'⟩

theorem TCMaker.Open.append {m : TCMaker} (hm : m.Open committee)
    (hfit : 2 * committee.totalStake < 2 ^ 32) {timeout : Timeout} {tc : Option TC}
    {m' : TCMaker} (h : m.append committee timeout = .ok (tc, m')) :
    tc = none ∧ m'.Open committee ∨ m'.Spent committee := by
  obtain ⟨hfresh, hvotes, hused, hcase⟩ := TCMaker.append_eq_ok h
  exact MakerTally.append_open hm hfresh hvotes hused hfit
    (hcase.imp (fun hreach => ⟨hreach.1, hreach.2.2⟩) (fun hstay => hstay.2))

theorem TCMaker.Spent.append {m : TCMaker} (hm : m.Spent committee)
    (hfit : 2 * committee.totalStake < 2 ^ 32) {timeout : Timeout} {tc : Option TC}
    {m' : TCMaker} (h : m.append committee timeout = .ok (tc, m')) :
    tc = none ∧ m'.Spent committee := by
  obtain ⟨base, hbase, htally⟩ := hm
  obtain ⟨hfresh, hvotes, hused, hcase⟩ := TCMaker.append_eq_ok h
  obtain ⟨hnone, htally'⟩ := MakerTally.append_spent htally hbase hfresh hvotes hused hfit
    (hcase.imp (fun hreach => ⟨hreach.1, hreach.2.2⟩) (fun hstay => hstay.2))
  exact ⟨hnone, base, hbase, htally'⟩

/-- **A QC maker hands out at most one QC**, whatever votes it is given and in whatever
order, for every committee whose doubled total stake fits in `u32`. -/
theorem QCMaker.outputs_length_le_one (hfit : 2 * committee.totalStake < 2 ^ 32)
    (votes : List Vote) : (outputs (QCMaker.append committee) QCMaker.new votes).length ≤ 1 :=
  StateInvariant.outputs_length_le_one (fun _ _ _ _ hm h => QCMaker.Open.append hm hfit h)
    (fun _ _ _ _ hm h => QCMaker.Spent.append hm hfit h) MakerTally.empty

/-- **A TC maker hands out at most one TC**, for every committee whose doubled total stake
fits in `u32`. -/
theorem TCMaker.outputs_length_le_one (hfit : 2 * committee.totalStake < 2 ^ 32)
    (timeouts : List Timeout) :
    (outputs (TCMaker.append committee) TCMaker.new timeouts).length ≤ 1 :=
  StateInvariant.outputs_length_le_one (fun _ _ _ _ hm h => TCMaker.Open.append hm hfit h)
    (fun _ _ _ _ hm h => TCMaker.Spent.append hm hfit h) MakerTally.empty

end Once

end SafeStake.Consensus
