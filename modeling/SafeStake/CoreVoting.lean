import SafeStake.Core

/-! # Per-node voting safety

A node may sign a vote for round `r` only while `r` is above its `last_voted_round`,
and signing a vote or a timeout raises `last_voted_round` to that round.  Since
nothing else touches `last_voted_round` and nothing else asks the signature service
for a vote or a timeout, the node's **signing record** — the votes and timeouts it
has had signed, oldest first (`signedRecord`) — keeps two properties over every run
(`VotingSafe`):

* every entry's round is at most `last_voted_round` (`bounded`);
* every vote's round is above the round of everything signed before it
  (`ordered`): votes strictly increase, and no vote follows a timeout of a round as
  high or higher.

The proof is one rule per handler.  Most handlers leave both `last_voted_round` and
the signing record alone (`Frame`); `make_vote` and `local_timeout_round` are the two
that move them, and `makeVote_final` and `localTimeoutRound_final` say exactly how.
The rules for the handlers that do not sign are stated once, for every preorder of the
class `Framing`, since other fields of the core are kept the same way.
Composed along the program structure (`StateInvariant.keeps_bind`), every event of
the loop keeps `Step`: `last_voted_round` does not go down and `VotingSafe` is
preserved (`keeps_handle`), whence the claim for every run (`voting_safety`).
-/

namespace SafeStake.Consensus

open StateInvariant

/-- The round of a signed vote or timeout. -/
def Signed.round : Signed → Round
  | .vote v => v.round
  | .timeout t => t.round

/-- Whether a signed entry is a vote. -/
def Signed.isVote : Signed → Bool
  | .vote _ => true
  | .timeout _ => false

/-- The votes and timeouts the node has had signed, oldest first. -/
def signedRecord (sent : List Output) : List Signed :=
  sent.filterMap fun
    | .signature x => some x
    | _ => none

@[simp] theorem signedRecord_nil : signedRecord [] = [] := rfl

theorem signedRecord_append (l₁ l₂ : List Output) :
    signedRecord (l₁ ++ l₂) = signedRecord l₁ ++ signedRecord l₂ := by
  simp [signedRecord, List.filterMap_append]

@[simp] theorem signedRecord_signature (l : List Output) (x : Signed) :
    signedRecord (l ++ [.signature x]) = signedRecord l ++ [x] := by
  simp [signedRecord]

/-- Outputs other than a signature request leave the signing record alone. -/
theorem signedRecord_append_of_not_signature {l l' : List Output}
    (h : ∀ o ∈ l', ∀ x, o ≠ .signature x) : signedRecord (l ++ l') = signedRecord l := by
  rw [signedRecord_append, List.append_right_eq_self]
  apply List.filterMap_eq_nil_iff.mpr
  intro o ho
  cases o with
  | signature x => exact absurd rfl (h _ ho x)
  | _ => rfl

/-- **Per-node voting safety**, as a property of one state. -/
structure VotingSafe (s : Core) : Prop where
  bounded : ∀ x ∈ signedRecord s.sent, x.round ≤ s.lastVotedRound
  ordered : (signedRecord s.sent).Pairwise fun x y => y.isVote → x.round < y.round

/-- A handler that touches neither `last_voted_round` nor the signing record. -/
def Frame (s s' : Core) : Prop :=
  s'.lastVotedRound = s.lastVotedRound ∧ signedRecord s'.sent = signedRecord s.sent

instance : Std.Refl Frame := ⟨fun _ => ⟨rfl, rfl⟩⟩

instance : IsTrans Core Frame := ⟨fun _ _ _ h₁ h₂ => ⟨h₂.1.trans h₁.1, h₂.2.trans h₁.2⟩⟩

/-- What a handler leaves alone that neither signs nor updates a high certificate. -/
def Quiet (s s' : Core) : Prop :=
  Frame s s' ∧ s'.highQc = s.highQc ∧ s'.highTc = s.highTc

/-- **A preorder that the handlers keep** once every `Quiet` change keeps it and so do the
two `update_high_*` methods: the rules of `StateInvariant` then carry it through every
handler that does not sign, and through every event once the two signing handlers keep
it (`Core.keeps_handle`).  `Frame` and `Step` are two such preorders. -/
class Framing (R : Core → Core → Prop) : Prop extends Std.Refl R, IsTrans Core R where
  quiet : ∀ s s', Quiet s s' → R s s'
  updateHighQc : ∀ qc, Keeps R (Core.updateHighQc qc)
  updateHighTc : ∀ tc, Keeps R (Core.updateHighTc tc)

instance : Framing Frame where
  quiet _ _ h := h.1
  updateHighQc _ := keeps_modify fun _ => by split <;> exact ⟨rfl, rfl⟩
  updateHighTc _ := keeps_modify fun _ => by split <;> exact ⟨rfl, rfl⟩

/-- What every event does: `last_voted_round` does not go down, and `VotingSafe` is
preserved. -/
def Step (s s' : Core) : Prop :=
  s.lastVotedRound ≤ s'.lastVotedRound ∧ Preserves VotingSafe s s'

instance : Std.Refl Step := ⟨fun _ => ⟨UInt64.le_refl _, fun h => h⟩⟩

instance : IsTrans Core Step :=
  ⟨fun _ _ _ h₁ h₂ => ⟨UInt64.le_trans h₁.1 h₂.1, fun h => h₂.2 (h₁.2 h)⟩⟩

theorem Frame.step {s s' : Core} (h : Frame s s') : Step s s' := by
  refine ⟨by rw [h.1]; exact UInt64.le_refl _, fun hs => ⟨?_, ?_⟩⟩
  · rw [h.2, h.1]; exact hs.bounded
  · rw [h.2]; exact hs.ordered

theorem Keeps.step {α : Type} {x : CoreM α} (h : Keeps Frame x) : Keeps Step x :=
  h.mono fun _ _ => Frame.step

instance : Framing Step where
  quiet _ _ h := Frame.step h.1
  updateHighQc qc := Keeps.step (Framing.updateHighQc qc)
  updateHighTc tc := Keeps.step (Framing.updateHighTc tc)

theorem votingSafe_of_sent_nil {s : Core} (h : s.sent = []) : VotingSafe s where
  bounded := by simp [h]
  ordered := by simp [h]

theorem round_le_max_left (a b : Round) : a ≤ max a b := by
  simp [UInt64.le_iff_toNat_le, UInt64.toNat_max]

theorem round_le_max_right (a b : Round) : b ≤ max a b := by
  simp [UInt64.le_iff_toNat_le, UInt64.toNat_max]

/-- **Signing one more entry** keeps `VotingSafe` when `last_voted_round` rises to cover
it and, for a vote, the vote is above the old `last_voted_round`. -/
theorem VotingSafe.sign {s : Core} (hs : VotingSafe s) {x : Signed} {lvr : Round}
    (hle : s.lastVotedRound ≤ lvr) (hx : x.round ≤ lvr)
    (hvote : x.isVote → s.lastVotedRound < x.round) :
    VotingSafe { s with lastVotedRound := lvr, sent := s.sent ++ [.signature x] } where
  bounded y hy := by
    simp only [signedRecord_signature, List.mem_append, List.mem_singleton] at hy
    rcases hy with hy | rfl
    · exact UInt64.le_trans (hs.bounded y hy) hle
    · exact hx
  ordered := by
    simp only [signedRecord_signature]
    refine List.pairwise_append.mpr ⟨hs.ordered, List.pairwise_singleton _ _, ?_⟩
    intro y hy z hz hvz
    rw [List.mem_singleton] at hz
    subst hz
    exact UInt64.lt_of_le_of_lt (hs.bounded y hy) (hvote hvz)

/-! ## The handlers that do not sign

Each lemma holds for every `Framing` preorder; `Frame` is the one the voting proof uses,
`HighRounds` (in `CoreRounds`) another. -/

namespace Core
variable (c : Crypto)

section Framed
variable {R : Core → Core → Prop} [Framing R]

/-- A change of state that is `Quiet` keeps every `Framing` preorder. -/
theorem keeps_quiet {f : Core → Core} (h : ∀ s, Quiet s (f s)) :
    Keeps R (modify f : CoreM PUnit) :=
  keeps_modify fun s => Framing.quiet _ _ (h s)

theorem keeps_send {o : Output} (h : ∀ x, o ≠ .signature x) : Keeps R (send o) :=
  keeps_quiet fun _ => ⟨⟨rfl, signedRecord_append_of_not_signature (by simpa using h)⟩, rfl, rfl⟩

theorem keeps_panic {α : Type} (msg : String) : Keeps R (panic msg : CoreM α) :=
  keeps_throw _

theorem keeps_check (x : Except Fault Unit) : Keeps R (check x) := by
  unfold check
  split
  · exact keeps_pure _
  · exact keeps_throw _

theorem keeps_getLeader (round : Round) : Keeps R (getLeader round) := by
  unfold getLeader
  refine keeps_bind keeps_get fun s => ?_
  split
  · exact keeps_pure _
  · exact keeps_panic _

theorem keeps_storeBlock (block : Block) : Keeps R (storeBlock c block) :=
  keeps_quiet fun _ => ⟨⟨rfl, rfl⟩, rfl, rfl⟩

theorem keeps_syncParentBlock (block : Block) : Keeps R (syncParentBlock block) := by
  unfold syncParentBlock
  refine keeps_bind keeps_get fun s => ?_
  split
  · exact keeps_pure _
  · exact keeps_bind (keeps_send (by simp)) fun _ => keeps_pure _

theorem keeps_getAncestors (block : Block) : Keeps R (getAncestors block) := by
  unfold getAncestors
  refine keeps_bind (keeps_syncParentBlock block) fun b1 => ?_
  split
  · refine keeps_bind (keeps_syncParentBlock _) fun b0 => ?_
    split
    · exact keeps_pure _
    · exact keeps_pure _
  · exact keeps_pure _

theorem keeps_prune (block : Block) : Keeps R (prune c block) :=
  keeps_quiet fun _ => ⟨⟨rfl, rfl⟩, rfl, rfl⟩

theorem keeps_commit (block : Block) : Keeps R (commit c block) := by
  unfold commit
  refine keeps_bind keeps_get fun s => keeps_ite (keeps_pure _) ?_
  refine keeps_bind (keeps_quiet fun _ => ⟨⟨rfl, rfl⟩, rfl, rfl⟩) fun _ => ?_
  refine keeps_bind (keeps_prune c block) fun _ => keeps_quiet fun s => ⟨⟨rfl, ?_⟩, rfl, rfl⟩
  -- every output of the drain is a `commit`
  refine signedRecord_append_of_not_signature fun o ho x => ?_
  obtain ⟨b, -, rfl⟩ := List.mem_map.mp ho
  simp

theorem keeps_advanceRound (round : Round) : Keeps R (advanceRound round) := by
  unfold advanceRound
  exact keeps_bind keeps_get fun _ =>
    keeps_ite (keeps_pure _) (keeps_quiet fun _ => ⟨⟨rfl, rfl⟩, rfl, rfl⟩)

theorem keeps_processQc (qc : QC) : Keeps R (processQc qc) :=
  keeps_bind (keeps_advanceRound _) fun _ => Framing.updateHighQc qc

theorem keeps_processTc (tc : TC) : Keeps R (processTc tc) :=
  keeps_bind (keeps_advanceRound _) fun _ => Framing.updateHighTc tc

theorem keeps_generateProposal (tc : Option TC) : Keeps R (generateProposal tc) :=
  keeps_bind keeps_get fun _ => keeps_send (by simp)

theorem keeps_cleanupProposer (b0 b1 block : Block) :
    Keeps R (cleanupProposer b0 b1 block) :=
  keeps_ite (keeps_send (by simp)) (keeps_pure _)

theorem keeps_mempoolCleanup (round : Round) : Keeps R (mempoolCleanup round) :=
  keeps_bind (keeps_send (by simp)) fun _ => keeps_send (by simp)

theorem keeps_mempoolVerify (block : Block) : Keeps R (mempoolVerify block) := by
  unfold mempoolVerify
  refine keeps_bind keeps_get fun _ => keeps_ite (keeps_pure _) ?_
  exact keeps_bind (keeps_send (by simp)) fun _ =>
    keeps_bind (keeps_send (by simp)) fun _ => keeps_pure _

/-- The leader's proposal after a QC, in either branch of the fast-commit test. -/
theorem keeps_handleVote (vote : Vote) : Keeps R (handleVote c vote) := by
  unfold handleVote
  refine keeps_bind keeps_get fun _ => keeps_ite (keeps_pure _) ?_
  refine keeps_bind keeps_get fun s => keeps_bind (keeps_check _) fun _ => ?_
  refine keeps_bind keeps_get fun s => ?_
  split
  refine keeps_bind (keeps_quiet fun _ => ⟨⟨rfl, rfl⟩, rfl, rfl⟩) fun _ => ?_
  split
  · exact keeps_throw _
  · exact keeps_pure _
  · refine keeps_bind (keeps_processQc _) fun _ => keeps_bind keeps_get fun s => ?_
    refine keeps_bind (keeps_getLeader _) fun leader => keeps_ite (keeps_ite ?_ ?_) (keeps_pure _)
    · refine keeps_bind (keeps_quiet fun _ => ⟨⟨rfl, rfl⟩, rfl, rfl⟩) fun _ => ?_
      refine keeps_bind (keeps_generateProposal _) fun _ => ?_
      exact keeps_ite (keeps_quiet fun _ => ⟨⟨rfl, rfl⟩, rfl, rfl⟩) (keeps_pure _)
    · exact keeps_generateProposal _

theorem keeps_handleTimeout (timeout : Timeout) : Keeps R (handleTimeout c timeout) := by
  unfold handleTimeout
  refine keeps_bind keeps_get fun _ => keeps_ite (keeps_pure _) ?_
  refine keeps_bind keeps_get fun s => keeps_bind (keeps_check _) fun _ => ?_
  refine keeps_bind (keeps_processQc _) fun _ => keeps_bind (keeps_processTc _) fun _ => ?_
  refine keeps_bind keeps_get fun s => ?_
  split
  refine keeps_bind (keeps_quiet fun _ => ⟨⟨rfl, rfl⟩, rfl, rfl⟩) fun _ => ?_
  split
  · exact keeps_throw _
  · exact keeps_pure _
  · refine keeps_bind (keeps_processTc _) fun _ => keeps_bind (keeps_send (by simp)) fun _ => ?_
    refine keeps_bind keeps_get fun s => keeps_bind (keeps_getLeader _) fun leader => ?_
    exact keeps_ite (keeps_generateProposal _) (keeps_pure _)

theorem keeps_handleTc (tc : TC) : Keeps R (handleTc tc) := by
  unfold handleTc
  refine keeps_bind (keeps_processTc _) fun _ => keeps_bind keeps_get fun s => ?_
  exact keeps_bind (keeps_getLeader _) fun _ => keeps_ite (keeps_generateProposal _) (keeps_pure _)

theorem keeps_boot : Keeps R boot := by
  unfold boot
  refine keeps_bind keeps_get fun s => ?_
  exact keeps_bind (keeps_getLeader _) fun _ => keeps_ite (keeps_generateProposal _) (keeps_pure _)

end Framed

/-! ## The two handlers that sign -/

/-- The tail of `make_vote` once both safety rules hold. -/
theorem final_signVote (block : Block) (s : Core) (h : s.lastVotedRound < block.round) :
    final (EStateM.bind (increaseLastVotedRound block.round) fun _ =>
        EStateM.bind (send (.signature (.vote (Vote.new c block s.name s.signatureService))))
          fun _ => pure (some (Vote.new c block s.name s.signatureService))) s =
      { s with
        lastVotedRound := block.round
        sent := s.sent ++ [.signature (.vote (Vote.new c block s.name s.signatureService))] } := by
  have hmax : max s.lastVotedRound block.round = block.round := by
    rw [UInt64.max_def, if_pos (UInt64.le_of_lt h)]
  simp only [final, EStateM.bind, increaseLastVotedRound, send, modify, modifyGet,
    MonadStateOf.modifyGet, EStateM.modifyGet, pure, EStateM.pure, hmax]

/-- **What `make_vote` does to the state**: nothing (it declines, or panics on an empty
TC), or — only for a block above `last_voted_round` — it raises `last_voted_round` to
the block's round and has the vote signed. -/
theorem makeVote_final (block : Block) (s : Core) :
    final (makeVote c block) s = s ∨
      s.lastVotedRound < block.round ∧
      final (makeVote c block) s = { s with
        lastVotedRound := block.round
        sent := s.sent ++ [.signature (.vote (Vote.new c block s.name s.signatureService))] } := by
  unfold makeVote
  simp only [bind, get, getThe, MonadStateOf.get, final_get_bind]
  -- the cases of the block's TC, then of the two safety rules
  split
  · split
    · split
      · exact .inl rfl
      · rename_i h
        have hlt : s.lastVotedRound < block.round := by simp at h; exact h.1
        exact .inr ⟨hlt, final_signVote c block s hlt⟩
    · -- "Empty TC"
      exact .inl rfl
  · split
    · exact .inl rfl
    · rename_i h
      have hlt : s.lastVotedRound < block.round := by simp at h; exact h.1
      exact .inr ⟨hlt, final_signVote c block s hlt⟩

theorem keeps_makeVote (block : Block) : Keeps Step (makeVote c block) := by
  intro s
  rcases makeVote_final c block s with h | ⟨hlt, h⟩
  · rw [h]
    exact Std.Refl.refl s
  · rw [h]
    have hle := UInt64.le_of_lt hlt
    exact ⟨hle, fun hs => hs.sign hle (UInt64.le_refl _) fun _ => hlt⟩

/-- The timeout `local_timeout_round` signs in state `s`. -/
def localTimeout (s : Core) : Timeout :=
  Timeout.new c s.highQc s.highTc s.round s.name s.signatureService

/-- **What `local_timeout_round` does**: raise `last_voted_round` to the current round,
have the timeout signed and broadcast it, then handle it as a received one. -/
theorem localTimeoutRound_final (s : Core) :
    final (localTimeoutRound c) s =
      final (handleTimeout c (localTimeout c s))
        { s with
          lastVotedRound := max s.lastVotedRound s.round
          sent := s.sent ++ [.signature (.timeout (localTimeout c s))] ++
            [.broadcast (.timeout (localTimeout c s))] } := rfl

theorem keeps_localTimeoutRound : Keeps Step (localTimeoutRound c) := by
  intro s
  rw [localTimeoutRound_final]
  have hle := round_le_max_left s.lastVotedRound s.round
  -- signing the timeout, then broadcasting it, then handling it
  let signed : Core := { s with
    lastVotedRound := max s.lastVotedRound s.round
    sent := s.sent ++ [.signature (.timeout (localTimeout c s))] }
  have hsign : Step s signed := ⟨hle, fun hs => hs.sign hle (round_le_max_right _ _) nofun⟩
  have hbroadcast : Frame signed
      { signed with sent := signed.sent ++ [.broadcast (.timeout (localTimeout c s))] } :=
    ⟨rfl, signedRecord_append_of_not_signature (by simp)⟩
  exact trans_of Step (trans_of Step hsign (Frame.step hbroadcast))
    (Keeps.step (keeps_handleTimeout c _) _)

/-! ## Every event

A `Framing` preorder that the two signing handlers keep is kept by every event. -/

section Framed
variable {R : Core → Core → Prop} [Framing R] (hmake : ∀ block, Keeps R (makeVote c block))
include hmake

theorem keeps_processBlock (block : Block) : Keeps R (processBlock c block) := by
  unfold processBlock
  refine keeps_bind (keeps_storeBlock c block) fun _ => ?_
  refine keeps_bind (keeps_getAncestors block) fun ancestors => ?_
  split
  · rename_i b0 b1
    refine keeps_bind (keeps_cleanupProposer b0 b1 block) fun _ => ?_
    extract_lets voteStep
    -- the vote part, which follows the 2-chain commit test on both of its branches
    have hvote : ∀ r, Keeps R (voteStep r) := fun _ => by
      refine keeps_bind keeps_get fun _ => keeps_ite (keeps_pure _) ?_
      refine keeps_bind (hmake block) fun vote => ?_
      split
      · exact keeps_bind (keeps_handleVote c _) fun _ => keeps_send (by simp)
      · exact keeps_pure _
    refine keeps_ite ?_ (hvote ())
    exact keeps_bind (keeps_mempoolCleanup _) fun _ => keeps_bind (keeps_commit c b0) hvote
  · exact keeps_pure _

theorem keeps_handleProposal (block : Block) : Keeps R (handleProposal c block) := by
  unfold handleProposal
  refine keeps_bind (keeps_getLeader _) fun leader => ?_
  extract_lets afterTc afterLeader
  -- the two join points of the `do` block: after the TC, and after the leader test
  have hafterTc : ∀ r, Keeps R (afterTc r) := fun _ =>
    keeps_bind (keeps_mempoolVerify block) fun _ =>
      keeps_ite (keeps_processBlock c hmake block) (keeps_pure _)
  have hafterLeader : ∀ r, Keeps R (afterLeader r) := fun _ => by
    refine keeps_bind keeps_get fun _ => keeps_bind (keeps_check _) fun _ => ?_
    refine keeps_bind (keeps_processQc _) fun _ => ?_
    split
    · exact keeps_bind (keeps_processTc _) hafterTc
    · exact hafterTc ()
  exact keeps_ite (hafterLeader ()) (keeps_bind (keeps_throw _) hafterLeader)

/-- **Every event of the loop keeps a `Framing` preorder that `make_vote` and
`local_timeout_round` keep.** -/
theorem keeps_handle (htimeout : Keeps R (localTimeoutRound c)) (e : Event) :
    Keeps R (handle c e) := by
  cases e with
  | message m =>
    cases m with
    | propose block => exact keeps_handleProposal c hmake block
    | vote vote => exact keeps_handleVote c vote
    | timeout timeout => exact keeps_handleTimeout c timeout
    | tc tc => exact keeps_handleTc tc
    | syncRequest _ _ => exact keeps_panic _
  | loopback block => exact keeps_processBlock c hmake block
  | timer => exact htimeout
  | batchStored d => exact keeps_quiet fun _ => ⟨⟨rfl, rfl⟩, rfl, rfl⟩

end Framed

end Core

/-- **Per-node voting safety.**  Along every run of a core from its spawn, in any
order of events, `last_voted_round` never goes down, every vote and timeout the node
has had signed has a round at most `last_voted_round`, and every vote's round is above
the round of every vote and timeout signed before it. -/
theorem voting_safety (c : Crypto) (name : PublicKey) (committee : Committee) (store : Store)
    (signatureService : Digest → Signature) (before after : List Event) (s₁ s₂ : Core)
    (h₁ : Core.spawn c name committee store signatureService before = some s₁)
    (h₂ : Core.run c after s₁ = some s₂) :
    s₁.lastVotedRound ≤ s₂.lastVotedRound ∧ VotingSafe s₂ := by
  obtain ⟨s₀, h₀, hbefore⟩ := Option.bind_eq_some_iff.mp h₁
  have hsafe₀ : VotingSafe s₀ := by
    rw [← Core.start_eq_some h₀]
    exact (Keeps.step Core.keeps_boot _).2 (votingSafe_of_sent_nil rfl)
  have hevent := Core.keeps_handle c (Core.keeps_makeVote c) (Core.keeps_localTimeoutRound c)
  have hstep₁ : Step s₀ s₁ := Core.run_rel hevent hbefore
  have hstep₂ : Step s₁ s₂ := Core.run_rel hevent h₂
  exact ⟨hstep₂.1, hstep₂.2 (hstep₁.2 hsafe₀)⟩

/-- One authority alone, timing out twice. -/
theorem voting_safety_two_timeouts :
    let key := PublicKey.default
    let committee := Committee.solo key 1
    let sign := Crypto.sampleSigner key
    let s₁ := (Core.spawn Crypto.sample key committee ⟨[], []⟩ sign [.timer]).getD
      (Core.new key committee ⟨[], []⟩ sign)
    let s₂ := (Core.run Crypto.sample [.timer] s₁).getD s₁
    s₁.lastVotedRound ≤ s₂.lastVotedRound ∧ VotingSafe s₂ := by
  intro key committee sign s₁ s₂
  have h₁ : (Core.spawn Crypto.sample key committee ⟨[], []⟩ sign [.timer]).isSome := by
    decide +kernel
  have h₂ : (Core.run Crypto.sample [.timer] s₁).isSome := by
    decide +kernel
  exact voting_safety Crypto.sample key committee ⟨[], []⟩ sign [.timer] [.timer] s₁ s₂
    ((Option.eq_some_of_isSome h₁).trans (congrArg some (Option.get_eq_getD _)))
    ((Option.eq_some_of_isSome h₂).trans (congrArg some (Option.get_eq_getD _)))

end SafeStake.Consensus
