import SafeStake.Node

/-! # What a commit delivers

`Core::commit` walks from the committed block towards the root while
`last_committed_round + 1 < parent.round`, for at most 13 steps, pushing each ancestor
it finds to the front of a deque; it then pushes the committed block to the front too
and drains the deque from the back, sending every block with a payload on `tx_commit`.

What one call delivers lies on one chain: every block it sends is the committed block or
an ancestor of it through the store's parent links (`commit_committed`).  The order is
not the chain's: the walk's first ancestor comes out first, older ones after it, and the
committed block last, so a call with two ancestors or more delivers rounds that go down
and then up (`commit_rounds_three_one_five`).
-/

namespace SafeStake.Consensus

open StateInvariant

/-- One parent link of the store: `get_parent_block` of `b` is `p`. -/
def ParentLink (st : Store) (b p : Block) : Prop := getParentBlock st b = some p

/-- The blocks the core has sent on `tx_commit`, oldest first. -/
def committed (sent : List Output) : List Block :=
  sent.filterMap fun
    | .commit b => some b
    | _ => none

theorem committed_append (l₁ l₂ : List Output) :
    committed (l₁ ++ l₂) = committed l₁ ++ committed l₂ := by
  simp [committed, List.filterMap_append]

@[simp] theorem committed_map_commit (l : List Block) : committed (l.map .commit) = l := by
  induction l with
  | nil => rfl
  | cons b l ih => simp [committed]

/-- Every block the walk collects, from a parent on the chain below `block`, is on that
chain: the walk only ever follows parent links. -/
theorem mem_commitAncestors {st : Store} {lastCommittedRound : Round} {block : Block} :
    ∀ (n : Nat) (parent : Block) (toCommit : List Block),
      Relation.ReflTransGen (ParentLink st) block parent →
      (∀ x ∈ toCommit, Relation.ReflTransGen (ParentLink st) block x) →
      ∀ x ∈ commitAncestors st lastCommittedRound n parent toCommit,
        Relation.ReflTransGen (ParentLink st) block x
  | 0, _, _, _, hacc => hacc
  | n + 1, parent, toCommit, hparent, hacc => by
    simp only [commitAncestors]
    split
    · split
      · rename_i ancestor hlink
        have hancestor : Relation.ReflTransGen (ParentLink st) block ancestor :=
          hparent.tail hlink
        refine mem_commitAncestors n ancestor _ hancestor fun x hx => ?_
        rcases List.mem_cons.mp hx with rfl | hx
        · exact hancestor
        · exact hacc x hx
      · exact hacc
    · exact hacc

namespace Core
variable (c : Crypto)

/-- **What `commit` does**: nothing for a block not above `last_committed_round`;
otherwise it moves `last_committed_round` to the block's round, prunes the store, and
sends the drained deque's blocks that have a payload. -/
theorem commit_final (block : Block) (s : Core) :
    final (commit c block) s =
      if s.lastCommittedRound ≥ block.round then s
      else
        { s with
          lastCommittedRound := block.round
          store := pruneLoop c s.pruneDepth (s.store.blocks.length + 2) 0 block s.store
          sent := s.sent ++
            ((block :: commitAncestors s.store s.lastCommittedRound 13 block []).reverse.filter
              fun b => !b.payload.isEmpty).map .commit } := by
  unfold commit
  simp only [bind, get, getThe, MonadStateOf.get, final_get_bind]
  split <;> rfl

/-- **One commit call delivers one chain**: the blocks it adds to `tx_commit` are the
committed block and ancestors of it, through the parent links of the store as the call
found it. -/
theorem commit_committed (block : Block) (s : Core) :
    ∃ new, committed (final (commit c block) s).sent = committed s.sent ++ new ∧
      ∀ b ∈ new, Relation.ReflTransGen (ParentLink s.store) block b := by
  rw [commit_final]
  split
  · exact ⟨[], by simp, by simp⟩
  · refine ⟨_, by rw [committed_append, committed_map_commit], fun b hb => ?_⟩
    simp only [List.mem_filter, List.mem_reverse, List.mem_cons] at hb
    rcases hb.1 with rfl | hb
    · exact Relation.ReflTransGen.refl
    · exact mem_commitAncestors 13 block [] Relation.ReflTransGen.refl (by simp) b hb

end Core

/-- A committee of one, proposing to itself: five batches are stored; the blocks of
rounds 1, 3, 5, 6 and 7 carry one batch each, the node times out in rounds 2 and 4,
and the empty blocks its proposer makes for those two rounds arrive too late to be
voted for.  The block of round 7 completes the 2-chain `5 ← 6`, and the commit of the
round-5 block walks back through rounds 3 and 1. -/
def commitOrderRun : List NodeEvent :=
  [.core (.batchStored (Digest.ofNat 1)), .core (.batchStored (Digest.ofNat 3)),
   .core (.batchStored (Digest.ofNat 5)), .core (.batchStored (Digest.ofNat 6)),
   .core (.batchStored (Digest.ofNat 7)),
   .digest (Digest.ofNat 1), .proposer, .loopback,
   .core .timer, .proposer, .proposer, .loopback,
   .digest (Digest.ofNat 3), .proposer, .proposer, .loopback,
   .core .timer, .proposer, .proposer, .loopback,
   .digest (Digest.ofNat 5), .proposer, .proposer, .loopback,
   .digest (Digest.ofNat 6), .proposer, .proposer, .loopback,
   .digest (Digest.ofNat 7), .proposer, .proposer, .loopback]

theorem commit_rounds_three_one_five :
    ((Node.spawn PublicKey.default (Committee.solo PublicKey.default 1) ⟨[], []⟩
        (Crypto.sampleSigner PublicKey.default)).bind (Node.run Crypto.sample commitOrderRun)).map
      (fun n => (committed n.core.sent).map Block.round) = some [3, 1, 5] := by
  decide +kernel

end SafeStake.Consensus
