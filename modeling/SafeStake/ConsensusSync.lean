import SafeStake.ConsensusTypes
import SafeStake.StoreClients
import SafeStake.ListIndex

/-! # The consensus synchronizer

`Core::process_block` asks `Synchronizer::get_parent_block` for a block's parent; when the
store lacks it, the block goes on `inner_channel` to the task that `Synchronizer::new`
spawns.  That task keeps `pending`, the digests of the blocks it has a future for, and
`requests`, the parents it has asked for, each with the time of its last request.  A block
whose digest is pending is skipped.  Otherwise its `Synchronizer::waiter` future joins
`waiting`: a `notify_read` of the parent, under a 20 s timeout.  If the parent has no
request yet, a `SyncRequest` goes to the block's author.  The future's outcome decides the
rest:

* `Ok(block)`: the block leaves `pending`, its parent leaves `requests`, and the block
  goes back to the core on `tx_loopback`;
* `Err(StoreReadTimeout)`: the same, except that nothing is sent;
* any other `Err` (the store task has ended) is only logged.

Every 5 s the timer broadcasts a `SyncRequest` again for each request older than
`sync_retry_delay` whose digest is not pending, unless flushing the network times out.

The model runs the task beside the store task and its channel (`StoreChannel`), where any
other client may send any command.  A future sends its `NotifyRead` when first polled
(`SynchronizerEvent.notifyRead`).  `requested` records every `SyncRequest` sent, with the
author it went to, or `none` for a broadcast.

In every state that a run from `spawn` reaches (`Invariant.run`):

* **one future per pending block**: two futures that still wait for blocks of one digest
  are the same future, and the block of every such future is pending
  (`waiting_block_unique`);
* **requests only for blocks that wait**: every outstanding request, and so every retry the
  timer broadcasts, is for the parent of a block whose future has not delivered it or timed
  out (`retries_for_waiting_blocks`);
* **a block comes back only after its parent**: every block sent on `tx_loopback` has its
  parent's `NotifyRead` on the store's channel, answered (`loopback_after_parent_read`).
-/

namespace SafeStake.Consensus

open SafeStake.Store ListIndex

/-! ## The model -/

/-- How a `Synchronizer::waiter` future has completed. -/
inductive SyncOutcome where
  /-- `Ok(block)`: the parent was read -/
  | delivered
  /-- `Err(StoreReadTimeout)`: the 20 s passed first -/
  | timedOut
  /-- another `Err`: the store task had ended -/
  | failed
deriving DecidableEq, Repr

/-- One `Synchronizer::waiter(store, parent, block)` future: the block it delivers, its
`notify_read` of `parent.to_vec()`, and how it completed. -/
structure SyncWaiter where
  block : Block
  read : NotifyReads (List UInt8)
  outcome : Option SyncOutcome
deriving DecidableEq, Repr

/-- The future has neither delivered its block nor timed out. -/
def SyncWaiter.Open (w : SyncWaiter) : Prop := w.outcome = none ∨ w.outcome = some .failed

/-- The task of `Synchronizer::new` and the store: the store task with its channel,
`waiting`, `pending`, `requests`, what has been sent on `tx_loopback`, and the
`SyncRequest`s sent. -/
structure Synchronizer where
  store : StoreChannel (List UInt8) (List UInt8)
  waiting : List SyncWaiter
  pending : List Digest
  requests : List (Digest × Nat)
  loopback : List Block
  requested : List (Digest × Option PublicKey)

/-- What happens next. -/
inductive SynchronizerEvent where
  /-- the task takes `block` from `rx_inner`, at the time `now` -/
  | inner (block : Block) (now : Nat)
  /-- the future `j` is polled first and sends its `NotifyRead` -/
  | notifyRead (j : Nat)
  /-- the future `j` returns `Ok(block)` -/
  | resolved (j : Nat)
  /-- the future `j` returns `Err(StoreReadTimeout)` -/
  | timedOut (j : Nat)
  /-- the future `j` returns another `Err` -/
  | failed (j : Nat)
  /-- the timer fires at `now`; `flushed` is whether the network flushed in time -/
  | timer (now : Nat) (flushed : Bool)
  /-- another client of the store sends a command -/
  | client (cmd : StoreCommand (List UInt8) (List UInt8))
  /-- the store task takes its next command -/
  | store

namespace Synchronizer

section Step

variable (c : Crypto) (committee : Committee) (syncRetryDelay : Nat) (destroyed : Bool)

/-- `Synchronizer::new`, on the store opened on `db`. -/
def spawn (db : List UInt8 → Option (List UInt8)) : Synchronizer :=
  ⟨StoreChannel.new db, [], [], [], [], []⟩

/-- The future `Synchronizer::new` pushes for `block`. -/
def waiterOf (block : Block) : SyncWaiter := ⟨block, ⟨[block.parent.bytes.toList], []⟩, none⟩

/-- The `rx_inner` arm: a block not pending gets its future; its parent, if not requested
yet, is requested from the block's author.  An author outside the committee panics at
`committee.address(&author).expect(..)`. -/
def handleInner (s : Synchronizer) (block : Block) (now : Nat) : Option Synchronizer :=
  if block.digest c ∈ s.pending then some s
  else
    let s' := { s with
      pending := s.pending ++ [block.digest c]
      waiting := s.waiting ++ [waiterOf block] }
    if block.parent ∈ s.requests.map Prod.fst then some s'
    else
      match committee.authorities.lookup block.author with
      | some _ =>
        some { s' with
          requests := s'.requests ++ [(block.parent, now)]
          requested := s'.requested ++ [(block.parent, some block.author)] }
      | none => none

/-- A request is retried: older than `sync_retry_delay`, and its digest not pending. -/
def retries (s : Synchronizer) (now : Nat) (e : Digest × Nat) : Bool :=
  decide (e.2 + syncRetryDelay < now) && !decide (e.1 ∈ s.pending)

/-- The timer arm: once the network has flushed, every request to retry is broadcast and
stamped with `now`. -/
def handleTimer (s : Synchronizer) (now : Nat) (flushed : Bool) : Synchronizer :=
  if flushed then
    { s with
      requests := s.requests.map fun e => if retries syncRetryDelay s now e then (e.1, now) else e
      requested := s.requested ++
        (s.requests.filter (retries syncRetryDelay s now)).map fun e => (e.1, none) }
  else s

/-- One step, `none` when the event cannot happen: a completed future does nothing more. -/
def step (s : Synchronizer) : SynchronizerEvent → Option Synchronizer
  | .inner block now => handleInner c committee s block now
  | .notifyRead j =>
    match s.waiting[j]? with
    | some w =>
      match w.read.next? with
      | some key =>
        if w.outcome = none then
          some { s with
            store := s.store.send (.notifyRead key)
            waiting := s.waiting.set j { w with read := w.read.sent s.store.sent.length } }
        else none
      | none => none
    | none => none
  | .resolved j =>
    match s.waiting[j]? with
    | some w =>
      if w.outcome = none ∧ w.read.joined s.store.task then
        some { s with
          waiting := s.waiting.set j { w with outcome := some .delivered }
          pending := s.pending.filter (· ≠ w.block.digest c)
          requests := s.requests.filter (·.1 ≠ w.block.parent)
          loopback := s.loopback ++ [w.block] }
      else none
    | none => none
  | .timedOut j =>
    match s.waiting[j]? with
    | some w =>
      -- `timeout` polls the `notify_read` first: it fires only while the read is unanswered
      if w.outcome = none ∧ w.read.next? = none ∧ !w.read.joined s.store.task ∧ s.store.task.running then
        some { s with
          waiting := s.waiting.set j { w with outcome := some .timedOut }
          pending := s.pending.filter (· ≠ w.block.digest c)
          requests := s.requests.filter (·.1 ≠ w.block.parent) }
      else none
    | none => none
  | .failed j =>
    match s.waiting[j]? with
    | some w =>
      if w.outcome = none ∧ w.read.failed s.store.task then
        some { s with waiting := s.waiting.set j { w with outcome := some .failed } }
      else none
    | none => none
  | .timer now flushed => some (handleTimer syncRetryDelay s now flushed)
  | .client cmd => some { s with store := s.store.send cmd }
  | .store => some { s with store := s.store.take destroyed }

/-- The task over a list of events; `none` when one of them cannot happen. -/
def run : List SynchronizerEvent → Synchronizer → Option Synchronizer
  | [], s => some s
  | e :: es, s => (step c committee syncRetryDelay destroyed s e).bind (run es)

/-! ## What one step does -/

/-- The effect of a step that happens. -/
inductive Effect (s : Synchronizer) : Synchronizer → Prop
  | skip : Effect s s
  | push (block : Block) (requests : List (Digest × Nat))
      (requested : List (Digest × Option PublicKey)) :
      block.digest c ∉ s.pending →
      (∀ e ∈ requests, e ∈ s.requests ∨ e.1 = block.parent) →
      Effect s { s with
        pending := s.pending ++ [block.digest c]
        waiting := s.waiting ++ [waiterOf block]
        requests := requests
        requested := requested }
  | read {j : Nat} {w : SyncWaiter} {key : List UInt8} :
      s.waiting[j]? = some w → w.read.next? = some key → w.outcome = none →
      Effect s { s with
        store := s.store.send (.notifyRead key)
        waiting := s.waiting.set j { w with read := w.read.sent s.store.sent.length } }
  | deliver {j : Nat} {w : SyncWaiter} : s.waiting[j]? = some w → w.outcome = none →
      w.read.joined s.store.task = true →
      Effect s { s with
        waiting := s.waiting.set j { w with outcome := some .delivered }
        pending := s.pending.filter (· ≠ w.block.digest c)
        requests := s.requests.filter (·.1 ≠ w.block.parent)
        loopback := s.loopback ++ [w.block] }
  | timeout {j : Nat} {w : SyncWaiter} : s.waiting[j]? = some w → w.outcome = none →
      Effect s { s with
        waiting := s.waiting.set j { w with outcome := some .timedOut }
        pending := s.pending.filter (· ≠ w.block.digest c)
        requests := s.requests.filter (·.1 ≠ w.block.parent) }
  | fail {j : Nat} {w : SyncWaiter} : s.waiting[j]? = some w → w.outcome = none →
      Effect s { s with waiting := s.waiting.set j { w with outcome := some .failed } }
  | timer (requests : List (Digest × Nat)) (requested : List (Digest × Option PublicKey)) :
      requests.map Prod.fst = s.requests.map Prod.fst →
      Effect s { s with requests := requests, requested := requested }
  | send (cmd : StoreCommand (List UInt8) (List UInt8)) : Effect s { s with store := s.store.send cmd }
  | take : Effect s { s with store := s.store.take destroyed }

theorem handleInner_effect {s s' : Synchronizer} {block : Block} {now : Nat}
    (h : handleInner c committee s block now = some s') : Effect c destroyed s s' := by
  unfold handleInner at h
  split at h
  · cases h
    exact .skip
  · rename_i hnew
    split at h
    · cases h
      exact .push block s.requests s.requested hnew (fun e he => .inl he)
    · split at h
      · cases h
        refine .push block _ _ hnew fun e he => ?_
        rcases List.mem_append.mp he with he | he
        · exact .inl he
        · exact .inr (by rw [List.mem_singleton.mp he])
      · cases h

theorem handleTimer_effect (s : Synchronizer) (now : Nat) (flushed : Bool) :
    Effect c destroyed s (handleTimer syncRetryDelay s now flushed) := by
  unfold handleTimer
  split
  · refine .timer _ _ ?_
    rw [List.map_map]
    congr 1
    funext e
    simp only [Function.comp_apply]
    split <;> rfl
  · exact .skip

theorem step_effect {s s' : Synchronizer} {e : SynchronizerEvent}
    (h : step c committee syncRetryDelay destroyed s e = some s') : Effect c destroyed s s' := by
  cases e with
  | inner block now => exact handleInner_effect c committee destroyed h
  | notifyRead j =>
    simp only [step] at h
    split at h
    · rename_i w hw
      split at h
      · rename_i key hkey
        split at h
        · rename_i hnone
          cases h
          exact .read hw hkey hnone
        · cases h
      · cases h
    · cases h
  | resolved j =>
    simp only [step] at h
    split at h
    · rename_i w hw
      split at h
      · rename_i hready
        cases h
        exact .deliver hw hready.1 hready.2
      · cases h
    · cases h
  | timedOut j =>
    simp only [step] at h
    split at h
    · rename_i w hw
      split at h
      · rename_i hready
        cases h
        exact .timeout hw hready.1
      · cases h
    · cases h
  | failed j =>
    simp only [step] at h
    split at h
    · rename_i w hw
      split at h
      · rename_i hready
        cases h
        exact .fail hw hready.1
      · cases h
    · cases h
  | timer now flushed =>
    cases h
    exact handleTimer_effect c syncRetryDelay destroyed s now flushed
  | client cmd =>
    cases h
    exact .send cmd
  | store =>
    cases h
    exact .take

/-! ## The invariant -/

theorem SyncWaiter.open_of_outcome {a w : SyncWaiter} (h : a.outcome = w.outcome) (hw : w.Open) :
    a.Open := by
  unfold SyncWaiter.Open at hw ⊢
  rw [h]
  exact hw

/-- The store's channel is `Tracked`; each future's `NotifyRead` is of its block's parent
and stands on the channel at its position; every open future is for a pending block, one
open future per digest; every request is for the parent of a block whose future is open;
every block sent back came from a future that delivered it, whose read is answered. -/
structure Invariant (s : Synchronizer) : Prop where
  store : s.store.Tracked
  reads : ∀ w ∈ s.waiting, w.read.keys = [w.block.parent.bytes.toList] ∧ w.read.OnChannel s.store.sent
  live : ∀ (j : Nat) (w : SyncWaiter), s.waiting[j]? = some w → w.Open → w.block.digest c ∈ s.pending
  unique : ∀ (j j' : Nat) (w w' : SyncWaiter), s.waiting[j]? = some w → s.waiting[j']? = some w' →
    w.Open → w'.Open → w.block.digest c = w'.block.digest c → j = j'
  requests : ∀ e ∈ s.requests, ∃ (k : Nat) (w : SyncWaiter), s.waiting[k]? = some w ∧
    w.block.parent = e.1 ∧ w.Open
  loopback : ∀ b ∈ s.loopback, ∃ (k : Nat) (w : SyncWaiter), s.waiting[k]? = some w ∧
    w.block = b ∧ w.outcome = some .delivered
  delivered : ∀ w ∈ s.waiting, w.outcome = some .delivered → w.read.joined s.store.task = true

theorem Invariant.spawn (db : List UInt8 → Option (List UInt8)) : (spawn db).Invariant c := by
  refine ⟨StoreChannel.Tracked.new db, ?_, ?_, ?_, ?_, ?_, ?_⟩
  · intro w hw
    cases hw
  · intro j w hw
    cases hw
  · intro j j' w w' hw
    cases hw
  · intro e he
    cases he
  · intro b hb
    cases hb
  · intro w hw
    cases hw

/-! ## Answered reads stay answered -/

theorem joined_take {s : StoreChannel (List UInt8) (List UInt8)} {r : NotifyReads (List UInt8)}
    (h : r.joined s.task = true) : r.joined (s.take destroyed).task = true := by
  unfold StoreChannel.take
  split
  · exact h
  · rename_i cmd rest hqueue
    simp only [NotifyReads.joined, Bool.and_eq_true, beq_iff_eq, List.all_eq_true,
      Bool.not_eq_eq_eq_not, Bool.not_true, List.isEmpty_eq_false_iff] at h ⊢
    refine ⟨h.1, fun p hp => ?_⟩
    -- the replies to a command only grow
    have hpre := StoreTask.repliesTo_prefix_step destroyed s.task cmd p
    intro hnil
    rw [hnil] at hpre
    exact h.2 p hp (List.prefix_nil.mp hpre)

/-! ## The invariant over every effect -/

/-- A future replaced by one with the same block and outcome: the lookups of the new list are
those of the old one, as far as blocks and outcomes go. -/
theorem status_of_set {l : List SyncWaiter} {j k : Nat} {w a v : SyncWaiter}
    (hw : l[j]? = some w) (hv : (l.set j a)[k]? = some v) (hblock : a.block = w.block)
    (houtcome : a.outcome = w.outcome) :
    ∃ v₀, l[k]? = some v₀ ∧ v.block = v₀.block ∧ v.outcome = v₀.outcome := by
  rcases getElem?_set_eq_some hv with ⟨rfl, rfl⟩ | ⟨-, hv⟩
  · exact ⟨w, hw, hblock, houtcome⟩
  · exact ⟨v, hv, rfl, rfl⟩

theorem status_to_set {l : List SyncWaiter} {j k : Nat} {w v₀ : SyncWaiter} (a : SyncWaiter)
    (hw : l[j]? = some w) (hblock : a.block = w.block) (houtcome : a.outcome = w.outcome)
    (hv₀ : l[k]? = some v₀) :
    ∃ v, (l.set j a)[k]? = some v ∧ v.block = v₀.block ∧ v.outcome = v₀.outcome := by
  by_cases hjk : j = k
  · subst hjk
    rw [hw] at hv₀
    cases hv₀
    exact ⟨a, List.getElem?_set_self (List.getElem?_eq_some_iff.mp hw).1, hblock, houtcome⟩
  · exact ⟨v₀, by rw [List.getElem?_set_ne hjk]; exact hv₀, rfl, rfl⟩

/-- The future at `j` still waits, so a lookup that gives a future with another outcome is
at another index. -/
theorem ne_of_outcome_ne {l : List SyncWaiter} {j k : Nat} {w v : SyncWaiter}
    (hw : l[j]? = some w) (hv : l[k]? = some v) (hne : v.outcome ≠ w.outcome) : j ≠ k := by
  rintro rfl
  rw [hw] at hv
  cases hv
  exact hne rfl

theorem Invariant.push {s : Synchronizer} (hs : s.Invariant c) {block : Block}
    {requests : List (Digest × Nat)} {requested : List (Digest × Option PublicKey)}
    (hnew : block.digest c ∉ s.pending)
    (hreq : ∀ e ∈ requests, e ∈ s.requests ∨ e.1 = block.parent) :
    ({ s with
        pending := s.pending ++ [block.digest c]
        waiting := s.waiting ++ [waiterOf block]
        requests := requests
        requested := requested } : Synchronizer).Invariant c := by
  -- the new future is the last one, waiting, for a block that was not pending
  have hlast : (s.waiting ++ [waiterOf block])[s.waiting.length]? = some (waiterOf block) :=
    List.getElem?_concat_length
  refine ⟨hs.store, ?_, ?_, ?_, ?_, ?_, ?_⟩
  · intro w hw
    rcases List.mem_append.mp hw with hw | hw
    · exact hs.reads w hw
    · rw [List.mem_singleton.mp hw]
      exact ⟨rfl, Nat.zero_le _, fun i p hp => absurd hp (by simp [waiterOf])⟩
  · intro j w hw hopen
    rcases getElem?_concat_eq_some hw with hw | ⟨-, rfl⟩
    · exact List.mem_append_left _ (hs.live j w hw hopen)
    · exact List.mem_append_right _ (List.mem_singleton_self _)
  · intro j j' w w' hw hw' hopen hopen' hd
    rcases getElem?_concat_eq_some hw with hw | ⟨rfl, rfl⟩ <;>
      rcases getElem?_concat_eq_some hw' with hw' | ⟨rfl, rfl⟩
    · exact hs.unique j j' w w' hw hw' hopen hopen' hd
    · have hold := hs.live j w hw hopen
      rw [hd] at hold
      exact absurd hold hnew
    · have hold := hs.live j' w' hw' hopen'
      rw [← hd] at hold
      exact absurd hold hnew
    · rfl
  · intro e he
    rcases hreq e he with he | he
    · obtain ⟨k, w, hw, hparent, hopen⟩ := hs.requests e he
      exact ⟨k, w, getElem?_append_of_some hw _, hparent, hopen⟩
    · exact ⟨s.waiting.length, waiterOf block, hlast, he.symm, .inl rfl⟩
  · intro b hb
    obtain ⟨k, w, hw, hblock, hdelivered⟩ := hs.loopback b hb
    exact ⟨k, w, getElem?_append_of_some hw _, hblock, hdelivered⟩
  · intro w hw hdelivered
    rcases List.mem_append.mp hw with hw | hw
    · exact hs.delivered w hw hdelivered
    · rw [List.mem_singleton.mp hw] at hdelivered
      cases hdelivered

theorem Invariant.read {s : Synchronizer} (hs : s.Invariant c) {j : Nat} {w : SyncWaiter}
    {key : List UInt8} (hw : s.waiting[j]? = some w) (hkey : w.read.next? = some key)
    (hnone : w.outcome = none) :
    ({ s with
        store := s.store.send (.notifyRead key)
        waiting := s.waiting.set j { w with read := w.read.sent s.store.sent.length } } :
      Synchronizer).Invariant c := by
  refine ⟨hs.store.sendAll _, ?_, ?_, ?_, ?_, ?_, ?_⟩
  · -- the future that sent: one more position, the command's
    intro v hv
    rcases List.mem_or_eq_of_mem_set hv with hv | rfl
    · exact ⟨(hs.reads v hv).1, (hs.reads v hv).2.append _⟩
    · have hr := hs.reads w (List.mem_of_getElem? hw)
      exact ⟨hr.1, hr.2.sent hkey⟩
  · intro k v hv hopen
    obtain ⟨v₀, hv₀, hblock, houtcome⟩ := status_of_set hw hv rfl rfl
    rw [hblock]
    exact hs.live k v₀ hv₀ (SyncWaiter.open_of_outcome houtcome.symm hopen)
  · intro k k' v v' hv hv' hopen hopen' hd
    obtain ⟨v₀, hv₀, hblock, houtcome⟩ := status_of_set hw hv rfl rfl
    obtain ⟨v₀', hv₀', hblock', houtcome'⟩ := status_of_set hw hv' rfl rfl
    rw [hblock, hblock'] at hd
    exact hs.unique k k' v₀ v₀' hv₀ hv₀' (SyncWaiter.open_of_outcome houtcome.symm hopen)
      (SyncWaiter.open_of_outcome houtcome'.symm hopen') hd
  · intro e he
    obtain ⟨k, v₀, hv₀, hparent, hopen⟩ := hs.requests e he
    obtain ⟨v, hv, hblock, houtcome⟩ :=
      status_to_set { w with read := w.read.sent s.store.sent.length } hw rfl rfl hv₀
    exact ⟨k, v, hv, hblock ▸ hparent, SyncWaiter.open_of_outcome houtcome hopen⟩
  · intro b hb
    obtain ⟨k, v₀, hv₀, hb₀, hdelivered⟩ := hs.loopback b hb
    obtain ⟨v, hv, hblock, houtcome⟩ :=
      status_to_set { w with read := w.read.sent s.store.sent.length } hw rfl rfl hv₀
    exact ⟨k, v, hv, hblock.trans hb₀, houtcome.trans hdelivered⟩
  · intro v hv hdelivered
    rcases List.mem_or_eq_of_mem_set hv with hv | rfl
    · exact hs.delivered v hv hdelivered
    · rw [show ({ w with read := w.read.sent s.store.sent.length } : SyncWaiter).outcome = none
        from hnone] at hdelivered
      cases hdelivered

/-- A future that completes other than by failing: it is no longer open, its block leaves
`pending`, and its parent leaves `requests`. -/
theorem Invariant.complete {s : Synchronizer} (hs : s.Invariant c) {j : Nat} {w : SyncWaiter}
    (hw : s.waiting[j]? = some w) (hnone : w.outcome = none) {o : SyncOutcome}
    (hclosed : o ≠ .failed) (hjoined : o = .delivered → w.read.joined s.store.task = true)
    (loopback : List Block)
    (hloopback : ∀ b ∈ loopback, b ∈ s.loopback ∨ (o = .delivered ∧ b = w.block)) :
    ({ s with
        waiting := s.waiting.set j { w with outcome := some o }
        pending := s.pending.filter (· ≠ w.block.digest c)
        requests := s.requests.filter (·.1 ≠ w.block.parent)
        loopback := loopback } : Synchronizer).Invariant c := by
  have hj : j < s.waiting.length := (List.getElem?_eq_some_iff.mp hw).1
  -- the completed future is no longer open
  have hnotopen : ¬({ w with outcome := some o } : SyncWaiter).Open := by
    rintro (h | h)
    · cases h
    · exact hclosed (Option.some.inj h)
  refine ⟨hs.store, ?_, ?_, ?_, ?_, ?_, ?_⟩
  · intro v hv
    rcases List.mem_or_eq_of_mem_set hv with hv | rfl
    · exact hs.reads v hv
    · exact hs.reads w (List.mem_of_getElem? hw)
  · -- another open future has another digest, which stays pending
    intro k v hv hopen
    rcases getElem?_set_eq_some hv with ⟨rfl, rfl⟩ | ⟨hne, hv⟩
    · exact absurd hopen hnotopen
    · have hdigest : v.block.digest c ≠ w.block.digest c :=
        fun hd => hne (hs.unique k j v w hv hw hopen (.inl hnone) hd)
      exact List.mem_filter.mpr ⟨hs.live k v hv hopen, decide_eq_true hdigest⟩
  · intro k k' v v' hv hv' hopen hopen'
    rcases getElem?_set_eq_some hv with ⟨rfl, rfl⟩ | ⟨-, hv⟩
    · exact absurd hopen hnotopen
    rcases getElem?_set_eq_some hv' with ⟨rfl, rfl⟩ | ⟨-, hv'⟩
    · exact absurd hopen' hnotopen
    exact hs.unique k k' v v' hv hv' hopen hopen'
  · -- a request that stays is for another parent, so its future is not this one
    intro e he
    obtain ⟨he, hparent⟩ := List.mem_filter.mp he
    obtain ⟨k, v, hv, hvparent, hopen⟩ := hs.requests e he
    have hjk : j ≠ k := by
      rintro rfl
      rw [hw] at hv
      cases hv
      exact of_decide_eq_true hparent hvparent.symm
    exact ⟨k, v, by rw [List.getElem?_set_ne hjk]; exact hv, hvparent, hopen⟩
  · intro b hb
    rcases hloopback b hb with hb | ⟨rfl, rfl⟩
    · obtain ⟨k, v, hv, hblock, hdelivered⟩ := hs.loopback b hb
      have hjk := ne_of_outcome_ne hw hv (by rw [hdelivered, hnone]; exact Option.some_ne_none _)
      exact ⟨k, v, by rw [List.getElem?_set_ne hjk]; exact hv, hblock, hdelivered⟩
    · exact ⟨j, _, List.getElem?_set_self hj, rfl, rfl⟩
  · intro v hv hdelivered
    rcases List.mem_or_eq_of_mem_set hv with hv | rfl
    · exact hs.delivered v hv hdelivered
    · exact hjoined (Option.some.inj hdelivered)

/-- A future that fails stays open: its block stays pending and its parent requested. -/
theorem Invariant.fail {s : Synchronizer} (hs : s.Invariant c) {j : Nat} {w : SyncWaiter}
    (hw : s.waiting[j]? = some w) (hnone : w.outcome = none) :
    ({ s with waiting := s.waiting.set j { w with outcome := some .failed } } :
      Synchronizer).Invariant c := by
  have hj : j < s.waiting.length := (List.getElem?_eq_some_iff.mp hw).1
  -- every lookup of the new list is an open future of the old one with the same block
  have hback : ∀ (k : Nat) (v : SyncWaiter),
      (s.waiting.set j { w with outcome := some .failed })[k]? = some v →
      v.Open → ∃ v₀ : SyncWaiter, s.waiting[k]? = some v₀ ∧ v₀.block = v.block ∧ v₀.Open := by
    intro k v hv hopen
    rcases getElem?_set_eq_some hv with ⟨rfl, rfl⟩ | ⟨-, hv⟩
    · exact ⟨w, hw, rfl, .inl hnone⟩
    · exact ⟨v, hv, rfl, hopen⟩
  refine ⟨hs.store, ?_, ?_, ?_, ?_, ?_, ?_⟩
  · intro v hv
    rcases List.mem_or_eq_of_mem_set hv with hv | rfl
    · exact hs.reads v hv
    · exact hs.reads w (List.mem_of_getElem? hw)
  · intro k v hv hopen
    obtain ⟨v₀, hv₀, hblock, hopen₀⟩ := hback k v hv hopen
    rw [← hblock]
    exact hs.live k v₀ hv₀ hopen₀
  · intro k k' v v' hv hv' hopen hopen' hd
    obtain ⟨v₀, hv₀, hblock, hopen₀⟩ := hback k v hv hopen
    obtain ⟨v₀', hv₀', hblock', hopen₀'⟩ := hback k' v' hv' hopen'
    rw [← hblock, ← hblock'] at hd
    exact hs.unique k k' v₀ v₀' hv₀ hv₀' hopen₀ hopen₀' hd
  · intro e he
    obtain ⟨k, v, hv, hparent, hopen⟩ := hs.requests e he
    by_cases hjk : j = k
    · subst hjk
      rw [hw] at hv
      cases hv
      exact ⟨j, _, List.getElem?_set_self hj, hparent, .inr rfl⟩
    · exact ⟨k, v, by rw [List.getElem?_set_ne hjk]; exact hv, hparent, hopen⟩
  · intro b hb
    obtain ⟨k, v, hv, hblock, hdelivered⟩ := hs.loopback b hb
    have hjk := ne_of_outcome_ne hw hv (by rw [hdelivered, hnone]; exact Option.some_ne_none _)
    exact ⟨k, v, by rw [List.getElem?_set_ne hjk]; exact hv, hblock, hdelivered⟩
  · intro v hv hdelivered
    rcases List.mem_or_eq_of_mem_set hv with hv | rfl
    · exact hs.delivered v hv hdelivered
    · cases hdelivered

theorem Invariant.timer {s : Synchronizer} (hs : s.Invariant c) {requests : List (Digest × Nat)}
    (hkeys : requests.map Prod.fst = s.requests.map Prod.fst)
    (requested : List (Digest × Option PublicKey)) :
    ({ s with requests := requests, requested := requested } : Synchronizer).Invariant c := by
  refine ⟨hs.store, hs.reads, hs.live, hs.unique, fun e he => ?_, hs.loopback, hs.delivered⟩
  -- a stamped request keeps its digest
  have hmem : e.1 ∈ s.requests.map Prod.fst := hkeys ▸ List.mem_map_of_mem he
  obtain ⟨e₀, he₀, hfst⟩ := List.mem_map.mp hmem
  rw [← hfst]
  exact hs.requests e₀ he₀

theorem Effect.invariant {s s' : Synchronizer} (he : Effect c destroyed s s') (hs : s.Invariant c) :
    s'.Invariant c := by
  cases he with
  | skip => exact hs
  | push block requests requested hnew hreq => exact hs.push c hnew hreq
  | read hw hkey hnone => exact hs.read c hw hkey hnone
  | deliver hw hnone hjoined =>
    exact hs.complete c hw hnone (by decide) (fun _ => hjoined) _ fun b hb => by
      rcases List.mem_append.mp hb with hb | hb
      · exact .inl hb
      · exact .inr ⟨rfl, List.mem_singleton.mp hb⟩
  | timeout hw hnone =>
    exact hs.complete c hw hnone (by decide) (fun h => absurd h (by decide)) _ fun b hb => .inl hb
  | fail hw hnone => exact hs.fail c hw hnone
  | timer requests requested hkeys => exact hs.timer c hkeys requested
  | send cmd =>
    refine ⟨hs.store.sendAll [cmd], fun w hw => ?_, hs.live, hs.unique, hs.requests,
      hs.loopback, hs.delivered⟩
    exact ⟨(hs.reads w hw).1, (hs.reads w hw).2.append _⟩
  | take =>
    refine ⟨hs.store.take destroyed, fun w hw => ?_, hs.live, hs.unique, hs.requests,
      hs.loopback, fun w hw hdelivered => joined_take destroyed (hs.delivered w hw hdelivered)⟩
    rw [StoreChannel.sent_take destroyed]
    exact hs.reads w hw

theorem Invariant.step {s s' : Synchronizer} {e : SynchronizerEvent} (hs : s.Invariant c)
    (h : step c committee syncRetryDelay destroyed s e = some s') : s'.Invariant c :=
  (step_effect c committee syncRetryDelay destroyed h).invariant c destroyed hs

theorem Invariant.run {es : List SynchronizerEvent} :
    ∀ {s s' : Synchronizer}, s.Invariant c →
      run c committee syncRetryDelay destroyed es s = some s' → s'.Invariant c := by
  induction es with
  | nil =>
    intro s s' hs h
    cases h
    exact hs
  | cons e es ih =>
    intro s s' hs h
    obtain ⟨s₁, h₁, h⟩ := Option.bind_eq_some_iff.mp h
    exact ih (hs.step c committee syncRetryDelay destroyed h₁) h

/-! ## Every state a run reaches -/

theorem run_append (es es' : List SynchronizerEvent) (s : Synchronizer) :
    run c committee syncRetryDelay destroyed (es ++ es') s =
      (run c committee syncRetryDelay destroyed es s).bind
        (run c committee syncRetryDelay destroyed es') := by
  induction es generalizing s with
  | nil => rfl
  | cons e es ih =>
    show (step c committee syncRetryDelay destroyed s e).bind
        (run c committee syncRetryDelay destroyed (es ++ es')) =
      ((step c committee syncRetryDelay destroyed s e).bind
        (run c committee syncRetryDelay destroyed es)).bind (run c committee syncRetryDelay destroyed es')
    cases step c committee syncRetryDelay destroyed s e with
    | none => rfl
    | some s' => exact ih s'

/-- A block whose digest is pending is skipped. -/
theorem step_inner_of_pending {s : Synchronizer} {block : Block} (h : block.digest c ∈ s.pending)
    (now : Nat) : step c committee syncRetryDelay destroyed s (.inner block now) = some s := by
  simp only [step, handleInner, if_pos h]

/-- **One open future per pending block.**  In every state a run from `spawn` reaches, two
futures that are open (still waiting, or failed) for blocks of one digest are the same
future, and the block is skipped when it comes again on `rx_inner`. -/
theorem waiting_block_unique {db : List UInt8 → Option (List UInt8)} {es : List SynchronizerEvent}
    {s : Synchronizer} (hs : run c committee syncRetryDelay destroyed es (spawn db) = some s)
    {j j' : Nat} {w w' : SyncWaiter} (hw : s.waiting[j]? = some w) (hw' : s.waiting[j']? = some w')
    (hopen : w.Open) (hopen' : w'.Open) (hd : w.block.digest c = w'.block.digest c) :
    j = j' ∧ ∀ now, step c committee syncRetryDelay destroyed s (.inner w'.block now) = some s := by
  have hinv := (Invariant.spawn c db).run c committee syncRetryDelay destroyed hs
  refine ⟨hinv.unique j j' w w' hw hw' hopen hopen' hd, fun now => ?_⟩
  have hpending := hinv.live j w hw hopen
  rw [hd] at hpending
  exact step_inner_of_pending c committee syncRetryDelay destroyed hpending now

/-- A committee of the genesis block's author alone. -/
def genesisCommittee : Committee := ⟨[(PublicKey.default, ⟨1⟩)], by decide⟩

/-- The task once it has taken the genesis block, whose parent the empty store lacks: one
future, and a request to the author. -/
def genesisSync : Synchronizer :=
  ⟨StoreChannel.new fun _ => none, [waiterOf Block.genesis], [Block.genesis.digest Crypto.sample],
    [(Block.genesis.parent, 0)], [], [(Block.genesis.parent, some PublicKey.default)]⟩

theorem genesisSync_run :
    run Crypto.sample genesisCommittee 10000 false [.inner Block.genesis 0] (spawn fun _ => none) =
      some genesisSync := by
  simp only [run, step, handleInner, spawn, List.not_mem_nil, if_false, List.map_nil]
  rfl

theorem genesis_sync_skipped :
    step Crypto.sample genesisCommittee 10000 false genesisSync (.inner Block.genesis 10001) =
      some genesisSync := by
  have hw : genesisSync.waiting[0]? = some (waiterOf Block.genesis) := rfl
  have hopen : (waiterOf Block.genesis).Open := .inl rfl
  exact (waiting_block_unique Crypto.sample genesisCommittee 10000 false genesisSync_run hw hw
    hopen hopen rfl).2 10001

/-- **A block comes back only after its parent.**  In every state a run from `spawn`
reaches, each block sent on `tx_loopback` has the `NotifyRead` of its parent on the store's
channel, and the store has answered it. -/
theorem loopback_after_parent_read {db : List UInt8 → Option (List UInt8)}
    {es : List SynchronizerEvent} {s : Synchronizer}
    (hs : run c committee syncRetryDelay destroyed es (spawn db) = some s) {b : Block}
    (hb : b ∈ s.loopback) :
    ∃ q, s.store.sent[q]? = some (.notifyRead b.parent.bytes.toList) ∧ s.store.task.repliesTo q ≠ [] := by
  have hinv := (Invariant.spawn c db).run c committee syncRetryDelay destroyed hs
  obtain ⟨k, w, hw, rfl, hdelivered⟩ := hinv.loopback b hb
  have hmem := List.mem_of_getElem? hw
  obtain ⟨hkeys, hon⟩ := hinv.reads w hmem
  have hjoined := hinv.delivered w hmem hdelivered
  simp only [NotifyReads.joined, Bool.and_eq_true, beq_iff_eq, List.all_eq_true,
    Bool.not_eq_eq_eq_not, Bool.not_true, List.isEmpty_eq_false_iff, hkeys,
    List.length_singleton] at hjoined
  -- the one read has sent its command, at the one position
  obtain ⟨q, hq⟩ := List.length_eq_one_iff.mp hjoined.1
  obtain ⟨key, hkey, hcmd⟩ := hon.2 0 q (by rw [hq]; rfl)
  rw [hkeys] at hkey
  cases hkey
  exact ⟨q, hcmd, hjoined.2 q (by rw [hq]; exact List.mem_singleton_self q)⟩

/-- The genesis block is taken, its future sends its `NotifyRead`, the parent is written,
the store takes both commands, and the future returns `Ok(block)`. -/
def genesisReturnedRun : List SynchronizerEvent :=
  [.inner Block.genesis 0, .notifyRead 0, .client (.write Block.genesis.parent.bytes.toList [1]),
    .store, .store, .resolved 0]

theorem genesis_returned_after_read :
    ∃ s, run Crypto.sample genesisCommittee 10000 false genesisReturnedRun (spawn fun _ => none) =
        some s ∧ Block.genesis ∈ s.loopback ∧
      ∃ q, s.store.sent[q]? = some (.notifyRead Block.genesis.parent.bytes.toList) ∧
        s.store.task.repliesTo q ≠ [] := by
  obtain ⟨s, hs⟩ := Option.isSome_iff_exists.mp (show (run Crypto.sample genesisCommittee 10000 false
    genesisReturnedRun (spawn fun _ => none)).isSome = true by decide +kernel)
  have hb : ((run Crypto.sample genesisCommittee 10000 false genesisReturnedRun
      (spawn fun _ => none)).map fun s => decide (Block.genesis ∈ s.loopback)) = some true := by
    decide +kernel
  rw [hs, Option.map_some, Option.some.injEq, decide_eq_true_iff] at hb
  exact ⟨s, hs, hb, loopback_after_parent_read Crypto.sample genesisCommittee 10000 false hs hb⟩

/-! ## A failed future pins its block -/

/-- A failed future never changes again: every step keeps it at its index. -/
theorem Effect.failed_stays {s s' : Synchronizer} (he : Effect c destroyed s s') {k : Nat}
    {w : SyncWaiter} (hw : s.waiting[k]? = some w) (hfailed : w.outcome = some .failed) :
    s'.waiting[k]? = some w := by
  -- the steps that change a future change one that still waits, at another index
  have hother : ∀ {j : Nat} {v : SyncWaiter}, s.waiting[j]? = some v → v.outcome = none → j ≠ k :=
    fun hv hnone => ne_of_outcome_ne hv hw (by rw [hnone, hfailed]; exact Option.some_ne_none _)
  cases he with
  | skip => exact hw
  | push block requests requested => exact getElem?_append_of_some hw _
  | read hv _ hnone =>
    show (s.waiting.set _ _)[k]? = some w
    rw [List.getElem?_set_ne (hother hv hnone)]
    exact hw
  | deliver hv hnone =>
    show (s.waiting.set _ _)[k]? = some w
    rw [List.getElem?_set_ne (hother hv hnone)]
    exact hw
  | timeout hv hnone =>
    show (s.waiting.set _ _)[k]? = some w
    rw [List.getElem?_set_ne (hother hv hnone)]
    exact hw
  | fail hv hnone =>
    show (s.waiting.set _ _)[k]? = some w
    rw [List.getElem?_set_ne (hother hv hnone)]
    exact hw
  | timer => exact hw
  | send => exact hw
  | take => exact hw

theorem failed_stays_run {es : List SynchronizerEvent} :
    ∀ {s s' : Synchronizer}, run c committee syncRetryDelay destroyed es s = some s' →
      ∀ {k : Nat} {w : SyncWaiter}, s.waiting[k]? = some w → w.outcome = some .failed →
        s'.waiting[k]? = some w := by
  induction es with
  | nil =>
    intro s s' h k w hw _
    cases h
    exact hw
  | cons e es ih =>
    intro s s' h k w hw hfailed
    obtain ⟨s₁, h₁, h⟩ := Option.bind_eq_some_iff.mp h
    exact ih h ((step_effect c committee syncRetryDelay destroyed h₁).failed_stays c destroyed hw
      hfailed) hfailed

/-- **A failed future pins its block.**  The `Err` arm that is only logged leaves the block's
digest in `pending`: once a future has failed in a state a run from `spawn` reaches, its
block is skipped whenever it comes again on `rx_inner`, in every later state. -/
theorem failed_block_skipped {db : List UInt8 → Option (List UInt8)} {es es' : List SynchronizerEvent}
    {s s' : Synchronizer} (hs : run c committee syncRetryDelay destroyed es (spawn db) = some s)
    {k : Nat} {w : SyncWaiter} (hw : s.waiting[k]? = some w) (hfailed : w.outcome = some .failed)
    (hs' : run c committee syncRetryDelay destroyed es' s = some s') (now : Nat) :
    step c committee syncRetryDelay destroyed s' (.inner w.block now) = some s' := by
  have hreach : run c committee syncRetryDelay destroyed (es ++ es') (spawn db) = some s' := by
    rw [run_append, hs, Option.bind_some, hs']
  have hinv := (Invariant.spawn c db).run c committee syncRetryDelay destroyed hreach
  have hw' := failed_stays_run c committee syncRetryDelay destroyed hs' hw hfailed
  exact step_inner_of_pending c committee syncRetryDelay destroyed (hinv.live k w hw' (.inr hfailed)) now

/-- The genesis block is taken, then the store task exits before the future sends its
`NotifyRead`, which fails. -/
def genesisFailedRun : List SynchronizerEvent :=
  [.inner Block.genesis 0, .client .exit, .store, .failed 0]

theorem genesis_pinned_after_failure :
    ∃ s, run Crypto.sample genesisCommittee 10000 false genesisFailedRun (spawn fun _ => none) =
        some s ∧ s.waiting[0]? = some { waiterOf Block.genesis with outcome := some .failed } ∧
      ∀ s', run Crypto.sample genesisCommittee 10000 false [.timer 20000 true] s = some s' →
        ∀ now, step Crypto.sample genesisCommittee 10000 false s' (.inner Block.genesis now) =
          some s' := by
  obtain ⟨s, hs⟩ := Option.isSome_iff_exists.mp (show (run Crypto.sample genesisCommittee 10000 false
    genesisFailedRun (spawn fun _ => none)).isSome = true by decide +kernel)
  have hw : ((run Crypto.sample genesisCommittee 10000 false genesisFailedRun
      (spawn fun _ => none)).map fun s => s.waiting[0]?) =
      some (some { waiterOf Block.genesis with outcome := some .failed }) := by
    decide +kernel
  rw [hs, Option.map_some, Option.some.injEq] at hw
  exact ⟨s, hs, hw, fun s' hs' now =>
    failed_block_skipped Crypto.sample genesisCommittee 10000 false hs hw rfl hs' now⟩

/-! ## A waiting block comes back once its parent is written -/

theorem step_notifyRead {s : Synchronizer} {j : Nat} {w : SyncWaiter} {key : List UInt8}
    (hw : s.waiting[j]? = some w) (hkey : w.read.next? = some key) (hnone : w.outcome = none) :
    step c committee syncRetryDelay destroyed s (.notifyRead j) = some { s with
      store := s.store.send (.notifyRead key)
      waiting := s.waiting.set j { w with read := w.read.sent s.store.sent.length } } := by
  simp only [step, hw, hkey, hnone, if_true]

theorem run_clients (cmds : List (StoreCommand (List UInt8) (List UInt8))) (s : Synchronizer) :
    run c committee syncRetryDelay destroyed (cmds.map .client) s =
      some { s with store := s.store.sendAll cmds } := by
  induction cmds generalizing s with
  | nil =>
    show some s = some { s with store := { s.store with sent := s.store.sent ++ [] } }
    rw [List.append_nil]
  | cons cmd cmds ih =>
    show (some { s with store := s.store.send cmd }).bind _ = _
    rw [Option.bind_some, ih]
    simp only [StoreChannel.sendAll, StoreChannel.send, List.append_assoc, List.singleton_append]

theorem run_stores (n : Nat) (s : Synchronizer) :
    run c committee syncRetryDelay destroyed (List.replicate n .store) s =
      some { s with store := (StoreChannel.take destroyed)^[n] s.store } := by
  induction n generalizing s with
  | zero => rfl
  | succ n ih =>
    rw [List.replicate_succ]
    show (some { s with store := s.store.take destroyed }).bind _ = _
    rw [Option.bind_some, ih]
    rfl

/-- The remaining `notify_read` of the future `j` sends its command: only a `NotifyRead`
joins the channel, and nothing changes but the future's positions. -/
theorem run_notifyReads {j : Nat} (u : Nat) :
    ∀ {s : Synchronizer} {w : SyncWaiter}, s.waiting[j]? = some w → w.outcome = none →
      w.read.positions.length + u = w.read.keys.length →
      ∃ s', run c committee syncRetryDelay destroyed (List.replicate u (.notifyRead j)) s = some s' ∧
        s'.store.task = s.store.task ∧ s'.loopback = s.loopback ∧
        (∃ cmds, s'.store.sent = s.store.sent ++ cmds ∧ cmds.length = u ∧
          ∀ cmd ∈ cmds, cmd.keepsRunning) ∧
        ∃ w', s'.waiting[j]? = some w' ∧ w'.outcome = none ∧ w'.block = w.block ∧
          w'.read.keys = w.read.keys ∧ w'.read.positions.length = w'.read.keys.length := by
  induction u with
  | zero =>
    intro s w hw hnone hlen
    refine ⟨s, rfl, rfl, rfl, ⟨[], (List.append_nil _).symm, rfl, ?_⟩, w, hw, hnone, rfl, rfl, hlen⟩
    intro cmd hcmd
    exact absurd hcmd List.not_mem_nil
  | succ u ih =>
    intro s w hw hnone hlen
    -- the next `notify_read` is on the key after the positions sent
    have hlt : w.read.positions.length < w.read.keys.length := by omega
    obtain ⟨key, hkey⟩ : ∃ key, w.read.next? = some key := ⟨_, List.getElem?_eq_getElem hlt⟩
    have hstep := step_notifyRead c committee syncRetryDelay destroyed hw hkey hnone
    have hw₁ : ({ s with
        store := s.store.send (.notifyRead key)
        waiting := s.waiting.set j { w with read := w.read.sent s.store.sent.length } } :
          Synchronizer).waiting[j]? = some { w with read := w.read.sent s.store.sent.length } :=
      List.getElem?_set_self (List.getElem?_eq_some_iff.mp hw).1
    have hnone₁ : ({ w with read := w.read.sent s.store.sent.length } : SyncWaiter).outcome = none :=
      hnone
    obtain ⟨s', hrun, htask, hloop, ⟨cmds, hsent, hlen', hkeep⟩, w', hw', hnone', hblock, hkeys, hall⟩ :=
      ih hw₁ hnone₁
        (by simp only [NotifyReads.sent, List.length_append, List.length_singleton]; omega)
    refine ⟨s', ?_, htask, hloop, ⟨.notifyRead key :: cmds, ?_, ?_, ?_⟩, w', hw', hnone', hblock,
      hkeys, hall⟩
    · rw [List.replicate_succ]
      show (step c committee syncRetryDelay destroyed s (.notifyRead j)).bind _ = _
      rw [hstep, Option.bind_some]
      exact hrun
    · rw [hsent]
      show (s.store.sent ++ [_]) ++ cmds = _
      rw [List.append_assoc, List.singleton_append]
    · rw [List.length_cons, hlen']
    · intro cmd hcmd
      rcases List.mem_cons.mp hcmd with rfl | hcmd
      · rfl
      · exact hkeep cmd hcmd

/-- The events after which the future `j`, waiting for `w`, resolves: its `notify_read`
sends its command if it has not, a `Write` of the parent with `value` is sent, the store
takes every command on its channel, and the future returns `Ok(block)`. -/
def parentWritten (s : Synchronizer) (j : Nat) (w : SyncWaiter) (value : List UInt8) :
    List SynchronizerEvent :=
  List.replicate (w.read.keys.length - w.read.positions.length) (.notifyRead j) ++
    (w.read.keys.map fun key => StoreCommand.write key value).map .client ++
    List.replicate (s.store.queue.length + (w.read.keys.length - w.read.positions.length) +
      w.read.keys.length) .store ++
    [.resolved j]

/-- **A waiting block comes back once its parent is written.**  In every state a run from
`spawn` reaches where the store task runs and no command on its channel ends it, a future
that still waits resolves once a `Write` of the parent is sent, whatever the value: the
block goes on `tx_loopback` and leaves `pending`. -/
theorem waiting_block_returned {db : List UInt8 → Option (List UInt8)} {es : List SynchronizerEvent}
    {s : Synchronizer} (hs : run c committee syncRetryDelay destroyed es (spawn db) = some s)
    (hrun : s.store.task.running) (hkeep : ∀ cmd ∈ s.store.queue, cmd.keepsRunning) {j : Nat}
    {w : SyncWaiter} (hw : s.waiting[j]? = some w) (hnone : w.outcome = none) (value : List UInt8) :
    ∃ s', run c committee syncRetryDelay destroyed (parentWritten s j w value) s = some s' ∧
      s'.loopback = s.loopback ++ [w.block] ∧ w.block.digest c ∉ s'.pending := by
  have hinv := (Invariant.spawn c db).run c committee syncRetryDelay destroyed hs
  have hon := (hinv.reads w (List.mem_of_getElem? hw)).2
  -- first the `notify_read` sends its command, if it has not
  obtain ⟨s₁, h₁, htask, hloop, ⟨cmds, hsent, hcmds, hkeep₁⟩, w₁, hw₁, hnone₁, hblock, hkeys, hall⟩ :=
    run_notifyReads c committee syncRetryDelay destroyed
      (w.read.keys.length - w.read.positions.length) hw hnone (by have := hon.1; omega)
  have hinv₁ := hinv.run c committee syncRetryDelay destroyed h₁
  have hqueue₁ : s₁.store.queue = s.store.queue ++ cmds := by
    show s₁.store.sent.drop s₁.store.task.received = _
    rw [hsent, htask]
    exact List.drop_append_of_le_length hinv.store.received_le
  -- then the `Write` of the parent, and the store takes the whole channel
  have hwrites := run_clients c committee syncRetryDelay destroyed
    (w.read.keys.map fun key => StoreCommand.write key value) s₁
  have hqueue₂ : (s₁.store.sendAll (w.read.keys.map fun key =>
      StoreCommand.write key value)).queue.length =
      s.store.queue.length + (w.read.keys.length - w.read.positions.length) + w.read.keys.length := by
    rw [StoreChannel.queue_sendAll hinv₁.store, hqueue₁, List.length_append, List.length_append,
      List.length_map, hcmds]
  have hjoined := NotifyReads.joined_drain_writes destroyed hinv₁.store (htask ▸ hrun)
    (by
      intro cmd hcmd
      rw [hqueue₁, List.mem_append] at hcmd
      rcases hcmd with hcmd | hcmd
      · exact hkeep cmd hcmd
      · exact hkeep₁ cmd hcmd)
    (hinv₁.reads w₁ (List.mem_of_getElem? hw₁)).2 hall fun _ => value
  rw [hkeys, hqueue₂] at hjoined
  -- last, the future returns `Ok(block)`
  refine ⟨{ s₁ with
      store := (StoreChannel.take destroyed)^[s.store.queue.length +
        (w.read.keys.length - w.read.positions.length) + w.read.keys.length]
        (s₁.store.sendAll (w.read.keys.map fun key => StoreCommand.write key value))
      waiting := s₁.waiting.set j { w₁ with outcome := some .delivered }
      pending := s₁.pending.filter (· ≠ w₁.block.digest c)
      requests := s₁.requests.filter (·.1 ≠ w₁.block.parent)
      loopback := s₁.loopback ++ [w₁.block] }, ?_, by rw [hloop, hblock], ?_⟩
  · rw [parentWritten, run_append, run_append, run_append, h₁, Option.bind_some, hwrites,
      Option.bind_some, run_stores, Option.bind_some]
    simp only [run, step, hw₁, hnone₁, hjoined, and_self, if_true, Option.bind_some]
  · intro hmem
    rw [← hblock] at hmem
    exact of_decide_eq_true (List.mem_filter.mp hmem).2 rfl

theorem genesis_sync_returned :
    ∃ s', run Crypto.sample genesisCommittee 10000 false
        (parentWritten genesisSync 0 (waiterOf Block.genesis) [1]) genesisSync = some s' ∧
      s'.loopback = genesisSync.loopback ++ [Block.genesis] ∧
      Block.genesis.digest Crypto.sample ∉ s'.pending :=
  waiting_block_returned Crypto.sample genesisCommittee 10000 false genesisSync_run rfl
    (by decide) rfl rfl [1]

end Step

end Synchronizer

end SafeStake.Consensus
