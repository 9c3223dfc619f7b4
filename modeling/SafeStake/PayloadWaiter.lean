import SafeStake.ConsensusTypes
import SafeStake.CancelRegistry
import SafeStake.StoreClients

/-! # The payload waiter

`MempoolDriver::verify` reads each digest of a block's payload from the store.  When some
are missing it asks the mempool to synchronize them, hands the block to the `PayloadWaiter`
with `Wait(missing, block)`, and returns `false`; the core handles the block again once the
waiter sends it back on `tx_loopback`.  The waiter keeps `pending`, a map from a block's
digest to its round and to the sender of a cancel channel, and `waiting`, a
`FuturesUnordered` of `PayloadWaiter::waiter` futures, each of which `try_join_all`s one
`notify_read` per missing digest in a `select!` against its cancel channel.  A `Wait` for a
block already pending is skipped; `Cleanup(round)` cancels the blocks of that round and
below; a future that resolves has its block's digest removed from `pending`, and the block
goes on `tx_loopback`.

The model runs the waiter beside the store task and its channel (`StoreChannel`), where any
other client may send any command.  The steps of every future interleave with the loop's
and the store's: each `notify_read` sends its command when the future polls it
(`PayloadWaiterEvent.notifyRead`).  `try_join_all` resolves with `Ok` once every command is
answered, and with `Err` once the store task has ended before that.  When both arms of a
future's `select!` are ready, either may run.  `CancelRegistry` models `pending` with
`waiting`.

In every state that a run from `PayloadWaiter::spawn` reaches (`Invariant.run`):

* **one future waits for each block**: two futures that still wait, for blocks of one
  digest, are the same future, and `pending` holds it with the block's round
  (`live_waiter_unique`);
* **a cleanup cancels its rounds**: after `Cleanup(round)` no future waits for a block of
  that round or below (`cleanup_cancels_waiters`);
* **no waiting block is lost**: while the store runs, once a `Write` of each missing
  digest is sent, whatever the values, the future resolves and its block comes back on
  `tx_loopback` (`waiting_block_delivered`).
-/

namespace SafeStake.Consensus

open SafeStake.Store CancelRegistry

/-- `PayloadWaiterMessage`. -/
inductive PayloadWaiterMessage where
  | wait (missing : List Digest) (block : Block)
  | cleanup (round : Round)
deriving DecidableEq, Repr

/-- What one `PayloadWaiter::waiter` future holds: the block it delivers and its
`notify_read`s, one on `x.to_vec()` for each missing digest `x`. -/
structure PayloadWait where
  block : Block
  reads : NotifyReads (List UInt8)
deriving DecidableEq, Repr

/-- The waiter and the store: the store task with its channel, `pending` with the futures
of `waiting`, and what has been sent on `tx_loopback`. -/
structure PayloadWaiter where
  store : StoreChannel (List UInt8) (List UInt8)
  pending : Registry Digest PayloadWait
  loopback : List Block

/-- What happens next. -/
inductive PayloadWaiterEvent where
  /-- The loop takes a message of the mempool driver. -/
  | message (m : PayloadWaiterMessage)
  /-- Another task sends a command to the store. -/
  | client (cmd : StoreCommand (List UInt8) (List UInt8))
  /-- The store task takes its next command. -/
  | store
  /-- The next `notify_read` of the future `j` sends its command. -/
  | notifyRead (j : Nat)
  /-- The `try_join_all` of the future `j` resolves with `Ok`. -/
  | joined (j : Nat)
  /-- The `try_join_all` of the future `j` resolves with `Err`. -/
  | failed (j : Nat)
  /-- `handler.recv()` of the future `j` returns. -/
  | cancelled (j : Nat)
deriving DecidableEq, Repr

namespace PayloadWaiter

section Step

variable (c : Crypto) (destroyed : Bool)

/-- `PayloadWaiter::spawn`, on the store opened on `db`. -/
def spawn (db : List UInt8 → Option (List UInt8)) : PayloadWaiter :=
  ⟨StoreChannel.new db, Registry.empty, []⟩

/-- The key `pending` has for a future: its block's digest. -/
def keyOf (w : PayloadWait) : Digest := w.block.digest c

/-- The round `pending` has for a future: its block's. -/
def roundOf (w : PayloadWait) : Nat := w.block.round.toNat

/-- A future's next `notify_read` has sent its command at position `p`. -/
def sentRead (p : Nat) (w : PayloadWait) : PayloadWait := { w with reads := w.reads.sent p }

/-- The loop's `match message`. -/
def handleMessage (s : PayloadWaiter) : PayloadWaiterMessage → PayloadWaiter
  | .wait missing block =>
    { s with
      pending := s.pending.register (block.digest c) block.round.toNat
        ⟨block, ⟨missing.map fun x => x.bytes.toList, []⟩⟩ }
  | .cleanup round => { s with pending := s.pending.cleanup round.toNat }

/-- One step, `none` when the event cannot happen: a completed future does nothing more. -/
def step (s : PayloadWaiter) : PayloadWaiterEvent → Option PayloadWaiter
  | .message m => some (handleMessage c s m)
  | .client cmd => some { s with store := s.store.send cmd }
  | .store => some { s with store := s.store.take destroyed }
  | .notifyRead j =>
    match s.pending.waiters[j]? with
    | some w =>
      match w.work.reads.next? with
      | some key =>
        if w.ended then none
        else some { s with
          store := s.store.send (.notifyRead key)
          pending := s.pending.update j (sentRead s.store.sent.length) }
      | none => none
    | none => none
  | .joined j =>
    match s.pending.waiters[j]? with
    | some w =>
      -- `Ok(Some(block))`: `pending.remove(&block.digest())`, then `tx_loopback.send(block)`
      if !w.ended && w.work.reads.joined s.store.task then
        some { s with
          pending := (s.pending.remove (w.work.block.digest c)).finish j
          loopback := s.loopback ++ [w.work.block] }
      else none
    | none => none
  | .failed j =>
    match s.pending.waiters[j]? with
    | some w =>
      -- `Err(e)`: logged; the block's digest stays in `pending`
      if !w.ended && w.work.reads.failed s.store.task then
        some { s with pending := s.pending.finish j }
      else none
    | none => none
  | .cancelled j =>
    match s.pending.waiters[j]? with
    | some w =>
      if !w.ended && w.cancelled then some { s with pending := s.pending.finish j } else none
    | none => none

/-- The system over a list of events; `none` when one of them cannot happen. -/
def run : List PayloadWaiterEvent → PayloadWaiter → Option PayloadWaiter
  | [], s => some s
  | e :: es, s => (step c destroyed s e).bind (run es)

theorem run_append (es es' : List PayloadWaiterEvent) (s : PayloadWaiter) :
    run c destroyed (es ++ es') s = (run c destroyed es s).bind (run c destroyed es') := by
  induction es generalizing s with
  | nil => rfl
  | cons e es ih =>
    show (step c destroyed s e).bind (run c destroyed (es ++ es')) =
      ((step c destroyed s e).bind (run c destroyed es)).bind (run c destroyed es')
    cases step c destroyed s e with
    | none => rfl
    | some s' => exact ih s'

/-! ## What one step does -/

/-- The effect of a step that happens. -/
inductive Effect (s : PayloadWaiter) : PayloadWaiter → Prop
  | message (m : PayloadWaiterMessage) : Effect s (handleMessage c s m)
  | send (cmd : StoreCommand (List UInt8) (List UInt8)) : Effect s { s with store := s.store.send cmd }
  | take : Effect s { s with store := s.store.take destroyed }
  | read {j : Nat} {w : Waiter PayloadWait} {key : List UInt8} :
      s.pending.waiters[j]? = some w → w.work.reads.next? = some key →
      Effect s { s with
        store := s.store.send (.notifyRead key)
        pending := s.pending.update j (sentRead s.store.sent.length) }
  | deliver {j : Nat} {w : Waiter PayloadWait} : s.pending.waiters[j]? = some w →
      Effect s { s with
        pending := (s.pending.remove (w.work.block.digest c)).finish j
        loopback := s.loopback ++ [w.work.block] }
  | finish (j : Nat) : Effect s { s with pending := s.pending.finish j }

theorem step_effect {s s' : PayloadWaiter} {e : PayloadWaiterEvent}
    (h : step c destroyed s e = some s') : Effect c destroyed s s' := by
  cases e with
  | message m =>
    cases h
    exact .message m
  | client cmd =>
    cases h
    exact .send cmd
  | store =>
    cases h
    exact .take
  | notifyRead j =>
    simp only [step] at h
    split at h
    · rename_i w hw
      split at h
      · rename_i key hkey
        split at h
        · cases h
        · cases h
          exact .read hw hkey
      · cases h
    · cases h
  | joined j =>
    simp only [step] at h
    split at h
    · rename_i w hw
      split at h
      · cases h
        exact .deliver hw
      · cases h
    · cases h
  | failed j =>
    simp only [step] at h
    split at h
    · split at h
      · cases h
        exact .finish j
      · cases h
    · cases h
  | cancelled j =>
    simp only [step] at h
    split at h
    · split at h
      · cases h
        exact .finish j
      · cases h
    · cases h

/-! ## The invariant -/

/-- The store's channel is `Tracked`, `pending` is well formed for the blocks' digests and
rounds, and each future's `NotifyRead`s stand on the channel at their positions. -/
structure Invariant (s : PayloadWaiter) : Prop where
  store : s.store.Tracked
  pending : s.pending.WellFormed (keyOf c) roundOf
  reads : ∀ (j : Nat) (w : PayloadWait), s.pending.works[j]? = some w →
    w.reads.OnChannel s.store.sent

theorem Invariant.spawn (db : List UInt8 → Option (List UInt8)) : (spawn db).Invariant c := by
  constructor
  · exact StoreChannel.Tracked.new db
  · exact Registry.WellFormed.empty
  · intro j w hw
    exact absurd hw (by simp [PayloadWaiter.spawn, Registry.works, Registry.empty])

theorem Invariant.handleMessage {s : PayloadWaiter} (hs : s.Invariant c) (m : PayloadWaiterMessage) :
    (handleMessage c s m).Invariant c := by
  cases m with
  | wait missing block =>
    refine ⟨hs.store, hs.pending.register rfl rfl, ?_⟩
    intro j w hw
    -- the new future has sent nothing yet
    rcases Registry.works_register s.pending (block.digest c) block.round.toNat
        ⟨block, ⟨missing.map fun x => x.bytes.toList, []⟩⟩ with hworks | hworks
    · rw [show (PayloadWaiter.handleMessage c s (.wait missing block)).pending.works = _ from hworks] at hw
      exact hs.reads j w hw
    · rw [show (PayloadWaiter.handleMessage c s (.wait missing block)).pending.works = _ from hworks] at hw
      rcases Nat.lt_or_ge j s.pending.works.length with hj | hj
      · rw [List.getElem?_append_left hj] at hw
        exact hs.reads j w hw
      · rw [List.getElem?_append_right hj, List.getElem?_singleton] at hw
        split at hw
        · cases hw
          exact ⟨Nat.zero_le _, fun i p hp => absurd hp (by simp)⟩
        · cases hw
  | cleanup round =>
    refine ⟨hs.store, hs.pending.cleanup round.toNat, ?_⟩
    intro j w hw
    rw [show (PayloadWaiter.handleMessage c s (.cleanup round)).pending.works = _ from
      Registry.works_cleanup s.pending round.toNat] at hw
    exact hs.reads j w hw

theorem Effect.invariant {s s' : PayloadWaiter} (he : Effect c destroyed s s') (hs : s.Invariant c) :
    s'.Invariant c := by
  cases he with
  | message m => exact hs.handleMessage c m
  | send cmd =>
    refine ⟨hs.store.sendAll [cmd], hs.pending, fun j w hw => ?_⟩
    exact (hs.reads j w hw).append [cmd]
  | take =>
    refine ⟨hs.store.take destroyed, hs.pending, fun j w hw => ?_⟩
    rw [StoreChannel.sent_take destroyed]
    exact hs.reads j w hw
  | @read j w key hw hkey =>
    refine ⟨hs.store.sendAll _, hs.pending.update j (fun _ => rfl) (fun _ => rfl), ?_⟩
    intro i w' hw'
    rw [Registry.works_update, List.getElem?_modify] at hw'
    by_cases hji : j = i
    · -- the future that sent: one more position, the command's
      subst hji
      rw [Registry.getElem?_works, hw] at hw'
      obtain rfl : sentRead s.store.sent.length w.work = w' := Option.some.inj (by simpa using hw')
      have hr := hs.reads j w.work (by rw [Registry.getElem?_works, hw]; rfl)
      exact hr.sent hkey
    · simp only [hji, if_false, id_map'] at hw'
      exact (hs.reads i w' hw').append _
  | @deliver j w hw =>
    refine ⟨hs.store, (hs.pending.remove _).finish j, fun i w' hw' => ?_⟩
    rw [show ((s.pending.remove (w.work.block.digest c)).finish j).works = _ from
      (Registry.works_finish _ j).trans (Registry.works_remove _ _)] at hw'
    exact hs.reads i w' hw'
  | finish j =>
    refine ⟨hs.store, hs.pending.finish j, fun i w' hw' => ?_⟩
    rw [show (s.pending.finish j).works = _ from Registry.works_finish _ j] at hw'
    exact hs.reads i w' hw'

theorem Invariant.step {s s' : PayloadWaiter} {e : PayloadWaiterEvent} (hs : s.Invariant c)
    (h : step c destroyed s e = some s') : s'.Invariant c :=
  (step_effect c destroyed h).invariant c destroyed hs

theorem Invariant.run {es : List PayloadWaiterEvent} :
    ∀ {s s' : PayloadWaiter}, s.Invariant c → run c destroyed es s = some s' → s'.Invariant c := by
  induction es with
  | nil =>
    intro s s' hs h
    cases h
    exact hs
  | cons e es ih =>
    intro s s' hs h
    obtain ⟨s₁, h₁, h⟩ := Option.bind_eq_some_iff.mp h
    exact ih (hs.step c destroyed h₁) h

end Step

/-! ## One future for each block, and cleanups -/

section Properties

variable {c : Crypto} {destroyed : Bool}

/-- **One future waits for each block.**  In every state a run reaches, two futures that
still wait (neither cancelled nor resolved), for blocks of one digest, are the same future,
and `pending` maps the digest to it and to its block's round. -/
theorem live_waiter_unique {db : List UInt8 → Option (List UInt8)} {es : List PayloadWaiterEvent}
    {s : PayloadWaiter} (hs : run c destroyed es (spawn db) = some s) {j j' : Nat}
    {w w' : Waiter PayloadWait} (hw : s.pending.waiters[j]? = some w)
    (hw' : s.pending.waiters[j']? = some w') (hlive : w.Live) (hlive' : w'.Live)
    (hdigest : w.work.block.digest c = w'.work.block.digest c) :
    j = j' ∧ (w.work.block.digest c, w.work.block.round.toNat, j) ∈ s.pending.entries := by
  have hinv := (Invariant.spawn c db).run c destroyed hs
  exact ⟨hinv.pending.live_eq hw hw' hlive hlive' hdigest, hinv.pending.live j w hw hlive⟩

/-- The waiter after `Wait([0; 32], genesis)`, on an empty store. -/
def genesisWait : PayloadWaiter :=
  handleMessage Crypto.sample (spawn fun _ => none) (.wait [Digest.default] Block.genesis)

/-- The future `genesisWait` pushes: the genesis block, waiting for one digest. -/
def genesisFuture : Waiter PayloadWait :=
  ⟨⟨Block.genesis, ⟨[Digest.default.bytes.toList], []⟩⟩, false, false⟩

theorem genesis_wait_pending :
    0 = 0 ∧ (Block.genesis.digest Crypto.sample, Block.genesis.round.toNat, 0) ∈
      genesisWait.pending.entries := by
  have hrun : run Crypto.sample false [.message (.wait [Digest.default] Block.genesis)]
      (spawn fun _ => none) = some genesisWait := rfl
  have hw : genesisWait.pending.waiters[0]? = some genesisFuture := rfl
  have hlive : genesisFuture.Live := by decide
  have h := live_waiter_unique hrun hw hw hlive hlive rfl
  exact h

/-- **A cleanup cancels its rounds.**  In every state a run reaches, once the loop has
handled `Cleanup(round)`, every future for a block of that round or below has seen its
cancel or has resolved. -/
theorem cleanup_cancels_waiters {db : List UInt8 → Option (List UInt8)}
    {es : List PayloadWaiterEvent} {s : PayloadWaiter} (hs : run c destroyed es (spawn db) = some s)
    (round : Round) {j : Nat} {w : Waiter PayloadWait}
    (hw : (handleMessage c s (.cleanup round)).pending.waiters[j]? = some w)
    (hround : w.work.block.round ≤ round) :
    w.cancelled = true ∨ w.ended = true := by
  have hinv := (Invariant.spawn c db).run c destroyed hs
  have hnot := hinv.pending.not_live_cleanup hw hround
  unfold Waiter.Live at hnot
  cases hc : w.cancelled <;> cases he : w.ended <;> simp_all

theorem cleanup_genesis_cancelled :
    ({ genesisFuture with cancelled := true } : Waiter PayloadWait).cancelled = true ∨
      ({ genesisFuture with cancelled := true } : Waiter PayloadWait).ended = true := by
  have hrun : run Crypto.sample false [.message (.wait [Digest.default] Block.genesis)]
      (spawn fun _ => none) = some genesisWait := rfl
  have hw : (handleMessage Crypto.sample genesisWait (.cleanup 0)).pending.waiters[0]? =
      some { genesisFuture with cancelled := true } := rfl
  have hround : ({ genesisFuture with cancelled := true } : Waiter PayloadWait).work.block.round ≤ 0 :=
    by decide
  exact cleanup_cancels_waiters hrun 0 hw hround

end Properties

/-! ## A waiting block comes back -/

section Delivery

variable (c : Crypto) (destroyed : Bool)

theorem run_clients (cmds : List (StoreCommand (List UInt8) (List UInt8))) (s : PayloadWaiter) :
    run c destroyed (cmds.map .client) s = some { s with store := s.store.sendAll cmds } := by
  induction cmds generalizing s with
  | nil =>
    show some s = some { s with store := { s.store with sent := s.store.sent ++ [] } }
    rw [List.append_nil]
  | cons cmd cmds ih =>
    show (some { s with store := s.store.send cmd }).bind _ = _
    rw [Option.bind_some, ih]
    simp only [StoreChannel.sendAll, StoreChannel.send, List.append_assoc, List.singleton_append]

theorem run_stores (n : Nat) (s : PayloadWaiter) :
    run c destroyed (List.replicate n .store) s =
      some { s with store := (StoreChannel.take destroyed)^[n] s.store } := by
  induction n generalizing s with
  | zero => rfl
  | succ n ih =>
    rw [List.replicate_succ]
    show (some { s with store := s.store.take destroyed }).bind _ = _
    rw [Option.bind_some, ih]
    rfl

/-- The remaining `notify_read`s of the future `j` send their commands one after the other:
only `NotifyRead`s join the channel, and nothing changes but the future's positions. -/
theorem run_notifyReads {j : Nat} (u : Nat) :
    ∀ {s : PayloadWaiter} {w : Waiter PayloadWait}, s.Invariant c → s.pending.waiters[j]? = some w →
      w.ended = false → w.work.reads.positions.length + u = w.work.reads.keys.length →
      ∃ s', run c destroyed (List.replicate u (.notifyRead j)) s = some s' ∧
        s'.store.task = s.store.task ∧ s'.loopback = s.loopback ∧
        (∃ cmds, s'.store.sent = s.store.sent ++ cmds ∧ cmds.length = u ∧
          ∀ cmd ∈ cmds, cmd.keepsRunning) ∧
        ∃ w', s'.pending.waiters[j]? = some w' ∧ w'.ended = false ∧ w'.work.block = w.work.block ∧
          w'.work.reads.keys = w.work.reads.keys ∧
          w'.work.reads.positions.length = w'.work.reads.keys.length := by
  induction u with
  | zero =>
    intro s w _ hw hended hlen
    refine ⟨s, rfl, rfl, rfl, ⟨[], (List.append_nil _).symm, rfl, ?_⟩, w, hw, hended, rfl, rfl, hlen⟩
    intro cmd hcmd
    exact absurd hcmd List.not_mem_nil
  | succ u ih =>
    intro s w hs hw hended hlen
    -- the next `notify_read` is on the key after the positions sent
    have hlt : w.work.reads.positions.length < w.work.reads.keys.length := by omega
    obtain ⟨key, hkey⟩ : ∃ key, w.work.reads.next? = some key := ⟨_, List.getElem?_eq_getElem hlt⟩
    have hstep : step c destroyed s (.notifyRead j) = some { s with
        store := s.store.send (.notifyRead key)
        pending := s.pending.update j (sentRead s.store.sent.length) } := by
      simp only [step, hw, hkey, hended, Bool.false_eq_true, if_false]
    have hw₁ : (s.pending.update j (sentRead s.store.sent.length)).waiters[j]? =
        some { w with work := sentRead s.store.sent.length w.work } := by
      rw [Registry.getElem?_update, hw, Option.map_some, if_pos rfl]
    obtain ⟨s', hrun, htask, hloop, ⟨cmds, hsent, hlen', hkeep⟩, w', hw', hended', hblock, hkeys, hall⟩ :=
      ih (hs.step c destroyed hstep) hw₁ hended
        (by simp only [sentRead, NotifyReads.sent, List.length_append, List.length_singleton]; omega)
    refine ⟨s', ?_, htask, hloop, ⟨.notifyRead key :: cmds, ?_, ?_, ?_⟩, w', hw', hended', hblock, hkeys, hall⟩
    · rw [List.replicate_succ]
      show (step c destroyed s (.notifyRead j)).bind _ = _
      rw [hstep, Option.bind_some]
      exact hrun
    · rw [hsent]
      show (s.store.sent ++ [_]) ++ cmds = _
      rw [List.append_assoc, List.singleton_append]
    · rw [List.length_cons, hlen']
    · intro cmd hcmd
      rcases List.mem_cons.mp hcmd with rfl | hcmd
      · rfl
      · exact hkeep cmd hcmd

/-- The events after which the future `j`, waiting for `w`, resolves: its remaining
`notify_read`s send their commands, a `Write` of each missing digest is sent with the value
`value` gives it, the store takes every command on its channel, and `try_join_all` resolves. -/
def wakeUp (s : PayloadWaiter) (j : Nat) (w : PayloadWait) (value : List UInt8 → List UInt8) :
    List PayloadWaiterEvent :=
  List.replicate (w.reads.keys.length - w.reads.positions.length) (.notifyRead j) ++
    (w.reads.keys.map fun key => StoreCommand.write key (value key)).map .client ++
    List.replicate (s.store.queue.length + (w.reads.keys.length - w.reads.positions.length) +
      w.reads.keys.length) .store ++
    [.joined j]

/-- **No waiting block is lost.**  In every state a run reaches where the store task runs and
no command on its channel ends it, a future that still waits resolves once a `Write` of each
of its block's missing digests is sent, whatever the values: after its `notify_read`s have
sent their commands and the store has taken every command, `try_join_all` resolves with
`Ok`, and the block goes on `tx_loopback`. -/
theorem waiting_block_delivered {db : List UInt8 → Option (List UInt8)}
    {es : List PayloadWaiterEvent} {s : PayloadWaiter} (hs : run c destroyed es (spawn db) = some s)
    (hrun : s.store.task.running) (hkeep : ∀ cmd ∈ s.store.queue, cmd.keepsRunning) {j : Nat}
    {w : Waiter PayloadWait} (hw : s.pending.waiters[j]? = some w) (hlive : w.Live)
    (value : List UInt8 → List UInt8) :
    ∃ s', run c destroyed (wakeUp s j w.work value) s = some s' ∧
      s'.loopback = s.loopback ++ [w.work.block] := by
  have hinv := (Invariant.spawn c db).run c destroyed hs
  have hon := hinv.reads j w.work (by rw [Registry.getElem?_works, hw]; rfl)
  -- first every `notify_read` of the future sends its command
  obtain ⟨s₁, h₁, htask, hloop, ⟨cmds, hsent, hcmds, hkeep₁⟩, w₁, hw₁, hended₁, hblock, hkeys, hall⟩ :=
    run_notifyReads c destroyed (w.work.reads.keys.length - w.work.reads.positions.length) hinv hw
      hlive.2 (by have := hon.1; omega)
  have hinv₁ := hinv.run c destroyed h₁
  have hqueue₁ : s₁.store.queue = s.store.queue ++ cmds := by
    show s₁.store.sent.drop s₁.store.task.received = _
    rw [hsent, htask]
    exact List.drop_append_of_le_length hinv.store.received_le
  -- then the `Write`s, and the store takes the whole channel
  have hwrites := run_clients c destroyed (w.work.reads.keys.map fun key =>
    StoreCommand.write key (value key)) s₁
  have hqueue₂ : (s₁.store.sendAll (w.work.reads.keys.map fun key =>
      StoreCommand.write key (value key))).queue.length =
      s.store.queue.length + (w.work.reads.keys.length - w.work.reads.positions.length) +
        w.work.reads.keys.length := by
    rw [StoreChannel.queue_sendAll hinv₁.store, hqueue₁, List.length_append, List.length_append,
      List.length_map, hcmds]
  have hjoined := NotifyReads.joined_drain_writes destroyed hinv₁.store (htask ▸ hrun)
    (by
      intro cmd hcmd
      rw [hqueue₁, List.mem_append] at hcmd
      rcases hcmd with hcmd | hcmd
      · exact hkeep cmd hcmd
      · exact hkeep₁ cmd hcmd)
    (hinv₁.reads j w₁.work (by rw [Registry.getElem?_works, hw₁]; rfl)) hall value
  rw [hkeys, hqueue₂] at hjoined
  -- last, `try_join_all` resolves and the block goes on `tx_loopback`
  refine ⟨{ s₁ with
      store := (StoreChannel.take destroyed)^[s.store.queue.length +
        (w.work.reads.keys.length - w.work.reads.positions.length) + w.work.reads.keys.length]
        (s₁.store.sendAll (w.work.reads.keys.map fun key => StoreCommand.write key (value key)))
      pending := (s₁.pending.remove (w₁.work.block.digest c)).finish j
      loopback := s₁.loopback ++ [w₁.work.block] }, ?_, by rw [hloop, hblock]⟩
  rw [wakeUp, run_append, run_append, run_append, h₁, Option.bind_some, hwrites,
    Option.bind_some, run_stores, Option.bind_some]
  simp only [run, step, hw₁, hended₁, Bool.not_false, Bool.true_and, hjoined, if_true,
    Option.bind_some]

theorem genesis_block_delivered :
    ∃ s', run Crypto.sample false (wakeUp genesisWait 0 genesisFuture.work fun _ => [1]) genesisWait =
      some s' ∧ s'.loopback = genesisWait.loopback ++ [Block.genesis] := by
  have hrun : run Crypto.sample false [.message (.wait [Digest.default] Block.genesis)]
      (spawn fun _ => none) = some genesisWait := rfl
  have hw : genesisWait.pending.waiters[0]? = some genesisFuture := rfl
  exact waiting_block_delivered Crypto.sample false hrun rfl (by decide) hw (by decide) _

end Delivery

end PayloadWaiter

end SafeStake.Consensus
