import SafeStake.ConsensusTypes
import SafeStake.CancelRegistry
import SafeStake.StoreClients

/-! # The mempool synchronizer

`Synchronizer::spawn` runs the task that keeps the mempool in step with the others.  When
the consensus asks it, by `Synchronize(digests, target)`, for the batches of a block, each
digest not pending gets a `waiter` future and an entry of `pending`: the round the task last
heard of, the sending end of a cancel channel, and the time of the request.  The digests
registered go, in one `BatchRequest`, to the target's mempool; a target outside the
committee is only logged, and nothing is sent.  A future returns `Ok(Some(digest))` when
the store answers its `notify_read` of the digest, and the digest leaves `pending`; it
returns `Ok(None)` when it sees its cancel; an `Err` of the store is only logged.
`Cleanup(round)` records the round and, once it reaches `gc_depth`, sends a cancel to every
entry of round `round - gc_depth` or below and drops those entries.  Every 2 s, once the
network has flushed, the timer sends one `BatchRequest` of every pending digest whose last
request is older than `sync_retry_delay` to a few nodes picked at random, and stamps those
entries with the time.

`pending` is a `CancelRegistry.Registry`.  What an entry holds besides its sender, the round
and the time of the request, is kept with the future the entry names, which no other entry
names.  `requests` records every `BatchRequest` sent, with its target, or `none` for the
nodes picked at random.

* **a request names the missing digests, each once**: after `Synchronize(digests, target)`
  every digest is pending, and the request sent names exactly those that were not, once
  each, however often `digests` repeats them (`synchronize_requests_missing`);
* **a cleanup cancels exactly its rounds**: in every state a run reaches, a future that
  waits goes on waiting through `Cleanup(round)` exactly when `round < gc_depth` or its
  round is above `round - gc_depth` (`cleanup_cancels_exactly`);
* **a stale request is retried**: in every state a run reaches, a future that waits and
  whose request is older than `sync_retry_delay` has its digest in the timer's next
  `BatchRequest`, which names only pending digests, each once, and its request is stamped
  anew (`timer_retries_stale`);
* **no request names a digest twice**, in every state a run reaches
  (`batch_requests_nodup`).
-/

namespace SafeStake.Mempool

open SafeStake.Consensus (Digest PublicKey Round ConsensusMempoolMessage)
open SafeStake.Store CancelRegistry

namespace Config

/-- `mempool::config::Committee`, by the keys of its authorities: their stakes and addresses
are left out, and a message is named by the key of its receiver. -/
structure Committee where
  authorities : List PublicKey
deriving DecidableEq, Repr

/-- `Committee::mempool_address`: an address exactly for an authority. -/
def Committee.mempoolAddress (committee : Committee) (name : PublicKey) : Option PublicKey :=
  if name ∈ committee.authorities then some name else none

end Config

/-- What `pending` holds for one digest besides its cancel sender, the round and the time of
the last request, with the `notify_read` of the digest of the `waiter` future the entry
names. -/
structure SyncWait where
  digest : Digest
  round : Round
  stamp : Nat
  read : NotifyReads (List UInt8)
deriving DecidableEq, Repr

/-- The task of `Synchronizer::spawn` and the store: the store task with its channel, the
round the task last heard of, `pending` with the futures of `waiting`, and every
`BatchRequest` sent, with its target. -/
structure Synchronizer where
  store : StoreChannel (List UInt8) (List UInt8)
  round : Round
  pending : Registry Digest SyncWait
  requests : List (List Digest × Option PublicKey)

/-- What happens next. -/
inductive SynchronizerEvent where
  /-- the loop takes a message of the consensus, at the time `now` -/
  | message (m : ConsensusMempoolMessage) (now : Nat)
  /-- the timer fires at `now`; `flushed` is whether the network flushed in time -/
  | timer (now : Nat) (flushed : Bool)
  /-- another client of the store sends a command -/
  | client (cmd : StoreCommand (List UInt8) (List UInt8))
  /-- the store task takes its next command -/
  | store
  /-- the future `j` is polled first and sends its `NotifyRead` -/
  | notifyRead (j : Nat)
  /-- the `notify_read` of the future `j` returns `Ok`: the future returns `Ok(Some(digest))` -/
  | joined (j : Nat)
  /-- the `notify_read` of the future `j` returns `Err` -/
  | failed (j : Nat)
  /-- `handler.recv()` of the future `j` returns: the future returns `Ok(None)` -/
  | cancelled (j : Nat)
deriving DecidableEq, Repr

namespace Synchronizer

section Step

variable (committee : Config.Committee) (gcDepth : Round) (syncRetryDelay : Nat) (destroyed : Bool)

/-- `Synchronizer::spawn`, on the store opened on `db`. -/
def spawn (db : List UInt8 → Option (List UInt8)) : Synchronizer :=
  ⟨StoreChannel.new db, 0, Registry.empty, []⟩

/-- The round `pending` has for a future: its entry's. -/
def roundOf (w : SyncWait) : Nat := w.round.toNat

/-- The future `waiter(digest, store, digest, rx_cancel)` of a digest registered at `round`
and `now`, with what its entry holds. -/
def waitOf (digest : Digest) (round : Round) (now : Nat) : SyncWait :=
  ⟨digest, round, now, ⟨[digest.bytes.toList], []⟩⟩

/-- The loop over `digests` of `Synchronize`: a digest that `pending` holds is skipped; any
other joins `missing` and gets its future and its entry, so that a digest `digests` repeats
is registered once. -/
def registerMissing (round : Round) (now : Nat) :
    Registry Digest SyncWait → List Digest → Registry Digest SyncWait × List Digest
  | r, [] => (r, [])
  | r, d :: ds =>
    if d ∈ r.entries.map Prod.fst then registerMissing round now r ds
    else
      let next := registerMissing round now (r.register d round.toNat (waitOf d round now)) ds
      (next.1, d :: next.2)

/-- The loop's `match message`. -/
def handleMessage (s : Synchronizer) (now : Nat) : ConsensusMempoolMessage → Synchronizer
  | .synchronize digests target =>
    let next := registerMissing s.round now s.pending digests
    match committee.mempoolAddress target with
    | some address =>
      { s with pending := next.1, requests := s.requests ++ [(next.2, some address)] }
    -- an unknown target is logged and the loop goes on: the futures stay, unrequested
    | none => { s with pending := next.1 }
  | .cleanup round =>
    if round < gcDepth then { s with round := round }
    else { s with round := round, pending := s.pending.cleanup (round - gcDepth).toNat }

/-- `*timestamp + sync_retry_delay < now`, for the entry `e`, by the future it names. -/
def retries (s : Synchronizer) (now : Nat) (e : Digest × Nat × Nat) : Bool :=
  match s.pending.waiters[e.2.2]? with
  | some w => decide (w.work.stamp + syncRetryDelay < now)
  | none => false

/-- `*timestamp = now`, for the entry `e`. -/
def restamp (now : Nat) (r : Registry Digest SyncWait) (e : Digest × Nat × Nat) :
    Registry Digest SyncWait :=
  r.update e.2.2 fun w => { w with stamp := now }

/-- The timer arm: once the network has flushed, every entry to retry is stamped with `now`,
and their digests, if any, go in one `BatchRequest` to the nodes picked at random. -/
def handleTimer (s : Synchronizer) (now : Nat) (flushed : Bool) : Synchronizer :=
  if flushed then
    let retry := s.pending.entries.filter (retries syncRetryDelay s now)
    { s with
      pending := retry.foldl (restamp now) s.pending
      requests := if retry.isEmpty then s.requests else s.requests ++ [(retry.map Prod.fst, none)] }
  else s

/-- A future's `notify_read` has sent its command at position `p`. -/
def sentRead (p : Nat) (w : SyncWait) : SyncWait := { w with read := w.read.sent p }

/-- One step, `none` when the event cannot happen: a completed future does nothing more. -/
def step (s : Synchronizer) : SynchronizerEvent → Option Synchronizer
  | .message m now => some (handleMessage committee gcDepth s now m)
  | .timer now flushed => some (handleTimer syncRetryDelay s now flushed)
  | .client cmd => some { s with store := s.store.send cmd }
  | .store => some { s with store := s.store.take destroyed }
  | .notifyRead j =>
    match s.pending.waiters[j]? with
    | some w =>
      match w.work.read.next? with
      | some key =>
        if w.ended then none
        else some { s with
          store := s.store.send (.notifyRead key)
          pending := s.pending.update j (sentRead s.store.sent.length) }
      | none => none
    | none => none
  | .joined j =>
    match s.pending.waiters[j]? with
    | some w =>
      -- `Ok(Some(digest))`: `pending.remove(&digest)`
      if !w.ended && w.work.read.joined s.store.task then
        some { s with pending := (s.pending.remove w.work.digest).finish j }
      else none
    | none => none
  | .failed j =>
    match s.pending.waiters[j]? with
    | some w =>
      -- `Err(e)`: logged; the digest stays in `pending`
      if !w.ended && w.work.read.failed s.store.task then
        some { s with pending := s.pending.finish j }
      else none
    | none => none
  | .cancelled j =>
    match s.pending.waiters[j]? with
    | some w =>
      if !w.ended && w.cancelled then some { s with pending := s.pending.finish j } else none
    | none => none

/-- The task over a list of events; `none` when one of them cannot happen. -/
def run : List SynchronizerEvent → Synchronizer → Option Synchronizer
  | [], s => some s
  | e :: es, s => (step committee gcDepth syncRetryDelay destroyed s e).bind (run es)

/-! ## What one step does -/

/-- The effect of a step that happens. -/
inductive Effect (s : Synchronizer) : Synchronizer → Prop
  | message (m : ConsensusMempoolMessage) (now : Nat) :
      Effect s (handleMessage committee gcDepth s now m)
  | timer (now : Nat) (flushed : Bool) : Effect s (handleTimer syncRetryDelay s now flushed)
  | send (cmd : StoreCommand (List UInt8) (List UInt8)) : Effect s { s with store := s.store.send cmd }
  | take : Effect s { s with store := s.store.take destroyed }
  | read (j : Nat) (key : List UInt8) :
      Effect s { s with
        store := s.store.send (.notifyRead key)
        pending := s.pending.update j (sentRead s.store.sent.length) }
  | deliver {j : Nat} {w : Waiter SyncWait} : s.pending.waiters[j]? = some w →
      Effect s { s with pending := (s.pending.remove w.work.digest).finish j }
  | finish (j : Nat) : Effect s { s with pending := s.pending.finish j }

theorem step_effect {s s' : Synchronizer} {e : SynchronizerEvent}
    (h : step committee gcDepth syncRetryDelay destroyed s e = some s') :
    Effect committee gcDepth syncRetryDelay destroyed s s' := by
  cases e with
  | message m now =>
    cases h
    exact .message m now
  | timer now flushed =>
    cases h
    exact .timer now flushed
  | client cmd =>
    cases h
    exact .send cmd
  | store =>
    cases h
    exact .take
  | notifyRead j =>
    simp only [step] at h
    split at h
    · rename_i w hw
      split at h
      · rename_i key hkey
        split at h
        · cases h
        · cases h
          exact .read j key
      · cases h
    · cases h
  | joined j =>
    simp only [step] at h
    split at h
    · rename_i w hw
      split at h
      · cases h
        exact .deliver hw
      · cases h
    · cases h
  | failed j =>
    simp only [step] at h
    split at h
    · split at h
      · cases h
        exact .finish j
      · cases h
    · cases h
  | cancelled j =>
    simp only [step] at h
    split at h
    · split at h
      · cases h
        exact .finish j
      · cases h
    · cases h

/-! ## The loop over `digests` -/

/-- The keys after the loop: those before, then `missing`. -/
theorem keys_registerMissing (round : Round) (now : Nat) (ds : List Digest) :
    ∀ r : Registry Digest SyncWait, (registerMissing round now r ds).1.entries.map Prod.fst =
      r.entries.map Prod.fst ++ (registerMissing round now r ds).2 := by
  induction ds with
  | nil =>
    intro r
    exact (List.append_nil _).symm
  | cons d ds ih =>
    intro r
    by_cases hd : d ∈ r.entries.map Prod.fst
    · simp only [registerMissing, if_pos hd]
      exact ih r
    · simp only [registerMissing, if_neg hd]
      rw [ih, Registry.keys_register, if_neg hd, List.append_assoc, List.singleton_append]

/-- `missing` holds each digest of `digests` that the keys before lack, once. -/
theorem registerMissing_missing (round : Round) (now : Nat) (ds : List Digest) :
    ∀ r : Registry Digest SyncWait,
      (∀ d, d ∈ (registerMissing round now r ds).2 ↔ d ∈ ds ∧ d ∉ r.entries.map Prod.fst) ∧
        (registerMissing round now r ds).2.Nodup := by
  induction ds with
  | nil =>
    intro r
    refine ⟨fun d => ?_, List.nodup_nil⟩
    simp only [registerMissing, List.not_mem_nil, false_and]
  | cons d ds ih =>
    intro r
    by_cases hd : d ∈ r.entries.map Prod.fst
    · -- a pending digest is skipped
      simp only [registerMissing, if_pos hd]
      obtain ⟨hmem, hnodup⟩ := ih r
      refine ⟨fun x => ?_, hnodup⟩
      rw [hmem, List.mem_cons]
      constructor
      · rintro ⟨hx, hfresh⟩
        exact ⟨.inr hx, hfresh⟩
      · rintro ⟨rfl | hx, hfresh⟩
        · exact absurd hd hfresh
        · exact ⟨hx, hfresh⟩
    · -- a missing digest joins the keys, so the rest of the loop skips it
      simp only [registerMissing, if_neg hd]
      obtain ⟨hmem, hnodup⟩ := ih (r.register d round.toNat (waitOf d round now))
      rw [Registry.keys_register, if_neg hd] at hmem
      refine ⟨fun x => ?_, List.nodup_cons.mpr ⟨fun h => ((hmem d).mp h).2 (by simp), hnodup⟩⟩
      rw [List.mem_cons, hmem, List.mem_cons, List.mem_append, List.mem_singleton]
      constructor
      · rintro (rfl | ⟨hx, hfresh⟩)
        · exact ⟨.inl rfl, hd⟩
        · exact ⟨.inr hx, fun h => hfresh (.inl h)⟩
      · rintro ⟨rfl | hx, hfresh⟩
        · exact .inl rfl
        · by_cases hxd : x = d
          · exact .inl hxd
          · exact .inr ⟨hx, fun h => h.elim hfresh hxd⟩

/-- Every digest of `digests` is a key after the loop. -/
theorem mem_keys_registerMissing (round : Round) (now : Nat) (r : Registry Digest SyncWait)
    {ds : List Digest} {d : Digest} (hd : d ∈ ds) :
    d ∈ (registerMissing round now r ds).1.entries.map Prod.fst := by
  rw [keys_registerMissing, List.mem_append]
  by_cases hkey : d ∈ r.entries.map Prod.fst
  · exact .inl hkey
  · exact .inr (((registerMissing_missing round now ds r).1 d).mpr ⟨hd, hkey⟩)

theorem WellFormed.registerMissing (round : Round) (now : Nat) (ds : List Digest) :
    ∀ {r : Registry Digest SyncWait}, r.WellFormed SyncWait.digest roundOf →
      (registerMissing round now r ds).1.WellFormed SyncWait.digest roundOf := by
  induction ds with
  | nil =>
    intro r h
    exact h
  | cons d ds ih =>
    intro r h
    by_cases hd : d ∈ r.entries.map Prod.fst
    · simp only [Synchronizer.registerMissing, if_pos hd]
      exact ih h
    · simp only [Synchronizer.registerMissing, if_neg hd]
      exact ih (h.register rfl rfl)

/-! ## The timer -/

/-- A future stamped anew: only its entry's time changes. -/
def stamped (now : Nat) (w : Waiter SyncWait) : Waiter SyncWait :=
  { w with work := { w.work with stamp := now } }

/-- After the timer's stamps, a future is stamped exactly when an entry to retry names it. -/
theorem getElem?_foldl_restamp (now : Nat) (j : Nat) (retry : List (Digest × Nat × Nat)) :
    ∀ r : Registry Digest SyncWait, (retry.foldl (restamp now) r).waiters[j]? =
      r.waiters[j]?.map fun w => if j ∈ retry.map (·.2.2) then stamped now w else w := by
  induction retry with
  | nil =>
    intro r
    simp only [List.foldl_nil, List.map_nil, List.not_mem_nil, if_false, Option.map_id']
  | cons e retry ih =>
    intro r
    rw [List.foldl_cons, ih, restamp, Registry.getElem?_update]
    cases r.waiters[j]? with
    | none => rfl
    | some w =>
      simp only [Option.map_some, List.map_cons, List.mem_cons]
      by_cases he : e.2.2 = j
      · -- stamped by `e`, and perhaps again later: stamping twice is stamping once
        have hj : j = e.2.2 ∨ j ∈ retry.map (·.2.2) := .inl he.symm
        rw [if_pos he, if_pos hj]
        split <;> rfl
      · have hne : j ≠ e.2.2 := fun h => he h.symm
        rw [if_neg he]
        simp only [hne, false_or]

theorem WellFormed.foldl_restamp (now : Nat) (retry : List (Digest × Nat × Nat)) :
    ∀ {r : Registry Digest SyncWait}, r.WellFormed SyncWait.digest roundOf →
      (retry.foldl (restamp now) r).WellFormed SyncWait.digest roundOf := by
  induction retry with
  | nil =>
    intro r h
    exact h
  | cons e retry ih =>
    intro r h
    exact ih (h.update e.2.2 (fun _ => rfl) (fun _ => rfl))

/-- The digests the timer retries are keys of `pending`, each once. -/
theorem retry_keys_sublist (s : Synchronizer) (now : Nat) :
    ((s.pending.entries.filter (retries syncRetryDelay s now)).map Prod.fst).Sublist
      (s.pending.entries.map Prod.fst) :=
  List.filter_sublist.map _

/-! ## The invariant -/

/-- `pending` is well formed, and no request sent names a digest twice. -/
structure Invariant (s : Synchronizer) : Prop where
  pending : s.pending.WellFormed SyncWait.digest roundOf
  requests : ∀ req ∈ s.requests, req.1.Nodup

theorem Invariant.spawn (db : List UInt8 → Option (List UInt8)) : (spawn db).Invariant := by
  constructor
  · exact Registry.WellFormed.empty
  · intro req hreq
    cases hreq

theorem Invariant.handleMessage {s : Synchronizer} (hs : s.Invariant) (now : Nat)
    (m : ConsensusMempoolMessage) : (handleMessage committee gcDepth s now m).Invariant := by
  cases m with
  | synchronize digests target =>
    have hpending := WellFormed.registerMissing s.round now digests hs.pending
    simp only [Synchronizer.handleMessage]
    split
    · constructor
      · exact hpending
      · intro req hreq
        rcases List.mem_append.mp hreq with hreq | hreq
        · exact hs.requests req hreq
        · rw [List.mem_singleton.mp hreq]
          exact (registerMissing_missing s.round now digests s.pending).2
    · exact ⟨hpending, hs.requests⟩
  | cleanup round =>
    simp only [Synchronizer.handleMessage]
    split
    · exact ⟨hs.pending, hs.requests⟩
    · exact ⟨hs.pending.cleanup _, hs.requests⟩

theorem Invariant.handleTimer {s : Synchronizer} (hs : s.Invariant) (now : Nat) (flushed : Bool) :
    (handleTimer syncRetryDelay s now flushed).Invariant := by
  unfold Synchronizer.handleTimer
  split
  · constructor
    · exact WellFormed.foldl_restamp now _ hs.pending
    · intro req hreq
      dsimp only at hreq
      split at hreq
      · exact hs.requests req hreq
      · rcases List.mem_append.mp hreq with hreq | hreq
        · exact hs.requests req hreq
        · rw [List.mem_singleton.mp hreq]
          exact (retry_keys_sublist syncRetryDelay s now).nodup hs.pending.nodup
  · exact hs

theorem Effect.invariant {s s' : Synchronizer}
    (he : Effect committee gcDepth syncRetryDelay destroyed s s') (hs : s.Invariant) :
    s'.Invariant := by
  cases he with
  | message m now => exact hs.handleMessage committee gcDepth now m
  | timer now flushed => exact hs.handleTimer syncRetryDelay now flushed
  | send cmd => exact ⟨hs.pending, hs.requests⟩
  | take => exact ⟨hs.pending, hs.requests⟩
  | read j key => exact ⟨hs.pending.update j (fun _ => rfl) (fun _ => rfl), hs.requests⟩
  | deliver hw => exact ⟨(hs.pending.remove _).finish _, hs.requests⟩
  | finish j => exact ⟨hs.pending.finish j, hs.requests⟩

theorem Invariant.step {s s' : Synchronizer} {e : SynchronizerEvent} (hs : s.Invariant)
    (h : step committee gcDepth syncRetryDelay destroyed s e = some s') : s'.Invariant :=
  (step_effect committee gcDepth syncRetryDelay destroyed h).invariant committee gcDepth
    syncRetryDelay destroyed hs

theorem Invariant.run {es : List SynchronizerEvent} :
    ∀ {s s' : Synchronizer}, s.Invariant →
      run committee gcDepth syncRetryDelay destroyed es s = some s' → s'.Invariant := by
  induction es with
  | nil =>
    intro s s' hs h
    cases h
    exact hs
  | cons e es ih =>
    intro s s' hs h
    obtain ⟨s₁, h₁, h⟩ := Option.bind_eq_some_iff.mp h
    exact ih (hs.step committee gcDepth syncRetryDelay destroyed h₁) h

/-! ## Every state a run reaches -/

/-- **A request names the missing digests, each once.**  After `Synchronize(digests,
target)`, every digest of `digests` is pending, and a request goes to the target, if it is
in the committee, naming exactly the digests that were not pending, each once. -/
theorem synchronize_requests_missing (s : Synchronizer) (digests : List Digest)
    (target : PublicKey) (now : Nat) :
    (∀ d ∈ digests, d ∈ (handleMessage committee gcDepth s now
        (.synchronize digests target)).pending.entries.map Prod.fst) ∧
      ∃ missing : List Digest, missing.Nodup ∧
        (∀ d, d ∈ missing ↔ d ∈ digests ∧ d ∉ s.pending.entries.map Prod.fst) ∧
        (handleMessage committee gcDepth s now (.synchronize digests target)).requests =
          s.requests ++ if target ∈ committee.authorities then [(missing, some target)] else [] := by
  obtain ⟨hmem, hnodup⟩ := registerMissing_missing s.round now digests s.pending
  have hpending : (handleMessage committee gcDepth s now (.synchronize digests target)).pending =
      (registerMissing s.round now s.pending digests).1 := by
    simp only [Synchronizer.handleMessage]
    split <;> rfl
  refine ⟨fun d hd => hpending ▸ mem_keys_registerMissing s.round now s.pending hd,
    (registerMissing s.round now s.pending digests).2, hnodup, hmem, ?_⟩
  -- the target's address is known exactly for an authority
  by_cases htarget : target ∈ committee.authorities
  · simp only [Synchronizer.handleMessage, Config.Committee.mempoolAddress, if_pos htarget]
  · simp only [Synchronizer.handleMessage, Config.Committee.mempoolAddress, if_neg htarget,
      List.append_nil]

/-- **A cleanup cancels exactly its rounds.**  In every state a run reaches, a future that
waits goes on waiting through `Cleanup(round)` exactly when `round < gc_depth` or its round
is above `round - gc_depth`. -/
theorem cleanup_cancels_exactly {db : List UInt8 → Option (List UInt8)}
    {es : List SynchronizerEvent} {s : Synchronizer}
    (hs : run committee gcDepth syncRetryDelay destroyed es (spawn db) = some s) (now : Nat)
    (round : Round) {j : Nat} {w : Waiter SyncWait} (hw : s.pending.waiters[j]? = some w)
    (hlive : w.Live) :
    ∃ w', (handleMessage committee gcDepth s now (.cleanup round)).pending.waiters[j]? = some w' ∧
      (w'.Live ↔ round < gcDepth ∨ round - gcDepth < w.work.round) := by
  have hinv := (Invariant.spawn db).run committee gcDepth syncRetryDelay destroyed hs
  by_cases hgc : round < gcDepth
  · -- below `gc_depth` only the round is recorded
    refine ⟨w, ?_, ⟨fun _ => .inl hgc, fun _ => hlive⟩⟩
    simp only [Synchronizer.handleMessage, if_pos hgc]
    exact hw
  · obtain ⟨w', hw', hiff⟩ : ∃ w', (s.pending.cleanup (round - gcDepth).toNat).waiters[j]? = some w' ∧
        (w'.Live ↔ (round - gcDepth).toNat < roundOf w.work) :=
      hinv.pending.live_cleanup_iff hw hlive
    refine ⟨w', ?_, ?_⟩
    · simp only [Synchronizer.handleMessage, if_neg hgc]
      exact hw'
    · rw [hiff, UInt64.lt_iff_toNat_lt]
      constructor
      · intro hlt
        exact .inr hlt
      · rintro (hlt | hlt)
        · exact absurd hlt hgc
        · exact hlt

/-- A committee of the default key alone. -/
def soloCommittee : Config.Committee := ⟨[PublicKey.default]⟩

/-- The future of the default digest, asked for at round 0 and time 0. -/
def defaultFuture : Waiter SyncWait := ⟨waitOf Digest.default 0 0, false, false⟩

/-- The task once the consensus has asked it, at time 0, for the default digest from the
committee's one authority. -/
def defaultSync : Synchronizer :=
  ⟨StoreChannel.new fun _ => none, 0, ⟨[(Digest.default, 0, 0)], [defaultFuture]⟩,
    [([Digest.default], some PublicKey.default)]⟩

theorem defaultSync_run :
    run soloCommittee 50 5000 false [.message (.synchronize [Digest.default] PublicKey.default) 0]
      (spawn fun _ => none) = some defaultSync := rfl

/-- At `gc_depth`, `Cleanup(50)` cancels the future of round 0. -/
theorem default_cleaned_at_gc_depth :
    ∃ w', (handleMessage soloCommittee 50 defaultSync 0 (.cleanup 50)).pending.waiters[0]? = some w' ∧
      (w'.Live ↔ (50 : Round) < 50 ∨ (50 : Round) - 50 < defaultFuture.work.round) := by
  have hw : defaultSync.pending.waiters[0]? = some defaultFuture := rfl
  have hlive : defaultFuture.Live := by decide
  exact cleanup_cancels_exactly soloCommittee 50 5000 false defaultSync_run 0 50 hw hlive

/-- **A stale request is retried.**  In every state a run reaches, when the timer fires
once the network has flushed, a future that waits and whose request is older than
`sync_retry_delay` has its digest in the one `BatchRequest` the timer sends, which names
only pending digests, each once; the future is stamped with the time, and nothing else of
it changes. -/
theorem timer_retries_stale {db : List UInt8 → Option (List UInt8)} {es : List SynchronizerEvent}
    {s : Synchronizer} (hs : run committee gcDepth syncRetryDelay destroyed es (spawn db) = some s)
    (now : Nat) {j : Nat} {w : Waiter SyncWait} (hw : s.pending.waiters[j]? = some w)
    (hlive : w.Live) (hstale : w.work.stamp + syncRetryDelay < now) :
    ∃ retry : List Digest,
      (handleTimer syncRetryDelay s now true).requests = s.requests ++ [(retry, none)] ∧
        retry.Nodup ∧ w.work.digest ∈ retry ∧ (∀ d ∈ retry, d ∈ s.pending.entries.map Prod.fst) ∧
        (handleTimer syncRetryDelay s now true).pending.waiters[j]? = some (stamped now w) := by
  have hinv := (Invariant.spawn db).run committee gcDepth syncRetryDelay destroyed hs
  -- the future's own entry is one to retry
  have he := hinv.pending.live j w hw hlive
  have hretry : retries syncRetryDelay s now (w.work.digest, roundOf w.work, j) = true := by
    simp only [retries, hw, decide_eq_true_eq]
    exact hstale
  have hmem : (w.work.digest, roundOf w.work, j) ∈
      s.pending.entries.filter (retries syncRetryDelay s now) :=
    List.mem_filter.mpr ⟨he, hretry⟩
  have hne : (s.pending.entries.filter (retries syncRetryDelay s now)).isEmpty = false :=
    List.isEmpty_eq_false_iff.mpr (List.ne_nil_of_mem hmem)
  have hsub := retry_keys_sublist syncRetryDelay s now
  refine ⟨(s.pending.entries.filter (retries syncRetryDelay s now)).map Prod.fst, ?_,
    hsub.nodup hinv.pending.nodup, List.mem_map_of_mem hmem, fun d hd => hsub.subset hd, ?_⟩
  · simp only [handleTimer, if_true, hne, Bool.false_eq_true, if_false]
  · simp only [handleTimer, if_true]
    rw [getElem?_foldl_restamp, hw, Option.map_some, if_pos (List.mem_map_of_mem hmem)]

/-- Five seconds and a millisecond after the request, the timer asks again for the default
digest. -/
theorem default_retried :
    ∃ retry : List Digest,
      (handleTimer 5000 defaultSync 5001 true).requests = defaultSync.requests ++ [(retry, none)] ∧
        retry.Nodup ∧ Digest.default ∈ retry ∧
        (∀ d ∈ retry, d ∈ defaultSync.pending.entries.map Prod.fst) ∧
        (handleTimer 5000 defaultSync 5001 true).pending.waiters[0]? =
          some (stamped 5001 defaultFuture) := by
  have hw : defaultSync.pending.waiters[0]? = some defaultFuture := rfl
  have hlive : defaultFuture.Live := by decide
  have hstale : defaultFuture.work.stamp + 5000 < 5001 := by decide
  exact timer_retries_stale soloCommittee 50 5000 false defaultSync_run 5001 hw hlive hstale

/-- **No request names a digest twice**, in every state a run reaches. -/
theorem batch_requests_nodup {db : List UInt8 → Option (List UInt8)} {es : List SynchronizerEvent}
    {s : Synchronizer} (hs : run committee gcDepth syncRetryDelay destroyed es (spawn db) = some s) :
    ∀ req ∈ s.requests, req.1.Nodup :=
  ((Invariant.spawn db).run committee gcDepth syncRetryDelay destroyed hs).requests

theorem default_requests_nodup :
    ([Digest.default], some PublicKey.default) ∈ defaultSync.requests ∧
      ([Digest.default] : List Digest).Nodup :=
  ⟨List.mem_singleton_self _,
    batch_requests_nodup soloCommittee 50 5000 false defaultSync_run _ (List.mem_singleton_self _)⟩

end Step

end Synchronizer

end SafeStake.Mempool
