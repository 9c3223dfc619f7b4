import SafeStake.CoreAgreement

/-! # The quorum waiter

The batch maker of authority `name` broadcasts each batch it seals to
`committee.broadcast_addresses(&name)`, every other authority, and hands the batch to the
`QuorumWaiter` with one `CancelHandler` per authority.  For each batch the waiter spawns a
task over a `FuturesUnordered` of futures `waiter(handler, stake)`.  Each future resolves
with the authority's stake when its handler returns `Ack`, and with 0 on any other reply or
on an error.  The task adds the stakes to `total_stake` in the order the futures resolve.
`total_stake` is a `u32` that starts at the waiter's own stake.  Once it reaches
`quorum_threshold()` the task sends the batch on `tx_batch`; it breaks out when every future
has resolved.  The loop waits at most 12 seconds for a task before taking the next batch,
and the task goes on after that, so tasks run side by side: the model lets the futures of
every task resolve in any interleaving (`QuorumWaiterEvent.resolve`).

The mempool's `Committee` (`config.rs`) computes `stake` and `quorum_threshold` with the same
code as the consensus committee, and the model uses `Consensus.Committee` for it.

For every run (`Invariant.run`):

* **what is sent was acknowledged by a quorum**: `tx_batch` carries the batch of each task
  that sent, once each.  The authorities whose handlers returned `Ack`, with `name` itself,
  hold a quorum's stake of the committee, as long as the doubled total stake fits in `u32`
  (`sent_batches_quorum`).  That holds although `total_stake` is a wrapping `u32`;
* **acknowledgements in any order send the batch**: once the authorities that will
  acknowledge, with those already counted and `name` itself, hold a quorum's stake, the
  batch is sent, whatever order the futures resolve in (`quorum_acks_send`);
* **an authority alone never sends**: in a committee with no other authority every task
  finds no future to wait for, and nothing is ever sent, even though the authority's own
  stake is a quorum (`alone_never_sends`).
-/

namespace SafeStake.Consensus

namespace Committee

variable (committee : Committee)

/-- `Committee::broadcast_addresses`, by key: every other authority, in the committee's
order. -/
def broadcastAddresses (myself : PublicKey) : List PublicKey :=
  (committee.authorities.map Prod.fst).filter fun name => name ≠ myself

theorem nodup_broadcastAddresses (myself : PublicKey) :
    (committee.broadcastAddresses myself).Nodup :=
  committee.keys_nodup.filter _

theorem not_mem_broadcastAddresses (myself : PublicKey) :
    myself ∉ committee.broadcastAddresses myself := by
  simp [broadcastAddresses]

/-- Distinct keys weigh at most the total stake. -/
theorem sum_weightOf_le_totalStake {names : List PublicKey} (hnd : names.Nodup) :
    (names.map committee.weightOf).sum ≤ committee.totalStake := by
  calc (names.map committee.weightOf).sum
      = WeightedQuorum.weight committee.weightOf names.toFinset := (List.sum_toFinset _ hnd).symm
    _ = WeightedQuorum.weight committee.weightOf (names.toFinset ∩ committee.members) :=
      (committee.weight_inter_members _).symm
    _ ≤ WeightedQuorum.weight committee.weightOf committee.members :=
      WeightedQuorum.weight_mono _ Finset.inter_subset_right
    _ = committee.totalStake := committee.weight_members

end Committee

end SafeStake.Consensus

namespace SafeStake.Mempool

open SafeStake.Consensus WeightedQuorum

/-- The bytes of `"Ack"`, the reply of a mempool that received a batch. -/
def ackBytes : List UInt8 := [65, 99, 107]

/-- `QuorumWaiter::waiter`: the stake of an authority whose handler resolves with `Ack`, and
0 for any other reply or an error (`none`). -/
def waiter (result : Option (List UInt8)) (deliver : Stake) : Stake :=
  if result = some ackBytes then deliver else 0

/-- The task spawned for one batch: the batch, the authorities whose futures have not
resolved, `total_stake`, each resolved future's authority and what its handler returned, in
the order they resolved, and whether the task has sent the batch and broken out. -/
structure WaitTask where
  batch : List UInt8
  waiting : List PublicKey
  totalStake : Stake
  resolved : List (PublicKey × Option (List UInt8))
  sent : Bool
deriving DecidableEq, Repr

namespace WaitTask

/-- The authorities whose handlers returned `Ack`. -/
def acked (t : WaitTask) : List PublicKey :=
  (t.resolved.filter fun r => r.2 = some ackBytes).map Prod.fst

/-- One turn of the `'wait` loop, on the future of `name`'s handler resolving with
`result`: `total_stake += stake`, and the batch is sent once that reaches
`quorum_threshold()`. -/
def resolve (committee : Committee) (t : WaitTask) (name : PublicKey)
    (result : Option (List UInt8)) : WaitTask :=
  let total := t.totalStake + waiter result (committee.stake name)
  { t with
    waiting := t.waiting.erase name
    totalStake := total
    resolved := t.resolved ++ [(name, result)]
    sent := decide (committee.quorumThreshold ≤ total) }

theorem acked_resolve (committee : Committee) (t : WaitTask) (name : PublicKey)
    (result : Option (List UInt8)) :
    (t.resolve committee name result).acked =
      t.acked ++ if result = some ackBytes then [name] else [] := by
  simp only [acked, resolve, List.filter_append, List.map_append]
  by_cases h : result = some ackBytes <;> simp [h]

theorem toNat_waiter (committee : Committee) (name : PublicKey) (result : Option (List UInt8)) :
    (waiter result (committee.stake name)).toNat =
      if result = some ackBytes then committee.weightOf name else 0 := by
  unfold waiter
  split <;> rfl

end WaitTask

/-- The waiter of authority `name`, with its tasks and what it has sent on `tx_batch`. -/
structure QuorumWaiter where
  committee : Committee
  name : PublicKey
  tasks : List WaitTask
  txBatch : List (List UInt8)

/-- What happens next. -/
inductive QuorumWaiterEvent where
  /-- The batch maker broadcasts a batch and hands it over; the loop spawns its task. -/
  | batch (batch : List UInt8)
  /-- In task `i`, the future of `name`'s handler resolves with `result` (`none`: an
  error). -/
  | resolve (i : Nat) (name : PublicKey) (result : Option (List UInt8))
deriving DecidableEq, Repr

namespace QuorumWaiter

/-- The waiter `Mempool::spawn` starts for authority `name`. -/
def spawn (committee : Committee) (name : PublicKey) : QuorumWaiter := ⟨committee, name, [], []⟩

/-- The task for a batch broadcast to every other authority; `total_stake` starts at
`self.stake`, which `Mempool::spawn` sets to `committee.stake(&name)`. -/
def spawnTask (q : QuorumWaiter) (batch : List UInt8) : WaitTask :=
  ⟨batch, q.committee.broadcastAddresses q.name, q.committee.stake q.name, [], false⟩

/-- One step, `none` when the event cannot happen: a task that has broken out resolves
nothing more. -/
def step (q : QuorumWaiter) : QuorumWaiterEvent → Option QuorumWaiter
  | .batch b => some { q with tasks := q.tasks ++ [q.spawnTask b] }
  | .resolve i name result =>
    match q.tasks[i]? with
    | some t =>
      if !t.sent && name ∈ t.waiting then
        some { q with
          tasks := q.tasks.set i (t.resolve q.committee name result)
          txBatch := if (t.resolve q.committee name result).sent then q.txBatch ++ [t.batch]
            else q.txBatch }
      else none
    | none => none

/-- The waiter over a list of events; `none` when one of them cannot happen. -/
def run : List QuorumWaiterEvent → QuorumWaiter → Option QuorumWaiter
  | [], q => some q
  | e :: es, q => (step q e).bind (run es)

/-- `tx_batch` only grows. -/
theorem txBatch_prefix {q q' : QuorumWaiter} {e : QuorumWaiterEvent} (h : step q e = some q') :
    q.txBatch <+: q'.txBatch := by
  cases e with
  | batch b =>
    cases h
    exact List.prefix_refl _
  | resolve i n result =>
    simp only [step] at h
    split at h
    · split at h
      · cases h
        split
        · exact List.prefix_append _ _
        · exact List.prefix_refl _
      · cases h
    · cases h

/-! ## The invariant -/

section Invariant

variable (committee : Committee) (name : PublicKey)

/-- A task's futures are those of the other authorities, each waiting or resolved once;
`total_stake` is the own stake plus the acknowledged stakes, modulo `2^32`; and a task has
sent exactly when a resolution brought the total to the threshold. -/
structure TaskValid (t : WaitTask) : Prop where
  futures : (t.waiting ++ t.resolved.map Prod.fst).Perm (committee.broadcastAddresses name)
  total : t.totalStake.toNat =
    (committee.weightOf name + (t.acked.map committee.weightOf).sum) % 2 ^ 32
  sent : t.sent = true → committee.quorumThreshold ≤ t.totalStake ∧ t.resolved ≠ []
  unsent : t.sent = false → t.resolved ≠ [] → t.totalStake < committee.quorumThreshold

/-- Every task is valid, and `tx_batch` holds the batch of each task that sent, once. -/
structure Invariant (q : QuorumWaiter) : Prop where
  tasks : ∀ t ∈ q.tasks, TaskValid q.committee q.name t
  txBatch : q.txBatch.Perm ((q.tasks.filter (·.sent)).map (·.batch))

theorem TaskValid.spawnTask (q : QuorumWaiter) (batch : List UInt8) :
    TaskValid q.committee q.name (q.spawnTask batch) where
  futures := by
    show (q.committee.broadcastAddresses q.name ++ ([] : List (PublicKey × Option (List UInt8))).map
      Prod.fst).Perm _
    rw [List.map_nil, List.append_nil]
  total := by
    show (q.committee.stake q.name).toNat = (q.committee.weightOf q.name + 0) % 2 ^ 32
    rw [Nat.add_zero, Committee.weightOf, Nat.mod_eq_of_lt (UInt32.toNat_lt _)]
  sent := fun h => absurd h Bool.false_ne_true
  unsent := fun _ h => absurd rfl h

variable {committee name}

theorem TaskValid.resolve {t : WaitTask} (hv : TaskValid committee name t) {n : PublicKey}
    (hn : n ∈ t.waiting) (result : Option (List UInt8)) :
    TaskValid committee name (t.resolve committee n result) where
  futures := by
    -- the future of `n` moves from the waiting ones to the end of the resolved ones
    have h₁ : (t.waiting.erase n ++ (t.resolved.map Prod.fst ++ [n])).Perm
        (t.waiting.erase n ++ n :: t.resolved.map Prod.fst) :=
      (List.perm_append_singleton n _).append_left _
    have h₂ : (t.waiting.erase n ++ n :: t.resolved.map Prod.fst).Perm
        (n :: (t.waiting.erase n ++ t.resolved.map Prod.fst)) := List.perm_middle
    have h₃ : (n :: (t.waiting.erase n ++ t.resolved.map Prod.fst)).Perm
        (t.waiting ++ t.resolved.map Prod.fst) := ((List.perm_cons_erase hn).append_right _).symm
    show (t.waiting.erase n ++ (t.resolved ++ [(n, result)]).map Prod.fst).Perm _
    rw [List.map_append, List.map_singleton]
    exact (h₁.trans (h₂.trans h₃)).trans hv.futures
  total := by
    show (t.totalStake + waiter result (committee.stake n)).toNat = _
    rw [WaitTask.acked_resolve, UInt32.toNat_add, WaitTask.toNat_waiter, hv.total,
      List.map_append, List.sum_append]
    split <;> simp only [List.map_cons, List.map_nil, List.sum_cons, List.sum_nil] <;> omega
  sent := by
    intro h
    refine ⟨of_decide_eq_true h, ?_⟩
    simp [WaitTask.resolve]
  unsent := by
    intro h _
    show t.totalStake + waiter result (committee.stake n) < committee.quorumThreshold
    have hnot : ¬committee.quorumThreshold ≤ t.totalStake + waiter result (committee.stake n) :=
      of_decide_eq_false h
    rw [UInt32.le_iff_toNat_le] at hnot
    exact UInt32.lt_iff_toNat_lt.mpr (by omega)

/-- Replacing a task that has not sent keeps `tx_batch` to the sent tasks, with the new
task's batch once more if it has sent. -/
theorem filter_set_perm {tasks : List WaitTask} {i : Nat} {t : WaitTask}
    (ht : tasks[i]? = some t) (hunsent : t.sent = false) (t' : WaitTask) :
    (((tasks.set i t').filter (·.sent)).map (·.batch)).Perm
      ((tasks.filter (·.sent)).map (·.batch) ++ if t'.sent then [t'.batch] else []) := by
  induction tasks generalizing i with
  | nil => cases ht
  | cons t₀ tasks ih =>
    cases i with
    | zero =>
      cases ht
      rw [List.set_cons_zero, List.filter_cons, List.filter_cons, hunsent]
      cases t'.sent
      · simp
      · simpa using List.perm_append_singleton t'.batch _ |>.symm
    | succ i =>
      rw [List.set_cons_succ, List.filter_cons, List.filter_cons]
      have := ih ht
      split
      · simpa using this
      · exact this

theorem Invariant.spawn (committee : Committee) (name : PublicKey) : (spawn committee name).Invariant :=
  ⟨fun _ h => absurd h List.not_mem_nil, List.Perm.refl _⟩

theorem Invariant.step {q q' : QuorumWaiter} (hq : q.Invariant) {e : QuorumWaiterEvent}
    (h : step q e = some q') : q'.Invariant ∧ q'.committee = q.committee ∧ q'.name = q.name := by
  cases e with
  | batch b =>
    cases h
    refine ⟨⟨fun t ht => ?_, ?_⟩, rfl, rfl⟩
    · rcases List.mem_append.mp ht with ht | ht
      · exact hq.tasks t ht
      · rw [List.mem_singleton] at ht
        subst ht
        exact TaskValid.spawnTask q b
    · show q.txBatch.Perm (((q.tasks ++ [q.spawnTask b]).filter (·.sent)).map (·.batch))
      rw [List.filter_append, List.filter_singleton]
      simpa [spawnTask] using hq.txBatch
  | resolve i n result =>
    simp only [QuorumWaiter.step] at h
    split at h
    · rename_i t ht
      split at h
      · rename_i hok
        cases h
        simp only [Bool.and_eq_true, Bool.not_eq_true', decide_eq_true_eq] at hok
        have hv := hq.tasks t (List.mem_of_getElem? ht)
        refine ⟨⟨fun t' ht' => ?_, ?_⟩, rfl, rfl⟩
        · rcases List.mem_or_eq_of_mem_set ht' with ht' | rfl
          · exact hq.tasks t' ht'
          · exact hv.resolve hok.2 result
        · -- the batch goes out once, when the task sends
          refine List.Perm.trans ?_ (filter_set_perm ht hok.1 _).symm
          split
          · exact hq.txBatch.append_right _
          · rw [List.append_nil]
            exact hq.txBatch
      · cases h
    · cases h

theorem Invariant.run {es : List QuorumWaiterEvent} :
    ∀ {q q' : QuorumWaiter}, q.Invariant → run es q = some q' →
      q'.Invariant ∧ q'.committee = q.committee ∧ q'.name = q.name := by
  induction es with
  | nil =>
    intro q q' hq h
    cases h
    exact ⟨hq, rfl, rfl⟩
  | cons e es ih =>
    intro q q' hq h
    obtain ⟨q₁, h₁, h⟩ := Option.bind_eq_some_iff.mp h
    obtain ⟨hq₁, hc₁, hn₁⟩ := hq.step h₁
    obtain ⟨hq', hc', hn'⟩ := ih hq₁ h
    exact ⟨hq', hc'.trans hc₁, hn'.trans hn₁⟩

end Invariant

/-! ## Quorums -/

section Quorum

variable {committee : Committee} {name : PublicKey}

/-- The acknowledging authorities are distinct, and none of them is `name`. -/
theorem TaskValid.nodup_acked {t : WaitTask} (hv : TaskValid committee name t) :
    (name :: t.acked).Nodup := by
  have hnd : (t.waiting ++ t.resolved.map Prod.fst).Nodup :=
    hv.futures.nodup_iff.mpr (committee.nodup_broadcastAddresses name)
  have hsub : t.acked.Sublist (t.waiting ++ t.resolved.map Prod.fst) :=
    (List.filter_sublist.map _).trans (List.sublist_append_right _ _)
  refine List.nodup_cons.mpr ⟨fun hmem => ?_, hnd.sublist hsub⟩
  exact committee.not_mem_broadcastAddresses name (hv.futures.subset (hsub.subset hmem))

/-- The acknowledging authorities and `name` weigh the own stake plus the acknowledged
stakes. -/
theorem TaskValid.weight_acked {t : WaitTask} (hv : TaskValid committee name t) :
    weight committee.weightOf (insert name t.acked.toFinset) =
      committee.weightOf name + (t.acked.map committee.weightOf).sum := by
  rw [← List.toFinset_cons, weight, List.sum_toFinset _ hv.nodup_acked, List.map_cons, List.sum_cons]

/-- Without wrapping, `total_stake` is the own stake plus the acknowledged stakes. -/
theorem TaskValid.totalStake_toNat {t : WaitTask} (hv : TaskValid committee name t)
    (hfit : 2 * committee.totalStake < 2 ^ 32) :
    t.totalStake.toNat = committee.weightOf name + (t.acked.map committee.weightOf).sum := by
  have hbound := committee.sum_weightOf_le_totalStake hv.nodup_acked
  rw [List.map_cons, List.sum_cons] at hbound
  rw [hv.total]
  exact Nat.mod_eq_of_lt (by omega)

/-- A task that has sent holds a quorum: the authorities whose handlers returned `Ack`,
with `name` itself, when the doubled total stake fits in `u32`. -/
theorem TaskValid.isQuorum_of_sent {t : WaitTask} (hv : TaskValid committee name t)
    (hfit : 2 * committee.totalStake < 2 ^ 32) (hsent : t.sent = true) :
    IsQuorum committee.weightOf committee.members (insert name t.acked.toFinset ∩ committee.members) := by
  have hthreshold := UInt32.le_iff_toNat_le.mp (hv.sent hsent).1
  rw [hv.totalStake_toNat hfit, ← hv.weight_acked] at hthreshold
  exact committee.isQuorum_inter_members hfit hthreshold

/-- A task's invariant in a run of the waiter of `name`. -/
theorem taskValid_of_run {es : List QuorumWaiterEvent} {q : QuorumWaiter}
    (hrun : run es (spawn committee name) = some q) {t : WaitTask} (ht : t ∈ q.tasks) :
    TaskValid committee name t := by
  obtain ⟨hq, hc, hn⟩ := (Invariant.spawn committee name).run hrun
  have hc' : q.committee = committee := hc
  have hn' : q.name = name := hn
  rw [← hc', ← hn']
  exact hq.tasks t ht

/-- **What is sent was acknowledged by a quorum.**  In every run of the waiter of `name`,
`tx_batch` carries the batch of each task that sent, once each; and for each such task the
authorities whose handlers returned `Ack`, with `name` itself, are a weighted quorum of the
committee, when its doubled total stake fits in `u32`. -/
theorem sent_batches_quorum {es : List QuorumWaiterEvent} {q : QuorumWaiter}
    (hrun : run es (spawn committee name) = some q) (hfit : 2 * committee.totalStake < 2 ^ 32) :
    q.txBatch.Perm ((q.tasks.filter (·.sent)).map (·.batch)) ∧
      ∀ t ∈ q.tasks, t.sent = true →
        IsQuorum committee.weightOf committee.members (insert name t.acked.toFinset ∩ committee.members) := by
  refine ⟨((Invariant.spawn committee name).run hrun).1.txBatch, fun t ht hsent => ?_⟩
  exact (taskValid_of_run hrun ht).isQuorum_of_sent hfit hsent

/-- Four authorities of stake 1: authority 1's batch, acknowledged by authorities 2 and 3. -/
def fourAcks : List QuorumWaiterEvent :=
  [.batch [7], .resolve 0 (PublicKey.ofByte 2) (some ackBytes), .resolve 0 (PublicKey.ofByte 3) (some ackBytes)]

theorem four_acks_quorum :
    ∃ q, run fourAcks (spawn committeeOfFour (PublicKey.ofByte 1)) = some q ∧
      q.txBatch.Perm ((q.tasks.filter (·.sent)).map (·.batch)) ∧
      ∀ t ∈ q.tasks, t.sent = true →
        IsQuorum committeeOfFour.weightOf committeeOfFour.members
          (insert (PublicKey.ofByte 1) t.acked.toFinset ∩ committeeOfFour.members) := by
  obtain ⟨q, hq⟩ : ∃ q, run fourAcks (spawn committeeOfFour (PublicKey.ofByte 1)) = some q :=
    Option.isSome_iff_exists.mp (by decide)
  have hfit : 2 * committeeOfFour.totalStake < 2 ^ 32 := by decide
  exact ⟨q, hq, sent_batches_quorum hq hfit⟩

/-- From any state of the invariant: the futures of a task that has not sent resolve in the
order `order`, each with `result`; once the acknowledging ones bring the weight to the
threshold, the batch goes out. -/
theorem sends_of_reach (hfit : 2 * committee.totalStake < 2 ^ 32) (i : Nat)
    (result : PublicKey → Option (List UInt8)) :
    ∀ (order : List PublicKey) {q : QuorumWaiter} {t : WaitTask}, q.Invariant →
      q.committee = committee → q.name = name → q.tasks[i]? = some t → t.sent = false →
      (t.waiting ≠ [] ∨ t.resolved ≠ []) → order.Perm t.waiting →
      2 * committee.totalStake / 3 + 1 ≤ committee.weightOf name + (t.acked.map committee.weightOf).sum +
        ((order.filter fun n => result n = some ackBytes).map committee.weightOf).sum →
      ∃ k q', run ((order.take k).map fun n => .resolve i n (result n)) q = some q' ∧
        q'.txBatch = q.txBatch ++ [t.batch]
  | [], q, t, hq, hc, hn, ht, _, hstarted, horder, hreach => by
    -- every future has resolved without sending: the total stayed below the threshold
    have hv : TaskValid committee name t := hc ▸ hn ▸ hq.tasks t (List.mem_of_getElem? ht)
    have hwaiting : t.waiting = [] := List.perm_nil.mp horder.symm
    have hresolved : t.resolved ≠ [] := hstarted.resolve_left (· hwaiting)
    have hlt := UInt32.lt_iff_toNat_lt.mp (hv.unsent ‹_› hresolved)
    rw [hv.totalStake_toNat hfit, committee.quorumThreshold_toNat hfit] at hlt
    simp only [List.filter_nil, List.map_nil, List.sum_nil, Nat.add_zero] at hreach
    omega
  | n :: rest, q, t, hq, hc, hn, ht, hunsent, _, horder, hreach => by
    have hmem : n ∈ t.waiting := horder.subset List.mem_cons_self
    have hstep : step q (.resolve i n (result n)) = some { q with
        tasks := q.tasks.set i (t.resolve q.committee n (result n))
        txBatch := if (t.resolve q.committee n (result n)).sent then q.txBatch ++ [t.batch]
          else q.txBatch } := by
      simp only [QuorumWaiter.step, ht, hunsent, Bool.not_false, Bool.true_and, hmem, decide_true,
        if_true]
    have hi : i < q.tasks.length := (List.getElem?_eq_some_iff.mp ht).1
    by_cases hsent : (t.resolve q.committee n (result n)).sent = true
    · -- this acknowledgement reaches the threshold
      refine ⟨1, { q with
        tasks := q.tasks.set i (t.resolve q.committee n (result n))
        txBatch := q.txBatch ++ [t.batch] }, ?_, rfl⟩
      show (step q (.resolve i n (result n))).bind (run []) = _
      rw [hstep, if_pos hsent]
      rfl
    · -- below the threshold: the rest of the order carries on
      have hunsent' : (t.resolve q.committee n (result n)).sent = false := by simpa using hsent
      obtain ⟨hq₁, hc₁, hn₁⟩ := hq.step hstep
      obtain ⟨k, q', hrun, hout⟩ := sends_of_reach hfit i result rest hq₁ (hc₁.trans hc) (hn₁.trans hn)
        (List.getElem?_set_self hi) hunsent' (.inr (by simp [WaitTask.resolve]))
        (by simpa [WaitTask.resolve] using horder.erase n)
        (by
          -- the acknowledgement of `n` moves from the order to the counted ones
          have hsplit : ((n :: rest).filter fun n => result n = some ackBytes).map committee.weightOf =
              (if result n = some ackBytes then [n] else []).map committee.weightOf ++
                (rest.filter fun n => result n = some ackBytes).map committee.weightOf := by
            by_cases h : result n = some ackBytes <;> simp [h]
          rw [hsplit, List.sum_append] at hreach
          rw [hc, WaitTask.acked_resolve, List.map_append, List.sum_append]
          omega)
      refine ⟨k + 1, q', ?_, ?_⟩
      · rw [List.take_succ_cons, List.map_cons]
        show (step q (.resolve i n (result n))).bind _ = _
        rw [hstep, Option.bind_some]
        exact hrun
      · rw [hout]
        show (if (t.resolve q.committee n (result n)).sent then q.txBatch ++ [t.batch] else q.txBatch) ++
          [(t.resolve q.committee n (result n)).batch] = _
        rw [if_neg hsent]
        rfl

/-- **Acknowledgements in any order send the batch.**  In every run of the waiter of
`name`, in a committee with another authority and whose doubled total stake fits in `u32`:
whatever order the pending futures of a task that has not sent resolve in, once the
authorities that acknowledge, with those already counted and `name` itself, hold a quorum's
stake, the batch is sent on `tx_batch`. -/
theorem quorum_acks_send {es : List QuorumWaiterEvent} {q : QuorumWaiter}
    (hrun : run es (spawn committee name) = some q) (hfit : 2 * committee.totalStake < 2 ^ 32)
    (hothers : committee.broadcastAddresses name ≠ []) {i : Nat} {t : WaitTask}
    (ht : q.tasks[i]? = some t) (hunsent : t.sent = false) (order : List PublicKey)
    (horder : order.Perm t.waiting) (result : PublicKey → Option (List UInt8))
    (hreach : 2 * committee.totalStake / 3 + 1 ≤ committee.weightOf name + (t.acked.map committee.weightOf).sum +
      ((order.filter fun n => result n = some ackBytes).map committee.weightOf).sum) :
    ∃ k q', run ((order.take k).map fun n => .resolve i n (result n)) q = some q' ∧
      q'.txBatch = q.txBatch ++ [t.batch] := by
  obtain ⟨hq, hc, hn⟩ := (Invariant.spawn committee name).run hrun
  have hv := taskValid_of_run hrun (List.mem_of_getElem? ht)
  -- a task has a future to wait for, or has resolved one
  have hstarted : t.waiting ≠ [] ∨ t.resolved ≠ [] := by
    by_cases hw : t.waiting = []
    · refine .inr fun hr => hothers ?_
      have hfutures := hv.futures
      rw [hw, hr, List.map_nil, List.append_nil] at hfutures
      exact List.perm_nil.mp hfutures.symm
    · exact .inl hw
  exact sends_of_reach hfit i result order hq hc hn ht hunsent hstarted horder hreach

/-- Authority 1 of four has handed over one batch, and no future has resolved. -/
def fourWaiting : QuorumWaiter :=
  { spawn committeeOfFour (PublicKey.ofByte 1) with
    tasks := [(spawn committeeOfFour (PublicKey.ofByte 1)).spawnTask [7]] }

theorem four_acks_send :
    ∃ k q', run (([PublicKey.ofByte 4, PublicKey.ofByte 2, PublicKey.ofByte 3].take k).map
        fun n => .resolve 0 n (some ackBytes)) fourWaiting = some q' ∧
      q'.txBatch = fourWaiting.txBatch ++ [[7]] := by
  have hrun : run [.batch [7]] (spawn committeeOfFour (PublicKey.ofByte 1)) = some fourWaiting := rfl
  have hfit : 2 * committeeOfFour.totalStake < 2 ^ 32 := by decide
  have hothers : committeeOfFour.broadcastAddresses (PublicKey.ofByte 1) ≠ [] := by decide
  have ht : fourWaiting.tasks[0]? = some ((spawn committeeOfFour (PublicKey.ofByte 1)).spawnTask [7]) :=
    rfl
  have horder : [PublicKey.ofByte 4, PublicKey.ofByte 2, PublicKey.ofByte 3].Perm
      ((spawn committeeOfFour (PublicKey.ofByte 1)).spawnTask [7]).waiting := by decide
  have hreach : 2 * committeeOfFour.totalStake / 3 + 1 ≤ committeeOfFour.weightOf (PublicKey.ofByte 1) +
      (((spawn committeeOfFour (PublicKey.ofByte 1)).spawnTask [7]).acked.map committeeOfFour.weightOf).sum +
      (([PublicKey.ofByte 4, PublicKey.ofByte 2, PublicKey.ofByte 3].filter
        fun _ => some ackBytes = some ackBytes).map committeeOfFour.weightOf).sum := by decide
  exact quorum_acks_send hrun hfit hothers ht rfl _ horder (fun _ => some ackBytes) hreach

/-- **An authority alone never sends.**  When the committee has no authority but `name`,
nothing is ever sent on `tx_batch`, whatever `name`'s stake: each task has no future to
wait for. -/
theorem alone_never_sends {es : List QuorumWaiterEvent} {q : QuorumWaiter}
    (halone : committee.broadcastAddresses name = []) (hrun : run es (spawn committee name) = some q) :
    q.txBatch = [] := by
  have hq := ((Invariant.spawn committee name).run hrun).1
  have hnone : q.tasks.filter (·.sent) = [] := by
    rw [List.filter_eq_nil_iff]
    intro t ht hsent
    have hv := taskValid_of_run hrun ht
    have hfutures := hv.futures
    rw [halone, List.perm_nil, List.append_eq_nil_iff, List.map_eq_nil_iff] at hfutures
    exact (hv.sent hsent).2 hfutures.2
  have htx := hq.txBatch
  rw [hnone, List.map_nil] at htx
  exact List.perm_nil.mp htx

theorem solo_never_sends :
    ∃ q, run [.batch [7], .batch [8]] (spawn (Committee.solo (PublicKey.ofByte 1) 5) (PublicKey.ofByte 1)) =
      some q ∧ q.txBatch = [] := by
  have halone : (Committee.solo (PublicKey.ofByte 1) 5).broadcastAddresses (PublicKey.ofByte 1) = [] := by
    decide
  obtain ⟨q, hq⟩ : ∃ q, run [.batch [7], .batch [8]]
      (spawn (Committee.solo (PublicKey.ofByte 1) 5) (PublicKey.ofByte 1)) = some q := ⟨_, rfl⟩
  exact ⟨q, hq, alone_never_sends halone hq⟩

end Quorum

end QuorumWaiter

end SafeStake.Mempool
