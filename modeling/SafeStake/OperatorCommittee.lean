import SafeStake.Notify
import SafeStake.ListIndex

/-! # Waiting for consensus in the operator committee

`HotstuffOperatorCommittee::consensus(msg)` is how a validator's duty waits until its
operators agree on `msg`.  Under the write lock of `consensus_notifications` it takes the
`Notify` of `msg`, or inserts a new one; it proposes `msg` to every operator; it awaits
`notify.notified()`; and once woken it removes `msg` from the map and returns `Ok(())`.
The loop spawned by `HotstuffOperatorCommittee::new` receives each agreed value from
`rx_consensus` and, under the same lock, calls `notify_one()` on the value's `Notify` if the
map has one.  A value with no entry is dropped.

The model interleaves any number of calls with the loop.  Each call is three atomic steps:
the two sections under the lock, and the first poll of `notified()`.  The proposals change
none of this state and are left out.  A `Notify` is an index into `notifies`, which holds
every `Arc<Notify>` created so far with the message it was created for, so that a call still
holds its `Notify` after the map has dropped it.  `signalled` records the values the loop
called `notify_one()` for.

In every state that a run from `new` reaches (`Valid.run`):

* **no call returns without agreement**: the calls of `consensus(msg)` that have returned
  are at most the `notify_one()`s for `msg`, which are at most the values `msg` received
  (`consensus_returns_le_received`);
* **an orphaned call never returns**: a call that waits on a `Notify` that the map no longer
  holds waits forever, whatever follows (`orphaned_call_waits_forever`).  Two concurrent
  calls of one message reach this: the first to return removes the entry that the second
  waits on (`second_call_orphaned`).
-/

namespace SafeStake.Validation

open ListIndex

/-! ## The model -/

/-- `Hash256`, the 32 bytes of a signing root. -/
abbrev Hash256 := Vector UInt8 32

/-- `Hash256::zero()`. -/
def Hash256.zero : Hash256 := Vector.replicate 32 0

/-- Where a call of `consensus(msg)` stands. -/
inductive CallPhase where
  /-- holds its `Notify` and proposes `msg` to the operators -/
  | proposing
  /-- awaits `notify.notified()`, which found no permit -/
  | waiting
  /-- `notified()` has completed -/
  | woken
  /-- has removed `msg` from the map and returned `Ok(())` -/
  | returned
deriving DecidableEq, Repr

/-- `notified()` has completed for the call. -/
def CallPhase.awake : CallPhase → Bool
  | .woken | .returned => true
  | .proposing | .waiting => false

@[simp] theorem CallPhase.awake_proposing : CallPhase.proposing.awake = false := rfl
@[simp] theorem CallPhase.awake_waiting : CallPhase.waiting.awake = false := rfl
@[simp] theorem CallPhase.awake_woken : CallPhase.woken.awake = true := rfl
@[simp] theorem CallPhase.awake_returned : CallPhase.returned.awake = true := rfl

/-- One call of `consensus(msg)`: its message, the `Notify` it holds, and where it stands. -/
structure Call where
  msg : Hash256
  notify : Nat
  phase : CallPhase
deriving DecidableEq, Repr

/-- The state that `consensus` shares with the receiver loop. -/
structure HotstuffOperatorCommittee where
  /-- `consensus_notifications`, from a message to its `Notify` -/
  consensusNotifications : List (Hash256 × Nat)
  /-- every `Notify` created, with the message it was created for -/
  notifies : List (Hash256 × Notify.State Nat)
  calls : List Call
  /-- the values received from `rx_consensus` -/
  received : List Hash256
  /-- the values for which the loop called `notify_one()` -/
  signalled : List Hash256
deriving DecidableEq, Repr

/-- What can happen next. -/
inductive CommitteeEvent where
  /-- a call of `consensus(msg)` takes its `Notify` and proposes -/
  | consensus (msg : Hash256)
  /-- the call `i`, having proposed, polls `notify.notified()` -/
  | notified (i : Nat)
  /-- the call `i`, woken, removes its message from the map and returns -/
  | remove (i : Nat)
  /-- the receiver loop takes `value` from `rx_consensus` -/
  | recv (value : Hash256)
deriving DecidableEq, Repr

namespace HotstuffOperatorCommittee

/-- `HotstuffOperatorCommittee::new`: an empty map and no calls. -/
def new : HotstuffOperatorCommittee := ⟨[], [], [], [], []⟩

/-- The first block of `consensus(msg)`: under the write lock, the `Notify` of `msg`, or a
new one inserted for it.  The call then proposes `msg`. -/
def consensus (s : HotstuffOperatorCommittee) (msg : Hash256) : HotstuffOperatorCommittee :=
  match s.consensusNotifications.lookup msg with
  | some n => { s with calls := s.calls ++ [⟨msg, n, .proposing⟩] }
  | none =>
    { s with
      consensusNotifications := s.consensusNotifications ++ [(msg, s.notifies.length)]
      notifies := s.notifies ++ [(msg, Notify.State.new)]
      calls := s.calls ++ [⟨msg, s.notifies.length, .proposing⟩] }

/-- `notify.notified().await` by the call `i` once it has proposed: it returns at once on a
stored permit, and otherwise waits.  (A call always holds a `Notify`: `Valid.calls`.) -/
def notified (s : HotstuffOperatorCommittee) (i : Nat) : Option HotstuffOperatorCommittee :=
  match s.calls[i]? with
  | some c =>
    if c.phase = .proposing then
      match s.notifies[c.notify]? with
      | some (m, x) =>
        some { s with
          notifies := s.notifies.set c.notify (m, (x.notified i).1)
          calls := s.calls.set i
            { c with phase := if (x.notified i).2 then .woken else .waiting } }
      | none => none
    else none
  | none => none

/-- The end of `consensus(msg)` for the call `i` once `notified()` has completed: under the
write lock, `notes.remove(&msg)`, then `Ok(())`. -/
def remove (s : HotstuffOperatorCommittee) (i : Nat) : Option HotstuffOperatorCommittee :=
  match s.calls[i]? with
  | some c =>
    if c.phase = .woken then
      some { s with
        consensusNotifications := s.consensusNotifications.filter (·.1 != c.msg)
        calls := s.calls.set i { c with phase := .returned } }
    else none
  | none => none

/-- The call that `notify_one()` wakes, if any: its `notified()` completes. -/
def wake (calls : List Call) : Option Nat → List Call
  | some j => calls.modify j fun c => { c with phase := .woken }
  | none => calls

/-- The receiver loop takes `value` from `rx_consensus`: under the write lock,
`notify_one()` on the `Notify` of `value` if the map has one; otherwise the value is
dropped.  (An entry always names a `Notify`: `Valid.notes`.) -/
def recv (s : HotstuffOperatorCommittee) (value : Hash256) : Option HotstuffOperatorCommittee :=
  match s.consensusNotifications.lookup value with
  | none => some { s with received := s.received ++ [value] }
  | some n =>
    match s.notifies[n]? with
    | some (m, x) =>
      some { s with
        notifies := s.notifies.set n (m, x.notifyOne.1)
        calls := wake s.calls x.notifyOne.2
        received := s.received ++ [value]
        signalled := s.signalled ++ [value] }
    | none => none

/-- One step, `none` when the event cannot happen. -/
def step (s : HotstuffOperatorCommittee) : CommitteeEvent → Option HotstuffOperatorCommittee
  | .consensus msg => some (s.consensus msg)
  | .notified i => s.notified i
  | .remove i => s.remove i
  | .recv value => s.recv value

/-- The committee over a list of events; `none` when one of them cannot happen. -/
def run : List CommitteeEvent → HotstuffOperatorCommittee → Option HotstuffOperatorCommittee
  | [], s => some s
  | e :: es, s => (s.step e).bind (run es)

/-! ## What one step does -/

/-- The effect of a step that happens. -/
inductive Effect (s : HotstuffOperatorCommittee) : HotstuffOperatorCommittee → Prop
  | consensus (msg : Hash256) : Effect s (s.consensus msg)
  | notified {i : Nat} {c : Call} {m : Hash256} {x : Notify.State Nat} :
      s.calls[i]? = some c → c.phase = .proposing → s.notifies[c.notify]? = some (m, x) →
      Effect s { s with
        notifies := s.notifies.set c.notify (m, (x.notified i).1)
        calls := s.calls.set i { c with phase := if (x.notified i).2 then .woken else .waiting } }
  | remove {i : Nat} {c : Call} : s.calls[i]? = some c → c.phase = .woken →
      Effect s { s with
        consensusNotifications := s.consensusNotifications.filter (·.1 != c.msg)
        calls := s.calls.set i { c with phase := .returned } }
  | drop {value : Hash256} : s.consensusNotifications.lookup value = none →
      Effect s { s with received := s.received ++ [value] }
  | signal {value : Hash256} {n : Nat} {m : Hash256} {x : Notify.State Nat} :
      s.consensusNotifications.lookup value = some n → s.notifies[n]? = some (m, x) →
      Effect s { s with
        notifies := s.notifies.set n (m, x.notifyOne.1)
        calls := wake s.calls x.notifyOne.2
        received := s.received ++ [value]
        signalled := s.signalled ++ [value] }

theorem step_effect {s s' : HotstuffOperatorCommittee} {e : CommitteeEvent}
    (h : s.step e = some s') : Effect s s' := by
  cases e with
  | consensus msg =>
    cases h
    exact .consensus msg
  | notified i =>
    simp only [step, notified] at h
    split at h
    · rename_i c hc
      split at h
      · rename_i hp
        split at h
        · rename_i m x hx
          cases h
          exact .notified hc hp hx
        · cases h
      · cases h
    · cases h
  | remove i =>
    simp only [step, remove] at h
    split at h
    · rename_i c hc
      split at h
      · rename_i hp
        cases h
        exact .remove hc hp
      · cases h
    · cases h
  | recv value =>
    simp only [step, recv] at h
    split at h
    · rename_i hn
      cases h
      exact .drop hn
    · rename_i n hn
      split at h
      · rename_i m x hx
        cases h
        exact .signal hn hx
      · cases h

/-! ## The invariant -/

/-- The calls of `m` whose `notified()` has completed. -/
def awakeCount (s : HotstuffOperatorCommittee) (m : Hash256) : Nat :=
  s.calls.countP fun c => c.msg == m && c.phase.awake

/-- The permits stored in the `Notify`s created for `m`. -/
def permitCount (s : HotstuffOperatorCommittee) (m : Hash256) : Nat :=
  s.notifies.countP fun e => e.1 == m && e.2.permit

/-- What every state a run reaches satisfies. -/
structure Valid (s : HotstuffOperatorCommittee) : Prop where
  /-- the map sends each message to a `Notify` created for it -/
  notes : ∀ e ∈ s.consensusNotifications, (s.notifies.map Prod.fst)[e.2]? = some e.1
  /-- each call holds a `Notify` created for its message -/
  calls : ∀ c ∈ s.calls, (s.notifies.map Prod.fst)[c.notify]? = some c.msg
  /-- the tasks waiting on a `Notify` are distinct calls that hold it and wait -/
  waiters : ∀ (n : Nat) (m : Hash256) (x : Notify.State Nat), s.notifies[n]? = some (m, x) →
    x.waiters.Nodup ∧ ∀ j ∈ x.waiters, ∃ c : Call, s.calls[j]? = some c ∧ c.notify = n ∧
      c.phase = .waiting
  signalled : s.signalled.Sublist s.received
  /-- the calls of `m` woken, with the permits stored for `m`, are at most the
  `notify_one()`s for `m` -/
  accounted : ∀ m, awakeCount s m + permitCount s m ≤ s.signalled.count m

theorem Valid.new : new.Valid := by
  refine ⟨?_, ?_, ?_, List.Sublist.refl _, ?_⟩
  · intro e he
    cases he
  · intro c hc
    cases hc
  · intro n m x hx
    cases hx
  · intro m
    exact Nat.le_refl _

/-- A call's message is that of the `Notify` it holds. -/
theorem Valid.msg_of_call {s : HotstuffOperatorCommittee} (hs : s.Valid) {i : Nat} {c : Call}
    (hc : s.calls[i]? = some c) {m : Hash256} {x : Notify.State Nat}
    (hx : s.notifies[c.notify]? = some (m, x)) : m = c.msg := by
  have hmsg := hs.calls c (List.mem_of_getElem? hc)
  rw [List.getElem?_map, hx] at hmsg
  exact Option.some.inj hmsg

/-- A call that does not wait is on no `Notify`'s queue. -/
theorem Valid.not_waiter {s : HotstuffOperatorCommittee} (hs : s.Valid) {i : Nat} {c : Call}
    (hc : s.calls[i]? = some c) (hp : c.phase ≠ .waiting) {n : Nat} {m : Hash256}
    {x : Notify.State Nat} (hx : s.notifies[n]? = some (m, x)) : i ∉ x.waiters := by
  intro hi
  obtain ⟨c', hc', -, hwait⟩ := (hs.waiters n m x hx).2 i hi
  rw [hc] at hc'
  cases hc'
  exact hp hwait

theorem Valid.consensus {s : HotstuffOperatorCommittee} (hs : s.Valid) (msg : Hash256) :
    (s.consensus msg).Valid := by
  unfold HotstuffOperatorCommittee.consensus
  split
  · -- the call joins the `Notify` the map holds for `msg`
    rename_i n hn
    have hmsg := hs.notes _ (mem_of_lookup hn)
    refine ⟨hs.notes, ?_, ?_, hs.signalled, ?_⟩
    · intro c hc
      rcases List.mem_append.mp hc with hc | hc
      · exact hs.calls c hc
      · rw [List.mem_singleton.mp hc]
        exact hmsg
    · intro n' m x hx
      obtain ⟨hnd, hw⟩ := hs.waiters n' m x hx
      refine ⟨hnd, fun j hj => ?_⟩
      obtain ⟨c, hc, hcn⟩ := hw j hj
      exact ⟨c, getElem?_append_of_some hc _, hcn⟩
    · intro m
      have hm := hs.accounted m
      simpa [awakeCount, permitCount, List.countP_append, CallPhase.awake] using hm
  · -- a new `Notify`, at the end of `notifies`
    have hnew : ∀ {k : Nat} {m : Hash256}, (s.notifies.map Prod.fst)[k]? = some m →
        ((s.notifies ++ [(msg, Notify.State.new)]).map Prod.fst)[k]? = some m := by
      intro k m hk
      rw [List.map_append]
      exact getElem?_append_of_some hk _
    have hlast : ((s.notifies ++ [(msg, Notify.State.new)]).map Prod.fst)[s.notifies.length]? =
        some msg := by simp
    refine ⟨?_, ?_, ?_, hs.signalled, ?_⟩
    · intro e he
      rcases List.mem_append.mp he with he | he
      · exact hnew (hs.notes e he)
      · rw [List.mem_singleton.mp he]
        exact hlast
    · intro c hc
      rcases List.mem_append.mp hc with hc | hc
      · exact hnew (hs.calls c hc)
      · rw [List.mem_singleton.mp hc]
        exact hlast
    · intro n m x hx
      by_cases hn : n < s.notifies.length
      · rw [List.getElem?_append_left hn] at hx
        obtain ⟨hnd, hw⟩ := hs.waiters n m x hx
        refine ⟨hnd, fun j hj => ?_⟩
        obtain ⟨c, hc, hcn⟩ := hw j hj
        exact ⟨c, getElem?_append_of_some hc _, hcn⟩
      · rw [List.getElem?_append_right (Nat.le_of_not_lt hn), List.getElem?_singleton] at hx
        split at hx
        · cases hx
          exact ⟨List.nodup_nil, fun j hj => absurd hj List.not_mem_nil⟩
        · cases hx
    · intro m
      have hm := hs.accounted m
      simpa [awakeCount, permitCount, List.countP_append, CallPhase.awake, Notify.State.new]
        using hm

theorem Valid.notified {s : HotstuffOperatorCommittee} (hs : s.Valid) {i : Nat} {c : Call}
    {m : Hash256} {x : Notify.State Nat} (hc : s.calls[i]? = some c) (hp : c.phase = .proposing)
    (hx : s.notifies[c.notify]? = some (m, x)) :
    ({ s with
        notifies := s.notifies.set c.notify (m, (x.notified i).1)
        calls := s.calls.set i { c with phase := if (x.notified i).2 then .woken else .waiting } } :
      HotstuffOperatorCommittee).Valid := by
  have hm := hs.msg_of_call hc hx
  have hfst := map_fst_set hx (x.notified i).1
  have hnotin : ∀ {n : Nat} {m' : Hash256} {x' : Notify.State Nat},
      s.notifies[n]? = some (m', x') → i ∉ x'.waiters :=
    fun hx' => hs.not_waiter hc (by rw [hp]; exact nofun) hx'
  have hhandout := Notify.State.notified_handout x i
  refine ⟨?_, ?_, ?_, hs.signalled, ?_⟩
  · simp only [hfst]
    exact hs.notes
  · intro d hd
    simp only [hfst]
    rcases List.mem_or_eq_of_mem_set hd with hd | rfl
    · exact hs.calls d hd
    · exact hs.calls c (List.mem_of_getElem? hc)
  · intro n m' x' hx'
    rw [List.getElem?_set] at hx'
    by_cases hn : c.notify = n
    · -- the `Notify` polled: its queue gains the call unless a permit was stored
      subst hn
      rw [if_pos rfl, if_pos (List.getElem?_eq_some_iff.mp hx).1] at hx'
      cases hx'
      obtain ⟨hnd, hw⟩ := hs.waiters c.notify m x hx
      rw [hhandout.2]
      cases hpermit : x.permit
      · refine ⟨List.nodup_append.mpr ⟨hnd, List.pairwise_singleton _ i, fun a ha b hb hab => ?_⟩, ?_⟩
        · rw [List.mem_singleton.mp hb] at hab
          exact hnotin hx (hab ▸ ha)
        · intro j hj
          rcases List.mem_append.mp hj with hj | hj
          · obtain ⟨d, hd, hdn⟩ := hw j hj
            have hij : i ≠ j := fun hij => hnotin hx (hij ▸ hj)
            exact ⟨d, by rw [List.getElem?_set_ne hij]; exact hd, hdn⟩
          · rw [List.mem_singleton.mp hj, List.getElem?_set_self (List.getElem?_eq_some_iff.mp hc).1]
            unfold Notify.State.notified
            simp [hpermit]
      · refine ⟨hnd, fun j hj => ?_⟩
        obtain ⟨d, hd, hdn⟩ := hw j hj
        have hij : i ≠ j := fun hij => hnotin hx (hij ▸ hj)
        exact ⟨d, by rw [List.getElem?_set_ne hij]; exact hd, hdn⟩
    · rw [if_neg hn] at hx'
      obtain ⟨hnd, hw⟩ := hs.waiters n m' x' hx'
      refine ⟨hnd, fun j hj => ?_⟩
      obtain ⟨d, hd, hdn⟩ := hw j hj
      have hij : i ≠ j := fun hij => hnotin hx' (hij ▸ hj)
      exact ⟨d, by rw [List.getElem?_set_ne hij]; exact hd, hdn⟩
  · -- the call woken now spends the permit it found
    intro m₀
    have hold := hs.accounted m₀
    have hcalls := countP_set_add (p := fun c => c.msg == m₀ && c.phase.awake)
      (a := { c with phase := if (x.notified i).2 then .woken else .waiting }) hc
    have hnotifies := countP_set_add (p := fun e => e.1 == m₀ && e.2.permit)
      (a := (m, (x.notified i).1)) hx
    have hawake : (if (x.notified i).2 then CallPhase.woken else .waiting).awake =
        (x.notified i).2 := by
      cases (x.notified i).2 <;> rfl
    simp only [awakeCount, permitCount] at hold ⊢
    simp only [hp, hawake, CallPhase.awake_proposing, Bool.and_false] at hcalls
    rw [hm] at hnotifies ⊢
    have hspent := hhandout.1
    cases hmsg : c.msg == m₀ <;>
      simp only [hmsg, Bool.false_and, Bool.true_and, Bool.toNat_false] at hcalls hnotifies <;>
      omega

theorem Valid.remove {s : HotstuffOperatorCommittee} (hs : s.Valid) {i : Nat} {c : Call}
    (hc : s.calls[i]? = some c) (hp : c.phase = .woken) :
    ({ s with
        consensusNotifications := s.consensusNotifications.filter (·.1 != c.msg)
        calls := s.calls.set i { c with phase := .returned } } : HotstuffOperatorCommittee).Valid := by
  refine ⟨fun e he => hs.notes e (List.mem_of_mem_filter he), ?_, ?_, hs.signalled, ?_⟩
  · intro d hd
    rcases List.mem_or_eq_of_mem_set hd with hd | rfl
    · exact hs.calls d hd
    · exact hs.calls c (List.mem_of_getElem? hc)
  · intro n m x hx
    obtain ⟨hnd, hw⟩ := hs.waiters n m x hx
    refine ⟨hnd, fun j hj => ?_⟩
    obtain ⟨d, hd, hdn⟩ := hw j hj
    have hij : i ≠ j := fun hij => hs.not_waiter hc (by rw [hp]; exact nofun) hx (hij ▸ hj)
    exact ⟨d, by rw [List.getElem?_set_ne hij]; exact hd, hdn⟩
  · -- a returned call was already awake
    intro m₀
    have hold := hs.accounted m₀
    have hcalls := countP_set_add (p := fun c => c.msg == m₀ && c.phase.awake)
      (a := { c with phase := .returned }) hc
    simp only [awakeCount, permitCount, hp, CallPhase.awake_woken, CallPhase.awake_returned]
      at hold hcalls ⊢
    omega

theorem Valid.drop {s : HotstuffOperatorCommittee} (hs : s.Valid) (value : Hash256) :
    ({ s with received := s.received ++ [value] } : HotstuffOperatorCommittee).Valid :=
  ⟨hs.notes, hs.calls, hs.waiters, hs.signalled.trans (List.sublist_append_left _ _), hs.accounted⟩

theorem Valid.signal {s : HotstuffOperatorCommittee} (hs : s.Valid) {value : Hash256} {n : Nat}
    {m : Hash256} {x : Notify.State Nat} (hn : s.consensusNotifications.lookup value = some n)
    (hx : s.notifies[n]? = some (m, x)) :
    ({ s with
        notifies := s.notifies.set n (m, x.notifyOne.1)
        calls := wake s.calls x.notifyOne.2
        received := s.received ++ [value]
        signalled := s.signalled ++ [value] } : HotstuffOperatorCommittee).Valid := by
  have hm : m = value := by
    have hnote := hs.notes _ (mem_of_lookup hn)
    rw [List.getElem?_map, hx] at hnote
    exact Option.some.inj hnote
  subst hm
  have hfst := map_fst_set hx x.notifyOne.1
  have hsig : (s.signalled ++ [m]).Sublist (s.received ++ [m]) :=
    hs.signalled.append (List.Sublist.refl _)
  have hpermits := fun m₀ => countP_set_add (p := fun e => e.1 == m₀ && e.2.permit)
    (a := (m, x.notifyOne.1)) hx
  obtain ⟨hnd, hw⟩ := hs.waiters n m x hx
  rcases Notify.State.notifyOne_waiters x with ⟨hnone, hempty, hx₁⟩ | ⟨j, rest, hjrest, hsome, hx₁⟩
  · -- no call waits: the permit is stored
    rw [hnone]
    refine ⟨?_, ?_, ?_, hsig, ?_⟩
    · simp only [hfst]
      exact hs.notes
    · simp only [hfst]
      exact hs.calls
    · intro n' m' x' hx'
      rw [List.getElem?_set] at hx'
      by_cases hn' : n = n'
      · rw [if_pos hn', if_pos (List.getElem?_eq_some_iff.mp hx).1] at hx'
        cases hx'
        rw [hx₁]
        exact ⟨List.nodup_nil, fun j hj => absurd hj List.not_mem_nil⟩
      · rw [if_neg hn'] at hx'
        exact hs.waiters n' m' x' hx'
    · intro m₀
      have hold := hs.accounted m₀
      have hp := hpermits m₀
      simp only [awakeCount, permitCount, wake, hx₁, List.count_append, List.count_singleton,
        Bool.and_true] at hold hp ⊢
      cases hv : m == m₀ <;>
        simp only [hv, Bool.false_and, Bool.true_and, Bool.toNat_false, Bool.toNat_true,
          Bool.false_eq_true, if_false, if_true] at hp ⊢ <;>
        omega
  · -- the call that has waited longest is woken
    rw [hsome]
    have hj : j ∈ x.waiters := by
      rw [hjrest]
      exact List.mem_cons_self
    obtain ⟨cj, hcj, hcjn, hcjw⟩ := hw j hj
    have hcjm : m = cj.msg := hs.msg_of_call hcj (by rw [hcjn]; exact hx)
    have hwake : wake s.calls (some j) = s.calls.set j { cj with phase := .woken } :=
      modify_of_getElem? hcj _
    rw [hwake]
    refine ⟨?_, ?_, ?_, hsig, ?_⟩
    · simp only [hfst]
      exact hs.notes
    · intro d hd
      simp only [hfst]
      rcases List.mem_or_eq_of_mem_set hd with hd | rfl
      · exact hs.calls d hd
      · exact hs.calls cj (List.mem_of_getElem? hcj)
    · intro n' m' x' hx'
      rw [List.getElem?_set] at hx'
      by_cases hn' : n = n'
      · subst hn'
        rw [if_pos rfl, if_pos (List.getElem?_eq_some_iff.mp hx).1] at hx'
        cases hx'
        rw [hx₁]
        rw [hjrest] at hnd hw
        obtain ⟨hjnot, hrest⟩ := List.nodup_cons.mp hnd
        refine ⟨hrest, fun k hk => ?_⟩
        obtain ⟨d, hd, hdn⟩ := hw k (List.mem_cons_of_mem j hk)
        have hjk : j ≠ k := fun hjk => hjnot (hjk ▸ hk)
        exact ⟨d, by rw [List.getElem?_set_ne hjk]; exact hd, hdn⟩
      · rw [if_neg hn'] at hx'
        obtain ⟨hnd', hw'⟩ := hs.waiters n' m' x' hx'
        refine ⟨hnd', fun k hk => ?_⟩
        obtain ⟨d, hd, hdn, hdw⟩ := hw' k hk
        -- the woken call holds the other `Notify`
        have hjk : j ≠ k := by
          rintro rfl
          rw [hcj] at hd
          cases hd
          exact hn' (hcjn.symm.trans hdn)
        exact ⟨d, by rw [List.getElem?_set_ne hjk]; exact hd, hdn, hdw⟩
    · intro m₀
      have hold := hs.accounted m₀
      have hp := hpermits m₀
      have hcalls := countP_set_add (p := fun c => c.msg == m₀ && c.phase.awake)
        (a := { cj with phase := .woken }) hcj
      simp only [awakeCount, permitCount, hx₁, hcjw, CallPhase.awake_waiting,
        CallPhase.awake_woken, List.count_append, List.count_singleton, Bool.and_false,
        Bool.and_true, Bool.toNat_false] at hold hp hcalls ⊢
      rw [← hcjm] at hcalls ⊢
      cases hv : m == m₀ <;>
        simp only [hv, Bool.toNat_false, Bool.toNat_true, Bool.false_eq_true, if_false,
          if_true] at hcalls ⊢ <;>
        omega

theorem Effect.valid {s s' : HotstuffOperatorCommittee} (he : Effect s s') (hs : s.Valid) :
    s'.Valid := by
  cases he with
  | consensus msg => exact hs.consensus msg
  | notified hc hp hx => exact hs.notified hc hp hx
  | remove hc hp => exact hs.remove hc hp
  | @drop value _ => exact hs.drop value
  | signal hn hx => exact hs.signal hn hx

theorem Valid.run {es : List CommitteeEvent} :
    ∀ {s s' : HotstuffOperatorCommittee}, s.Valid → run es s = some s' → s'.Valid := by
  induction es with
  | nil =>
    intro s s' hs h
    cases h
    exact hs
  | cons e es ih =>
    intro s s' hs h
    obtain ⟨s₁, h₁, h⟩ := Option.bind_eq_some_iff.mp h
    exact ih ((step_effect h₁).valid hs) h

/-- **No call returns without agreement.**  In every state a run reaches, the calls of
`consensus(msg)` that have returned are at most the `notify_one()`s the loop made for `msg`,
and these at most the times it received `msg`. -/
theorem consensus_returns_le_received {es : List CommitteeEvent} {s : HotstuffOperatorCommittee}
    (hs : run es new = some s) (m : Hash256) :
    s.calls.countP (fun c => c.msg == m && c.phase == .returned) ≤ s.signalled.count m ∧
      s.signalled.count m ≤ s.received.count m := by
  have hv := Valid.new.run hs
  have hreturned : s.calls.countP (fun c => c.msg == m && c.phase == .returned) ≤ awakeCount s m := by
    apply List.countP_mono_left
    intro c _ hc
    cases hphase : c.phase <;> simp_all [CallPhase.awake]
  have hacc := hv.accounted m
  exact ⟨by omega, hv.signalled.count_le m⟩

/-- One call of `consensus(0)` that finds the value already received. -/
def returnedRun : List CommitteeEvent :=
  [.consensus Hash256.zero, .recv Hash256.zero, .notified 0, .remove 0]

theorem one_value_one_return :
    ∃ s, run returnedRun new = some s ∧
      s.calls.countP (fun c => c.msg == Hash256.zero && c.phase == .returned) ≤
        s.signalled.count Hash256.zero ∧
      s.signalled.count Hash256.zero ≤ s.received.count Hash256.zero := by
  obtain ⟨s, hs⟩ : ∃ s, run returnedRun new = some s := Option.isSome_iff_exists.mp (by decide)
  exact ⟨s, hs, consensus_returns_le_received hs Hash256.zero⟩

/-! ## Orphaned calls -/

/-- The call `i` is `c`, waiting on a `Notify` that the map no longer holds. -/
structure Orphaned (s : HotstuffOperatorCommittee) (i : Nat) (c : Call) : Prop where
  call : s.calls[i]? = some c
  waiting : c.phase = .waiting
  dropped : ∀ e ∈ s.consensusNotifications, e.2 ≠ c.notify

theorem Effect.orphaned {s s' : HotstuffOperatorCommittee} (he : Effect s s') (hs : s.Valid)
    {i : Nat} {c : Call} (ho : Orphaned s i c) : Orphaned s' i c := by
  cases he with
  | consensus msg =>
    unfold HotstuffOperatorCommittee.consensus
    split
    · exact ⟨getElem?_append_of_some ho.call _, ho.waiting, ho.dropped⟩
    · -- the new `Notify` is not the one the call holds
      have hlt : c.notify < s.notifies.length := by
        have hheld := hs.calls c (List.mem_of_getElem? ho.call)
        simpa using (List.getElem?_eq_some_iff.mp hheld).1
      refine ⟨getElem?_append_of_some ho.call _, ho.waiting, fun e he => ?_⟩
      rcases List.mem_append.mp he with he | he
      · exact ho.dropped e he
      · rw [List.mem_singleton.mp he]
        exact Nat.ne_of_gt hlt
  | @notified j d m x hd hp hx =>
    have hji : j ≠ i := by
      rintro rfl
      rw [ho.call] at hd
      cases hd
      rw [ho.waiting] at hp
      cases hp
    exact ⟨by rw [List.getElem?_set_ne hji]; exact ho.call, ho.waiting, ho.dropped⟩
  | @remove j d hd hp =>
    have hji : j ≠ i := by
      rintro rfl
      rw [ho.call] at hd
      cases hd
      rw [ho.waiting] at hp
      cases hp
    exact ⟨by rw [List.getElem?_set_ne hji]; exact ho.call, ho.waiting,
      fun e he => ho.dropped e (List.mem_of_mem_filter he)⟩
  | drop _ => exact ⟨ho.call, ho.waiting, ho.dropped⟩
  | @signal value n m x hn hx =>
    -- the value's `Notify` is not the call's, so neither is the call it wakes
    have hn' : n ≠ c.notify := ho.dropped _ (mem_of_lookup hn)
    refine ⟨?_, ho.waiting, ho.dropped⟩
    show (wake s.calls x.notifyOne.2)[i]? = some c
    rcases Notify.State.notifyOne_waiters x with ⟨hnone, -, -⟩ | ⟨j, rest, hjrest, hsome, -⟩
    · rw [hnone]
      exact ho.call
    · rw [hsome]
      obtain ⟨d, hd, hdn, -⟩ := (hs.waiters n m x hx).2 j (by rw [hjrest]; exact List.mem_cons_self)
      have hji : j ≠ i := by
        rintro rfl
        rw [ho.call] at hd
        cases hd
        exact hn' hdn.symm
      exact (List.getElem?_modify_ne _ _ hji).trans ho.call

theorem Orphaned.run {es : List CommitteeEvent} :
    ∀ {s s' : HotstuffOperatorCommittee} {i : Nat} {c : Call}, s.Valid → Orphaned s i c →
      run es s = some s' → Orphaned s' i c := by
  induction es with
  | nil =>
    intro s s' i c _ ho h
    cases h
    exact ho
  | cons e es ih =>
    intro s s' i c hs ho h
    obtain ⟨s₁, h₁, h⟩ := Option.bind_eq_some_iff.mp h
    have he := step_effect h₁
    exact ih (he.valid hs) (he.orphaned hs ho) h

/-- **An orphaned call never returns.**  In every state a run reaches, a call of
`consensus(msg)` that waits on a `Notify` the map no longer holds stays as it is, waiting,
whatever the calls and the loop do next: no value received can reach its `Notify`. -/
theorem orphaned_call_waits_forever {es es' : List CommitteeEvent}
    {s s' : HotstuffOperatorCommittee} {i : Nat} {c : Call} (hs : run es new = some s)
    (hc : s.calls[i]? = some c) (hwait : c.phase = .waiting)
    (horphan : ∀ e ∈ s.consensusNotifications, e.2 ≠ c.notify) (hs' : run es' s = some s') :
    s'.calls[i]? = some c :=
  (Orphaned.run (Valid.new.run hs) ⟨hc, hwait, horphan⟩ hs').call

/-- Two calls of `consensus(0)` wait on one `Notify`; the one value received wakes the
first, which removes the entry. -/
def orphanRun : List CommitteeEvent :=
  [.consensus Hash256.zero, .consensus Hash256.zero, .notified 0, .notified 1,
    .recv Hash256.zero, .remove 0]

theorem second_call_orphaned :
    ∃ s, run orphanRun new = some s ∧ s.calls[1]? = some ⟨Hash256.zero, 0, .waiting⟩ ∧
      ∀ es' s', run es' s = some s' → s'.calls[1]? = some ⟨Hash256.zero, 0, .waiting⟩ := by
  obtain ⟨s, hs⟩ : ∃ s, run orphanRun new = some s := Option.isSome_iff_exists.mp (by decide)
  have hc : s.calls[1]? = some ⟨Hash256.zero, 0, .waiting⟩ := by
    have hcall : (run orphanRun new).bind (fun s => s.calls[1]?) =
        some ⟨Hash256.zero, 0, .waiting⟩ := by decide
    rw [hs] at hcall
    exact hcall
  have hnotes : s.consensusNotifications = [] := by
    have hmap : (run orphanRun new).map (·.consensusNotifications) = some [] := by decide
    rw [hs] at hmap
    exact Option.some.inj hmap
  have horphan : ∀ e ∈ s.consensusNotifications, e.2 ≠ (⟨Hash256.zero, 0, .waiting⟩ : Call).notify := by
    rw [hnotes]
    intro e he
    cases he
  exact ⟨s, hs, hc, fun es' s' hs' => orphaned_call_waits_forever hs hc rfl horphan hs'⟩

end HotstuffOperatorCommittee

end SafeStake.Validation
