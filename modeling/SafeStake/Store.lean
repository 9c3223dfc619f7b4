import Mathlib.Logic.Function.Basic
import SafeStake.StateInvariant

/-! # The store task

`Store::new` spawns one task that owns the RocksDB database and a map `obligations` from a
key to the `oneshot` senders of the `NotifyRead` commands waiting for it.  The task takes the
commands off its channel one after the other: `Write` stores the value and answers every
sender waiting for the key with it; `Read` answers with the key's value or `None`;
`NotifyRead` answers with the key's value if there is one, and otherwise queues its sender
for the key; `Delete` removes the key; `NotifyDestroy` and `Exit` answer and `break` out of
the loop, which drops the database and every sender still waiting.

The database is a map from keys to values (`db`), whose reads and writes do not fail.  A
command's `oneshot` sender is its own, created by the caller for this command alone: the
model names it by the command's position on the channel.

A key some sender waits for is absent from the database in every reachable state
(`Consistent.run`), and a `NotifyRead` is answered once, with the value its key has when the
command is processed or else with that of the first later `Write` of the key, and until
then waits for the key (`Waits.run`): no wake-up is lost, however `Delete`s and other
keys' commands interleave.
-/

namespace SafeStake.Store

/-- `StoreCommand`, each command's `oneshot` sender left implicit: it is named by the
command's position on the channel. -/
inductive StoreCommand (K V : Type) where
  | write (key : K) (value : V)
  | read (key : K)
  | notifyRead (key : K)
  | notifyDestroy
  | delete (key : K)
  | exit
deriving DecidableEq, Repr

/-- What the task sends on a command's `oneshot` channel: `Ok` of the value read, of the
value waited for, the outcome of `DB::destroy`, or `()` on `Exit`. -/
inductive Reply (V : Type) where
  | read (value : Option V)
  | notifyRead (value : V)
  | notifyDestroy (destroyed : Bool)
  | exit
deriving DecidableEq, Repr

/-- Whether the loop goes on after the command: every command but `NotifyDestroy` and `Exit`. -/
def StoreCommand.keepsRunning {K V : Type} : StoreCommand K V → Bool
  | .notifyDestroy | .exit => false
  | _ => true

namespace StoreCommand

variable {K V : Type} [DecidableEq K]

/-- What a command does to the database: `Write` puts the value, `Delete` removes the key. -/
def apply (db : K → Option V) : StoreCommand K V → K → Option V
  | .write key value => Function.update db key (some value)
  | .delete key => Function.update db key none
  | _ => db

/-- The value a command writes to `key`, if it is a `Write` of `key`. -/
def writeOf (key : K) : StoreCommand K V → Option V
  | .write k value => if k = key then some value else none
  | _ => none

theorem eq_write_of_writeOf {key : K} {c : StoreCommand K V} {value : V}
    (h : c.writeOf key = some value) : c = .write key value := by
  cases c <;> simp_all [writeOf]

end StoreCommand

section Spec
variable {K V : Type} [DecidableEq K]

/-- The database after some commands. -/
def dbAfter (db : K → Option V) (cmds : List (StoreCommand K V)) : K → Option V :=
  cmds.foldl StoreCommand.apply db

/-- The value of the first `Write` of `key` among some commands. -/
def firstWrite (key : K) (cmds : List (StoreCommand K V)) : Option V :=
  cmds.findSome? (StoreCommand.writeOf key)

@[simp] theorem firstWrite_nil (key : K) : firstWrite key ([] : List (StoreCommand K V)) = none :=
  rfl

theorem firstWrite_cons (key : K) (c : StoreCommand K V) (cmds : List (StoreCommand K V)) :
    firstWrite key (c :: cmds) = (c.writeOf key).or (firstWrite key cmds) := by
  rw [firstWrite, List.findSome?_cons]
  cases c.writeOf key <;> rfl

/-- What a `NotifyRead` of `key` that comes after the commands `pre` and before `post` is
answered with: the key's value when the command is processed, or else the value of the first
later `Write` of the key; `none` when it is never answered. -/
def notifyAnswer (db : K → Option V) (pre post : List (StoreCommand K V)) (key : K) : Option V :=
  (dbAfter db pre key).or (firstWrite key post)

end Spec

/-- The task of `Store::new`: the database, the senders waiting for each key (an empty queue
where `obligations` has no entry), every reply sent, with the position of the command it
answers, the number of commands received, and whether the loop still runs. -/
structure StoreTask (K V : Type) where
  db : K → Option V
  obligations : K → List Nat
  replies : List (Nat × Reply V)
  received : Nat
  running : Bool

namespace StoreTask

variable {K V : Type} [DecidableEq K]

/-- The task as `Store::new` spawns it on the database it opened. -/
def new (db : K → Option V) : StoreTask K V := ⟨db, fun _ => [], [], 0, true⟩

section Loop
variable (destroyed : Bool)

/-- The loop's `match command`, on the command of position `s.received`; `destroyed` is what
`DB::destroy` returns.  `break` ends the task, which drops the senders still waiting. -/
def handle (s : StoreTask K V) : StoreCommand K V → StoreTask K V
  | .write key value =>
    { s with
      db := Function.update s.db key (some value)
      obligations := Function.update s.obligations key []
      replies := s.replies ++ (s.obligations key).map fun j => (j, .notifyRead value) }
  | .read key => { s with replies := s.replies ++ [(s.received, .read (s.db key))] }
  | .notifyRead key =>
    match s.db key with
    | none =>
      { s with obligations := Function.update s.obligations key (s.obligations key ++ [s.received]) }
    | some value => { s with replies := s.replies ++ [(s.received, .notifyRead value)] }
  | .notifyDestroy =>
    { s with
      obligations := fun _ => []
      replies := s.replies ++ [(s.received, .notifyDestroy destroyed)]
      running := false }
  | .delete key => { s with db := Function.update s.db key none }
  | .exit =>
    { s with obligations := fun _ => [], replies := s.replies ++ [(s.received, .exit)], running := false }

/-- One command off the channel: handled while the loop runs; once it has ended, no command
is received. -/
def step (s : StoreTask K V) (cmd : StoreCommand K V) : StoreTask K V :=
  if s.running then { handle destroyed s cmd with received := s.received + 1 } else s

/-- The task over the commands of its channel, in order. -/
def run (cmds : List (StoreCommand K V)) (s : StoreTask K V) : StoreTask K V :=
  cmds.foldl (step destroyed) s

/-- The replies sent on the `oneshot` channel of the command of position `i`. -/
def repliesTo (s : StoreTask K V) (i : Nat) : List (Nat × Reply V) :=
  s.replies.filter fun r => r.1 == i

/-! ## One command -/

theorem step_of_running {s : StoreTask K V} (hs : s.running) (cmd : StoreCommand K V) :
    step destroyed s cmd = { handle destroyed s cmd with received := s.received + 1 } := by
  rw [step, if_pos hs]

theorem step_of_not_running {s : StoreTask K V} (hs : ¬s.running) (cmd : StoreCommand K V) :
    step destroyed s cmd = s := by
  rw [step, if_neg hs]

theorem received_step {s : StoreTask K V} (hs : s.running) (cmd : StoreCommand K V) :
    (step destroyed s cmd).received = s.received + 1 := by
  rw [step_of_running destroyed hs]

/-- Only `NotifyDestroy` and `Exit` end the loop. -/
theorem handle_running (s : StoreTask K V) (cmd : StoreCommand K V) :
    (handle destroyed s cmd).running = (cmd.keepsRunning && s.running) := by
  cases cmd with
  | notifyRead key =>
    -- both arms of the lookup leave the loop running
    simp only [handle]; split <;> simp [StoreCommand.keepsRunning]
  | _ => simp [handle, StoreCommand.keepsRunning]

/-- The database `handle` leaves is the abstract one: the lookups do not change it. -/
theorem handle_db (s : StoreTask K V) (cmd : StoreCommand K V) :
    (handle destroyed s cmd).db = cmd.apply s.db := by
  cases cmd with
  | notifyRead key => simp only [handle]; split <;> rfl
  | _ => rfl

theorem running_step {s : StoreTask K V} (hs : s.running) {cmd : StoreCommand K V}
    (hcmd : cmd.keepsRunning) : (step destroyed s cmd).running := by
  rw [step_of_running destroyed hs]
  simp [handle_running, hcmd, hs]

theorem db_step {s : StoreTask K V} (hs : s.running) (cmd : StoreCommand K V) :
    (step destroyed s cmd).db = cmd.apply s.db := by
  rw [step_of_running destroyed hs]
  exact handle_db destroyed s cmd

/-! ## Invariants of every run -/

/-- A key some sender waits for is absent from the database. -/
def Consistent (s : StoreTask K V) : Prop :=
  ∀ key, s.obligations key ≠ [] → s.db key = none

/-- Every sender waiting and every reply belongs to a command already received. -/
def Fresh (s : StoreTask K V) : Prop :=
  (∀ key, ∀ j ∈ s.obligations key, j < s.received) ∧ ∀ r ∈ s.replies, r.1 < s.received

theorem Consistent.handle {s : StoreTask K V} (hs : s.Consistent) (cmd : StoreCommand K V) :
    (handle destroyed s cmd).Consistent := by
  intro key hkey
  cases cmd with
  | write k value =>
    -- the written key has no waiter left; every other key keeps its waiters and its value
    have hk : key ≠ k := by
      rintro rfl
      simp [StoreTask.handle] at hkey
    simp only [StoreTask.handle, Function.update_of_ne hk] at hkey ⊢
    exact hs key hkey
  | read k => exact hs key hkey
  | notifyRead k =>
    -- a sender is queued only on a key the lookup found absent
    rcases hdb : s.db k with _ | value
    · simp only [StoreTask.handle, hdb] at hkey ⊢
      by_cases hk : key = k
      · rw [hk, hdb]
      · rw [Function.update_of_ne hk] at hkey
        exact hs key hkey
    · simp only [StoreTask.handle, hdb] at hkey ⊢
      exact hs key hkey
  | notifyDestroy => exact absurd rfl hkey
  | delete k =>
    by_cases hk : key = k
    · simp [StoreTask.handle, hk]
    · simp only [StoreTask.handle, Function.update_of_ne hk] at hkey ⊢
      exact hs key hkey
  | exit => exact absurd rfl hkey

theorem Consistent.step {s : StoreTask K V} (hs : s.Consistent) (cmd : StoreCommand K V) :
    (step destroyed s cmd).Consistent := by
  by_cases hrun : s.running
  · rw [step_of_running destroyed hrun]
    exact hs.handle destroyed cmd
  · rw [step_of_not_running destroyed hrun]
    exact hs

/-- **Every key some sender waits for is absent from the database**, in every state the task
reaches from the database it opened, whatever the commands. -/
theorem Consistent.run (db : K → Option V) (cmds : List (StoreCommand K V)) :
    (run destroyed cmds (new db)).Consistent :=
  StateInvariant.foldl_invariant_of_step (fun _ c hs => hs.step destroyed c) (fun _ h => absurd rfl h)
    cmds

/-! ## What one command does to the senders of earlier commands -/

theorem mem_obligations_handle {s : StoreTask K V} {cmd : StoreCommand K V} {key : K} {j : Nat}
    (hj : j ∈ (handle destroyed s cmd).obligations key) :
    j ∈ s.obligations key ∨ j = s.received := by
  cases cmd with
  | write k value =>
    by_cases hk : key = k
    · simp [StoreTask.handle, hk] at hj
    · simp only [StoreTask.handle, Function.update_of_ne hk] at hj
      exact .inl hj
  | notifyRead k =>
    rcases hdb : s.db k with _ | value
    · simp only [StoreTask.handle, hdb] at hj
      by_cases hk : key = k
      · subst hk
        simpa using hj
      · rw [Function.update_of_ne hk] at hj
        exact .inl hj
    · simp only [StoreTask.handle, hdb] at hj
      exact .inl hj
  | notifyDestroy | exit => simp [StoreTask.handle] at hj
  | read k | delete k => exact .inl hj

/-- A command queues no sender of an earlier command. -/
theorem not_mem_obligations_handle {s : StoreTask K V} (cmd : StoreCommand K V) {key : K}
    {i : Nat} (hi : i ≠ s.received) (hout : i ∉ s.obligations key) :
    i ∉ (handle destroyed s cmd).obligations key := fun hj =>
  (mem_obligations_handle destroyed hj).elim hout hi

theorem mem_replies_handle {s : StoreTask K V} {cmd : StoreCommand K V} {r : Nat × Reply V}
    (hr : r ∈ (handle destroyed s cmd).replies) :
    r ∈ s.replies ∨ (∃ key, r.1 ∈ s.obligations key) ∨ r.1 = s.received := by
  cases cmd with
  | write k value =>
    -- the replies a `Write` adds go to the senders waiting for its key
    simp only [StoreTask.handle, List.mem_append, List.mem_map] at hr
    rcases hr with hr | ⟨j, hj, rfl⟩
    · exact .inl hr
    · exact .inr (.inl ⟨k, hj⟩)
  | notifyRead k =>
    rcases hdb : s.db k with _ | value
    · simp only [StoreTask.handle, hdb] at hr
      exact .inl hr
    · simp only [StoreTask.handle, hdb, List.mem_append, List.mem_singleton] at hr
      rcases hr with hr | rfl
      · exact .inl hr
      · exact .inr (.inr rfl)
  | delete k => exact .inl hr
  | read k | notifyDestroy | exit =>
    simp only [StoreTask.handle, List.mem_append, List.mem_singleton] at hr
    rcases hr with hr | rfl
    · exact .inl hr
    · exact .inr (.inr rfl)

/-- How often the command of position `i` waits for a key after another command: a `Write`
of the key wakes it, `NotifyDestroy` and `Exit` drop it, and every other command keeps it. -/
theorem count_obligations_handle (s : StoreTask K V) (cmd : StoreCommand K V) (key : K)
    {i : Nat} (hi : i ≠ s.received) :
    ((handle destroyed s cmd).obligations key).count i =
      if cmd.keepsRunning && (cmd.writeOf key).isNone then (s.obligations key).count i else 0 := by
  cases cmd with
  | write k value =>
    by_cases hk : k = key
    · simp [StoreTask.handle, StoreCommand.writeOf, hk]
    · simp [StoreTask.handle, StoreCommand.writeOf, StoreCommand.keepsRunning, hk,
        Function.update_of_ne (Ne.symm hk)]
  | notifyRead k =>
    -- a sender queued now is the command's own, not the one of position `i`
    rcases hdb : s.db k with _ | value
    · by_cases hk : key = k
      · simp [StoreTask.handle, StoreCommand.writeOf, StoreCommand.keepsRunning, hdb, hk,
          Ne.symm hi]
      · simp [StoreTask.handle, StoreCommand.writeOf, StoreCommand.keepsRunning, hdb,
          Function.update_of_ne hk]
    · simp [StoreTask.handle, StoreCommand.writeOf, StoreCommand.keepsRunning, hdb]
  | read k | delete k | notifyDestroy | exit =>
    simp [StoreTask.handle, StoreCommand.writeOf, StoreCommand.keepsRunning]

/-- The replies of a `Write` filtered to one command: one for each time it waits. -/
theorem filter_map_notifyRead (l : List Nat) (value : V) (i : Nat) :
    ((l.map fun j => (j, Reply.notifyRead value)).filter fun r => r.1 == i) =
      List.replicate (l.count i) (i, .notifyRead value) := by
  induction l with
  | nil => rfl
  | cons j l ih =>
    by_cases hj : j = i
    · subst hj
      simp [ih, List.replicate_succ]
    · simp [ih, hj]

theorem repliesTo_handle_write (s : StoreTask K V) (key : K) (value : V) (i : Nat) :
    repliesTo (handle destroyed s (.write key value)) i =
      repliesTo s i ++ List.replicate ((s.obligations key).count i) (i, .notifyRead value) := by
  simp only [repliesTo, StoreTask.handle, List.filter_append, filter_map_notifyRead]

/-- A command sends nothing to an earlier command that waits for no key it writes. -/
theorem repliesTo_handle (s : StoreTask K V) (cmd : StoreCommand K V) {i : Nat}
    (hi : i ≠ s.received) (hwoken : ∀ key, (cmd.writeOf key).isSome → i ∉ s.obligations key) :
    repliesTo (handle destroyed s cmd) i = repliesTo s i := by
  cases cmd with
  | write k value =>
    have hcount : (s.obligations k).count i = 0 :=
      List.count_eq_zero.mpr (hwoken k (by simp [StoreCommand.writeOf]))
    rw [repliesTo_handle_write, hcount, List.replicate_zero, List.append_nil]
  | notifyRead k =>
    rcases hdb : s.db k with _ | value
    · simp only [StoreTask.handle, hdb]
      rfl
    · simp [repliesTo, StoreTask.handle, hdb, Ne.symm hi]
  | read k | notifyDestroy | exit => simp [repliesTo, StoreTask.handle, Ne.symm hi]
  | delete k => rfl

theorem Fresh.step {s : StoreTask K V} (hs : s.Fresh) (cmd : StoreCommand K V) :
    (step destroyed s cmd).Fresh := by
  obtain ⟨hobl, hrep⟩ := hs
  by_cases hrun : s.running
  · rw [step_of_running destroyed hrun]
    constructor
    · intro key j hj
      rcases mem_obligations_handle destroyed hj with hj | rfl
      · exact Nat.lt_succ_of_lt (hobl key j hj)
      · exact Nat.lt_succ_self _
    · intro r hr
      rcases mem_replies_handle destroyed hr with hr | ⟨key, hj⟩ | hr
      · exact Nat.lt_succ_of_lt (hrep r hr)
      · exact Nat.lt_succ_of_lt (hobl key r.1 hj)
      · show r.1 < s.received + 1
        omega
  · rw [step_of_not_running destroyed hrun]
    exact ⟨hobl, hrep⟩

theorem Fresh.run (db : K → Option V) (cmds : List (StoreCommand K V)) :
    (run destroyed cmds (new db)).Fresh :=
  StateInvariant.foldl_invariant_of_step (fun _ c hs => hs.step destroyed c)
    ⟨fun _ _ h => absurd h List.not_mem_nil, fun _ h => absurd h List.not_mem_nil⟩ cmds

/-! ## The senders of one command over a run -/

theorem run_cons (cmd : StoreCommand K V) (cmds : List (StoreCommand K V)) (s : StoreTask K V) :
    run destroyed (cmd :: cmds) s = run destroyed cmds (step destroyed s cmd) := rfl

theorem run_append (cmds cmds' : List (StoreCommand K V)) (s : StoreTask K V) :
    run destroyed (cmds ++ cmds') s = run destroyed cmds' (run destroyed cmds s) :=
  List.foldl_append

/-- Over commands that keep the loop going, every command is received and the database is the
abstract one. -/
theorem run_of_keepsRunning {cmds : List (StoreCommand K V)} (hcmds : ∀ c ∈ cmds, c.keepsRunning) :
    ∀ {s : StoreTask K V}, s.running →
      (run destroyed cmds s).running ∧ (run destroyed cmds s).received = s.received + cmds.length ∧
        (run destroyed cmds s).db = dbAfter s.db cmds := by
  induction cmds with
  | nil => exact fun hs => ⟨hs, rfl, rfl⟩
  | cons c cmds ih =>
    intro s hs
    have hc := hcmds c List.mem_cons_self
    obtain ⟨hrun, hrec, hdb⟩ := ih (fun c' hc' => hcmds c' (List.mem_cons_of_mem c hc'))
      (running_step destroyed hs hc)
    refine ⟨hrun, ?_, ?_⟩
    · rw [run_cons, hrec, received_step destroyed hs, List.length_cons]
      omega
    · rw [run_cons, hdb, db_step destroyed hs]
      rfl

/-- Once no sender of the command of position `i` waits, no command sends it anything. -/
theorem answered_step {s : StoreTask K V} {i : Nat} (hi : i < s.received)
    (hout : ∀ key, i ∉ s.obligations key) (cmd : StoreCommand K V) :
    i < (step destroyed s cmd).received ∧ (∀ key, i ∉ (step destroyed s cmd).obligations key) ∧
      repliesTo (step destroyed s cmd) i = repliesTo s i := by
  by_cases hrun : s.running
  · rw [step_of_running destroyed hrun]
    exact ⟨Nat.lt_succ_of_lt hi,
      fun key => not_mem_obligations_handle destroyed cmd hi.ne (hout key),
      repliesTo_handle destroyed s cmd hi.ne fun key _ => hout key⟩
  · rw [step_of_not_running destroyed hrun]
    exact ⟨hi, hout, rfl⟩

theorem answered_run {i : Nat} (cmds : List (StoreCommand K V)) :
    ∀ {s : StoreTask K V}, i < s.received → (∀ key, i ∉ s.obligations key) →
      (∀ key, i ∉ (run destroyed cmds s).obligations key) ∧
        repliesTo (run destroyed cmds s) i = repliesTo s i := by
  induction cmds with
  | nil => exact fun _ hout => ⟨hout, rfl⟩
  | cons c cmds ih =>
    intro s hi hout
    obtain ⟨hi', hout', hrep⟩ := answered_step destroyed hi hout c
    rw [run_cons, ← hrep]
    exact ih hi' hout'

/-- The command of position `i` waits once for `key`, and for no other key. -/
def Waits (s : StoreTask K V) (key : K) (i : Nat) : Prop :=
  (s.obligations key).count i = 1 ∧ ∀ k ≠ key, i ∉ s.obligations k

/-- A command that keeps the loop going and does not write `key` leaves the command waiting
for it, and sends it nothing. -/
theorem Waits.step {s : StoreTask K V} {key : K} {i : Nat} (hw : s.Waits key i)
    (hs : s.running) (hi : i < s.received) {cmd : StoreCommand K V} (hcmd : cmd.keepsRunning)
    (hnone : cmd.writeOf key = none) :
    (step destroyed s cmd).Waits key i ∧ repliesTo (step destroyed s cmd) i = repliesTo s i := by
  obtain ⟨hcount, hother⟩ := hw
  rw [step_of_running destroyed hs]
  refine ⟨⟨?_, fun k hk => ?_⟩, ?_⟩
  · show ((handle destroyed s cmd).obligations key).count i = 1
    rw [count_obligations_handle destroyed s cmd key hi.ne, hcmd, hnone]
    exact hcount
  · exact not_mem_obligations_handle destroyed cmd hi.ne (hother k hk)
  · -- the only key the command may write is another one, which `i` does not wait for
    refine repliesTo_handle destroyed s cmd hi.ne fun k hk => hother k ?_
    rintro rfl
    simp [hnone] at hk

/-- A `Write` of the key answers the waiting command, once. -/
theorem Waits.step_write {s : StoreTask K V} {key : K} {i : Nat} (hw : s.Waits key i)
    (hs : s.running) (value : V) :
    (∀ k, i ∉ (StoreTask.step destroyed s (.write key value)).obligations k) ∧
      repliesTo (StoreTask.step destroyed s (.write key value)) i =
        repliesTo s i ++ [(i, .notifyRead value)] := by
  obtain ⟨hcount, hother⟩ := hw
  rw [step_of_running destroyed hs]
  refine ⟨fun k => ?_, ?_⟩
  · show i ∉ (handle destroyed s (.write key value)).obligations k
    by_cases hk : k = key
    · simp [StoreTask.handle, hk]
    · simp only [StoreTask.handle, Function.update_of_ne hk]
      exact hother k hk
  · show repliesTo (handle destroyed s (.write key value)) i = _
    rw [repliesTo_handle_write, hcount, List.replicate_one]

/-- A command waiting for `key` is answered by the first later `Write` of the key, once, and
waits until then. -/
theorem Waits.run {key : K} {i : Nat} {cmds : List (StoreCommand K V)}
    (hcmds : ∀ c ∈ cmds, c.keepsRunning) :
    ∀ {s : StoreTask K V}, s.Waits key i → s.running → i < s.received →
      repliesTo (run destroyed cmds s) i =
          repliesTo s i ++ (firstWrite key cmds).toList.map (fun value => (i, .notifyRead value)) ∧
        (firstWrite key cmds = none → i ∈ (run destroyed cmds s).obligations key) := by
  induction cmds with
  | nil =>
    intro s hw _ _
    refine ⟨(List.append_nil _).symm, fun _ => ?_⟩
    show i ∈ s.obligations key
    rw [← List.count_pos_iff, hw.1]
    exact Nat.one_pos
  | cons c cmds ih =>
    intro s hw hs hi
    have hc := hcmds c List.mem_cons_self
    rw [run_cons, firstWrite_cons]
    rcases hwrite : c.writeOf key with _ | value
    · -- `c` leaves the command waiting
      obtain ⟨hw', hrep⟩ := hw.step destroyed hs hi hc hwrite
      rw [Option.none_or, ← hrep]
      exact ih (fun c' hc' => hcmds c' (List.mem_cons_of_mem c hc')) hw'
        (running_step destroyed hs hc) (by rw [received_step destroyed hs]; omega)
    · -- `c` is the first `Write` of the key: it answers, and nothing answers again
      rw [StoreCommand.eq_write_of_writeOf hwrite]
      obtain ⟨hout, hrep⟩ := hw.step_write destroyed hs value
      have hi' : i < (StoreTask.step destroyed s (.write key value)).received := by
        rw [received_step destroyed hs]
        omega
      refine ⟨?_, fun h => by simp at h⟩
      rw [(answered_run destroyed cmds hi' hout).2, hrep, Option.some_or]
      rfl

/-! ## A `NotifyRead` -/

omit [DecidableEq K] in
/-- A fresh task has sent nothing to the command it receives next. -/
theorem Fresh.repliesTo_received {s : StoreTask K V} (hf : s.Fresh) :
    repliesTo s s.received = [] := by
  rw [repliesTo, List.filter_eq_nil_iff]
  intro r hr heq
  have hlt := hf.2 r hr
  rw [beq_iff_eq] at heq
  omega

omit [DecidableEq K] in
theorem Fresh.not_mem_obligations {s : StoreTask K V} (hf : s.Fresh) (key : K) :
    s.received ∉ s.obligations key :=
  fun h => Nat.lt_irrefl _ (hf.1 key _ h)

/-- A `NotifyRead` of a key the database holds is answered at once with its value. -/
theorem notifyRead_step_of_some {s : StoreTask K V} (hs : s.running) (hf : s.Fresh) {key : K}
    {value : V} (hdb : s.db key = some value) :
    (∀ k, s.received ∉ (step destroyed s (.notifyRead key)).obligations k) ∧
      repliesTo (step destroyed s (.notifyRead key)) s.received =
        [(s.received, .notifyRead value)] := by
  rw [step_of_running destroyed hs]
  refine ⟨fun k => ?_, ?_⟩
  · show s.received ∉ (handle destroyed s (.notifyRead key)).obligations k
    simp only [StoreTask.handle, hdb]
    exact hf.not_mem_obligations k
  · have hnone := hf.repliesTo_received
    simp only [repliesTo] at hnone
    simp [repliesTo, StoreTask.handle, hdb, hnone]

/-- A `NotifyRead` of a key absent from the database sends nothing, and waits for the key. -/
theorem notifyRead_step_of_none {s : StoreTask K V} (hs : s.running) (hf : s.Fresh) {key : K}
    (hdb : s.db key = none) :
    (step destroyed s (.notifyRead key)).Waits key s.received ∧
      repliesTo (step destroyed s (.notifyRead key)) s.received = [] := by
  rw [step_of_running destroyed hs]
  refine ⟨⟨?_, fun k hk => ?_⟩, ?_⟩
  · -- the command's own sender joins the queue of its key
    show ((handle destroyed s (.notifyRead key)).obligations key).count s.received = 1
    simp only [StoreTask.handle, hdb, Function.update_self, List.count_append,
      List.count_singleton_self, List.count_eq_zero.mpr (hf.not_mem_obligations key)]
  · show s.received ∉ (handle destroyed s (.notifyRead key)).obligations k
    simp only [StoreTask.handle, hdb, Function.update_of_ne hk]
    exact hf.not_mem_obligations k
  · show repliesTo (handle destroyed s (.notifyRead key)) s.received = []
    simp only [StoreTask.handle, hdb]
    exact hf.repliesTo_received

end Loop

end StoreTask

section NotifyRead

open StoreTask

variable {K V : Type} [DecidableEq K] (destroyed : Bool)

/-- **No wake-up is lost.**  Over any `Write`s, `Read`s, `NotifyRead`s and `Delete`s sent to
the task `Store::new` spawns on a database `db`: a key some sender waits for is absent from
the database in every state the task reaches; and a `NotifyRead` of `key` that comes after
the commands `pre` and before `post` is answered once, with the value the key has when it is
processed or else with that of the first `Write` of it in `post`, and it waits for the key as
long as neither exists. -/
theorem notify_read_never_lost (db : K → Option V) (pre post : List (StoreCommand K V)) (key : K)
    (hcmds : ∀ c ∈ pre ++ post, c.keepsRunning) :
    (∀ cmds : List (StoreCommand K V), (run destroyed cmds (new db)).Consistent) ∧
      repliesTo (run destroyed (pre ++ .notifyRead key :: post) (new db)) pre.length =
        (notifyAnswer db pre post key).toList.map (fun value => (pre.length, .notifyRead value)) ∧
      (notifyAnswer db pre post key = none →
        pre.length ∈ (run destroyed (pre ++ .notifyRead key :: post) (new db)).obligations key) := by
  refine ⟨Consistent.run destroyed db, ?_⟩
  have hpre : ∀ c ∈ pre, c.keepsRunning := fun c hc => hcmds c (List.mem_append_left post hc)
  have hpost : ∀ c ∈ post, c.keepsRunning := fun c hc => hcmds c (List.mem_append_right pre hc)
  -- the task when the `NotifyRead` comes: running, at position `pre.length`, on `dbAfter db pre`
  obtain ⟨hrun, hrec, hdb⟩ :=
    run_of_keepsRunning destroyed hpre (show (new db : StoreTask K V).running from rfl)
  have hfresh := Fresh.run destroyed db pre
  rw [show (new db : StoreTask K V).received = 0 from rfl, Nat.zero_add] at hrec
  rw [run_append, run_cons, ← hrec, notifyAnswer]
  have hafter : (run destroyed pre (new db)).received <
      (step destroyed (run destroyed pre (new db)) (.notifyRead key)).received := by
    rw [received_step destroyed hrun]
    omega
  rcases hkey : dbAfter db pre key with _ | value
  · -- absent: the command waits for the first `Write` of the key in `post`
    obtain ⟨hw, hnone⟩ := notifyRead_step_of_none destroyed hrun hfresh (hdb ▸ hkey)
    obtain ⟨hrep, hpending⟩ := hw.run destroyed hpost (running_step destroyed hrun rfl) hafter
    rw [Option.none_or, hrep, hnone, List.nil_append]
    exact ⟨rfl, hpending⟩
  · -- present: answered at once, and never again
    obtain ⟨hout, hsome⟩ := notifyRead_step_of_some destroyed hrun hfresh (hdb ▸ hkey)
    rw [(answered_run destroyed post hafter hout).2, hsome, Option.some_or]
    exact ⟨rfl, fun h => absurd h (Option.some_ne_none value)⟩

theorem notify_read_then_write :
    (∀ c ∈ ([] : List (StoreCommand (List UInt8) (List UInt8))) ++ [.write [0, 1, 2, 3] [4, 5, 6, 7]],
        c.keepsRunning) ∧
      repliesTo (run false [.notifyRead [0, 1, 2, 3], .write [0, 1, 2, 3] [4, 5, 6, 7]]
        (new fun _ => none)) 0 = [(0, .notifyRead [4, 5, 6, 7])] :=
  ⟨by decide, (notify_read_never_lost false (fun _ => none) [] [.write [0, 1, 2, 3] [4, 5, 6, 7]]
    [0, 1, 2, 3] (by decide)).2.1⟩

end NotifyRead

end SafeStake.Store
