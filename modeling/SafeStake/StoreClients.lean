import SafeStake.Store

/-! # The store's channel and the futures that wait on it

Every `Store` handle is a sender on the one channel of the store task.  A `StoreChannel` is
that channel with the task behind it: every command sent on it, by whatever task, in the
order they were sent, and the store task, which takes them one after the other; a command's
position on the channel names its `oneshot` sender, as in `StoreTask`.

While the task runs, every `NotifyRead` it has taken is answered or waits for its key
(`Tracked`).  So a `NotifyRead` is answered once a `Write` of its key follows it on the
channel and the task has taken everything (`answered_drain`), and a future that
`try_join_all`s some `notify_read`s (`NotifyReads`) resolves once a `Write` of each of its
keys has been sent after its commands (`NotifyReads.joined_drain_writes`), however the other
clients' commands interleave.
-/

namespace SafeStake.Store

namespace StoreTask

variable {K V : Type} [DecidableEq K] (destroyed : Bool)

/-- Once the loop has ended, no command changes the task. -/
theorem run_of_not_running {s : StoreTask K V} (hs : ¬s.running) (cmds : List (StoreCommand K V)) :
    run destroyed cmds s = s := by
  induction cmds with
  | nil => rfl
  | cons c cmds ih => rw [run_cons, step_of_not_running destroyed hs, ih]

/-- Replies are only ever added. -/
theorem replies_prefix_handle (s : StoreTask K V) (cmd : StoreCommand K V) :
    List.IsPrefix s.replies (handle destroyed s cmd).replies := by
  cases cmd with
  | notifyRead key =>
    simp only [StoreTask.handle]
    split
    · exact List.prefix_refl _
    · exact List.prefix_append _ _
  | delete key => exact List.prefix_refl _
  | write key value => exact List.prefix_append _ _
  | read key => exact List.prefix_append _ _
  | notifyDestroy => exact List.prefix_append _ _
  | exit => exact List.prefix_append _ _

theorem repliesTo_prefix_step (s : StoreTask K V) (cmd : StoreCommand K V) (p : Nat) :
    List.IsPrefix (repliesTo s p) (repliesTo (step destroyed s cmd) p) := by
  by_cases hs : s.running
  · rw [step_of_running destroyed hs]
    exact (replies_prefix_handle destroyed s cmd).filter _
  · rw [step_of_not_running destroyed hs]

theorem repliesTo_prefix_run (cmds : List (StoreCommand K V)) (s : StoreTask K V) (p : Nat) :
    List.IsPrefix (repliesTo s p) (repliesTo (run destroyed cmds s) p) := by
  induction cmds generalizing s with
  | nil => exact List.prefix_refl _
  | cons c cmds ih => exact (repliesTo_prefix_step destroyed s c p).trans (ih _)

theorem Fresh.run_from {s : StoreTask K V} (hf : s.Fresh) (cmds : List (StoreCommand K V)) :
    (StoreTask.run destroyed cmds s).Fresh :=
  StateInvariant.foldl_invariant_of_step (fun _ c h => h.step destroyed c) hf cmds

/-- A `NotifyRead` of `key` that a fresh running task takes after the commands `pre` and
before `post` is answered once, with the key's value when it is taken or else with that of
the first `Write` of it in `post`. -/
theorem repliesTo_run_notifyRead {s : StoreTask K V} (hf : s.Fresh) (hs : s.running)
    (pre post : List (StoreCommand K V)) (key : K) (hcmds : ∀ c ∈ pre ++ post, c.keepsRunning) :
    repliesTo (run destroyed (pre ++ .notifyRead key :: post) s) (s.received + pre.length) =
      (notifyAnswer s.db pre post key).toList.map
        (fun value => (s.received + pre.length, .notifyRead value)) := by
  have hpre : ∀ c ∈ pre, c.keepsRunning := fun c hc => hcmds c (List.mem_append_left post hc)
  have hpost : ∀ c ∈ post, c.keepsRunning := fun c hc => hcmds c (List.mem_append_right pre hc)
  obtain ⟨hrun, hrec, hdb⟩ := run_of_keepsRunning destroyed hpre hs
  have hfresh := hf.run_from destroyed pre
  rw [run_append, run_cons, ← hrec, notifyAnswer]
  have hafter : (run destroyed pre s).received <
      (step destroyed (run destroyed pre s) (.notifyRead key)).received := by
    rw [received_step destroyed hrun]
    omega
  rcases hkey : dbAfter s.db pre key with _ | value
  · obtain ⟨hw, hnone⟩ := notifyRead_step_of_none destroyed hrun hfresh (hdb ▸ hkey)
    obtain ⟨hrep, -⟩ := hw.run destroyed hpost (running_step destroyed hrun rfl) hafter
    rw [Option.none_or, hrep, hnone, List.nil_append]
  · obtain ⟨hout, hsome⟩ := notifyRead_step_of_some destroyed hrun hfresh (hdb ▸ hkey)
    rw [(answered_run destroyed post hafter hout).2, hsome, Option.some_or]
    rfl

end StoreTask

theorem firstWrite_isSome {K V : Type} [DecidableEq K] {key : K} {value : V}
    {cmds : List (StoreCommand K V)} (h : StoreCommand.write key value ∈ cmds) :
    (firstWrite key cmds).isSome :=
  List.findSome?_isSome_iff.mpr ⟨_, h, by simp [StoreCommand.writeOf]⟩

/-- The store task and its channel: every command sent on it, in order. -/
structure StoreChannel (K V : Type) where
  task : StoreTask K V
  sent : List (StoreCommand K V)

namespace StoreChannel

open StoreTask

variable {K V : Type} [DecidableEq K]

/-- `Store::new`: the task on the database it opened, and nothing sent yet. -/
def new (db : K → Option V) : StoreChannel K V := ⟨StoreTask.new db, []⟩

/-- Clients send commands: they go at the end of the channel. -/
def sendAll (s : StoreChannel K V) (cmds : List (StoreCommand K V)) : StoreChannel K V :=
  { s with sent := s.sent ++ cmds }

/-- A client sends a command. -/
def send (s : StoreChannel K V) (cmd : StoreCommand K V) : StoreChannel K V := s.sendAll [cmd]

/-- The commands sent that the task has not taken. -/
def queue (s : StoreChannel K V) : List (StoreCommand K V) := s.sent.drop s.task.received

section Take

variable (destroyed : Bool)

/-- The task takes the next command, if there is one; once it has ended it takes none, and
what is left on the channel is dropped with it. -/
def take (s : StoreChannel K V) : StoreChannel K V :=
  match s.queue with
  | [] => s
  | cmd :: _ => { s with task := s.task.step destroyed cmd }

theorem sent_take (s : StoreChannel K V) : (take destroyed s).sent = s.sent := by
  unfold StoreChannel.take
  split <;> rfl

omit [DecidableEq K] in
theorem getElem?_sent_of_queue {s : StoreChannel K V} {c : StoreCommand K V}
    {rest : List (StoreCommand K V)} (hq : s.queue = c :: rest) :
    s.sent[s.task.received]? = some c := by
  rw [← Nat.add_zero s.task.received, ← List.getElem?_drop]
  show s.queue[0]? = some c
  rw [hq]
  rfl

/-- Taking `n` commands runs the task over the first `n` of the channel. -/
theorem iterate_take (n : Nat) (s : StoreChannel K V) :
    (take destroyed)^[n] s = ⟨run destroyed (s.queue.take n) s.task, s.sent⟩ := by
  induction n generalizing s with
  | zero => rfl
  | succ n ih =>
    rw [Function.iterate_succ_apply]
    rcases hq : s.queue with _ | ⟨c, rest⟩
    · have htake : take destroyed s = s := by simp only [take, hq]
      rw [htake, ih, hq, List.take_nil, List.take_nil]
    · by_cases hs : s.task.running
      · -- the task takes `c` and moves on to the rest of the channel
        have htake : take destroyed s = ⟨step destroyed s.task c, s.sent⟩ := by simp only [take, hq]
        have hq' : (take destroyed s).queue = rest := by
          rw [htake]
          show s.sent.drop (step destroyed s.task c).received = rest
          rw [received_step destroyed hs, ← List.tail_drop]
          show s.queue.tail = rest
          rw [hq, List.tail_cons]
        rw [ih, hq', htake]
        rfl
      · have htake : take destroyed s = s := by
          simp only [take, hq, step_of_not_running destroyed hs]
        rw [htake, ih, run_of_not_running destroyed hs, run_of_not_running destroyed hs]

theorem iterate_take_queue (s : StoreChannel K V) :
    (take destroyed)^[s.queue.length] s = ⟨run destroyed s.queue s.task, s.sent⟩ := by
  rw [iterate_take, List.take_length]

/-! ## Every `NotifyRead` taken is answered or waits -/

/-- The task has taken only commands sent, in their order, is `Fresh`, and while it runs
every `NotifyRead` it has taken is answered or waits for its key. -/
structure Tracked (s : StoreChannel K V) : Prop where
  received_le : s.task.received ≤ s.sent.length
  fresh : s.task.Fresh
  notifyRead : s.task.running → ∀ p key, p < s.task.received →
    s.sent[p]? = some (.notifyRead key) → repliesTo s.task p ≠ [] ∨ s.task.Waits key p

omit [DecidableEq K] in
theorem Tracked.new (db : K → Option V) : (StoreChannel.new db).Tracked :=
  ⟨le_refl 0, ⟨fun _ _ h => absurd h List.not_mem_nil, fun _ h => absurd h List.not_mem_nil⟩,
    fun _ _ _ h => absurd h (Nat.not_lt_zero _)⟩

omit [DecidableEq K] in
theorem Tracked.sendAll {s : StoreChannel K V} (hs : s.Tracked) (cmds : List (StoreCommand K V)) :
    (s.sendAll cmds).Tracked := by
  refine ⟨?_, hs.fresh, fun hrun p key hp hcmd => hs.notifyRead hrun p key hp ?_⟩
  · show s.task.received ≤ (s.sent ++ cmds).length
    rw [List.length_append]
    exact Nat.le_add_right_of_le hs.received_le
  · rw [← hcmd]
    exact (List.getElem?_append_left (Nat.lt_of_lt_of_le hp hs.received_le)).symm

omit [DecidableEq K] in
theorem queue_sendAll {s : StoreChannel K V} (hs : s.Tracked) (cmds : List (StoreCommand K V)) :
    (s.sendAll cmds).queue = s.queue ++ cmds :=
  List.drop_append_of_le_length hs.received_le

/-- What the task's next command does to a `NotifyRead` it has taken: one it waits for is
answered by a `Write` of its key and keeps waiting through any other command that does not
end the loop. -/
theorem Tracked.step_notifyRead {t : StoreTask K V} {c : StoreCommand K V} (hrun : t.running)
    (hkeep : c.keepsRunning) {p : Nat} {key : K} (hp : p < t.received)
    (h : repliesTo t p ≠ [] ∨ t.Waits key p) :
    repliesTo (step destroyed t c) p ≠ [] ∨ (step destroyed t c).Waits key p := by
  rcases h with hans | hw
  · exact .inl ((repliesTo_prefix_step destroyed t c p).ne_nil hans)
  · rcases hwrite : c.writeOf key with _ | value
    · exact .inr (hw.step destroyed hrun hp hkeep hwrite).1
    · rw [StoreCommand.eq_write_of_writeOf hwrite, (hw.step_write destroyed hrun value).2]
      exact .inl (List.append_ne_nil_of_right_ne_nil _ (List.cons_ne_nil _ _))

theorem Tracked.take {s : StoreChannel K V} (hs : s.Tracked) :
    (StoreChannel.take destroyed s).Tracked := by
  rcases hq : s.queue with _ | ⟨c, rest⟩
  · have htake : StoreChannel.take destroyed s = s := by simp only [StoreChannel.take, hq]
    rw [htake]
    exact hs
  · have htake : StoreChannel.take destroyed s = ⟨step destroyed s.task c, s.sent⟩ := by
      simp only [StoreChannel.take, hq]
    have hc := getElem?_sent_of_queue hq
    rw [htake]
    by_cases hrun : s.task.running
    · refine ⟨?_, hs.fresh.step destroyed c, fun hrun' p key hp hcmd => ?_⟩
      · show (step destroyed s.task c).received ≤ s.sent.length
        rw [received_step destroyed hrun]
        exact (List.getElem?_eq_some_iff.mp hc).1
      · -- the task still runs, so `c` does not end the loop
        have hkeep : c.keepsRunning := by
          have h := hrun'
          rw [step_of_running destroyed hrun] at h
          simp only [handle_running, Bool.and_eq_true] at h
          exact h.1
        rw [received_step destroyed hrun] at hp
        rcases Nat.lt_succ_iff_lt_or_eq.mp hp with hp | rfl
        · exact Tracked.step_notifyRead destroyed hrun hkeep hp
            (hs.notifyRead hrun p key hp hcmd)
        · -- `c` is this `NotifyRead`: answered at once, or waiting for its key
          rw [hc] at hcmd
          cases hcmd
          rcases hdb : s.task.db key with _ | value
          · exact .inr (notifyRead_step_of_none destroyed hrun hs.fresh hdb).1
          · rw [(notifyRead_step_of_some destroyed hrun hs.fresh hdb).2]
            exact .inl (List.cons_ne_nil _ _)
    · rw [step_of_not_running destroyed hrun]
      exact hs

/-- A `NotifyRead` on the channel is answered once a `Write` of its key follows it and the
task has taken every command, if it runs and no command on the channel ends it. -/
theorem answered_drain {s : StoreChannel K V} (hs : s.Tracked) (hrun : s.task.running)
    (hkeep : ∀ c ∈ s.queue, c.keepsRunning) {p q : Nat} {key : K} {value : V}
    (hp : s.sent[p]? = some (.notifyRead key)) (hq : s.sent[q]? = some (.write key value))
    (hpq : p < q) (hrq : s.task.received ≤ q) :
    repliesTo ((take destroyed)^[s.queue.length] s).task p ≠ [] := by
  rw [iterate_take_queue]
  show repliesTo (run destroyed s.queue s.task) p ≠ []
  by_cases hlt : p < s.task.received
  · rcases hs.notifyRead hrun p key hlt hp with hans | hw
    · exact (repliesTo_prefix_run destroyed s.queue s.task p).ne_nil hans
    · -- it waits, and the `Write` is still on the channel
      have hmem : StoreCommand.write key value ∈ s.queue := by
        refine List.mem_of_getElem? (i := q - s.task.received) ?_
        rw [queue, List.getElem?_drop, Nat.add_sub_cancel' hrq]
        exact hq
      rw [(hw.run destroyed hkeep hrun hlt).1]
      obtain ⟨value', hvalue'⟩ := Option.isSome_iff_exists.mp (firstWrite_isSome hmem)
      rw [hvalue']
      exact List.append_ne_nil_of_right_ne_nil _ (List.cons_ne_nil _ _)
  · -- it is still on the channel: split the channel at it
    have hle : s.task.received ≤ p := Nat.le_of_not_lt hlt
    have hidx : s.queue[p - s.task.received]? = some (.notifyRead key) := by
      rw [queue, List.getElem?_drop, Nat.add_sub_cancel' hle]
      exact hp
    obtain ⟨hlen, hget⟩ := List.getElem?_eq_some_iff.mp hidx
    have hsplit : s.queue = s.queue.take (p - s.task.received) ++
        .notifyRead key :: s.queue.drop (p - s.task.received + 1) := by
      rw [← hget, ← List.drop_eq_getElem_cons hlen, List.take_append_drop]
    have hpost : StoreCommand.write key value ∈ s.queue.drop (p - s.task.received + 1) := by
      refine List.mem_of_getElem? (i := q - p - 1) ?_
      rw [List.getElem?_drop, queue, List.getElem?_drop]
      rw [show s.task.received + (p - s.task.received + 1 + (q - p - 1)) = q by omega]
      exact hq
    have hcmds : ∀ c ∈ s.queue.take (p - s.task.received) ++
        s.queue.drop (p - s.task.received + 1), c.keepsRunning := fun c hc => by
      rcases List.mem_append.mp hc with hc | hc
      · exact hkeep c (List.mem_of_mem_take hc)
      · exact hkeep c (List.mem_of_mem_drop hc)
    have hpos : s.task.received + (s.queue.take (p - s.task.received)).length = p := by
      rw [List.length_take, Nat.min_eq_left (Nat.le_of_lt hlen)]
      omega
    have hans := repliesTo_run_notifyRead destroyed hs.fresh hrun _ _ key hcmds
    rw [hpos] at hans
    rw [hsplit, hans, notifyAnswer]
    obtain ⟨value', hvalue'⟩ := Option.isSome_iff_exists.mp (firstWrite_isSome hpost)
    rw [hvalue']
    cases dbAfter s.task.db (s.queue.take (p - s.task.received)) key <;> exact List.cons_ne_nil _ _

end Take

end StoreChannel

/-! ## A future that `try_join_all`s some `notify_read`s -/

/-- The keys of the `notify_read`s of one future, in order, and the positions on the
store's channel of the `NotifyRead`s sent so far, one for each of the first keys. -/
structure NotifyReads (K : Type) where
  keys : List K
  positions : List Nat
deriving DecidableEq, Repr

namespace NotifyReads

variable {K V : Type} [DecidableEq K]

/-- The key of the next `notify_read` to send its command. -/
def next? (r : NotifyReads K) : Option K := r.keys[r.positions.length]?

/-- The next `notify_read` sent its command at position `p`. -/
def sent (r : NotifyReads K) (p : Nat) : NotifyReads K := { r with positions := r.positions ++ [p] }

/-- `try_join_all` resolves with `Ok`: every command sent, and each answered. -/
def joined (t : StoreTask K V) (r : NotifyReads K) : Bool :=
  r.positions.length == r.keys.length && r.positions.all fun p => !(t.repliesTo p).isEmpty

/-- Some `notify_read` returns `Err`: the task has ended, dropping the senders it had not
answered and the channel with the commands it had not taken, before answering them all. -/
def failed (t : StoreTask K V) (r : NotifyReads K) : Bool := !t.running && !r.joined t

/-- Each position sent holds the `NotifyRead` of its key. -/
def OnChannel (cmds : List (StoreCommand K V)) (r : NotifyReads K) : Prop :=
  r.positions.length ≤ r.keys.length ∧
    ∀ i p : Nat, r.positions[i]? = some p →
      ∃ key, r.keys[i]? = some key ∧ cmds[p]? = some (StoreCommand.notifyRead key)

omit [DecidableEq K] in
theorem OnChannel.append {cmds : List (StoreCommand K V)} {r : NotifyReads K}
    (hr : OnChannel cmds r) (more : List (StoreCommand K V)) : OnChannel (cmds ++ more) r := by
  refine ⟨hr.1, fun i p hp => ?_⟩
  obtain ⟨key, hkey, hcmd⟩ := hr.2 i p hp
  exact ⟨key, hkey, by rw [List.getElem?_append_left (List.getElem?_eq_some_iff.mp hcmd).1, hcmd]⟩

omit [DecidableEq K] in
/-- Sending the next command at the end of the channel keeps the positions on it. -/
theorem OnChannel.sent {cmds : List (StoreCommand K V)} {r : NotifyReads K}
    (hr : OnChannel cmds r) {key : K} (hnext : r.next? = some key) :
    OnChannel (cmds ++ [.notifyRead key]) (r.sent cmds.length) := by
  have hlt : r.positions.length < r.keys.length := (List.getElem?_eq_some_iff.mp hnext).1
  refine ⟨by simp only [NotifyReads.sent, List.length_append, List.length_singleton]; omega,
    fun i p hp => ?_⟩
  simp only [NotifyReads.sent] at hp
  rcases Nat.lt_or_ge i r.positions.length with hi | hi
  · rw [List.getElem?_append_left hi] at hp
    exact (hr.append _).2 i p hp
  · rw [List.getElem?_append_right hi, List.getElem?_singleton] at hp
    split at hp
    · cases hp
      have hi' : i = r.positions.length := by omega
      exact ⟨key, hi' ▸ hnext, List.getElem?_concat_length⟩
    · cases hp

/-- **The writes of a future's keys wake it.**  When the task runs, no command on the channel
ends it, and every `notify_read` of the future has sent its command: once a `Write` of each
of its keys has been sent, whatever the values, and the task has taken every command,
`try_join_all` resolves with `Ok`. -/
theorem joined_drain_writes (destroyed : Bool) {s : StoreChannel K V} (hs : s.Tracked)
    (hrun : s.task.running) (hkeep : ∀ c ∈ s.queue, c.keepsRunning) {r : NotifyReads K}
    (hr : OnChannel s.sent r) (hall : r.positions.length = r.keys.length) (value : K → V) :
    r.joined ((StoreChannel.take destroyed)^[(s.sendAll (r.keys.map fun k => .write k (value k))).queue.length]
      (s.sendAll (r.keys.map fun k => .write k (value k)))).task = true := by
  have hs' := hs.sendAll (r.keys.map fun k => .write k (value k))
  have hkeep' : ∀ c ∈ (s.sendAll (r.keys.map fun k => .write k (value k))).queue, c.keepsRunning := by
    intro c hc
    rw [StoreChannel.queue_sendAll hs, List.mem_append] at hc
    rcases hc with hc | hc
    · exact hkeep c hc
    · obtain ⟨k, -, rfl⟩ := List.mem_map.mp hc
      rfl
  simp only [joined, hall, beq_self_eq_true, Bool.true_and, List.all_eq_true]
  intro p hp
  obtain ⟨i, hi⟩ := List.mem_iff_getElem?.mp hp
  obtain ⟨key, hkey, hcmd⟩ := hr.2 i p hi
  -- the `Write` of the key stands at position `s.sent.length + i`, after the `NotifyRead`
  have hplt : p < s.sent.length := (List.getElem?_eq_some_iff.mp hcmd).1
  have hwrite : (s.sent ++ r.keys.map fun k => StoreCommand.write k (value k))[s.sent.length + i]? =
      some (.write key (value key)) := by
    rw [List.getElem?_append_right (Nat.le_add_right _ _), Nat.add_sub_cancel_left,
      List.getElem?_map, hkey]
    rfl
  have hans := StoreChannel.answered_drain destroyed hs' (hrun : (s.sendAll _).task.running) hkeep'
    (by rw [← hcmd]; exact List.getElem?_append_left hplt) hwrite (by omega)
    (Nat.le_trans hs.received_le (Nat.le_add_right _ _))
  simpa [List.isEmpty_iff] using hans

end NotifyReads

end SafeStake.Store
