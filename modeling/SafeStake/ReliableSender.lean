import Mathlib.Logic.Function.Basic

/-! # Reliable connections

`ReliableSender::send` hands a message to the task of its peer's `Connection`, with a
`oneshot` sender, the handler, whose receiver (the `CancelHandler`) the caller keeps: the
handler is completed with the peer's reply, and the caller cancels the message by dropping
the receiver.  The task loops in `Connection::run`.  While it is connected, `keep_alive` writes
the buffer out, moving each message to `pending_replies`, and completes the handler of the
oldest pending message with each reply frame it reads; on an error it puts the pending
messages back at the front of the buffer and `run` connects again.  While connecting fails,
the waiter loop drains the channel into the buffer.

The model takes one event for each iteration of these loops or arm of their `select!`
(`Event`), and names a handler by its message's position on the channel.  A message taken
off the channel whose handler is not cancelled is, at every point, in exactly one place of
`pending_replies` and the buffer, or its handler has been completed once
(`Invariant.conserved`); the replies read on a connection go to the messages written on it,
in order (`Invariant.fifo`); and the messages held stay in the order they came in
(`Invariant.ordered`), so that after an error the unacknowledged ones go back, in that order,
ahead of the unsent ones.
-/

namespace SafeStake.ReliableSender

/-- An `InnerMessage` as the buffers hold it: its data, and its handler, named by the
message's position on the channel. -/
structure Message (D : Type) where
  data : D
  handler : Nat
deriving DecidableEq, Repr

/-- Where the connection's task is: about to call `TcpStream::connect`, in the waiter loop
after a failed connect, in `keep_alive`, or returned. -/
inductive Phase where
  | connecting
  | waiting
  | connected
  | closed
deriving DecidableEq, Repr

/-- One iteration of the connection's loops or one arm of their `select!`, or a caller
dropping the `CancelHandler` of a message. -/
inductive Event (D R : Type) where
  /-- `TcpStream::connect` returns `Ok`. -/
  | connectOk
  /-- `TcpStream::connect` returns `Err`. -/
  | connectErr
  /-- The waiter's timer fires. -/
  | timer
  /-- `receiver.recv()` returns an `InnerMessage`. -/
  | message (data : D)
  /-- `receiver.recv()` returns `None`. -/
  | channelClosed
  /-- The exit future fires. -/
  | exit
  /-- The send loop pops a message whose handler is closed. -/
  | skip
  /-- `writer.send` succeeds. -/
  | writeOk
  /-- `writer.send` fails. -/
  | writeErr
  /-- `reader.next()` returns `Some(Ok(bytes))`. -/
  | reply (bytes : R)
  /-- `reader.next()` returns `Some(Err(_))` or `None`. -/
  | readErr
  /-- The caller drops the `CancelHandler` of a message. -/
  | cancel (handler : Nat)
deriving DecidableEq, Repr

/-- Whether the task goes on after the event: every event but the channel's closing and the
exit signal, on which `run` returns. -/
def Event.keepsOpen {D R : Type} : Event D R → Bool
  | .channelClosed | .exit => false
  | _ => true

/-- `while let Some(message) = pending_replies.pop_back() { self.buffer.push_front(message) }`,
on `pending_replies` read from its back. -/
def pushFrontAll {α : Type} : List α → List α → List α
  | [], buffer => buffer
  | m :: fromBack, buffer => pushFrontAll fromBack (m :: buffer)

theorem pushFrontAll_eq {α : Type} (fromBack buffer : List α) :
    pushFrontAll fromBack buffer = fromBack.reverse ++ buffer := by
  induction fromBack generalizing buffer with
  | nil => rfl
  | cons m fromBack ih => simp [pushFrontAll, ih]

/-- The connection: its buffer, `keep_alive`'s `pending_replies`, where the task is, the
handlers whose `CancelHandler` was dropped, each reply that reached a handler, and the number
of messages taken off the channel.  `written` and `acked` are ghost state: the handlers of the
messages written on the current connection, and of those whose reply was read on it. -/
structure Connection (D R : Type) where
  buffer : List (Message D)
  pendingReplies : List (Message D)
  phase : Phase
  cancelled : List Nat
  replies : List (Nat × R)
  received : Nat
  written : List Nat
  acked : List Nat

namespace Connection

variable {D R : Type}

/-- The task as `Connection::spawn` starts it. -/
def spawn : Connection D R := ⟨[], [], .connecting, [], [], 0, [], []⟩

/-- `handler.is_closed()`. -/
def isClosed (s : Connection D R) (m : Message D) : Bool := decide (m.handler ∈ s.cancelled)

/-- `keep_alive` returns an error other than `TokioChannelClosed`: the pending messages go
back to the front of the buffer, and `run` connects again. -/
def requeue (s : Connection D R) : Connection D R :=
  { s with
    buffer := pushFrontAll s.pendingReplies.reverse s.buffer
    pendingReplies := []
    phase := .connecting }

/-- `run` returns, and the task drops the messages it holds. -/
def close (s : Connection D R) : Connection D R :=
  { s with buffer := [], pendingReplies := [], phase := .closed }

/-- The task on one event; `none` where the event cannot happen. -/
def step (s : Connection D R) : Event D R → Option (Connection D R)
  | .connectOk =>
    if s.phase = .connecting then some { s with phase := .connected, written := [], acked := [] }
    else none
  | .connectErr => if s.phase = .connecting then some { s with phase := .waiting } else none
  | .timer => if s.phase = .waiting then some { s with phase := .connecting } else none
  | .message data =>
    match s.phase, s.buffer with
    | .waiting, _ =>
      -- the waiter pushes the message, then drops every message whose handler is closed
      some { s with
        buffer := (s.buffer ++ [Message.mk data s.received]).filter fun held => !s.isClosed held
        received := s.received + 1 }
    | .connected, [] =>
      some { s with buffer := [Message.mk data s.received], received := s.received + 1 }
    | _, _ => none
  | .channelClosed | .exit =>
    match s.phase, s.buffer with
    | .waiting, _ | .connected, [] => some s.close
    | _, _ => none
  | .skip =>
    match s.phase, s.buffer with
    | .connected, m :: rest => if s.isClosed m then some { s with buffer := rest } else none
    | _, _ => none
  | .writeOk =>
    match s.phase, s.buffer with
    | .connected, m :: rest =>
      if s.isClosed m then none
      else
        some { s with
          buffer := rest
          pendingReplies := s.pendingReplies ++ [m]
          written := s.written ++ [m.handler] }
    | _, _ => none
  | .writeErr =>
    match s.phase, s.buffer with
    | .connected, m :: rest =>
      -- `FailedToSendMessage`, once the message is back at the front of the buffer
      if s.isClosed m then none else some { s with buffer := m :: rest }.requeue
    | _, _ => none
  | .reply bytes =>
    match s.phase, s.buffer, s.pendingReplies with
    | .connected, [], m :: rest =>
      -- `handler.send` reaches the caller only while it holds the `CancelHandler`
      some { s with
        pendingReplies := rest
        replies := if s.isClosed m then s.replies else s.replies ++ [(m.handler, bytes)]
        acked := s.acked ++ [m.handler] }
    | .connected, [], [] => some s.requeue
    | _, _, _ => none
  | .readErr =>
    -- `FailedToReceiveAck` once the message popped is back in front, or `UnexpectedAck`
    match s.phase, s.buffer with
    | .connected, [] => some s.requeue
    | _, _ => none
  | .cancel handler => some { s with cancelled := handler :: s.cancelled }

/-- The task over a list of events; `none` if one of them cannot happen. -/
def run : List (Event D R) → Connection D R → Option (Connection D R)
  | [], s => some s
  | e :: es, s => (s.step e).bind (run es)

/-- The messages the task holds, in the order it sends them: `pending_replies`, then the
buffer. -/
def held (s : Connection D R) : List (Message D) := s.pendingReplies ++ s.buffer

/-- After an error the pending messages are back, in their order, ahead of the buffer. -/
theorem requeue_buffer (s : Connection D R) : s.requeue.buffer = s.pendingReplies ++ s.buffer := by
  rw [requeue, pushFrontAll_eq, List.reverse_reverse]

theorem held_requeue (s : Connection D R) : s.requeue.held = s.held := by
  rw [held, requeue_buffer, held]
  rfl

/-! ## What one event does -/

/-- `l'` is `l` with some messages of closed handlers left out. -/
def Drops (s : Connection D R) (l l' : List (Message D)) : Prop :=
  List.Sublist l' l ∧ l'.filter (fun m => !s.isClosed m) = l.filter (fun m => !s.isClosed m)

theorem Drops.refl (s : Connection D R) (l : List (Message D)) : s.Drops l l :=
  ⟨List.Sublist.refl l, rfl⟩

/-- Leaving out the messages of closed handlers does not change how often a handler that is
not closed is held. -/
theorem count_filter_open (s : Connection D R) (l : List (Message D)) {h : Nat}
    (hh : h ∉ s.cancelled) :
    ((l.filter fun m => !s.isClosed m).map Message.handler).count h =
      (l.map Message.handler).count h := by
  induction l with
  | nil => rfl
  | cons m l ih =>
    by_cases hm : m.handler ∈ s.cancelled
    · -- a closed handler is not `h`
      have hne : m.handler ≠ h := fun heq => hh (heq ▸ hm)
      rw [List.filter_cons_of_neg (by simp [isClosed, hm]), ih, List.map_cons,
        List.count_cons_of_ne hne]
    · rw [List.filter_cons_of_pos (by simp [isClosed, hm]), List.map_cons, List.map_cons,
        List.count_cons, List.count_cons, ih]

theorem Drops.count_eq {s : Connection D R} {l l' : List (Message D)} (hd : s.Drops l l')
    {h : Nat} (hh : h ∉ s.cancelled) :
    (l'.map Message.handler).count h = (l.map Message.handler).count h := by
  rw [← count_filter_open s l' hh, hd.2, count_filter_open s l hh]

/-- What one event that keeps the task open can do to the messages held, the replies, the
cancelled handlers and the count of messages received. -/
inductive Effect (s s' : Connection D R) : Prop where
  /-- A message comes off the channel; the waiter drops those of closed handlers. -/
  | receive (data : D) (hheld : s.Drops (s.held ++ [⟨data, s.received⟩]) s'.held)
      (hreplies : s'.replies = s.replies) (hcancelled : s'.cancelled = s.cancelled)
      (hreceived : s'.received = s.received + 1)
  /-- The messages held move between the queues, and the send loop skips one of a closed
  handler. -/
  | move (hheld : s.Drops s.held s'.held) (hreplies : s'.replies = s.replies)
      (hcancelled : s'.cancelled = s.cancelled) (hreceived : s'.received = s.received)
  /-- The oldest pending message gets its reply. -/
  | reply (m : Message D) (bytes : R) (hheld : s.held = m :: s'.held)
      (hreplies : s'.replies =
        if s.isClosed m then s.replies else s.replies ++ [(m.handler, bytes)])
      (hcancelled : s'.cancelled = s.cancelled) (hreceived : s'.received = s.received)
  /-- A caller cancels a message. -/
  | cancel (handler : Nat) (hheld : s'.held = s.held) (hreplies : s'.replies = s.replies)
      (hcancelled : s'.cancelled = handler :: s.cancelled) (hreceived : s'.received = s.received)

/-- An event that leaves the held messages as they are. -/
theorem Effect.of_held_eq {s s' : Connection D R} (hheld : s'.held = s.held)
    (hreplies : s'.replies = s.replies) (hcancelled : s'.cancelled = s.cancelled)
    (hreceived : s'.received = s.received) : Effect s s' :=
  .move (hheld ▸ Drops.refl s s.held) hreplies hcancelled hreceived

/-- **What one event does.**  Every event that keeps the task open is one of the four
`Effect`s. -/
theorem step_effect {s s' : Connection D R} {e : Event D R} (he : e.keepsOpen)
    (h : s.step e = some s') : Effect s s' := by
  cases e with
  | connectOk | connectErr | timer =>
    simp only [step] at h
    split at h
    · cases h
      exact .of_held_eq rfl rfl rfl rfl
    · cases h
  | message data =>
    simp only [step] at h
    split at h
    · -- the waiter keeps the pending messages and filters the buffer
      cases h
      refine .receive data ⟨?_, ?_⟩ rfl rfl rfl
      · rw [held, held, List.append_assoc]
        exact List.filter_sublist.append_left s.pendingReplies
      · simp [held, List.filter_append, List.filter_filter]
    · rename_i hbuf
      cases h
      refine .receive data ?_ rfl rfl rfl
      rw [held, held, hbuf, List.append_nil]
      exact Drops.refl s _
    · cases h
  | channelClosed | exit => cases he
  | skip =>
    simp only [step] at h
    split at h
    · rename_i m rest _ hbuf
      split at h
      · -- the message of a closed handler is left out
        rename_i hm
        cases h
        refine .move ⟨?_, ?_⟩ rfl rfl rfl
        · rw [held, held, hbuf]
          exact (List.sublist_cons_self m rest).append_left s.pendingReplies
        · simp [held, hbuf, List.filter_append, hm]
      · cases h
    · cases h
  | writeOk =>
    simp only [step] at h
    split at h
    · rename_i m rest _ hbuf
      split at h
      · cases h
      · cases h
        refine .of_held_eq ?_ rfl rfl rfl
        simp [held, hbuf]
    · cases h
  | writeErr =>
    simp only [step] at h
    split at h
    · rename_i m rest _ hbuf
      split at h
      · cases h
      · cases h
        refine .of_held_eq ?_ rfl rfl rfl
        rw [held_requeue, held, held, hbuf]
    · cases h
  | reply bytes =>
    simp only [step] at h
    split at h
    · rename_i m rest _ hbuf hpending
      cases h
      refine .reply m bytes ?_ rfl rfl rfl
      simp [held, hbuf, hpending]
    · cases h
      exact .of_held_eq (held_requeue s) rfl rfl rfl
    · cases h
  | readErr =>
    simp only [step] at h
    split at h
    · cases h
      exact .of_held_eq (held_requeue s) rfl rfl rfl
    · cases h
  | cancel handler =>
    cases h
    exact .cancel handler rfl rfl rfl rfl

/-- What one event does to where the task is and to `pending_replies`, with the ghost logs
of the current connection. -/
inductive Turn (s s' : Connection D R) : Prop where
  /-- None of it changes: a message comes in, the send loop skips one, a caller cancels. -/
  | stay (hphase : s'.phase = s.phase) (hpending : s'.pendingReplies = s.pendingReplies)
      (hacked : s'.acked = s.acked) (hwritten : s'.written = s.written)
  /-- Connecting fails, or the waiter's timer fires: all outside `keep_alive`. -/
  | retry (hphase : s.phase ≠ .connected) (hphase' : s'.phase ≠ .connected)
      (hpending : s'.pendingReplies = s.pendingReplies)
  /-- The task connects and enters `keep_alive`. -/
  | connect (hphase : s.phase = .connecting) (hphase' : s'.phase = .connected)
      (hpending : s'.pendingReplies = s.pendingReplies) (hacked : s'.acked = [])
      (hwritten : s'.written = [])
  /-- A message is written. -/
  | write (m : Message D) (hphase : s.phase = .connected) (hphase' : s'.phase = .connected)
      (hpending : s'.pendingReplies = s.pendingReplies ++ [m]) (hacked : s'.acked = s.acked)
      (hwritten : s'.written = s.written ++ [m.handler])
  /-- A reply frame acknowledges the oldest pending message. -/
  | ack (m : Message D) (hphase : s.phase = .connected) (hphase' : s'.phase = .connected)
      (hpending : s.pendingReplies = m :: s'.pendingReplies)
      (hacked : s'.acked = s.acked ++ [m.handler]) (hwritten : s'.written = s.written)
  /-- `keep_alive` returns an error. -/
  | requeue (hphase : s.phase = .connected) (hs' : s' = s.requeue)
  /-- `run` returns. -/
  | close (hs' : s' = s.close)

theorem step_turn {s s' : Connection D R} {e : Event D R} (h : s.step e = some s') :
    Turn s s' := by
  cases e with
  | connectOk =>
    simp only [step] at h
    split at h
    · rename_i hphase
      cases h
      exact .connect hphase rfl rfl rfl rfl
    · cases h
  | connectErr | timer =>
    simp only [step] at h
    split at h
    · rename_i hphase
      cases h
      exact .retry (by rw [hphase]; decide) (fun hc => by cases hc) rfl
    · cases h
  | message data =>
    simp only [step] at h
    split at h
    · cases h
      exact .stay rfl rfl rfl rfl
    · cases h
      exact .stay rfl rfl rfl rfl
    · cases h
  | channelClosed | exit =>
    simp only [step] at h
    split at h
    · cases h
      exact .close rfl
    · cases h
      exact .close rfl
    · cases h
  | skip =>
    simp only [step] at h
    split at h
    · split at h
      · cases h
        exact .stay rfl rfl rfl rfl
      · cases h
    · cases h
  | writeOk =>
    simp only [step] at h
    split at h
    · rename_i m rest hphase _
      split at h
      · cases h
      · cases h
        exact .write m hphase hphase rfl rfl rfl
    · cases h
  | writeErr =>
    simp only [step] at h
    split at h
    · rename_i hphase hbuf
      split at h
      · cases h
      · -- `FailedToSendMessage`: the message popped is back in front
        cases h
        refine .requeue hphase ?_
        rw [← hbuf]
    · cases h
  | reply bytes =>
    simp only [step] at h
    split at h
    · rename_i m rest hphase _ hpending
      cases h
      exact .ack m hphase hphase hpending rfl rfl
    · -- `UnexpectedAck`
      rename_i hphase _ _
      cases h
      exact .requeue hphase rfl
    · cases h
  | readErr =>
    simp only [step] at h
    split at h
    · rename_i hphase _
      cases h
      exact .requeue hphase rfl
    · cases h
  | cancel handler =>
    cases h
    exact .stay rfl rfl rfl rfl

/-! ## The invariant -/

/-- What holds in every state the task reaches while it runs. -/
structure Invariant (s : Connection D R) : Prop where
  /-- The messages held are in the order they came off the channel. -/
  ordered : (s.held.map Message.handler).Pairwise (· < ·)
  /-- Every message held, and every reply, is of a message already received. -/
  held_lt : ∀ m ∈ s.held, m.handler < s.received
  replies_lt : ∀ r ∈ s.replies, r.1 < s.received
  /-- A message whose handler is not cancelled is held once, or its handler completed once. -/
  conserved : ∀ h < s.received, h ∉ s.cancelled →
    (s.held.map Message.handler).count h + (s.replies.map Prod.fst).count h = 1
  /-- `pending_replies` is `keep_alive`'s own. -/
  idle : s.phase ≠ .connected → s.pendingReplies = []
  /-- The replies read on this connection went to the messages written on it, in order, and
  the rest of these are pending. -/
  fifo : s.phase = .connected → s.acked ++ s.pendingReplies.map Message.handler = s.written

theorem Invariant.spawn : (spawn : Connection D R).Invariant where
  ordered := List.Pairwise.nil
  held_lt := fun _ hm => absurd hm List.not_mem_nil
  replies_lt := fun _ hr => absurd hr List.not_mem_nil
  conserved := fun _ hlt _ => absurd hlt (Nat.not_lt_zero _)
  idle := fun _ => rfl
  fifo := fun hphase => by cases hphase

theorem Effect.held_ordered {s s' : Connection D R} (hs : s.Invariant) (hef : Effect s s') :
    (s'.held.map Message.handler).Pairwise (· < ·) ∧ ∀ m ∈ s'.held, m.handler < s'.received := by
  cases hef with
  | receive data hheld _ _ hreceived =>
    -- the new message comes after every message held
    have hnew : ((s.held ++ [Message.mk data s.received]).map Message.handler).Pairwise (· < ·) := by
      rw [List.map_append, List.pairwise_append]
      refine ⟨hs.ordered, List.pairwise_singleton _ _, ?_⟩
      intro a ha b hb
      obtain ⟨m, hm, rfl⟩ := List.mem_map.mp ha
      rw [List.map_singleton, List.mem_singleton] at hb
      rw [hb]
      exact hs.held_lt m hm
    refine ⟨hnew.sublist (hheld.1.map _), fun m hm => ?_⟩
    rw [hreceived]
    rcases List.mem_append.mp (hheld.1.subset hm) with hm | hm
    · exact Nat.lt_succ_of_lt (hs.held_lt m hm)
    · rw [List.mem_singleton.mp hm]
      exact Nat.lt_succ_self _
  | move hheld _ _ hreceived =>
    exact ⟨hs.ordered.sublist (hheld.1.map _),
      fun m hm => hreceived ▸ hs.held_lt m (hheld.1.subset hm)⟩
  | reply m bytes hheld _ _ hreceived =>
    have hord := hs.ordered
    rw [hheld, List.map_cons, List.pairwise_cons] at hord
    exact ⟨hord.2, fun m' hm' => hreceived ▸ hs.held_lt m' (hheld ▸ List.mem_cons_of_mem m hm')⟩
  | cancel handler hheld _ _ hreceived =>
    exact ⟨hheld ▸ hs.ordered, fun m hm => hreceived ▸ hs.held_lt m (hheld ▸ hm)⟩

theorem Effect.replies_lt {s s' : Connection D R} (hs : s.Invariant) (hef : Effect s s') :
    ∀ r ∈ s'.replies, r.1 < s'.received := by
  intro r hr
  cases hef with
  | receive _ _ hreplies _ hreceived =>
    rw [hreceived]
    rw [hreplies] at hr
    exact Nat.lt_succ_of_lt (hs.replies_lt r hr)
  | move _ hreplies _ hreceived | cancel _ _ hreplies _ hreceived =>
    rw [hreceived]
    rw [hreplies] at hr
    exact hs.replies_lt r hr
  | reply m bytes hheld hreplies _ hreceived =>
    rw [hreceived]
    rw [hreplies] at hr
    split at hr
    · exact hs.replies_lt r hr
    · rcases List.mem_append.mp hr with hr | hr
      · exact hs.replies_lt r hr
      · -- the reply goes to a message that was held
        rw [List.mem_singleton.mp hr]
        exact hs.held_lt m (hheld ▸ List.mem_cons_self)

theorem Effect.conserved {s s' : Connection D R} (hs : s.Invariant) (hef : Effect s s') :
    ∀ h < s'.received, h ∉ s'.cancelled →
      (s'.held.map Message.handler).count h + (s'.replies.map Prod.fst).count h = 1 := by
  intro h hlt hh
  cases hef with
  | receive data hheld hreplies hcancelled hreceived =>
    rw [hcancelled] at hh
    rw [hreceived] at hlt
    rw [hreplies, hheld.count_eq hh, List.map_append, List.count_append, List.map_singleton]
    rcases Nat.lt_succ_iff_lt_or_eq.mp hlt with hlt | rfl
    · -- an older message: the new one is another
      rw [List.count_singleton, if_neg (by simp [Nat.ne_of_gt hlt]), Nat.add_zero]
      exact hs.conserved h hlt hh
    · -- the new message: held nowhere else, and not replied to
      have hheld0 : (s.held.map Message.handler).count s.received = 0 := by
        rw [List.count_eq_zero, List.mem_map]
        rintro ⟨m, hm, heq⟩
        exact Nat.lt_irrefl _ (heq ▸ hs.held_lt m hm)
      have hrep0 : (s.replies.map Prod.fst).count s.received = 0 := by
        rw [List.count_eq_zero, List.mem_map]
        rintro ⟨r, hr, heq⟩
        exact Nat.lt_irrefl _ (heq ▸ hs.replies_lt r hr)
      rw [hheld0, hrep0, List.count_singleton_self]
  | move hheld hreplies hcancelled hreceived =>
    rw [hcancelled] at hh
    rw [hreceived] at hlt
    rw [hreplies, hheld.count_eq hh]
    exact hs.conserved h hlt hh
  | reply m bytes hheld hreplies hcancelled hreceived =>
    rw [hcancelled] at hh
    rw [hreceived] at hlt
    have hc := hs.conserved h hlt hh
    rw [hheld, List.map_cons, List.count_cons] at hc
    rw [hreplies]
    split
    · -- the handler is closed, so it is not `h`, and the reply is lost
      rename_i hm
      have hne : m.handler ≠ h := fun heq => hh (heq ▸ by simpa [isClosed] using hm)
      simpa [hne] using hc
    · rw [List.map_append, List.count_append, List.map_singleton, List.count_singleton]
      dsimp only
      omega
  | cancel handler hheld hreplies hcancelled hreceived =>
    rw [hcancelled] at hh
    rw [hreceived] at hlt
    rw [hheld, hreplies]
    exact hs.conserved h hlt fun hm => hh (List.mem_cons_of_mem handler hm)

/-- After an error no message is pending. -/
theorem requeue_pending (s : Connection D R) :
    (s.requeue.phase ≠ .connected → s.requeue.pendingReplies = []) ∧
      (s.requeue.phase = .connected →
        s.requeue.acked ++ s.requeue.pendingReplies.map Message.handler = s.requeue.written) :=
  ⟨fun _ => rfl, fun hc => by cases hc⟩

/-- `pending_replies` over one event: empty outside `keep_alive`, and in it the messages
written and not yet acknowledged, in order. -/
theorem Invariant.pending_step {s s' : Connection D R} (hs : s.Invariant) {e : Event D R}
    (h : s.step e = some s') :
    (s'.phase ≠ .connected → s'.pendingReplies = []) ∧
      (s'.phase = .connected → s'.acked ++ s'.pendingReplies.map Message.handler = s'.written) := by
  cases step_turn h with
  | stay hphase hpending hacked hwritten =>
    rw [hphase, hpending, hacked, hwritten]
    exact ⟨hs.idle, hs.fifo⟩
  | retry hphase hphase' hpending =>
    exact ⟨fun _ => hpending.trans (hs.idle hphase), fun hc => absurd hc hphase'⟩
  | connect hphase hphase' hpending hacked hwritten =>
    -- `keep_alive` starts with no pending message
    have hidle := hs.idle (by rw [hphase]; decide)
    refine ⟨fun hc => absurd hphase' hc, fun _ => ?_⟩
    rw [hpending, hidle, hacked, hwritten]
    rfl
  | write m hphase hphase' hpending hacked hwritten =>
    -- the message written joins the end of `pending_replies`
    refine ⟨fun hc => absurd hphase' hc, fun _ => ?_⟩
    rw [hpending, hacked, hwritten, List.map_append, ← List.append_assoc, hs.fifo hphase,
      List.map_singleton]
  | ack m hphase hphase' hpending hacked hwritten =>
    -- the reply goes to the oldest pending message
    refine ⟨fun hc => absurd hphase' hc, fun _ => ?_⟩
    have hf := hs.fifo hphase
    rw [hpending, List.map_cons] at hf
    rw [hacked, hwritten, List.append_assoc, List.singleton_append]
    exact hf
  | requeue _ hs' =>
    rw [hs']
    exact requeue_pending s
  | close hs' =>
    rw [hs']
    exact ⟨fun _ => rfl, fun hc => by cases hc⟩

theorem Invariant.step {s s' : Connection D R} (hs : s.Invariant) {e : Event D R}
    (he : e.keepsOpen) (h : s.step e = some s') : s'.Invariant :=
  have hef := step_effect he h
  have hpending := hs.pending_step h
  ⟨(hef.held_ordered hs).1, (hef.held_ordered hs).2, hef.replies_lt hs, hef.conserved hs,
    hpending.1, hpending.2⟩

theorem Invariant.run {s : Connection D R} (hs : s.Invariant) :
    ∀ {es : List (Event D R)} {s' : Connection D R}, (∀ e ∈ es, e.keepsOpen) →
      run es s = some s' → s'.Invariant
  | [], _, _, hrun => by
    cases hrun
    exact hs
  | e :: es, _, hes, hrun => by
    obtain ⟨t, ht, hrest⟩ := Option.bind_eq_some_iff.mp hrun
    exact (hs.step (hes e List.mem_cons_self) ht).run
      (fun e' he' => hes e' (List.mem_cons_of_mem e he')) hrest

/-! ## Replies and errors -/

/-- A reply frame read on a connection completes the handler of the oldest pending message,
if its caller still holds the `CancelHandler`. -/
theorem step_reply {s s' : Connection D R} {bytes : R} (h : s.step (.reply bytes) = some s')
    (hphase' : s'.phase = .connected) :
    s.phase = .connected ∧ ∃ m rest, s.pendingReplies = m :: rest ∧
      s'.acked = s.acked ++ [m.handler] ∧
        s'.replies = if m.handler ∈ s.cancelled then s.replies else s.replies ++ [(m.handler, bytes)] := by
  simp only [step] at h
  split at h
  · rename_i m rest hphase _ hpending
    cases h
    refine ⟨hphase, m, rest, hpending, rfl, ?_⟩
    simp only [isClosed, decide_eq_true_eq]
  · -- `UnexpectedAck` leaves the connection
    cases h
    cases hphase'
  · cases h

/-- From `keep_alive`, only an error leads back to connecting, and it is a requeue. -/
theorem step_of_connecting {s s' : Connection D R} {e : Event D R} (hphase : s.phase = .connected)
    (h : s.step e = some s') (hphase' : s'.phase = .connecting) : s' = s.requeue := by
  -- every other event leaves the task where it was, on the connection, or closed
  cases step_turn h with
  | stay hstay =>
    rw [hstay, hphase] at hphase'
    cases hphase'
  | retry hidle => exact absurd hphase hidle
  | connect hconnecting =>
    rw [hphase] at hconnecting
    cases hconnecting
  | write _ _ hconnected | ack _ _ hconnected =>
    rw [hconnected] at hphase'
    cases hphase'
  | requeue _ hs' => exact hs'
  | close hs' =>
    rw [hs'] at hphase'
    cases hphase'

end Connection

section Runs

open Connection

variable {D R : Type}

/-- **No message is lost or misattributed.**  In every state a run of events that keeps the
task open reaches from `Connection::spawn`: a message taken off the channel whose handler is
not cancelled is held exactly once in `pending_replies` and the buffer, or its handler has
been completed exactly once; on a connection, the replies read went to the messages written
on it, in order, and the next reply completes the handler of the first message written and
not yet acknowledged; and an error puts the unacknowledged messages back, in the order they
came, ahead of the unsent ones. -/
theorem reliable_sender_conserves (es : List (Event D R)) (s : Connection D R)
    (hes : ∀ e ∈ es, e.keepsOpen) (hrun : run es spawn = some s) :
    (∀ h < s.received, h ∉ s.cancelled →
      ((s.pendingReplies ++ s.buffer).map Message.handler).count h +
        (s.replies.map Prod.fst).count h = 1) ∧
    (s.phase = .connected → s.acked ++ s.pendingReplies.map Message.handler = s.written) ∧
    (∀ (bytes : R) (s' : Connection D R), s.step (.reply bytes) = some s' →
      s'.phase = .connected → ∃ h, s.written[s.acked.length]? = some h ∧
        s'.acked = s.acked ++ [h] ∧
          s'.replies = if h ∈ s.cancelled then s.replies else s.replies ++ [(h, bytes)]) ∧
    (∀ (e : Event D R) (s' : Connection D R), s.step e = some s' → s.phase = .connected →
      s'.phase = .connecting →
        s'.buffer = s.pendingReplies ++ s.buffer ∧ s'.pendingReplies = [] ∧
          (s'.buffer.map Message.handler).Pairwise (· < ·)) := by
  have hinv := Invariant.spawn.run hes hrun
  refine ⟨hinv.conserved, hinv.fifo, ?_, ?_⟩
  · -- the oldest pending message is the first written and not acknowledged
    intro bytes s' hstep hphase'
    obtain ⟨hphase, m, rest, hpending, hacked, hreplies⟩ := step_reply hstep hphase'
    have hwritten := hinv.fifo hphase
    rw [hpending, List.map_cons] at hwritten
    refine ⟨m.handler, ?_, hacked, hreplies⟩
    rw [← hwritten, List.getElem?_append_right (Nat.le_refl _), Nat.sub_self,
      List.getElem?_cons_zero]
  · -- an error is a requeue, which keeps the order of the messages held
    intro e s' hstep hphase hphase'
    rw [step_of_connecting hphase hstep hphase', requeue_buffer]
    exact ⟨rfl, rfl, hinv.ordered⟩

theorem reliable_sender_read_error :
    (∀ e ∈ [Event.connectOk, .message 7, .writeOk, .message 8, .writeOk, .reply 70, .readErr],
        e.keepsOpen) ∧
      run [Event.connectOk, .message 7, .writeOk, .message 8, .writeOk, .reply 70, .readErr] spawn =
        some ⟨[⟨8, 1⟩], [], .connecting, [], [(0, 70)], 2, [0, 1], [0]⟩ ∧
      (([] ++ [Message.mk 8 1]).map Message.handler).count 1 + ([(0, 70)].map Prod.fst).count 1 = 1 :=
  ⟨by decide, rfl,
    (reliable_sender_conserves (D := Nat) (R := Nat)
      [.connectOk, .message 7, .writeOk, .message 8, .writeOk, .reply 70, .readErr]
      ⟨[⟨8, 1⟩], [], .connecting, [], [(0, 70)], 2, [0, 1], [0]⟩ (by decide) rfl).1 1
      (by decide) (by decide)⟩

end Runs

end SafeStake.ReliableSender
