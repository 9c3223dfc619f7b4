import Mathlib.Data.List.Basic

/-! # A notification with one permit

`tokio::sync::Notify`.  `notify_one` wakes the task that has waited longest in `notified()`,
or stores a permit when no task waits.  At most one permit is stored, so a second
`notify_one` while no task waits is lost.  `notified()` consumes a stored permit and returns
at once, or else waits.

Each `notify_one` hands out at most one wake-up: the task it wakes, or the permit it stores
(`notifyOne_waiters`).  A task that returns at once from `notified()` spends the permit
(`notified_handout`).  So the tasks woken, together with the stored permit, never outnumber
the calls of `notify_one`.
-/

namespace Notify

/-- A `Notify`: the tasks waiting in `notified()`, longest waiting first, and whether a
permit is stored. -/
structure State (T : Type) where
  waiters : List T
  permit : Bool
deriving DecidableEq, Repr

namespace State

variable {T : Type}

/-- `Notify::new()`. -/
def new : State T := ⟨[], false⟩

/-- `notify_one()`: the task woken, if one waits; otherwise the permit is stored. -/
def notifyOne (n : State T) : State T × Option T :=
  match n.waiters with
  | t :: rest => (⟨rest, n.permit⟩, some t)
  | [] => (⟨[], true⟩, none)

/-- `notified().await` by the task `t`: `true` when it consumes the permit and returns at
once; otherwise it waits. -/
def notified (n : State T) (t : T) : State T × Bool :=
  if n.permit then ({ n with permit := false }, true) else ({ n with waiters := n.waiters ++ [t] }, false)

/-- A task that returns at once from `notified()` spends the permit; one that waits finds
none, and joins the end of the queue. -/
theorem notified_handout (n : State T) (t : T) :
    (n.notified t).2.toNat + (n.notified t).1.permit.toNat = n.permit.toNat ∧
      (n.notified t).1.waiters = if n.permit then n.waiters else n.waiters ++ [t] := by
  unfold State.notified
  cases n.permit <;> simp

/-- `notify_one` wakes the task that has waited longest, if any. -/
theorem notifyOne_waiters (n : State T) :
    (n.notifyOne.2 = none ∧ n.waiters = [] ∧ n.notifyOne.1 = ⟨[], true⟩) ∨
      ∃ t rest, n.waiters = t :: rest ∧ n.notifyOne.2 = some t ∧ n.notifyOne.1 = ⟨rest, n.permit⟩ := by
  unfold State.notifyOne
  split
  · rename_i t rest hw
    exact .inr ⟨t, rest, hw, rfl, rfl⟩
  · rename_i hw
    exact .inl ⟨rfl, hw, rfl⟩

end State

end Notify
