import Mathlib.Tactic.Common

/-! # Delayed tasks

A `delayed_task` as `asio_service` runs it: the flag `cancelled_`, the timer that is made when
the task is first scheduled, and the way of a wait on that timer.  A wait that has ended can no
longer be cancelled; its handler looks at the flag, and calls `exec` unless that is set.  What
`exec` does takes a lock of its own, so calls of it may be on their way when the task is
cancelled.
-/

namespace Cornerstone

/-- A task with its timer: whether it is waited for, how many waits have ended without their
handler being called, and how many calls of `exec` have not come to do anything yet. -/
structure DelayedTask where
  cancelled : Bool := false
  hasTimer : Bool := false
  waiting : Bool := false
  expired : Nat := 0
  executing : Nat := 0
deriving DecidableEq, Repr

/-- What the service does with a timer: a wait ends, or the handler of one that has ended is
called. -/
inductive TimerAct
  | expire
  | handler
deriving DecidableEq, Repr

namespace DelayedTask

/-- `asio_service::schedule`.  A task that has a timer is reset; the wait before is given up. -/
def schedule (t : DelayedTask) : DelayedTask :=
  let t := if t.hasTimer then { t with cancelled := false } else { t with hasTimer := true }
  { t with waiting := true }

/-- `delayed_task_scheduler::cancel`. -/
def cancel (t : DelayedTask) : DelayedTask := { t with waiting := false, cancelled := true }

/-- The wait ends. -/
def expire (t : DelayedTask) : DelayedTask :=
  if t.waiting then { t with waiting := false, expired := t.expired + 1 } else t

/-- `_timer_handler_` and `execute`. -/
def handler (t : DelayedTask) : DelayedTask :=
  if t.expired = 0 then t
  else { t with
    expired := t.expired - 1
    executing := if t.cancelled then t.executing else t.executing + 1 }

/-- A call of `exec` has come to do what it does. -/
def executed (t : DelayedTask) : DelayedTask := { t with executing := t.executing - 1 }

def tick (t : DelayedTask) : TimerAct → DelayedTask
  | .expire => t.expire
  | .handler => t.handler

/-- The task will be executed: a call is on its way, or a wait is that will bring one. -/
def Live (t : DelayedTask) : Prop :=
  0 < t.executing ∨ t.cancelled = false ∧ (t.waiting = true ∨ 0 < t.expired)

instance (t : DelayedTask) : Decidable t.Live := inferInstanceAs (Decidable (_ ∨ _))

/-- The task is cancelled, and only calls that are on their way can still come. -/
structure Off (t : DelayedTask) : Prop where
  cancelled : t.cancelled = true
  waiting : t.waiting = false

/-- Nothing comes of a task that was never scheduled. -/
def Sound (t : DelayedTask) : Prop := t.hasTimer = false → t.waiting = false ∧ t.expired = 0 ∧ t.executing = 0

variable {t : DelayedTask}

@[simp] theorem executing_schedule (t : DelayedTask) : t.schedule.executing = t.executing := by
  unfold schedule
  split <;> rfl

@[simp] theorem executing_cancel (t : DelayedTask) : t.cancel.executing = t.executing := rfl

@[simp] theorem hasTimer_schedule (t : DelayedTask) : t.schedule.hasTimer = true := by
  unfold schedule
  split
  · assumption
  · rfl

@[simp] theorem hasTimer_cancel (t : DelayedTask) : t.cancel.hasTimer = t.hasTimer := rfl

@[simp] theorem hasTimer_executed (t : DelayedTask) : t.executed.hasTimer = t.hasTimer := rfl

@[simp] theorem hasTimer_tick (t : DelayedTask) (act : TimerAct) : (t.tick act).hasTimer = t.hasTimer := by
  cases act with
  | expire =>
    rw [tick, expire]
    split <;> rfl
  | handler =>
    rw [tick, handler]
    split <;> rfl

theorem off_cancel (t : DelayedTask) : t.cancel.Off := ⟨rfl, rfl⟩

/-- **A task that is scheduled will be executed**, but for one that was cancelled before it had
a timer. -/
theorem live_schedule_iff (h : t.Sound) : t.schedule.Live ↔ t.hasTimer = true ∨ t.cancelled = false := by
  cases htimer : t.hasTimer with
  | true => simp [schedule, htimer, Live]
  | false =>
    obtain ⟨-, -, hnone⟩ := h htimer
    simp [schedule, htimer, Live, hnone]

theorem live_schedule (h : t.hasTimer = true) : t.schedule.Live :=
  (live_schedule_iff fun hno => absurd h (by rw [hno]; decide)).mpr (.inl h)

/-- The service alone does not lose an execution. -/
theorem Live.tick (h : t.Live) (act : TimerAct) : (t.tick act).Live := by
  cases act with
  | expire =>
    rw [DelayedTask.tick, expire]
    split
    · rcases h with h | ⟨hc, -⟩
      · exact .inl h
      · exact .inr ⟨hc, .inr (Nat.succ_pos _)⟩
    · exact h
  | handler =>
    rw [DelayedTask.tick, handler]
    split
    · exact h
    · rcases h with h | ⟨hc, -⟩
      · left
        dsimp only
        split <;> omega
      · left
        rw [hc]
        exact Nat.succ_pos _

/-- Once a task is off, no further call of `exec` begins. -/
theorem Off.tick (h : t.Off) (act : TimerAct) : (t.tick act).Off ∧ (t.tick act).executing = t.executing := by
  cases act with
  | expire =>
    have hsame : t.expire = t := by rw [expire, h.waiting, if_neg (by decide)]
    rw [DelayedTask.tick, hsame]
    exact ⟨h, rfl⟩
  | handler =>
    rw [DelayedTask.tick, handler, h.cancelled]
    split
    · exact ⟨h, rfl⟩
    · exact ⟨⟨rfl, h.waiting⟩, rfl⟩

theorem Sound.schedule (t : DelayedTask) : t.schedule.Sound := fun h => by
  rw [hasTimer_schedule] at h
  cases h

theorem Sound.cancel (h : t.Sound) : t.cancel.Sound := fun hno => ⟨rfl, (h hno).2⟩

theorem Sound.executed (h : t.Sound) : t.executed.Sound := fun hno => by
  obtain ⟨hw, he, hx⟩ := h hno
  exact ⟨hw, he, show t.executing - 1 = 0 by omega⟩

theorem Sound.tick (h : t.Sound) (act : TimerAct) : (t.tick act).Sound := by
  intro hno
  rw [hasTimer_tick] at hno
  obtain ⟨hw, he, hx⟩ := h hno
  cases act with
  | expire =>
    rw [DelayedTask.tick, expire, hw, if_neg (by decide)]
    exact ⟨hw, he, hx⟩
  | handler =>
    rw [DelayedTask.tick, handler, if_pos he]
    exact ⟨hw, he, hx⟩

end DelayedTask
end Cornerstone
