import Cornerstone.StepRun

/-! # Stopping a server

The destructor of `raft_server` sets `stopping_`, notifies the committing thread and waits on
`ready_to_stop_cv_` until that thread has said that it is done.  The thread looks at
`stopping_` in one place, after a wait on `commit_cv_`; it says that it is done once and
returns from `commit_in_bg`.

The two are taken apart into the steps between which the other can come, with the three
locks: `lock_`, which the destructor holds from its first step on and the thread needs for an
entry that is a configuration, `commit_lock_` and `stopping_lock_`.  The wait of the thread
may end without a notification, that of the destructor does not.
-/

namespace Cornerstone
open StepRun

/-- Where the destructor is, named after what it did last; at the end it waits on
`ready_to_stop_cv_` (with or without a notification) or has returned from that wait. -/
inductive DestructorAt
  | outside
  | locked
  | flagged
  | holdingCommitLock
  | notified
  | holdingBoth
  | holdingStoppingLock
  | waiting (notified : Bool)
  | returned
deriving DecidableEq, Repr

/-- Where `commit_in_bg` is: before its look, between the look and the wait, in the wait (with
or without a notification), after the wait with `commit_lock_` held, after it with
`stopping_` seen, with `stopping_lock_` held, in the inner loop, or returned. -/
inductive CommitInBgAt
  | testing
  | entering
  | blocked (notified : Bool)
  | woken
  | stopped
  | holdingStoppingLock
  | committing
  | returned
deriving DecidableEq, Repr

/-- The two threads and the committed entries that are still to be applied, `true` for one
that is a configuration. -/
structure StopWait where
  destructor : DestructorAt
  thread : CommitInBgAt
  todo : List Bool
deriving DecidableEq, Repr

/-- The next step of the committing thread or of the destructor, an entry that comes to be
committed, a `commit_cv_.notify_one()` by `commit`, and an end of the thread's wait that
nobody caused. -/
inductive StopAct
  | thread
  | destructor
  | append (conf : Bool)
  | notify
  | spurious
deriving DecidableEq, Repr

namespace StopWait

/-- A server that runs, as its committing thread begins. -/
def start (todo : List Bool) : StopWait := ⟨.outside, .testing, todo⟩

variable (s : StopWait)

/-- `stopping_`. -/
def stopping : Bool :=
  match s.destructor with
  | .outside | .locked => false
  | _ => true

/-- The destructor has `commit_lock_`. -/
def commitLockTaken : Bool :=
  match s.destructor with
  | .holdingCommitLock | .notified | .holdingBoth => true
  | _ => false

/-- The destructor has `stopping_lock_`. -/
def stoppingLockTaken : Bool :=
  match s.destructor with
  | .holdingBoth | .holdingStoppingLock => true
  | _ => false

/-- `commit_cv_.notify_one()` and `commit_cv_.notify_all()`, with one thread to wait. -/
def notifyCommit : StopWait :=
  match s.thread with
  | .blocked _ => { s with thread := .blocked true }
  | _ => s

/-- `ready_to_stop_cv_.notify_all()`. -/
def notifyReadyToStop : StopWait :=
  match s.destructor with
  | .waiting _ => { s with destructor := .waiting true }
  | _ => s

/-- `commit_in_bg`; `none` where it cannot go on. -/
def commitInBg : Option StopWait :=
  match s.thread with
  | .testing => some { s with thread := if s.todo = [] then .entering else .committing }
  | .entering => if s.commitLockTaken then none else some { s with thread := .blocked false }
  | .blocked true => if s.commitLockTaken then none else some { s with thread := .woken }
  | .blocked false => none
  | .woken => some { s with thread := if s.stopping then .stopped else .testing }
  | .stopped => if s.stoppingLockTaken then none else some { s with thread := .holdingStoppingLock }
  | .holdingStoppingLock => some { s.notifyReadyToStop with thread := .returned }
  | .committing =>
    match s.todo with
    | [] => some { s with thread := .testing }
    -- a configuration is applied under `lock_`
    | conf :: todo => if conf ∧ s.destructor ≠ .outside then none else some { s with todo := todo }
  | .returned => none

/-- `~raft_server`; `none` where it cannot go on. -/
def destruct : Option StopWait :=
  match s.destructor with
  | .outside => some { s with destructor := .locked }
  | .locked => some { s with destructor := .flagged }
  | .flagged => if s.thread = .woken then none else some { s with destructor := .holdingCommitLock }
  | .holdingCommitLock => some { s.notifyCommit with destructor := .notified }
  | .notified => if s.thread = .holdingStoppingLock then none else some { s with destructor := .holdingBoth }
  | .holdingBoth => some { s with destructor := .holdingStoppingLock }
  | .holdingStoppingLock => some { s with destructor := .waiting false }
  | .waiting true => if s.thread = .holdingStoppingLock then none else some { s with destructor := .returned }
  | .waiting false | .returned => none

/-- What an act makes of the state, if it can be taken.  What calls `commit` holds `lock_`. -/
def step? : StopAct → Option StopWait
  | .thread => s.commitInBg
  | .destructor => s.destruct
  | .append conf => if s.destructor = .outside then some { s with todo := s.todo ++ [conf] } else none
  | .notify => if s.destructor = .outside then some s.notifyCommit else none
  | .spurious => some s.notifyCommit

/-- What an act makes of the state; one that cannot be taken does nothing. -/
def next (act : StopAct) : StopWait := (s.step? act).getD s

/-- The acts that can be taken, less the end of a wait that nobody caused. -/
def Enabled (act : StopAct) : Prop := act ≠ .spurious ∧ (s.step? act).isSome

/-- The destructor is past its wait. -/
def Returned : Prop := s.destructor = .returned

instance : Decidable s.Returned := inferInstanceAs (Decidable (_ = _))

/-- The committing thread is in its wait. -/
def Waits : Prop := ∃ notified, s.thread = .blocked notified

/-- Both threads keep out of each other's locks, and the destructor is not notified before the
thread has returned. -/
def Sound : Prop :=
  match s.destructor with
  | .holdingCommitLock | .notified => s.thread ≠ .woken
  | .holdingBoth => s.thread ≠ .woken ∧ s.thread ≠ .holdingStoppingLock
  | .holdingStoppingLock => s.thread ≠ .holdingStoppingLock
  | .waiting true | .returned => s.thread = .returned
  | _ => True

/-- The destructor has `commit_lock_` or had it, and its notification reaches the thread. -/
def Reached : Prop :=
  match s.destructor with
  | .holdingCommitLock => s.Waits
  | .notified | .holdingBoth => s.thread = .blocked true
  | .holdingStoppingLock => s.thread = .blocked true ∨ s.thread = .woken ∨ s.thread = .stopped
  | .waiting false =>
    s.thread = .blocked true ∨ s.thread = .woken ∨ s.thread = .stopped ∨ s.thread = .holdingStoppingLock
  | .waiting true | .returned => s.thread = .returned
  | _ => False

/-- The destructor has `commit_lock_` or had it, and the thread will not say that it is done
from now on, or says it before the destructor waits. -/
def Missed : Prop :=
  match s.destructor with
  | .holdingCommitLock =>
    s.thread = .testing ∨ s.thread = .entering ∨ s.thread = .committing ∨ s.thread = .holdingStoppingLock ∨
      s.thread = .returned
  | .notified =>
    s.thread = .testing ∨ s.thread = .entering ∨ s.thread = .committing ∨ s.thread = .holdingStoppingLock ∨
      s.thread = .returned
  | .holdingBoth | .holdingStoppingLock | .waiting false =>
    s.thread = .testing ∨ s.thread = .entering ∨ s.thread = .committing ∨ s.thread = .blocked false ∨
      s.thread = .returned
  | _ => False

/-- How far the destructor is from its return. -/
def destructorRank : DestructorAt → Nat
  | .outside => 9
  | .locked => 8
  | .flagged => 7
  | .holdingCommitLock => 6
  | .notified => 5
  | .holdingBoth => 4
  | .holdingStoppingLock => 3
  | .waiting false => 2
  | .waiting true => 1
  | .returned => 0

/-- How far the thread is from its return, once it waits. -/
def threadRank : CommitInBgAt → Nat
  | .testing | .entering | .committing => 5
  | .blocked _ => 4
  | .woken => 3
  | .stopped => 2
  | .holdingStoppingLock => 1
  | .returned => 0

/-- The steps that are left once the notification reaches the thread, at most. -/
def rank : Nat := destructorRank s.destructor + threadRank s.thread

variable {s}

theorem next_of_step {act : StopAct} {s' : StopWait} (h : s.step? act = some s') : s.next act = s' := by
  rw [next, h]
  rfl

theorem next_of_stuck {act : StopAct} (h : s.step? act = none) : s.next act = s := by
  rw [next, h]
  rfl

/-! ## What a step of either keeps -/

/-- The thread moves on, and takes no lock that the destructor has. -/
theorem Sound.of_thread {t : CommitInBgAt} {todo : List Bool} (hs : s.Sound) (hgoes : s.thread ≠ .returned)
    (hcommit : t = .woken → s.commitLockTaken = false)
    (hstopping : t = .holdingStoppingLock → s.stoppingLockTaken = false) : Sound ⟨s.destructor, t, todo⟩ := by
  rcases s with ⟨d, thread, before⟩
  cases d with
  | outside | locked | flagged => trivial
  | holdingCommitLock | notified => exact fun h => absurd (hcommit h) nofun
  | holdingBoth => exact ⟨fun h => absurd (hcommit h) nofun, fun h => absurd (hstopping h) nofun⟩
  | holdingStoppingLock => exact fun h => absurd (hstopping h) nofun
  | waiting notified =>
    cases notified with
    | false => trivial
    | true => exact absurd hs hgoes
  | returned => exact absurd hs hgoes

theorem Sound.commitInBg {s' : StopWait} (hs : s.Sound) (h : s.commitInBg = some s') : s'.Sound := by
  cases ht : s.thread with
  | testing =>
    rw [StopWait.commitInBg, ht] at h
    cases h
    apply hs.of_thread (by rw [ht]; nofun)
    · split <;> nofun
    · split <;> nofun
  | entering =>
    rw [StopWait.commitInBg, ht] at h
    dsimp only at h
    split at h
    · cases h
    · cases h
      exact hs.of_thread (by rw [ht]; nofun) nofun nofun
  | blocked notified =>
    cases notified with
    | false =>
      rw [StopWait.commitInBg, ht] at h
      cases h
    | true =>
      rw [StopWait.commitInBg, ht] at h
      dsimp only at h
      split at h
      · cases h
      · next hfree =>
        cases h
        exact hs.of_thread (by rw [ht]; nofun) (fun _ => Bool.eq_false_iff.mpr hfree) nofun
  | woken =>
    rw [StopWait.commitInBg, ht] at h
    cases h
    apply hs.of_thread (by rw [ht]; nofun)
    · split <;> nofun
    · split <;> nofun
  | stopped =>
    rw [StopWait.commitInBg, ht] at h
    dsimp only at h
    split at h
    · cases h
    · next hfree =>
      cases h
      exact hs.of_thread (by rw [ht]; nofun) nofun (fun _ => Bool.eq_false_iff.mpr hfree)
  | holdingStoppingLock =>
    rw [StopWait.commitInBg, ht] at h
    cases h
    rcases s with ⟨d, thread, todo⟩
    cases d with
    | outside | locked | flagged => trivial
    | holdingCommitLock | notified => exact nofun
    | holdingBoth => exact ⟨nofun, nofun⟩
    | holdingStoppingLock => exact nofun
    | waiting notified => rfl
    | returned => rfl
  | committing =>
    rw [StopWait.commitInBg, ht] at h
    dsimp only at h
    split at h
    · cases h
      exact hs.of_thread (by rw [ht]; nofun) nofun nofun
    · split at h
      · cases h
      · cases h
        exact hs.of_thread (by rw [ht]; nofun) nofun nofun
  | returned =>
    rw [StopWait.commitInBg, ht] at h
    cases h

theorem Sound.notifyCommit (hs : s.Sound) : s.notifyCommit.Sound := by
  unfold StopWait.notifyCommit
  split
  · next notified ht => exact hs.of_thread (by rw [ht]; nofun) nofun nofun
  · exact hs

theorem Sound.destruct {s' : StopWait} (hs : s.Sound) (h : s.destruct = some s') : s'.Sound := by
  rcases s with ⟨d, thread, todo⟩
  cases d with
  | outside | locked =>
    cases h
    trivial
  | flagged =>
    rw [StopWait.destruct] at h
    dsimp only at h
    split at h
    · cases h
    · next hfree =>
      cases h
      exact hfree
  | holdingCommitLock =>
    cases h
    cases thread with
    | woken => exact absurd rfl hs
    | testing | entering | blocked | stopped | holdingStoppingLock | committing | returned => exact nofun
  | notified =>
    rw [StopWait.destruct] at h
    dsimp only at h
    split at h
    · cases h
    · next hfree =>
      cases h
      exact ⟨hs, hfree⟩
  | holdingBoth =>
    cases h
    exact hs.2
  | holdingStoppingLock =>
    cases h
    trivial
  | waiting notified =>
    cases notified with
    | false => cases h
    | true =>
      rw [StopWait.destruct] at h
      dsimp only at h
      split at h
      · cases h
      · cases h
        exact hs
  | returned => cases h

theorem Sound.next (hs : s.Sound) (act : StopAct) : (s.next act).Sound := by
  cases h : s.step? act with
  | none =>
    rw [next_of_stuck h]
    exact hs
  | some s' =>
    rw [next_of_step h]
    cases act with
    | thread => exact hs.commitInBg h
    | destructor => exact hs.destruct h
    | append conf =>
      rw [step?] at h
      split at h
      · cases h
        exact hs
      · cases h
    | notify =>
      rw [step?] at h
      split at h
      · cases h
        exact hs.notifyCommit
      · cases h
    | spurious =>
      cases h
      exact hs.notifyCommit

theorem start_sound (todo : List Bool) : (start todo).Sound := trivial

/-! ## The notification reaches the thread -/

/-- What follows for the destructor's next step. -/
theorem Reached.destruct {s' : StopWait} (hr : s.Reached) (h : s.destruct = some s') :
    s'.Reached ∧ s'.rank < s.rank := by
  rcases s with ⟨d, thread, todo⟩
  cases d with
  | outside | locked | flagged => exact hr.elim
  | holdingCommitLock =>
    obtain ⟨notified, rfl : thread = .blocked notified⟩ := hr
    cases h
    exact ⟨rfl, Nat.lt_succ_self (5 + 4)⟩
  | notified =>
    obtain rfl : thread = .blocked true := hr
    cases h
    exact ⟨rfl, Nat.lt_succ_self (4 + 4)⟩
  | holdingBoth =>
    obtain rfl : thread = .blocked true := hr
    cases h
    exact ⟨.inl rfl, Nat.lt_succ_self (3 + 4)⟩
  | holdingStoppingLock =>
    cases h
    constructor
    · obtain ht | ht | ht := hr
      · exact .inl ht
      · exact .inr (.inl ht)
      · exact .inr (.inr (.inl ht))
    · exact Nat.add_lt_add_right (Nat.lt_succ_self 2) _
  | waiting notified =>
    cases notified with
    | false => cases h
    | true =>
      obtain rfl : thread = .returned := hr
      cases h
      exact ⟨rfl, Nat.lt_succ_self 0⟩
  | returned => cases h

/-- What follows for the thread's next step. -/
theorem Reached.commitInBg {s' : StopWait} (hr : s.Reached) (h : s.commitInBg = some s') :
    s'.Reached ∧ s'.rank < s.rank := by
  rcases s with ⟨d, thread, todo⟩
  cases d with
  | outside | locked | flagged => exact hr.elim
  | holdingCommitLock =>
    obtain ⟨notified, rfl : thread = .blocked notified⟩ := hr
    -- without the lock the wait does not end
    cases notified <;> cases h
  | notified | holdingBoth =>
    obtain rfl : thread = .blocked true := hr
    cases h
  | holdingStoppingLock =>
    obtain (rfl : thread = .blocked true) | (rfl : thread = .woken) | (rfl : thread = .stopped) := hr
    · cases h
      exact ⟨.inr (.inl rfl), Nat.lt_succ_self (3 + 3)⟩
    · cases h
      exact ⟨.inr (.inr rfl), Nat.lt_succ_self (3 + 2)⟩
    · cases h
  | waiting notified =>
    cases notified with
    | false =>
      obtain (rfl : thread = .blocked true) | (rfl : thread = .woken) | (rfl : thread = .stopped) |
        (rfl : thread = .holdingStoppingLock) := hr
      · cases h
        exact ⟨.inr (.inl rfl), Nat.lt_succ_self (2 + 3)⟩
      · cases h
        exact ⟨.inr (.inr (.inl rfl)), Nat.lt_succ_self (2 + 2)⟩
      · cases h
        exact ⟨.inr (.inr (.inr rfl)), Nat.lt_succ_self (2 + 1)⟩
      · cases h
        exact ⟨rfl, show 1 + 0 < 2 + 1 by omega⟩
    | true =>
      obtain rfl : thread = .returned := hr
      cases h
  | returned =>
    obtain rfl : thread = .returned := hr
    cases h

theorem Reached.not_outside (hr : s.Reached) : s.destructor ≠ .outside := by
  rintro ho
  rw [Reached, ho] at hr
  exact hr

theorem Reached.next {act : StopAct} (hr : s.Reached) (ha : s.Enabled act) :
    (s.next act).Reached ∧ (s.next act).rank < s.rank := by
  obtain ⟨s', h⟩ := Option.isSome_iff_exists.mp ha.2
  rw [next_of_step h]
  cases act with
  | thread => exact hr.commitInBg h
  | destructor => exact hr.destruct h
  | append conf =>
    rw [step?, if_neg hr.not_outside] at h
    cases h
  | notify =>
    rw [step?, if_neg hr.not_outside] at h
    cases h
  | spurious => exact absurd rfl ha.1

/-- As long as the destructor has not returned, one of the two can go on. -/
theorem Reached.goes_on (hr : s.Reached) (hnot : ¬ s.Returned) : ∃ act, s.Enabled act := by
  rcases s with ⟨d, thread, todo⟩
  cases d with
  | outside | locked | flagged => exact hr.elim
  | holdingCommitLock | holdingBoth | holdingStoppingLock => exact ⟨.destructor, nofun, rfl⟩
  | notified =>
    obtain rfl : thread = .blocked true := hr
    exact ⟨.destructor, nofun, rfl⟩
  | waiting notified =>
    cases notified with
    | false =>
      refine ⟨.thread, nofun, ?_⟩
      obtain (rfl : thread = .blocked true) | (rfl : thread = .woken) | (rfl : thread = .stopped) |
        (rfl : thread = .holdingStoppingLock) := hr <;> rfl
    | true =>
      obtain rfl : thread = .returned := hr
      exact ⟨.destructor, nofun, rfl⟩
  | returned => exact absurd rfl hnot

/-- The destructor returns, whichever of the two goes on first. -/
theorem Reached.inevitably (hr : s.Reached) : Inevitably StopWait.next Enabled Returned s :=
  .of_measure rank (fun _ h hnot => h.goes_on hnot) (fun _ _ h _ ha => (h.next ha).1)
    (fun _ _ h _ ha => (h.next ha).2) hr

/-! ## The notification misses the thread -/

theorem Missed.destruct {s' : StopWait} (hm : s.Missed) (h : s.destruct = some s') : s'.Missed := by
  rcases s with ⟨d, thread, todo⟩
  cases d with
  | outside | locked | flagged | returned => exact hm.elim
  | holdingCommitLock =>
    cases h
    obtain (rfl : thread = .testing) | (rfl : thread = .entering) | (rfl : thread = .committing) |
      (rfl : thread = .holdingStoppingLock) | (rfl : thread = .returned) := hm
    · exact .inl rfl
    · exact .inr (.inl rfl)
    · exact .inr (.inr (.inl rfl))
    · exact .inr (.inr (.inr (.inl rfl)))
    · exact .inr (.inr (.inr (.inr rfl)))
  | notified =>
    obtain (rfl : thread = .testing) | (rfl : thread = .entering) | (rfl : thread = .committing) |
      (rfl : thread = .holdingStoppingLock) | (rfl : thread = .returned) := hm
    · cases h
      exact .inl rfl
    · cases h
      exact .inr (.inl rfl)
    · cases h
      exact .inr (.inr (.inl rfl))
    · cases h
    · cases h
      exact .inr (.inr (.inr (.inr rfl)))
  | holdingBoth | holdingStoppingLock =>
    cases h
    exact hm
  | waiting notified =>
    cases notified with
    | false => cases h
    | true => exact hm.elim

/-- Where a missed notification leaves the thread once the destructor has both locks. -/
theorem Missed.of_thread {t : CommitInBgAt} {todo : List Bool} (hm : s.Missed)
    (ht : t = .testing ∨ t = .entering ∨ t = .committing) : Missed ⟨s.destructor, t, todo⟩ := by
  rcases s with ⟨d, thread, before⟩
  cases d with
  | outside | locked | flagged | returned => exact hm.elim
  | holdingCommitLock | notified | holdingBoth | holdingStoppingLock =>
    obtain ht | ht | ht := ht
    · exact .inl ht
    · exact .inr (.inl ht)
    · exact .inr (.inr (.inl ht))
  | waiting notified =>
    cases notified with
    | false =>
      obtain ht | ht | ht := ht
      · exact .inl ht
      · exact .inr (.inl ht)
      · exact .inr (.inr (.inl ht))
    | true => exact hm.elim

theorem Missed.commitInBg {s' : StopWait} (hm : s.Missed) (h : s.commitInBg = some s') : s'.Missed := by
  cases ht : s.thread with
  | testing =>
    rw [StopWait.commitInBg, ht] at h
    cases h
    apply hm.of_thread
    split
    · exact .inr (.inl rfl)
    · exact .inr (.inr rfl)
  | entering =>
    rw [StopWait.commitInBg, ht] at h
    dsimp only at h
    split at h
    · cases h
    · next hfree =>
      cases h
      rcases s with ⟨d, thread, todo⟩
      cases d with
      | outside | locked | flagged | returned => exact hm.elim
      | holdingCommitLock | notified | holdingBoth => exact absurd rfl hfree
      | holdingStoppingLock => exact .inr (.inr (.inr (.inl rfl)))
      | waiting notified =>
        cases notified with
        | false => exact .inr (.inr (.inr (.inl rfl)))
        | true => exact hm.elim
  | holdingStoppingLock =>
    rw [StopWait.commitInBg, ht] at h
    cases h
    rcases s with ⟨d, thread, todo⟩
    obtain rfl : thread = .holdingStoppingLock := ht
    cases d with
    | outside | locked | flagged | returned => exact hm.elim
    | holdingCommitLock | notified => exact .inr (.inr (.inr (.inr rfl)))
    | holdingBoth | holdingStoppingLock => simp [Missed] at hm
    | waiting notified => cases notified <;> simp [Missed] at hm
  | committing =>
    rw [StopWait.commitInBg, ht] at h
    dsimp only at h
    split at h
    · cases h
      exact hm.of_thread (.inl rfl)
    · split at h
      · cases h
      · cases h
        exact hm.of_thread (.inr (.inr rfl))
  | blocked notified =>
    rcases s with ⟨d, thread, todo⟩
    obtain rfl : thread = .blocked notified := ht
    -- the thread waits without a notification
    cases notified with
    | false => cases h
    | true =>
      cases d with
      | outside | locked | flagged | returned => exact hm.elim
      | holdingCommitLock | notified | holdingBoth | holdingStoppingLock => simp [Missed] at hm
      | waiting notified => cases notified <;> simp [Missed] at hm
  | woken | stopped =>
    rcases s with ⟨d, thread, todo⟩
    cases ht
    cases d with
    | outside | locked | flagged | returned => exact hm.elim
    | holdingCommitLock | notified | holdingBoth | holdingStoppingLock => simp [Missed] at hm
    | waiting notified => cases notified <;> simp [Missed] at hm
  | returned =>
    rw [StopWait.commitInBg, ht] at h
    cases h

theorem Missed.not_outside (hm : s.Missed) : s.destructor ≠ .outside := by
  rintro ho
  rw [Missed, ho] at hm
  exact hm

theorem Missed.not_returned (hm : s.Missed) : ¬ s.Returned := by
  rintro ho
  rw [Missed, show s.destructor = .returned from ho] at hm
  exact hm

theorem Missed.next {act : StopAct} (hm : s.Missed) (ha : s.Enabled act) : (s.next act).Missed := by
  obtain ⟨s', h⟩ := Option.isSome_iff_exists.mp ha.2
  rw [next_of_step h]
  cases act with
  | thread => exact hm.commitInBg h
  | destructor => exact hm.destruct h
  | append conf =>
    rw [step?, if_neg hm.not_outside] at h
    cases h
  | notify =>
    rw [step?, if_neg hm.not_outside] at h
    cases h
  | spurious => exact absurd rfl ha.1

/-- The destructor does not return any more. -/
theorem Missed.never (hm : s.Missed) {acts : List StopAct} (h : Along StopWait.next Enabled s acts) :
    ¬ (run StopWait.next s acts).Returned :=
  Missed.not_returned (h.invariant (fun _ _ hm ha => hm.next ha) hm)

/-- Where the thread has seen `stopping_` as the destructor takes `commit_lock_`, it depends
on which of the two is first at `stopping_lock_`. -/
theorem stopped_both (todo : List Bool) :
    ¬ Inevitably StopWait.next Enabled Returned ⟨.holdingCommitLock, .stopped, todo⟩ ∧
      ∃ post, Along StopWait.next Enabled ⟨.holdingCommitLock, .stopped, todo⟩ post ∧
        (run StopWait.next ⟨.holdingCommitLock, .stopped, todo⟩ post).Returned := by
  constructor
  · intro h
    have hsignals : Inevitably StopWait.next Enabled Returned ⟨.holdingCommitLock, .holdingStoppingLock, todo⟩ :=
      h.next_of_not (a := .thread) nofun ⟨nofun, rfl⟩
    obtain ⟨acts, hacts, hreturned⟩ := hsignals.exists_run
    have hmissed : Missed ⟨.holdingCommitLock, .holdingStoppingLock, todo⟩ := .inr (.inr (.inr (.inl rfl)))
    exact hmissed.never hacts hreturned
  · refine ⟨[.destructor, .destructor, .destructor, .destructor, .thread, .thread, .destructor], ?_, rfl⟩
    exact ⟨⟨nofun, rfl⟩, ⟨nofun, rfl⟩, ⟨nofun, rfl⟩, ⟨nofun, rfl⟩, ⟨nofun, rfl⟩, ⟨nofun, rfl⟩, ⟨nofun, rfl⟩, trivial⟩

end StopWait

open StopWait

/-- **The destructor is bound to return exactly if the committing thread is in its wait** as
the destructor takes `commit_lock_`; where it is not, nothing makes the destructor return,
except where the thread has seen `stopping_` before and the destructor is the first at
`stopping_lock_`. -/
theorem destructor_returns_iff (todo : List Bool) (acts : List StopAct)
    (hat : (run StopWait.next (start todo) acts).destructor = .holdingCommitLock) :
    (Inevitably StopWait.next Enabled Returned (run StopWait.next (start todo) acts) ↔
        (run StopWait.next (start todo) acts).Waits) ∧
      ((∃ post, Along StopWait.next Enabled (run StopWait.next (start todo) acts) post ∧
          (run StopWait.next (run StopWait.next (start todo) acts) post).Returned) ↔
        (run StopWait.next (start todo) acts).Waits ∨ (run StopWait.next (start todo) acts).thread = .stopped) := by
  have hsound : (run StopWait.next (start todo) acts).Sound :=
    run_invariant (fun _ act hs => hs.next act) acts (start_sound todo)
  generalize run StopWait.next (start todo) acts = s at hat hsound ⊢
  by_cases hwaits : s.Waits
  · have hreached : s.Reached := by
      rw [Reached, hat]
      exact hwaits
    exact ⟨iff_of_true hreached.inevitably hwaits, iff_of_true hreached.inevitably.exists_run (.inl hwaits)⟩
  · by_cases hstopped : s.thread = .stopped
    · rcases s with ⟨d, thread, left⟩
      obtain rfl : d = .holdingCommitLock := hat
      obtain rfl : thread = .stopped := hstopped
      have hboth := stopped_both left
      exact ⟨iff_of_false hboth.1 hwaits, iff_of_true hboth.2 (.inr rfl)⟩
    · have hmissed : s.Missed := by
        rw [StopWait.Sound, hat] at hsound
        rw [Missed, hat]
        cases ht : s.thread with
        | blocked notified => exact absurd ⟨notified, ht⟩ hwaits
        | woken => exact absurd ht hsound
        | stopped => exact absurd ht hstopped
        | testing | entering | committing | holdingStoppingLock | returned => simp
      constructor
      · refine iff_of_false (fun h => ?_) hwaits
        obtain ⟨post, hpost, hreturned⟩ := h.exists_run
        exact hmissed.never hpost hreturned
      · refine iff_of_false ?_ (not_or.mpr ⟨hwaits, hstopped⟩)
        rintro ⟨post, hpost, hreturned⟩
        exact hmissed.never hpost hreturned

/-- A server with one entry to apply that is stopped as its thread waits. -/
def stopIdle : List StopAct := [.thread, .thread, .thread, .thread, .thread, .destructor, .destructor, .destructor]

/-- Such a server stops. -/
theorem destructor_returns_idle :
    (run StopWait.next (start [true]) stopIdle).destructor = .holdingCommitLock ∧
      Inevitably StopWait.next Enabled Returned (run StopWait.next (start [true]) stopIdle) :=
  ⟨rfl, (destructor_returns_iff [true] stopIdle rfl).1.mpr ⟨false, rfl⟩⟩

end Cornerstone
