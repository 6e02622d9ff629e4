import Cornerstone.StepRun
import Cornerstone.Background

/-! # The condition variable of the committing thread

`commit_in_bg` looks whether there is something to commit; where there is not it takes
`commit_lock_` and waits on `commit_cv_`.  `commit` sets `quick_commit_idx_` and then
notifies, without the lock.  So a notification may come after the look and before the wait,
where it wakes nobody.

Here the two are taken apart into the steps that other threads can come between.  A caller
of `commit` is on its way from before it appends what it has to append until it has
notified.  Appends are also made without a call, as the leader of other servers makes them.
-/

namespace Cornerstone
open StepRun

/-- The wait condition of `commit_in_bg`. -/
def nothingToCommit (quickCommitIdx nextSlot currentCommitIdx : Nat) : Bool :=
  quickCommitIdx ≤ currentCommitIdx ∨ currentCommitIdx ≥ ulongSub nextSlot 1

/-- It is what `hasMore` says of a server. -/
theorem hasMore_eq {s : Server} (hpos : 1 ≤ s.logStore.nextSlot) (hlt : s.logStore.nextSlot < ulongSize) (cur : Nat) :
    hasMore s cur = !nothingToCommit s.quickCommitIdx s.logStore.nextSlot cur := by
  rw [hasMore, nothingToCommit, ulongSub_of_le hpos hlt, Bool.eq_iff_iff]
  simp only [Bool.and_eq_true, decide_eq_true_eq, Bool.not_eq_true', decide_eq_false_iff_not]
  omega

/-- Where the committing thread is: before its look, between the look and the wait, in the
wait (with or without a notification), or in the inner loop. -/
inductive CommitterAt
  | testing
  | entering
  | blocked (notified : Bool)
  | committing
deriving DecidableEq, Repr

/-- What the committing thread and the callers of `commit` share, `current_commit_idx`, and
the number of callers on their way. -/
structure CommitWait where
  commitIdx : Nat
  quickCommitIdx : Nat
  nextSlot : Nat
  currentCommitIdx : Nat
  thread : CommitterAt
  callers : Nat
deriving DecidableEq, Repr

/-- The steps: five of the committing thread, of which `wake` may be spurious, three of the
callers of `commit`, and an append by anybody. -/
inductive WaitAct
  | test
  | block
  | wake
  | commitNext
  | leaveLoop
  | call
  | update (targetIdx : Nat)
  | notify
  | append
deriving DecidableEq, Repr

namespace CommitWait

/-- The thread as it begins `commit_in_bg`. -/
def start (commitIdx quickCommitIdx nextSlot callers : Nat) : CommitWait :=
  ⟨commitIdx, quickCommitIdx, nextSlot, commitIdx, .testing, callers⟩

variable (s : CommitWait)

/-- There is an entry to be applied. -/
def Unapplied : Prop := nothingToCommit s.quickCommitIdx s.nextSlot s.commitIdx = false

instance : Decidable s.Unapplied := inferInstanceAs (Decidable (_ = false))

/-- The wait condition, as the committing thread evaluates it. -/
def test : CommitWait :=
  if nothingToCommit s.quickCommitIdx s.nextSlot s.currentCommitIdx then { s with thread := .entering }
  else { s with thread := .committing }

/-- One entry of the inner loop. -/
def commitNext : CommitWait :=
  if nothingToCommit s.quickCommitIdx s.nextSlot s.currentCommitIdx then s
  else { s with
    currentCommitIdx := s.currentCommitIdx + 1
    commitIdx := max s.commitIdx (s.currentCommitIdx + 1) }

/-- `current_commit_idx = state_->get_commit_idx()`. -/
def reread : CommitWait := { s with currentCommitIdx := s.commitIdx, thread := .testing }

/-- `commit`, the first part. -/
def update (targetIdx : Nat) : CommitWait :=
  if targetIdx > s.quickCommitIdx then { s with quickCommitIdx := targetIdx } else s

/-- `notify_one`. -/
def notifyOne : CommitWait :=
  match s.thread with
  | .blocked _ => { s with thread := .blocked true }
  | _ => s

/-- `commit`, the second part, which ends the call. -/
def notify : CommitWait :=
  let s := if ulongSub s.nextSlot 1 > s.commitIdx ∧ s.quickCommitIdx > s.commitIdx then s.notifyOne else s
  { s with callers := s.callers - 1 }

/-- What a step makes of the state; one that nobody can take does nothing. -/
def next : WaitAct → CommitWait
  | .test => if s.thread = .testing then s.test else s
  | .block => if s.thread = .entering then { s with thread := .blocked false } else s
  | .wake =>
    match s.thread with
    | .blocked _ => s.reread
    | _ => s
  | .commitNext => if s.thread = .committing then s.commitNext else s
  | .leaveLoop =>
    if s.thread = .committing ∧ nothingToCommit s.quickCommitIdx s.nextSlot s.currentCommitIdx then s.reread else s
  | .call => { s with callers := s.callers + 1 }
  | .update targetIdx => if s.callers = 0 then s else s.update targetIdx
  | .notify => if s.callers = 0 then s else s.notify
  | .append => { s with nextSlot := s.nextSlot + 1 }

/-- The thread has looked and has not been notified since. -/
def Asleep : Prop := s.thread = .entering ∨ s.thread = .blocked false

instance : Decidable s.Asleep := inferInstanceAs (Decidable (_ ∨ _))

/-- **No wake-up is lost**: with the thread blocked, no notification since, and no caller
that is still to notify, there is nothing to be applied. -/
def NoneLost : Prop := s.thread = .blocked false → s.callers = 0 → ¬ s.Unapplied

instance : Decidable s.NoneLost := inferInstanceAs (Decidable (_ → _ → _))

/-- The steps that lose no wake-up: the last caller does not notify between the look and the
wait, and with no call to follow no append gives a thread that is asleep something to do. -/
def Safe : WaitAct → Prop
  | .notify => s.thread = .entering → s.callers = 1 → ¬ s.Unapplied
  | .append => s.Asleep → s.callers = 0 → nothingToCommit s.quickCommitIdx (s.nextSlot + 1) s.commitIdx = true
  | _ => True

instance : (act : WaitAct) → Decidable (s.Safe act)
  | .notify => inferInstanceAs (Decidable (_ → _ → _))
  | .append => inferInstanceAs (Decidable (_ → _ → _))
  | .test | .block | .wake | .commitNext | .leaveLoop | .call | .update _ => inferInstanceAs (Decidable True)

/-- As `NoneLost`, from the look on. -/
def Wakeable : Prop := s.Asleep → s.callers = 0 → ¬ s.Unapplied

variable {s}

theorem wakeable_iff : s.Wakeable ↔ s.NoneLost ∧ (s.next .block).NoneLost := by
  constructor
  · intro h
    refine ⟨fun hb => h (.inr hb), ?_⟩
    rw [next]
    split
    · rename_i hentering
      exact fun _ => h (.inl hentering)
    · exact fun hb => h (.inr hb)
  · rintro ⟨hlost, hblock⟩ (hentering | hblocked)
    · rw [next, if_pos hentering] at hblock
      exact hblock rfl
    · exact hlost hblocked

theorem wakeable_of_thread {t : CommitterAt} (ht : s.thread = t) (hin : t ≠ .entering) (hout : t ≠ .blocked false) :
    s.Wakeable := by
  subst ht
  rintro (h | h)
  · exact absurd h hin
  · exact absurd h hout

theorem wakeable_of_callers (h : s.callers ≠ 0) : s.Wakeable := fun _ h0 => absurd h0 h

theorem reread_wakeable (s : CommitWait) : s.reread.Wakeable := wakeable_of_thread rfl nofun nofun

/-- `commit` notifies where there is something to be applied. -/
theorem notify_eq (s : CommitWait) :
    s.notify = { (if s.Unapplied then s.notifyOne else s) with callers := s.callers - 1 } := by
  have htest : (ulongSub s.nextSlot 1 > s.commitIdx ∧ s.quickCommitIdx > s.commitIdx) ↔ s.Unapplied := by
    rw [Unapplied, nothingToCommit, decide_eq_false_iff_not]
    omega
  have hcallers : s.notifyOne.callers = s.callers := by
    rw [notifyOne]
    split <;> rfl
  by_cases h : s.Unapplied
  · rw [notify, if_pos (htest.mpr h), if_pos h, hcallers]
  · rw [notify, if_neg (fun h' => h (htest.mp h')), if_neg h]

/-- Nobody else writes the commit index, so the thread knows it. -/
theorem current_next (h : s.currentCommitIdx = s.commitIdx) (act : WaitAct) :
    (s.next act).currentCommitIdx = (s.next act).commitIdx := by
  cases act with
  | test =>
    rw [next, test]
    split
    · split <;> exact h
    · exact h
  | block =>
    rw [next]
    split <;> exact h
  | wake =>
    rw [next]
    split
    · rfl
    · exact h
  | commitNext =>
    rw [next, commitNext]
    split
    · split
      · exact h
      · show s.currentCommitIdx + 1 = max s.commitIdx (s.currentCommitIdx + 1)
        omega
    · exact h
  | leaveLoop =>
    rw [next]
    split
    · rfl
    · exact h
  | call => exact h
  | update targetIdx =>
    rw [next, update]
    split
    · exact h
    · split <;> exact h
  | notify =>
    rw [next, notify_eq, notifyOne]
    split
    · exact h
    · split
      · split <;> exact h
      · exact h
  | append => exact h

/-- Where a caller notifies, the thread stays wakeable unless it was the last one that could
wake it, and it is not in the wait yet. -/
theorem wakeable_notify (hw : s.Wakeable) : (s.next .notify).Wakeable ↔ s.Safe .notify := by
  rw [next]
  by_cases hcallers : s.callers = 0
  · rw [if_pos hcallers]
    exact iff_of_true hw fun _ h1 => by omega
  rw [if_neg hcallers, notify_eq]
  by_cases hun : s.Unapplied
  · rw [if_pos hun, notifyOne]
    cases hthread : s.thread with
    | testing => exact iff_of_true (wakeable_of_thread hthread nofun nofun) fun h => by rw [hthread] at h; cases h
    | committing => exact iff_of_true (wakeable_of_thread hthread nofun nofun) fun h => by rw [hthread] at h; cases h
    | blocked notified =>
      exact iff_of_true (wakeable_of_thread rfl nofun nofun) fun h => by rw [hthread] at h; cases h
    | entering =>
      constructor
      · exact fun hnext _ hone => hnext (.inl hthread) (Nat.sub_eq_zero_of_le hone.le)
      · intro hsafe _ hnone
        exact hsafe hthread (by simp only at hnone; omega)
  · rw [if_neg hun]
    exact iff_of_true (fun _ _ => hun) fun _ _ => hun

/-- **A step keeps the thread wakeable exactly if it is safe.** -/
theorem wakeable_next (h : s.currentCommitIdx = s.commitIdx) (hw : s.Wakeable) (act : WaitAct) :
    (s.next act).Wakeable ↔ s.Safe act := by
  cases act with
  | test =>
    refine iff_of_true ?_ trivial
    rw [next, test]
    split
    · split
      · -- it has seen that there is nothing to commit
        rename_i hnothing
        rw [h] at hnothing
        intro _ _ hun
        rw [Unapplied] at hun
        simp only [hnothing, Bool.true_eq_false] at hun
      · exact wakeable_of_thread rfl nofun nofun
    · exact hw
  | block =>
    refine iff_of_true ?_ trivial
    rw [next]
    split
    · rename_i hentering
      exact fun _ => hw (.inl hentering)
    · exact hw
  | wake =>
    refine iff_of_true ?_ trivial
    rw [next]
    split
    · exact s.reread_wakeable
    · exact hw
  | commitNext =>
    refine iff_of_true ?_ trivial
    rw [next, commitNext]
    split
    · rename_i hcommitting
      split <;> exact wakeable_of_thread hcommitting nofun nofun
    · exact hw
  | leaveLoop =>
    refine iff_of_true ?_ trivial
    rw [next]
    split
    · exact s.reread_wakeable
    · exact hw
  | call => exact iff_of_true (wakeable_of_callers (Nat.succ_ne_zero _)) trivial
  | update targetIdx =>
    refine iff_of_true ?_ trivial
    rw [next, update]
    split
    · exact hw
    · rename_i hcallers
      split <;> exact wakeable_of_callers hcallers
  | notify => exact wakeable_notify hw
  | append =>
    refine forall₂_congr fun _ _ => ?_
    show ¬ nothingToCommit s.quickCommitIdx (s.nextSlot + 1) s.commitIdx = false ↔ _
    rw [Bool.not_eq_false]

end CommitWait

open CommitWait

/-- **No wake-up of the committing thread is lost** in a run, nor would be if the thread went
on to block, if and only if every step of the run is safe. -/
theorem none_lost_iff (commitIdx quickCommitIdx nextSlot callers : Nat) (acts : List WaitAct) :
    Throughout CommitWait.next (fun s => s.NoneLost ∧ (s.next .block).NoneLost)
        (start commitIdx quickCommitIdx nextSlot callers) acts ↔
      Along CommitWait.next Safe (start commitIdx quickCommitIdx nextSlot callers) acts := by
  have hstart : (start commitIdx quickCommitIdx nextSlot callers).Wakeable := by
    rintro (h | h) <;> cases h
  have hcurrent : ∀ (s : CommitWait) act, s.currentCommitIdx = s.commitIdx →
      (s.next act).currentCommitIdx = (s.next act).commitIdx := fun _ act h => current_next h act
  have hstep : ∀ (s : CommitWait) act, s.currentCommitIdx = s.commitIdx → s.Wakeable →
      ((s.next act).Wakeable ↔ s.Safe act) := fun _ act h hw => wakeable_next h hw act
  simp only [← wakeable_iff]
  exact (along_iff_throughout hcurrent hstep rfl hstart).symm

/-- A call of `commit` between the look and the wait. -/
def lostWakeUp : List WaitAct := [.test, .call, .append, .update 1, .notify, .block]

/-- **The thread waits with an entry to apply** and nobody to wake it. -/
theorem none_lost_fails :
    ¬ ∀ acts, Throughout CommitWait.next NoneLost (start 0 0 1 0) acts := by
  intro h
  have hlost : ¬ (run CommitWait.next (start 0 0 1 0) lostWakeUp).NoneLost := by decide
  exact hlost (h lostWakeUp lostWakeUp [] (List.append_nil _).symm)

end Cornerstone
