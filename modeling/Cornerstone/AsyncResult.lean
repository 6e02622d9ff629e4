import Cornerstone.StepRun

/-! # Results that are set once

`async_result`: a result that one thread sets and others wait for, or leave a handler for.
Each member function holds the mutex, so a program is an interleaving of what they do while
they hold it; `get` gives the mutex up while it waits, and the return of its wait is a step
of its own, which may come without a notification.

There is one slot for a handler.  The constructors that are not given a result leave
`result_` as it happens to be, and one of them says that there is a result nevertheless.
-/

namespace Cornerstone
open StepRun

/-- A constructor of `async_result` that is not given a result. -/
inductive AsyncStart (H : Type)
  | plain
  | withHandler (h : H)
deriving DecidableEq, Repr

/-- What threads do with an `async_result` beside `set_result`.  `wake g` is the return of
the wait in the call `g` of `get`. -/
inductive AsyncAct (H G : Type)
  | whenReady (h : H)
  | get (g : G)
  | wake (g : G)
deriving DecidableEq, Repr

/-- `async_result`, where `nullptr` is the error `none`, with the calls of `get` that wait,
the handlers called so far and what they were handed, and the calls of `get` that have
returned or thrown. -/
@[ext] structure AsyncResult (V E H G : Type) where
  result : V
  err : Option E := none
  hasResult : Bool
  handler : Option H := none
  waiting : List G := []
  invoked : List (H × V × Option E) := []
  answered : List (G × Except E V) := []
deriving DecidableEq

/-- What `get` makes of a result and an error. -/
def getOutcome {V E : Type} (result : V) : Option E → Except E V
  | none => .ok result
  | some e => .error e

namespace AsyncResult

variable {V E H G : Type}

/-- The constructors; `result` is what `result_` happens to be. -/
def construct (result : V) : AsyncStart H → AsyncResult V E H G
  | .plain => { result := result, hasResult := false }
  | .withHandler h => { result := result, hasResult := true, handler := some h }

variable (r : AsyncResult V E H G)

/-- Call a handler. -/
def call (h : H) (result : V) (err : Option E) : AsyncResult V E H G :=
  { r with invoked := r.invoked ++ [(h, result, err)] }

/-- `when_ready`. -/
def whenReady (h : H) : AsyncResult V E H G :=
  if r.hasResult then r.call h r.result r.err else { r with handler := some h }

/-- `set_result`. -/
def setResult (result : V) (err : Option E) : AsyncResult V E H G :=
  let r := { r with result := result, err := err, hasResult := true }
  match r.handler with
  | none => r
  | some h => r.call h result err

/-- The end of `get`. -/
def answer (g : G) : AsyncResult V E H G :=
  { r with answered := r.answered ++ [(g, getOutcome r.result r.err)] }

/-- `get` up to its end or its wait. -/
def get (g : G) : AsyncResult V E H G :=
  if r.hasResult then r.answer g else { r with waiting := g :: r.waiting }

variable [DecidableEq G]

/-- The wait in a call of `get` is over. -/
def leave (g : G) : AsyncResult V E H G := { r with waiting := r.waiting.erase g }

/-- `get` behind its wait. -/
def wake (g : G) : AsyncResult V E H G :=
  if g ∈ r.waiting then (r.leave g).answer g else r

def next (r : AsyncResult V E H G) : AsyncAct H G → AsyncResult V E H G
  | .whenReady h => r.whenReady h
  | .get g => r.get g
  | .wake g => r.wake g

end AsyncResult

/-- The handlers a constructor is passed. -/
def AsyncStart.passed {H : Type} : AsyncStart H → List H
  | .plain => []
  | .withHandler h => [h]

/-- The handlers passed to `when_ready`. -/
def passedIn {H G : Type} (acts : List (AsyncAct H G)) : List H :=
  acts.filterMap fun
    | .whenReady h => some h
    | _ => none

section
variable {H G : Type} (acts : List (AsyncAct H G))

@[simp] theorem passedIn_nil : passedIn ([] : List (AsyncAct H G)) = [] := rfl

@[simp] theorem passedIn_whenReady (h : H) : passedIn (.whenReady h :: acts) = h :: passedIn acts := rfl

@[simp] theorem passedIn_get (g : G) : passedIn (.get g :: acts) = passedIn acts := rfl

@[simp] theorem passedIn_wake (g : G) : passedIn (.wake g :: acts) = passedIn acts := rfl

variable {acts}

/-- A call of `get` is woken behind its start. -/
theorem wakes_get {g g' : G} :
    [.get g', .wake g'].Sublist (.get g :: acts) ↔ [.get g', .wake g'].Sublist acts ∨ g' = g ∧ .wake g ∈ acts := by
  rw [List.sublist_cons_iff]
  refine or_congr Iff.rfl ⟨?_, ?_⟩
  · rintro ⟨l, hl, hsub⟩
    cases hl
    exact ⟨rfl, List.singleton_sublist.mp hsub⟩
  · rintro ⟨rfl, hmem⟩
    exact ⟨_, rfl, List.singleton_sublist.mpr hmem⟩

theorem wakes_whenReady {g : G} {h : H} :
    [.get g, .wake g].Sublist (.whenReady h :: acts) ↔ [.get g, .wake g].Sublist acts := by
  rw [List.sublist_cons_iff]
  exact or_iff_left (by simp)

theorem wakes_wake {g g' : G} :
    [.get g', .wake g'].Sublist (.wake g :: acts) ↔ [.get g', .wake g'].Sublist acts := by
  rw [List.sublist_cons_iff]
  exact or_iff_left (by simp)

end

section
variable {V E H G : Type} [DecidableEq G]

/-- The state after `pre`. -/
def AsyncStart.before (start : AsyncStart H) (result : V) (pre : List (AsyncAct H G)) : AsyncResult V E H G :=
  run AsyncResult.next (.construct result start) pre

/-- The state after `pre`, `set_result(v, e)` and `post`. -/
def AsyncStart.after (start : AsyncStart H) (result : V) (pre : List (AsyncAct H G)) (v : V) (e : Option E)
    (post : List (AsyncAct H G)) : AsyncResult V E H G :=
  run AsyncResult.next ((start.before result pre).setResult v e) post

/-- **What an `async_result` is for**: before `set_result(v, e)` no handler is called and no
`get` comes to its end; then each handler that is passed in is called once, with `v` and
`e`, and `get` returns `v` or throws `e`. -/
structure DeliversOnce (start : AsyncStart H) (result : V) (pre : List (AsyncAct H G)) (v : V) (e : Option E)
    (post : List (AsyncAct H G)) : Prop where
  invoked_before : (start.before result pre : AsyncResult V E H G).invoked = []
  answered_before : (start.before result pre : AsyncResult V E H G).answered = []
  invoked : (start.after result pre v e post).invoked.Perm
    ((start.passed ++ (passedIn pre ++ passedIn post)).map fun h => (h, v, e))
  answered : ∀ x ∈ (start.after result pre v e post).answered, x.2 = getOutcome v e

/-- What may be done before the result is set: one handler in all is passed in, no wait
returns, and after the constructor with a handler `get` is not called at all. -/
def AsyncStart.SafeBefore : AsyncStart H → List (AsyncAct H G) → Prop
  | .plain, pre => (passedIn pre).length ≤ 1 ∧ ∀ g, ¬ [.get g, .wake g].Sublist pre
  | .withHandler _, pre => passedIn pre = [] ∧ ∀ g, .get g ∉ pre

namespace AsyncResult

variable {r : AsyncResult V E H G} {acts : List (AsyncAct H G)} {g : G} {h : H}

/-! ## Before the result is set -/

theorem whenReady_unset (hr : r.hasResult = false) : r.next (.whenReady h) = { r with handler := some h } := by
  rw [next, whenReady, hr, if_neg Bool.false_ne_true]

theorem get_unset (hr : r.hasResult = false) : r.next (.get g) = { r with waiting := g :: r.waiting } := by
  rw [next, get, hr, if_neg Bool.false_ne_true]

/-- The handler passed in last has the slot, and none is called. -/
theorem run_unset (hr : r.hasResult = false) (acts : List (AsyncAct H G)) :
    (run next r acts).hasResult = false ∧ (run next r acts).invoked = r.invoked ∧
      (run next r acts).handler = (passedIn acts).getLast?.or r.handler := by
  induction acts generalizing r with
  | nil => exact ⟨hr, rfl, rfl⟩
  | cons act acts ih =>
    cases act with
    | whenReady h =>
      rw [run_cons, whenReady_unset hr, passedIn_whenReady]
      obtain ⟨hset, hinvoked, hhandler⟩ := @ih { r with handler := some h } hr
      refine ⟨hset, hinvoked, hhandler.trans ?_⟩
      rw [List.getLast?_cons]
      cases (passedIn acts).getLast? <;> rfl
    | get g =>
      rw [run_cons, get_unset hr, passedIn_get]
      exact @ih { r with waiting := g :: r.waiting } hr
    | wake g =>
      rw [run_cons, passedIn_wake, next, wake]
      split
      · exact @ih ((r.leave g).answer g) hr
      · exact ih hr

theorem answered_next (r : AsyncResult V E H G) (act : AsyncAct H G) : r.answered <+: (r.next act).answered := by
  cases act with
  | whenReady h =>
    rw [next, whenReady]
    split <;> exact List.prefix_refl _
  | get g =>
    rw [next, get]
    split
    · exact List.prefix_append _ _
    · exact List.prefix_refl _
  | wake g =>
    rw [next, wake]
    split
    · exact List.prefix_append _ _
    · exact List.prefix_refl _

theorem answered_run (r : AsyncResult V E H G) (acts : List (AsyncAct H G)) :
    r.answered <+: (run next r acts).answered := by
  have hstep : ∀ (s : AsyncResult V E H G) act, r.answered <+: s.answered → r.answered <+: (s.next act).answered :=
    fun s act h => h.trans (s.answered_next act)
  exact run_invariant hstep acts (List.prefix_refl _)

/-- Before there is a result a `get` comes to its end where its wait returns, and only
there. -/
theorem run_unset_answered (hr : r.hasResult = false) (acts : List (AsyncAct H G)) :
    (run next r acts).answered = r.answered ↔
      (∀ g ∈ r.waiting, .wake g ∉ acts) ∧ ∀ g, ¬ [.get g, .wake g].Sublist acts := by
  induction acts generalizing r with
  | nil => simp
  | cons act acts ih =>
    cases act with
    | whenReady h =>
      rw [run_cons, whenReady_unset hr, @ih { r with handler := some h } hr]
      simp only [List.mem_cons, reduceCtorEq, false_or, wakes_whenReady]
    | get g =>
      rw [run_cons, get_unset hr, @ih { r with waiting := g :: r.waiting } hr]
      simp only [List.mem_cons, reduceCtorEq, false_or, forall_eq_or_imp, wakes_get, not_or, not_and, forall_and,
        forall_eq]
      tauto
    | wake g =>
      rw [run_cons, next, wake]
      split
      · -- what is answered stays
        rename_i hg
        have hlonger := (answered_run ((r.leave g).answer g) acts).length_le
        refine iff_of_false (fun heq => ?_) fun hnone => hnone.1 g hg List.mem_cons_self
        have hlen : ((r.leave g).answer g).answered.length = r.answered.length + 1 := List.length_append
        rw [heq, hlen] at hlonger
        omega
      · rename_i hg
        rw [ih hr]
        simp only [wakes_wake, List.mem_cons, AsyncAct.wake.injEq, not_or]
        refine and_congr_left fun _ => forall₂_congr fun g' hg' => ?_
        have hne : g' ≠ g := fun heq => hg (heq ▸ hg')
        exact (and_iff_right hne).symm

/-! ## Once it is set -/

/-- A result is there, and `get` has come to its end with nothing else. -/
structure IsSet (r : AsyncResult V E H G) (v : V) (e : Option E) : Prop where
  hasResult : r.hasResult = true
  result : r.result = v
  err : r.err = e
  answered : ∀ x ∈ r.answered, x.2 = getOutcome v e

variable {v : V} {e : Option E}

omit [DecidableEq G] in
theorem IsSet.answer (hr : r.IsSet v e) (g : G) : (r.answer g).IsSet v e := by
  refine ⟨hr.hasResult, hr.result, hr.err, fun x hx => ?_⟩
  rcases List.mem_append.mp hx with hx | hx
  · exact hr.answered x hx
  · rw [List.mem_singleton.mp hx, hr.result, hr.err]

theorem IsSet.whenReady (hr : r.IsSet v e) : r.next (.whenReady h) = r.call h v e := by
  rw [next, AsyncResult.whenReady, hr.hasResult, if_pos rfl, hr.result, hr.err]

theorem IsSet.get (hr : r.IsSet v e) : r.next (.get g) = r.answer g := by
  rw [next, AsyncResult.get, hr.hasResult, if_pos rfl]

theorem IsSet.next (hr : r.IsSet v e) (act : AsyncAct H G) : (r.next act).IsSet v e := by
  cases act with
  | whenReady h =>
    rw [hr.whenReady]
    exact ⟨hr.hasResult, hr.result, hr.err, hr.answered⟩
  | get g =>
    rw [hr.get]
    exact hr.answer g
  | wake g =>
    rw [AsyncResult.next, wake]
    split
    · have hleave : (r.leave g).IsSet v e := ⟨hr.hasResult, hr.result, hr.err, hr.answered⟩
      exact hleave.answer g
    · exact hr

/-- Each handler passed in is called at once, and the slot is left alone. -/
theorem IsSet.run (hr : r.IsSet v e) (acts : List (AsyncAct H G)) :
    (StepRun.run AsyncResult.next r acts).IsSet v e ∧ (StepRun.run AsyncResult.next r acts).handler = r.handler ∧
      (StepRun.run AsyncResult.next r acts).invoked = r.invoked ++ (passedIn acts).map fun h => (h, v, e) := by
  induction acts generalizing r with
  | nil => exact ⟨hr, rfl, (List.append_nil _).symm⟩
  | cons act acts ih =>
    obtain ⟨hset, hhandler, hinvoked⟩ := ih (hr.next act)
    refine ⟨hset, hhandler.trans ?_, hinvoked.trans ?_⟩
    · cases act with
      | whenReady h =>
        rw [hr.whenReady]
        rfl
      | get g =>
        rw [hr.get]
        rfl
      | wake g =>
        rw [AsyncResult.next, wake]
        split <;> rfl
    · cases act with
      | whenReady h =>
        rw [hr.whenReady, passedIn_whenReady, List.map_cons]
        exact List.append_assoc _ _ _
      | get g =>
        rw [hr.get]
        rfl
      | wake g =>
        rw [AsyncResult.next, wake]
        split <;> rfl

/-- With nobody in a wait, it is the calls of `get` that come to their end. -/
theorem IsSet.run_answered (hr : r.IsSet v e) (hw : r.waiting = []) (acts : List (AsyncAct H G)) :
    (StepRun.run AsyncResult.next r acts).answered = r.answered ↔ ∀ g, .get g ∉ acts := by
  induction acts generalizing r with
  | nil => simp
  | cons act acts ih =>
    cases act with
    | whenReady h =>
      have hcall := hr.next (.whenReady h)
      rw [hr.whenReady] at hcall
      rw [run_cons, hr.whenReady, show r.answered = (r.call h v e).answered from rfl, ih hcall hw]
      simp only [List.mem_cons, reduceCtorEq, false_or]
    | get g =>
      have hlonger := (answered_run (r.answer g) acts).length_le
      have hlen : (r.answer g).answered.length = r.answered.length + 1 := List.length_append
      rw [run_cons, hr.get]
      refine iff_of_false (fun heq => ?_) fun hnone => hnone g List.mem_cons_self
      rw [heq, hlen] at hlonger
      omega
    | wake g =>
      have hstay : r.next (.wake g) = r := by
        rw [AsyncResult.next, wake, hw, if_neg List.not_mem_nil]
      rw [run_cons, hstay, ih hr hw]
      simp only [List.mem_cons, reduceCtorEq, false_or]

omit [DecidableEq G] in
/-- `set_result` calls the handler in the slot. -/
theorem setResult_run (r : AsyncResult V E H G) (hnone : r.answered = []) (v : V) (e : Option E) :
    (r.setResult v e).IsSet v e ∧ (r.setResult v e).invoked = r.invoked ++ r.handler.toList.map fun h => (h, v, e) := by
  rw [setResult]
  cases hh : r.handler with
  | none =>
    refine ⟨⟨rfl, rfl, rfl, fun x hx => ?_⟩, (List.append_nil _).symm⟩
    simp only [hnone, List.not_mem_nil] at hx
  | some h =>
    refine ⟨⟨rfl, rfl, rfl, fun x hx => ?_⟩, rfl⟩
    simp only [call, hnone, List.not_mem_nil] at hx

end AsyncResult

/-! ## Delivery -/

variable {start : AsyncStart H} {result v : V} {e : Option E} {pre post : List (AsyncAct H G)}

/-- What is called in all, if no `get` comes to its end before the result is set. -/
theorem after_run (hnone : (start.before result pre : AsyncResult V E H G).answered = []) (v : V) (e : Option E)
    (post : List (AsyncAct H G)) :
    (start.after result pre v e post).IsSet v e ∧ (start.after result pre v e post).invoked =
      (start.before result pre : AsyncResult V E H G).invoked ++
        (((start.before result pre : AsyncResult V E H G).handler.toList ++ passedIn post).map fun h => (h, v, e)) := by
  obtain ⟨hset, hinvoked⟩ := (start.before result pre : AsyncResult V E H G).setResult_run hnone v e
  obtain ⟨hset', -, hinvoked'⟩ := hset.run post
  refine ⟨hset', ?_⟩
  rw [AsyncStart.after, hinvoked', hinvoked, List.map_append, List.append_assoc]

/-- Delivery, by what is there when the result is set. -/
theorem deliversOnce_iff : DeliversOnce start result pre v e post ↔
    (start.before result pre : AsyncResult V E H G).invoked = [] ∧
      (start.before result pre : AsyncResult V E H G).answered = [] ∧
      (((start.before result pre : AsyncResult V E H G).handler.toList ++ passedIn post).map
        fun h => (h, v, e)).Perm ((start.passed ++ (passedIn pre ++ passedIn post)).map fun h => (h, v, e)) := by
  constructor
  · intro hd
    obtain ⟨-, hinvoked⟩ := after_run hd.answered_before v e post
    have hperm := hd.invoked
    rw [hinvoked, hd.invoked_before, List.nil_append] at hperm
    exact ⟨hd.invoked_before, hd.answered_before, hperm⟩
  · rintro ⟨hinv, hans, hperm⟩
    obtain ⟨hset, hinvoked⟩ := after_run hans v e post
    refine ⟨hinv, hans, ?_, hset.answered⟩
    rw [hinvoked, hinv, List.nil_append]
    exact hperm

theorem before_plain (result : V) (pre : List (AsyncAct H G)) :
    (AsyncStart.plain.before result pre : AsyncResult V E H G).invoked = [] ∧
      (AsyncStart.plain.before result pre : AsyncResult V E H G).handler = (passedIn pre).getLast? ∧
      ((AsyncStart.plain.before result pre : AsyncResult V E H G).answered = [] ↔
        ∀ g, ¬ [.get g, .wake g].Sublist pre) := by
  have hunset : (AsyncResult.construct result .plain : AsyncResult V E H G).hasResult = false := rfl
  obtain ⟨-, hinvoked, hhandler⟩ := AsyncResult.run_unset hunset pre
  refine ⟨hinvoked, hhandler.trans (Option.or_none ..), (AsyncResult.run_unset_answered hunset pre).trans ?_⟩
  exact and_iff_right fun g hg => nomatch hg

theorem before_withHandler (h : H) (result : V) (pre : List (AsyncAct H G)) :
    (AsyncStart.before (.withHandler h) result pre : AsyncResult V E H G).invoked =
        ((passedIn pre).map fun h => (h, result, none)) ∧
      (AsyncStart.before (.withHandler h) result pre : AsyncResult V E H G).handler = some h ∧
      ((AsyncStart.before (.withHandler h) result pre : AsyncResult V E H G).answered = [] ↔
        ∀ g, .get g ∉ pre) := by
  have hset : (AsyncResult.construct result (.withHandler h) : AsyncResult V E H G).IsSet result none :=
    ⟨rfl, rfl, rfl, fun x hx => nomatch hx⟩
  obtain ⟨-, hhandler, hinvoked⟩ := hset.run pre
  exact ⟨hinvoked, hhandler, hset.run_answered rfl pre⟩

/-- A list has one element at most where its last element is all of it. -/
theorem getLast?_toList_perm_iff (l : List H) (f : H → H × V × Option E) (rest : List H) :
    ((l.getLast?.toList ++ rest).map f).Perm ((l ++ rest).map f) ↔ l.length ≤ 1 := by
  constructor
  · intro hperm
    have hlen := hperm.length_eq
    have hlast : l.getLast?.toList.length ≤ 1 := Option.length_toList_le
    simp only [List.length_map, List.length_append] at hlen
    omega
  · intro hle
    cases l with
    | nil => exact List.Perm.refl _
    | cons x l =>
      rw [List.length_cons] at hle
      rw [List.eq_nil_of_length_eq_zero (by omega : l.length = 0)]
      exact List.Perm.refl _

/-- **An `async_result` delivers to every handler exactly once**, and `get` waits for the
result, if and only if what is done before the result is set is safe. -/
theorem delivers_once_iff (start : AsyncStart H) (result : V) (pre : List (AsyncAct H G)) (v : V) (e : Option E)
    (post : List (AsyncAct H G)) : DeliversOnce start result pre v e post ↔ start.SafeBefore pre := by
  rw [deliversOnce_iff]
  cases start with
  | plain =>
    obtain ⟨hinvoked, hhandler, hanswered⟩ := before_plain (E := E) result pre
    rw [hinvoked, hhandler, hanswered, AsyncStart.passed, List.nil_append, getLast?_toList_perm_iff]
    exact (and_iff_right rfl).trans and_comm
  | withHandler h =>
    obtain ⟨hinvoked, hhandler, hanswered⟩ := before_withHandler (E := E) h result pre
    rw [hinvoked, hhandler, hanswered, List.map_eq_nil_iff]
    refine and_congr_right fun hnil => and_iff_left ?_
    rw [hnil]
    exact List.Perm.refl _

end

/-- **Three ways to go wrong**: `get` after the constructor with a handler, a second handler
before the result, and a wait that returns by itself. -/
theorem delivers_once_fails :
    ¬ DeliversOnce (E := Nat) (.withHandler 1) false [AsyncAct.get 0] true none [] ∧
      ¬ DeliversOnce (E := Nat) (G := Nat) .plain false [.whenReady 1, .whenReady 2] true none [] ∧
      ¬ DeliversOnce (E := Nat) (H := Nat) .plain false [.get 0, .wake 0] true none [] := by
  refine ⟨fun hd => ?_, fun hd => ?_, fun hd => ?_⟩
  · cases hd.answered_before
  · have hlen := hd.invoked.length_eq
    cases hlen
  · cases hd.answered_before

end Cornerstone
