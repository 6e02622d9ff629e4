import Cornerstone.OfficeMoves
import Cornerstone.DelayedTask
import Cornerstone.StepRun

/-! # The election timer

A server with its `election_task_`.  Its handlers restart the timer and stop it; the service
that runs the task hands timeouts to `handle_election_timeout`, which waits for `lock_` before
it does anything.  So a timeout may be on its way there while another event changes the server.

Of the other events nothing is assumed.  Heartbeats may come at any time here.
-/

namespace Cornerstone
open Handlers Handler Server StepRun

/-! ## What a server does to its election timer -/

/-- `restart_election_timer` and `stop_election_timer`. -/
inductive ElectionCall
  | restart
  | stop
deriving DecidableEq, Repr

/-- A call, by a server that is catching up or not.  The task is made when the timer is first
restarted. -/
def ElectionCall.apply (catchingUp : Bool) (task : Option DelayedTask) : ElectionCall → Option DelayedTask
  | .restart =>
    if catchingUp then task
    else
      match task with
      | some t => some t.cancel.schedule
      | none => some ({} : DelayedTask).schedule
  | .stop => task.map DelayedTask.cancel

/-- `state_machine_.apply_snapshot`, before which the timer is stopped and after which it is
restarted. -/
def Effect.appliesSnapshot : Effect → Bool
  | .applySnapshot _ => true
  | _ => false

namespace Server

/-- The server runs and is neither in office nor catching up. -/
structure Watching (s : Server) : Prop where
  runs : s.exited = false
  role : s.role ≠ .leader
  settled : s.catchingUp = false

/-- What a server does to its election timer on an event. -/
def electionCalls (env : Env) (s : Server) (ev : Event) : List ElectionCall :=
  match ev with
  | .request req =>
    -- `update_term`, then the handler of the request
    let u := (noteTerm req s).state
    (if ev.raises s then [.restart] else []) ++
      ((if u.hearsLeader req ∧ u.role ≠ .leader then [.restart] else []) ++
        -- only a follower comes to apply a snapshot
        if u.role ≠ .leader ∧ (s.effects env ev).any Effect.appliesSnapshot then [.stop, .restart] else [])
  | .peerResp _ _ _ =>
    if ev.raises s then [.restart]
    else if (s.effects env ev).any Effect.takesOffice then [.stop] else []
  | .electionTimeout =>
    if (s.effects env ev).any Effect.takesOffice then [.stop]
    else
      -- an exception on the way leaves the timer alone
      match (handle env ev s).res with
      | .ok _ => [.restart]
      | .error _ => []
  | _ => []

end Server

/-! ## A server with its timer -/

/-- A server and its `election_task_`. -/
structure TimedServer where
  server : Server
  task : Option DelayedTask

/-- An event of the server, or what the service does with the timer. -/
inductive TimedAct
  | event (env : Env) (ev : Event)
  | timer (act : TimerAct)

namespace TimedServer

/-- The calls of `exec` that wait for `lock_`. -/
def timeouts (task : Option DelayedTask) : Nat := (task.map DelayedTask.executing).getD 0

/-- The task as an event finds it; an election timeout comes with a call of `exec` only. -/
def found (x : TimedServer) : Event → Option (Option DelayedTask)
  | .electionTimeout => if timeouts x.task = 0 then none else some (x.task.map DelayedTask.executed)
  | _ => some x.task

/-- The task after some calls. -/
def after (catchingUp : Bool) (calls : List ElectionCall) (task : Option DelayedTask) : Option DelayedTask :=
  calls.foldl (ElectionCall.apply catchingUp) task

/-- What an act makes of the server; a timeout that nobody has called for does nothing. -/
def next (x : TimedServer) : TimedAct → TimedServer
  | .event env ev =>
    if x.server.exited then x
    else
      match x.found ev with
      | none => x
      | some task =>
        { server := x.server.next env ev
          task := after x.server.catchingUp (x.server.electionCalls env ev) task }
  | .timer act => { x with task := x.task.map (·.tick act) }

/-- The constructor of `raft_server`, which starts the timer. -/
def start (id : Int) (params : RaftParams) (state : Option SrvState) (logStore : LogStore)
    (config : ClusterConfig) : TimedServer where
  server := Server.start id params state logStore config
  task := after false [.restart] none

/-- **A server in office is not disturbed**: no election timeout is on its way, with which it
would end its process. -/
def Undisturbed (x : TimedServer) : Prop := x.server.Leads → timeouts x.task = 0

/-- A call of `handle_election_timeout` is on its way, or the timer runs that will bring one. -/
def WillRun (task : Option DelayedTask) : Prop := ∃ t, task = some t ∧ t.Live

/-- **A server that should watch its leader does**: one that is neither in office nor catching
up will stand for election. -/
def Watches (x : TimedServer) : Prop := x.server.Watching → WillRun x.task

/-! ## The task -/

variable {task : Option DelayedTask} {c : Bool}

theorem timeouts_apply (task : Option DelayedTask) (call : ElectionCall) :
    timeouts (call.apply c task) = timeouts task := by
  cases call with
  | restart =>
    cases c with
    | true => rfl
    | false =>
      cases task with
      | none => rfl
      | some t => exact (DelayedTask.executing_schedule t.cancel).trans (DelayedTask.executing_cancel t)
  | stop => cases task <;> rfl

/-- Calls on their way are not taken back. -/
theorem timeouts_after (calls : List ElectionCall) (task : Option DelayedTask) :
    timeouts (after c calls task) = timeouts task := by
  induction calls generalizing task with
  | nil => rfl
  | cons call calls ih => exact (ih _).trans (timeouts_apply task call)

/-- A task that is there has a timer. -/
def Timed (task : Option DelayedTask) : Prop := ∀ t, task = some t → t.hasTimer = true

theorem timed_none : Timed none := by
  intro t ht
  cases ht

/-- What keeps the timer of a task keeps this. -/
theorem timed_map {f : DelayedTask → DelayedTask} (hf : ∀ t, (f t).hasTimer = t.hasTimer) (h : Timed task) :
    Timed (task.map f) := by
  intro u hu
  obtain ⟨t, ht, rfl⟩ := Option.map_eq_some_iff.mp hu
  rw [hf]
  exact h t ht

theorem timed_apply (h : Timed task) (call : ElectionCall) : Timed (call.apply c task) := by
  cases call with
  | restart =>
    cases c with
    | true => exact h
    | false =>
      cases task with
      | none =>
        intro t ht
        cases ht
        rfl
      | some t =>
        intro u hu
        cases hu
        exact DelayedTask.hasTimer_schedule _
  | stop => exact timed_map DelayedTask.hasTimer_cancel h

theorem timed_after (h : Timed task) (calls : List ElectionCall) : Timed (after c calls task) := by
  induction calls generalizing task with
  | nil => exact h
  | cons call calls ih => exact ih (timed_apply h call)

theorem after_append (calls calls' : List ElectionCall) (task : Option DelayedTask) :
    after c (calls ++ calls') task = after c calls' (after c calls task) := List.foldl_append

/-- After a restart the task will be executed. -/
theorem willRun_restart (h : Timed task) (calls : List ElectionCall) :
    WillRun (after false (calls ++ [.restart]) task) := by
  rw [after_append]
  have htimed := timed_after (c := false) h calls
  cases hbefore : after false calls task with
  | none => exact ⟨_, rfl, by decide⟩
  | some t =>
    rw [hbefore] at htimed
    exact ⟨_, rfl, DelayedTask.live_schedule (htimed t rfl)⟩

/-- After a stop the task is off. -/
theorem off_stop {t : DelayedTask} (h : after c [.stop] task = some t) : t.Off := by
  obtain ⟨u, -, rfl⟩ := Option.map_eq_some_iff.mp h
  exact DelayedTask.off_cancel u

/-! ## What a server does to its timer -/

variable {s : Server} {env : Env} {ev : Event}

/-- The ways a server treats its timer on an event: it stops it to take office, it restarts it
at last, or it leaves it alone. -/
inductive Calling (s : Server) (env : Env) (ev : Event) : List ElectionCall → Prop
  | stops (hraises : ev.raises s = false) (htakes : (s.effects env ev).any Effect.takesOffice = true) :
      Calling s env ev [.stop]
  | restarts (calls : List ElectionCall)
      (h : ev.raises s = true ∨ (s.effects env ev).any Effect.takesOffice = false ∧
        (s.role ≠ .leader ∨ ev = .electionTimeout))
      (hok : ev = .electionTimeout → (handle env ev s).res = .ok ()) (hbg : ev ≠ .bgIter) :
      Calling s env ev (calls ++ [.restart])
  | leaves (hraises : ev.raises s = false) (htakes : (s.effects env ev).any Effect.takesOffice = false)
      (hto : ev = .electionTimeout → ∃ e, (handle env ev s).res = .error e) : Calling s env ev []

theorem calling_request (req : ReqMsg) :
    Calling s env (.request req) (s.electionCalls env (.request req)) := by
  have htakes : (s.effects env (.request req)).any Effect.takesOffice = false := by
    by_contra h
    cases elects_of_takes (Bool.not_eq_false _ ▸ h)
  -- by a later term the server is a follower, without one its role is what it was
  have hwhy : (noteTerm req s).state.role ≠ .leader → (Event.request req).raises s = true ∨
      (s.effects env (.request req)).any Effect.takesOffice = false ∧
        (s.role ≠ .leader ∨ Event.request req = .electionTimeout) := by
    intro hrole
    cases hraises : (Event.request req).raises s with
    | true => exact .inl rfl
    | false =>
      rw [role_noteTerm hraises] at hrole
      exact .inr ⟨htakes, .inl hrole⟩
  simp only [Server.electionCalls]
  by_cases happlies : (noteTerm req s).state.role ≠ .leader ∧
      (s.effects env (.request req)).any Effect.appliesSnapshot = true
  · have hlast : ∀ calls calls' : List ElectionCall,
        calls ++ (calls' ++ [.stop, .restart]) = (calls ++ calls' ++ [.stop]) ++ [.restart] := by simp
    rw [if_pos happlies, hlast]
    exact .restarts _ (hwhy happlies.1) nofun nofun
  · rw [if_neg happlies, List.append_nil]
    by_cases hhears : (noteTerm req s).state.hearsLeader req = true ∧ (noteTerm req s).state.role ≠ .leader
    · rw [if_pos hhears]
      exact .restarts _ (hwhy hhears.2) nofun nofun
    · rw [if_neg hhears, List.append_nil]
      cases hraises : (Event.request req).raises s with
      | true => exact .restarts [] (.inl hraises) nofun nofun
      | false => exact .leaves hraises htakes nofun

/-- **What a server does** to its timer on any event. -/
theorem electionCalls_calling (s : Server) (env : Env) (ev : Event) :
    Calling s env ev (s.electionCalls env ev) := by
  have hquiet : ev.elects = false → (s.effects env ev).any Effect.takesOffice = false := by
    intro helects
    by_contra h
    rw [elects_of_takes (Bool.not_eq_false _ ▸ h)] at helects
    cases helects
  cases ev with
  | request req => exact calling_request req
  | peerResp via reqType resp =>
    simp only [Server.electionCalls]
    cases hraises : (Event.peerResp via reqType resp).raises s with
    | true => exact .restarts [] (.inl hraises) nofun nofun
    | false =>
      cases htakes : (s.effects env (.peerResp via reqType resp)).any Effect.takesOffice with
      | true => exact .stops hraises htakes
      | false => exact .leaves hraises htakes nofun
  | electionTimeout =>
    simp only [Server.electionCalls]
    cases htakes : (s.effects env .electionTimeout).any Effect.takesOffice with
    | true => exact .stops rfl htakes
    | false =>
      cases hres : (handle env .electionTimeout s).res with
      | ok => exact .restarts [] (.inr ⟨htakes, .inr rfl⟩) (fun _ => hres) nofun
      | error e => exact .leaves rfl htakes fun _ => ⟨e, hres⟩
  | peerErr | extResp | extErr | extRetry | hbTimeout | bgWake | bgIter | snapshotCompleted =>
    exact .leaves rfl (hquiet rfl) nofun

/-! ## A server in office -/

/-- In office the timer is off. -/
def OffInOffice (x : TimedServer) : Prop := x.server.Leads → ∀ t, x.task = some t → t.Off

/-- Whoever takes office and runs on in it is not called by the timer once more. -/
def ElectedAlone (x : TimedServer) : TimedAct → Prop
  | .event env ev =>
    (x.server.effects env ev).any Effect.takesOffice = true → (x.server.next env ev).Leads →
      ∀ task, x.found ev = some task → timeouts task = 0
  | .timer _ => True

/-- An event that does something. -/
theorem next_event {x : TimedServer} (env : Env) {ev : Event} (hx : x.server.exited = false)
    {task : Option DelayedTask} (hfound : x.found ev = some task) :
    x.next (.event env ev) =
      { server := x.server.next env ev, task := after x.server.catchingUp (x.server.electionCalls env ev) task } := by
  simp only [next, hx, hfound]
  rfl

/-- Only an election timeout comes with a call of the task. -/
theorem found_cases {x : TimedServer} {ev : Event} {task : Option DelayedTask} (h : x.found ev = some task) :
    ev ≠ .electionTimeout ∧ task = x.task ∨
      ev = .electionTimeout ∧ timeouts x.task ≠ 0 ∧ task = x.task.map DelayedTask.executed := by
  cases ev with
  | electionTimeout =>
    simp only [found] at h
    split at h
    · cases h
    · rename_i hsome
      exact .inr ⟨rfl, hsome, (Option.some.inj h).symm⟩
  | _ => exact .inl ⟨nofun, (Option.some.inj h).symm⟩

/-- An act is one of the timer, an event that nothing comes of, or one with what it finds. -/
theorem next_cases (x : TimedServer) (act : TimedAct) :
    (∃ a, act = .timer a) ∨
      (∃ env ev, act = .event env ev ∧ x.next act = x ∧ (x.server.exited = true ∨ x.found ev = none)) ∨
      ∃ env ev task, act = .event env ev ∧ x.server.exited = false ∧ x.found ev = some task := by
  cases act with
  | timer a => exact .inl ⟨a, rfl⟩
  | event env ev =>
    right
    cases hx : x.server.exited with
    | true =>
      refine .inl ⟨env, ev, rfl, ?_, .inl rfl⟩
      simp only [next, hx]
      rfl
    | false =>
      cases hfound : x.found ev with
      | none =>
        refine .inl ⟨env, ev, rfl, ?_, .inr hfound⟩
        simp only [next, hx, hfound]
        rfl
      | some task => exact .inr ⟨env, ev, task, rfl, rfl, hfound⟩

/-- **A step**: the timer is off in office still, and calls on their way there come with the
office. -/
theorem next_offInOffice {x : TimedServer} (hoff : x.OffInOffice) (hund : x.Undisturbed) (act : TimedAct) :
    (x.next act).OffInOffice ∧ ((x.next act).Undisturbed ↔ x.ElectedAlone act) := by
  rcases next_cases x act with ⟨a, rfl⟩ | ⟨env, ev, rfl, hsame, hidle⟩ | ⟨env, ev, task, rfl, hx, hfound⟩
  · refine ⟨?_, iff_of_true ?_ trivial⟩
    · intro hleads t ht
      obtain ⟨u, hu, rfl⟩ := Option.map_eq_some_iff.mp ht
      exact ((hoff hleads u hu).tick a).1
    · intro hleads
      have hzero := hund hleads
      cases htask : x.task with
      | none => simp [next, htask, timeouts]
      | some t =>
        have ht := hoff hleads t htask
        rw [htask] at hzero
        simp only [next, htask]
        exact (ht.tick a).2.trans hzero
  · rw [hsame]
    refine ⟨hoff, iff_of_true hund ?_⟩
    intro htakes _ task hfound
    rcases hidle with hx | hnone
    · rw [Server.effects, if_pos hx] at htakes
      cases htakes
    · rw [hnone] at hfound
      cases hfound
  · have hnext := next_event env hx hfound
    -- a leader waits for no timeout, so an election timeout finds none
    have hto : ev = .electionTimeout → x.server.role ≠ .leader := by
      intro hev hrole
      rcases found_cases hfound with ⟨hne, -⟩ | ⟨-, hsome, -⟩
      · exact hne hev
      · exact hsome (hund ⟨hx, hrole⟩)
    have hstay : (x.server.effects env ev).any Effect.takesOffice = false → (x.server.next env ev).Leads →
        x.server.role = .leader ∧ task = x.task := by
      intro htakes hleads
      rcases comesToLead_next hx hleads with ⟨h, -⟩ | ⟨hrole, -⟩
      · rw [htakes] at h
        cases h
      · refine ⟨hrole, ?_⟩
        rcases found_cases hfound with ⟨-, htask⟩ | ⟨hev, -⟩
        · exact htask
        · exact absurd hrole (hto hev)
    have hcalling := electionCalls_calling x.server env ev
    generalize x.server.electionCalls env ev = calls at hcalling hnext
    -- whoever comes into office stops the timer, and whoever stays there leaves it alone
    have hleads : (x.server.next env ev).Leads →
        ((x.server.effects env ev).any Effect.takesOffice = true ∧ calls = [.stop]) ∨
          x.server.role = .leader ∧ task = x.task ∧ calls = [] := by
      intro hleads
      cases hcalling with
      | stops hraises htakes => exact .inl ⟨htakes, rfl⟩
      | restarts calls h _ _ =>
        exfalso
        rcases h with hraises | ⟨htakes, hrole⟩
        · exact not_leads_of_raises hx hraises hleads
        · have hleader := (hstay htakes hleads).1
          rcases hrole with hrole | hev
          · exact hrole hleader
          · exact hto hev hleader
      | leaves hraises htakes _ =>
        obtain ⟨hrole, htask⟩ := hstay htakes hleads
        exact .inr ⟨hrole, htask, rfl⟩
    rw [hnext]
    refine ⟨?_, ?_, ?_⟩
    · intro hnow t ht
      rcases hleads hnow with ⟨-, rfl⟩ | ⟨hrole, rfl, rfl⟩
      · exact off_stop (c := x.server.catchingUp) ht
      · exact hoff ⟨hx, hrole⟩ t ht
    · intro h _ hnow task' hfound'
      cases hfound.symm.trans hfound'
      have hzero := h hnow
      rw [timeouts_after] at hzero
      exact hzero
    · intro h hnow
      rcases hleads hnow with ⟨htakes, -⟩ | ⟨hwas, rfl, rfl⟩
      · rw [timeouts_after]
        exact h htakes hnow task hfound
      · exact hund ⟨hx, hwas⟩

/-- **A leader runs into an election timeout exactly if it was elected while one was on its
way**: in every run no call of `handle_election_timeout` waits for a server in office, exactly
if none does when it takes the office. -/
theorem undisturbed_iff (id : Int) (params : RaftParams) (state : Option SrvState) (logStore : LogStore)
    (config : ClusterConfig) (acts : List TimedAct) :
    Throughout next Undisturbed (start id params state logStore config) acts ↔
      Along next ElectedAlone (start id params state logStore config) acts := by
  refine (along_iff_throughout_of (J := OffInOffice) ?_ ?_ ?_ ?_).symm
  · intro x act hoff hund _
    exact (next_offInOffice hoff hund act).1
  · intro x act hoff hund
    exact (next_offInOffice hoff hund act).2
  · intro hleads
    cases hleads.role
  · intro hleads
    cases hleads.role

/-- A timeout that finds the server in office ends its process. -/
theorem exits_of_disturbed {x : TimedServer} (hleads : x.server.Leads) (hsome : timeouts x.task ≠ 0)
    (hstay : x.server.stepsToDown = 0) (hc : x.server.catchingUp = false) (env : Env) :
    (x.next (.event env .electionTimeout)).server.exited = true := by
  have hfound : x.found .electionTimeout = some (x.task.map DelayedTask.executed) := if_neg hsome
  have hres : (handle env .electionTimeout x.server).res = .error .exit := by
    simp [handle, handleElectionTimeout, hstay, hc, hleads.role, systemExitAndExit]
  rw [next_event env hleads.runs hfound]
  simp only [Server.next, hleads.runs, hres]
  rfl

/-- A wait ends and its handler calls `handle_election_timeout`. -/
def timesOut : List TimedAct := [.timer .expire, .timer .handler]

/-- Server 1 of three stands for election, and times out again as a vote comes in. -/
def lateTimeout : List TimedAct :=
  timesOut ++ [.event {} .electionTimeout] ++ timesOut ++
    [.event {} (.peerResp (some (.peer 2)) .requestVoteRequest ⟨1, .requestVoteResponse, 2, 1, 1, true⟩),
      .event {} .electionTimeout]

example : (run next (start 1 {} none {} { servers := [⟨1, [49]⟩, ⟨2, [50]⟩, ⟨3, [51]⟩] })
    lateTimeout).server.exited = true := by decide +kernel

/-! ## A server that watches its leader -/

/-- What could leave a server without its timer: an exception in `handle_election_timeout`,
and a catching up that ends after the timer has run out. -/
def KeepsWatch (x : TimedServer) : TimedAct → Prop
  | .event env ev =>
    ev = .electionTimeout ∧ (handle env ev x.server).res = .error .throw ∨
        ev = .bgIter ∧ x.server.catchingUp = true →
      (x.server.next env ev).Watching → ∀ task, x.found ev = some task → WillRun task
  | .timer _ => True

theorem timed_found {x : TimedServer} (h : Timed x.task) {ev : Event} {task : Option DelayedTask}
    (hfound : x.found ev = some task) : Timed task := by
  rcases found_cases hfound with ⟨-, rfl⟩ | ⟨-, -, rfl⟩
  · exact h
  · exact timed_map DelayedTask.hasTimer_executed h

theorem timed_next {x : TimedServer} (h : Timed x.task) (act : TimedAct) : Timed (x.next act).task := by
  rcases next_cases x act with ⟨a, rfl⟩ | ⟨env, ev, rfl, hsame, -⟩ | ⟨env, ev, task, rfl, hx, hfound⟩
  · exact timed_map (fun t => DelayedTask.hasTimer_tick t a) h
  · rw [hsame]
    exact h
  · rw [next_event env hx hfound]
    exact timed_after (timed_found h hfound) _

/-- Only the committing thread ends the catching up, and only a later term an office. -/
theorem watching_next (hx : s.exited = false) (h : (s.next env ev).Watching) :
    (ev ≠ .bgIter → s.catchingUp = false) ∧
      (ev.raises s = false → s.role ≠ .leader ∧ (s.effects env ev).any Effect.takesOffice = false) := by
  have hleaves := handle_leavesOffice env ev s
  obtain ⟨hrole, hcatching, -⟩ := next_of_running env ev hx
  have hstill : (handle env ev s).state.catchingUp ≠ true := by
    rw [← hcatching, h.settled]
    decide
  refine ⟨fun hne => ?_, fun hraises => ?_⟩
  · by_contra hc
    exact hstill (hleaves.catching hne (Bool.not_eq_false _ ▸ hc))
  · have hout : ¬ (s.role = .leader ∨ ∃ e ∈ (handle env ev s).out, e.takesOffice = true) := by
      intro hwas
      rcases hleaves.role hraises hwas with hleads | ⟨hc, -⟩
      · exact h.role (hrole.trans hleads)
      · exact hstill hc
    refine ⟨fun hleads => hout (.inl hleads), ?_⟩
    rw [effects_of_running hx, List.any_eq_false]
    intro e he htakes
    exact hout (.inr ⟨e, he, htakes⟩)

/-- **A step**: a server that watches goes on to, but for the two ways. -/
theorem next_watches {x : TimedServer} (htimed : Timed x.task) (hw : x.Watches) (act : TimedAct) :
    (x.next act).Watches ↔ x.KeepsWatch act := by
  rcases next_cases x act with ⟨a, rfl⟩ | ⟨env, ev, rfl, hsame, hidle⟩ | ⟨env, ev, task, rfl, hx, hfound⟩
  · refine iff_of_true ?_ trivial
    intro hwatching
    obtain ⟨t, ht, hwill⟩ := hw hwatching
    refine ⟨t.tick a, ?_, hwill.tick a⟩
    simp [next, ht]
  · rw [hsame]
    refine iff_of_true hw ?_
    intro _ hwatching task hfound
    rcases hidle with hx | hnone
    · have hdead : (x.server.next env ev).exited = true := by rw [Server.next, if_pos hx, hx]
      rw [hwatching.runs] at hdead
      cases hdead
    · rw [hnone] at hfound
      cases hfound
  · have hnext := next_event env hx hfound
    have hcalling := electionCalls_calling x.server env ev
    generalize x.server.electionCalls env ev = calls at hcalling hnext
    cases hcalling with
    | stops hraises htakes =>
      have hnot : ¬ (x.server.next env ev).Watching := by
        intro h
        rw [((watching_next hx h).2 hraises).2] at htakes
        cases htakes
      refine iff_of_true ?_ ?_
      · rw [hnext]
        exact fun h => absurd h hnot
      · exact fun _ h => absurd h hnot
    | restarts calls h hok hbg =>
      refine iff_of_true ?_ ?_
      · rw [hnext]
        intro hwatching
        rw [(watching_next hx hwatching).1 hbg]
        exact willRun_restart (timed_found htimed hfound) calls
      · rintro (⟨hev, hthrow⟩ | ⟨hev, -⟩)
        · rw [hok hev] at hthrow
          cases hthrow
        · exact absurd hev hbg
    | leaves hraises htakes hto =>
      rw [hnext]
      constructor
      · intro h _ hwatching task' hfound'
        cases hfound.symm.trans hfound'
        exact h hwatching
      · intro h hwatching
        by_cases hway : ev = .electionTimeout ∧ (handle env ev x.server).res = .error .throw ∨
            ev = .bgIter ∧ x.server.catchingUp = true
        · exact h hway hwatching task hfound
        · have hwas : x.server.Watching := by
            refine ⟨hx, ((watching_next hx hwatching).2 hraises).1, ?_⟩
            by_cases hbg : ev = .bgIter
            · exact Bool.eq_false_iff.mpr fun hc => hway (.inr ⟨hbg, hc⟩)
            · exact (watching_next hx hwatching).1 hbg
          rcases found_cases hfound with ⟨-, rfl⟩ | ⟨hev, -⟩
          · exact hw hwas
          · -- any other error has ended the process
            exfalso
            obtain ⟨e, herr⟩ := hto hev
            cases throws_of_runs hx hwatching.runs herr
            exact hway (.inl ⟨hev, herr⟩)

/-- **Every server stands for election when it should**, in every run, exactly if it goes on
watching in the two ways that could end it. -/
theorem watches_iff (id : Int) (params : RaftParams) (state : Option SrvState) (logStore : LogStore)
    (config : ClusterConfig) (acts : List TimedAct) :
    Throughout next Watches (start id params state logStore config) acts ↔
      Along next KeepsWatch (start id params state logStore config) acts := by
  refine (along_iff_throughout (J := fun x => Timed x.task) ?_ ?_ ?_ ?_).symm
  · intro x act htimed
    exact timed_next htimed act
  · intro x act htimed hw
    exact next_watches htimed hw act
  · exact timed_after timed_none _
  · intro _
    exact willRun_restart timed_none []

/-- Server 2 joins a cluster, times out on the way, and finds itself in the configuration. -/
def lateToWatch : List TimedAct :=
  [.event {} (.request {
    term := 1, type := .joinClusterRequest, src := 1, dst := 2
    lastLogTerm := 0, lastLogIdx := 3, commitIdx := 3
    logEntries := [⟨1, ClusterConfig.serialize { servers := [⟨1, [49]⟩] }, .conf⟩] })] ++
  timesOut ++ [.event {} .electionTimeout] ++
  [.event {} (.request {
    term := 1, type := .appendEntriesRequest, src := 1, dst := 2
    lastLogTerm := 0, lastLogIdx := 0, commitIdx := 1
    logEntries := [⟨1, ClusterConfig.serialize { logIdx := 1, servers := [⟨1, [49]⟩, ⟨2, [50]⟩] }, .conf⟩] }),
  .event {} .bgWake, .event {} .bgIter]

-- it waits for no timeout, and none will come
example : ((run next (start 2 {} none {} {}) lateToWatch).server.catchingUp,
    (run next (start 2 {} none {} {}) lateToWatch).task) = (false, some { hasTimer := true }) := by decide +kernel

end TimedServer
end Cornerstone
