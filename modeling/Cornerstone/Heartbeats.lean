import Cornerstone.OfficeMoves
import Cornerstone.DelayedTask
import Cornerstone.StepRun

/-! # Heartbeats

A server with the `hb_task_` of each of its peers.  A server that takes office schedules them
all, one that becomes a follower cancels them, and `handle_hb_timeout` schedules the task that
has called it once more.  A peer that is added comes with a task of its own.

Of the election timer nothing is assumed: election timeouts may come at any time here.
-/

namespace Cornerstone
open Handlers Handler Server StepRun

/-! ## What a server does to its heartbeats -/

/-- `enable_hb_for_peer` and `peer::enable_hb(false)`, on all peers. -/
inductive HbCall
  | enable
  | disable
deriving DecidableEq, Repr

def HbCall.apply (t : DelayedTask) : HbCall → DelayedTask
  | .enable => t.schedule
  | .disable => t.cancel

namespace Server

/-- What a server does to the heartbeats of all its peers on an event, in `become_follower` and
`become_leader`. -/
def hbCalls (env : Env) (s : Server) (ev : Event) : List HbCall :=
  match ev with
  | .request req =>
    -- `update_term`, then a candidate that hears of a leader
    let u := (noteTerm req s).state
    (if ev.raises s then [.disable] else []) ++
      if u.hearsLeader req ∧ u.role = .candidate then [.disable] else []
  | _ =>
    if ev.raises s then [.disable]
    else if (s.effects env ev).any Effect.takesOffice then [.enable] else []

/-- Whether heartbeats are enabled for a peer. -/
def beatsTo (s : Server) (pid : Int) : Bool := s.peers.any fun p => decide (p.id = pid) && p.hbEnabled

/-- Whether `handle_hb_timeout` schedules the task of a peer once more. -/
def rearms (env : Env) (s : Server) (ev : Event) (pid : Int) : Bool :=
  ev = .hbTimeout pid ∧ (handle env ev s).res = .ok () ∧ s.role = .leader ∧ (s.next env ev).beatsTo pid

/-- The task of a peer after an event: that of the peer object before, or that of a new one,
which `reconfigure` enables in office. -/
def hbAfter (env : Env) (s : Server) (ev : Event) (pid : Int) (t : DelayedTask) : DelayedTask :=
  if pid ∈ s.peerIds then
    let t := (s.hbCalls env ev).foldl HbCall.apply t
    if s.rearms env ev pid then t.schedule else t
  else if (s.next env ev).beatsTo pid then ({} : DelayedTask).schedule
  else {}

end Server

/-! ## A server with its heartbeats -/

/-- A server and the heartbeat task of each of its peers. -/
structure HbServer where
  server : Server
  hb : Int → DelayedTask

/-- An event of the server, or what the service does with the task of a peer. -/
inductive HbAct
  | event (env : Env) (ev : Event)
  | timer (pid : Int) (act : TimerAct)

namespace HbServer

/-- The tasks as an event finds them; a heartbeat timeout comes with a call of its task only. -/
def found (x : HbServer) : Event → Option (Int → DelayedTask)
  | .hbTimeout pid =>
    if pid ∉ x.server.peerIds ∨ (x.hb pid).executing = 0 then none
    else some (Function.update x.hb pid (x.hb pid).executed)
  | _ => some x.hb

/-- What an act makes of the server; a timeout that nobody has called for does nothing. -/
def next (x : HbServer) : HbAct → HbServer
  | .event env ev =>
    if x.server.exited then x
    else
      match x.found ev with
      | none => x
      | some hb =>
        { server := x.server.next env ev
          hb := fun pid => x.server.hbAfter env ev pid (hb pid) }
  | .timer pid act => { x with hb := Function.update x.hb pid ((x.hb pid).tick act) }

/-- The constructor of `raft_server`; no heartbeat is scheduled yet. -/
def start (id : Int) (params : RaftParams) (state : Option SrvState) (logStore : LogStore)
    (config : ClusterConfig) : HbServer where
  server := Server.start id params state logStore config
  hb _ := {}

/-- **The heartbeats of a leader go on**: for each of its peers a call of `handle_hb_timeout`
is on its way, or the timer runs that will bring one. -/
def GoesOn (x : HbServer) : Prop := x.server.Leads → ∀ pid ∈ x.server.peerIds, (x.hb pid).Live

/-- What could leave a leader without a heartbeat: a task that was cancelled before it was first
scheduled, and an exception in `handle_hb_timeout`. -/
def KeepsBeat (x : HbServer) : HbAct → Prop
  | .event env ev =>
    (x.server.next env ev).Leads → ∀ pid ∈ x.server.peerIds, pid ∈ (x.server.next env ev).peerIds →
      ((x.server.effects env ev).any Effect.takesOffice = true →
        (x.hb pid).hasTimer = true ∨ (x.hb pid).cancelled = false) ∧
      (ev = .hbTimeout pid → (handle env ev x.server).res = .error .throw → ∀ hb, x.found ev = some hb → (hb pid).Live)
  | .timer _ _ => True

/-! ## The tasks -/

/-- What holds of the tasks and of the peers anyway. -/
structure Steady (x : HbServer) : Prop where
  sound : ∀ pid, (x.hb pid).Sound
  beats : x.server.Leads → x.server.AllBeat

variable {s : Server} {env : Env} {ev : Event} {t : DelayedTask}

theorem sound_apply (h : t.Sound) (call : HbCall) : (call.apply t).Sound := by
  cases call with
  | enable => exact DelayedTask.Sound.schedule t
  | disable => exact h.cancel

theorem sound_foldl (h : t.Sound) (calls : List HbCall) : (calls.foldl HbCall.apply t).Sound := by
  induction calls generalizing t with
  | nil => exact h
  | cons call calls ih => exact ih (sound_apply h call)

theorem sound_hbAfter (h : t.Sound) (pid : Int) : (s.hbAfter env ev pid t).Sound := by
  have hfresh : ({} : DelayedTask).Sound := fun _ => ⟨rfl, rfl, rfl⟩
  unfold Server.hbAfter
  split
  · dsimp only
    split
    · exact DelayedTask.Sound.schedule _
    · exact sound_foldl h _
  · split
    · exact DelayedTask.Sound.schedule _
    · exact hfresh

/-- In office heartbeats are enabled for every peer. -/
theorem beatsTo_of_allBeat (h : s.AllBeat) {pid : Int} (hmem : pid ∈ s.peerIds) : s.beatsTo pid = true := by
  obtain ⟨p, hp, rfl⟩ := List.mem_map.mp hmem
  exact List.any_eq_true.mpr ⟨p, hp, by simp [h p hp]⟩

/-- **Whoever comes into office** enables the heartbeats, and whoever stays there leaves them
alone. -/
theorem hbCalls_of_leads (hx : s.exited = false) (hleads : (s.next env ev).Leads) :
    (s.effects env ev).any Effect.takesOffice = true ∧ s.hbCalls env ev = [.enable] ∨
      (s.effects env ev).any Effect.takesOffice = false ∧ s.role = .leader ∧ s.hbCalls env ev = [] := by
  have hraises : ev.raises s = false := by
    by_contra h
    exact not_leads_of_raises hx (Bool.not_eq_false _ ▸ h) hleads
  cases htakes : (s.effects env ev).any Effect.takesOffice with
  | true =>
    left
    refine ⟨rfl, ?_⟩
    cases ev with
    | request req => cases elects_of_takes htakes
    | _ => simp only [Server.hbCalls, hraises, htakes, Bool.false_eq_true, if_false, if_true]
  | false =>
    right
    have hrole : s.role = .leader := by
      rcases comesToLead_next hx hleads with ⟨h, -⟩ | ⟨h, -⟩
      · rw [htakes] at h
        cases h
      · exact h
    refine ⟨rfl, hrole, ?_⟩
    cases ev with
    | request req =>
      have hnot : (noteTerm req s).state.role ≠ .candidate := by
        rw [role_noteTerm hraises, hrole]
        decide
      simp only [Server.hbCalls, hraises, Bool.false_eq_true, if_false, List.nil_append]
      rw [if_neg fun h => hnot h.2]
    | _ => simp only [Server.hbCalls, hraises, htakes, Bool.false_eq_true, if_false]

/-! ## Steps -/

variable {x : HbServer}

/-- An event that does something. -/
theorem next_event (hx : x.server.exited = false) {hb : Int → DelayedTask} (hfound : x.found ev = some hb) :
    x.next (.event env ev) =
      { server := x.server.next env ev, hb := fun pid => x.server.hbAfter env ev pid (hb pid) } := by
  simp only [next, hx, hfound]
  rfl

/-- Only a heartbeat timeout comes with a call of its task, which has a timer then. -/
theorem found_cases {hb : Int → DelayedTask} (h : x.found ev = some hb) :
    (∀ pid, ev ≠ .hbTimeout pid) ∧ hb = x.hb ∨
      ∃ pid, ev = .hbTimeout pid ∧ (x.hb pid).executing ≠ 0 ∧
        hb = Function.update x.hb pid (x.hb pid).executed := by
  cases ev with
  | hbTimeout pid =>
    simp only [found] at h
    split at h
    · cases h
    · rename_i hcalled
      exact .inr ⟨pid, rfl, fun hzero => hcalled (.inr hzero), (Option.some.inj h).symm⟩
  | _ => exact .inl ⟨nofun, (Option.some.inj h).symm⟩

/-- An act is one of the timers, an event that nothing comes of, or one with what it finds. -/
theorem next_cases (x : HbServer) (act : HbAct) :
    (∃ pid a, act = .timer pid a) ∨
      (∃ env ev, act = .event env ev ∧ x.next act = x ∧
        (x.server.exited = true ∨ x.found ev = none ∧ ∃ pid, ev = .hbTimeout pid)) ∨
      ∃ env ev hb, act = .event env ev ∧ x.server.exited = false ∧ x.found ev = some hb := by
  cases act with
  | timer pid a => exact .inl ⟨pid, a, rfl⟩
  | event env ev =>
    right
    cases hx : x.server.exited with
    | true =>
      refine .inl ⟨env, ev, rfl, ?_, .inl rfl⟩
      simp only [next, hx]
      rfl
    | false =>
      cases hfound : x.found ev with
      | none =>
        refine .inl ⟨env, ev, rfl, ?_, .inr ⟨hfound, ?_⟩⟩
        · simp only [next, hx, hfound]
          rfl
        · cases ev with
          | hbTimeout pid => exact ⟨pid, rfl⟩
          | _ => cases hfound
      | some hb => exact .inr ⟨env, ev, hb, rfl, rfl, hfound⟩

theorem sound_found (h : ∀ pid, (x.hb pid).Sound) {hb : Int → DelayedTask} (hfound : x.found ev = some hb)
    (pid : Int) : (hb pid).Sound := by
  rcases found_cases hfound with ⟨-, rfl⟩ | ⟨q, -, -, rfl⟩
  · exact h pid
  · by_cases hq : pid = q
    · rw [hq, Function.update_self]
      exact (h q).executed
    · rw [Function.update_of_ne hq]
      exact h pid

theorem next_steady (h : x.Steady) (act : HbAct) : (x.next act).Steady := by
  rcases next_cases x act with ⟨pid, a, rfl⟩ | ⟨env, ev, rfl, hsame, -⟩ | ⟨env, ev, hb, rfl, hx, hfound⟩
  · refine ⟨fun q => ?_, h.beats⟩
    simp only [next]
    by_cases hq : q = pid
    · rw [hq, Function.update_self]
      exact (h.sound pid).tick a
    · rw [Function.update_of_ne hq]
      exact h.sound q
  · rw [hsame]
    exact h
  · rw [next_event hx hfound]
    refine ⟨fun pid => sound_hbAfter (sound_found h.sound hfound pid) pid, fun hleads => ?_⟩
    rcases comesToLead_next hx hleads with ⟨-, hall⟩ | ⟨hrole, hgoes⟩
    · exact hall
    · exact hgoes (h.beats ⟨hx, hrole⟩)

/-- The heartbeats of a server in office after an event. -/
theorem live_hbAfter (h : x.Steady) (hon : x.GoesOn) (hx : x.server.exited = false) {hb : Int → DelayedTask}
    (hfound : x.found ev = some hb) (hleads : (x.server.next env ev).Leads) {pid : Int}
    (hmem : pid ∈ (x.server.next env ev).peerIds) :
    (x.server.hbAfter env ev pid (hb pid)).Live ↔
      (pid ∈ x.server.peerIds →
        ((x.server.effects env ev).any Effect.takesOffice = true →
          (x.hb pid).hasTimer = true ∨ (x.hb pid).cancelled = false) ∧
        (ev = .hbTimeout pid → (handle env ev x.server).res = .error .throw → (hb pid).Live)) := by
  have hbeats : (x.server.next env ev).beatsTo pid = true := by
    have hall := (next_steady (h := h) (.event env ev)).beats
    rw [next_event hx hfound] at hall
    exact beatsTo_of_allBeat (hall hleads) hmem
  by_cases hold : pid ∈ x.server.peerIds
  · rw [forall_prop_of_true hold, Server.hbAfter, if_pos hold]
    rcases hbCalls_of_leads hx hleads with ⟨htakes, hcalls⟩ | ⟨htakes, hrole, hcalls⟩
    · -- it takes office, so the event is no heartbeat timeout
      have hto : ∀ q, ev ≠ .hbTimeout q := by
        rintro q rfl
        cases elects_of_takes htakes
      have hnot : x.server.rearms env ev pid = false := decide_eq_false fun h => hto pid h.1
      have hfind : hb = x.hb := by
        rcases found_cases hfound with ⟨-, heq⟩ | ⟨q, hev, -⟩
        · exact heq
        · exact absurd hev (hto q)
      rw [hcalls, hnot, hfind, htakes]
      constructor
      · intro hlive
        exact ⟨fun _ => (DelayedTask.live_schedule_iff (h.sound pid)).mp hlive, fun hev => absurd hev (hto pid)⟩
      · intro hboth
        exact (DelayedTask.live_schedule_iff (h.sound pid)).mpr (hboth.1 rfl)
    · have hlive : (x.hb pid).Live := hon ⟨hx, hrole⟩ pid hold
      rw [hcalls, htakes]
      by_cases hev : ev = .hbTimeout pid
      · cases hres : (handle env ev x.server).res with
        | ok =>
          -- a call came from a timer, which is scheduled again
          have hrearms : x.server.rearms env ev pid = true := decide_eq_true ⟨hev, hres, hrole, hbeats⟩
          rw [hrearms]
          refine iff_of_true (DelayedTask.live_schedule ?_) ⟨nofun, fun _ herr => by cases herr⟩
          rcases found_cases hfound with ⟨hne, -⟩ | ⟨q, hq, hcalled, rfl⟩
          · exact absurd hev (hne pid)
          · cases hev.symm.trans hq
            rw [List.foldl_nil, Function.update_self, DelayedTask.hasTimer_executed]
            by_contra hno
            exact hcalled (h.sound pid (Bool.eq_false_iff.mpr hno)).2.2
        | error e =>
          have hnot : x.server.rearms env ev pid = false := decide_eq_false fun h => by
            rw [hres] at h
            cases h.2.1
          have hthrow : e = .throw := throws_of_runs hx hleads.runs hres
          rw [hnot, hthrow]
          exact ⟨fun hl => ⟨nofun, fun _ _ => hl⟩, fun hboth => hboth.2 hev rfl⟩
      · have hnot : x.server.rearms env ev pid = false := decide_eq_false fun h => hev h.1
        have hsame : hb pid = x.hb pid := by
          rcases found_cases hfound with ⟨-, rfl⟩ | ⟨q, rfl, -, rfl⟩
          · rfl
          · exact Function.update_of_ne (fun heq => hev (by rw [heq])) _ _
        rw [hnot, hsame]
        exact iff_of_true hlive ⟨nofun, fun h => absurd h hev⟩
  · -- the task of a new peer is scheduled with it
    rw [Server.hbAfter, if_neg hold, if_pos hbeats]
    exact iff_of_true (by decide) fun hmem => absurd hmem hold

/-- **A step**: the heartbeats of a leader go on, but for the two ways. -/
theorem next_goesOn (h : x.Steady) (hon : x.GoesOn) (act : HbAct) : (x.next act).GoesOn ↔ x.KeepsBeat act := by
  rcases next_cases x act with ⟨pid, a, rfl⟩ | ⟨env, ev, rfl, hsame, hidle⟩ | ⟨env, ev, hb, rfl, hx, hfound⟩
  · refine iff_of_true ?_ trivial
    intro hleads q hq
    simp only [next]
    by_cases heq : q = pid
    · rw [heq, Function.update_self]
      exact (hon hleads pid (heq ▸ hq)).tick a
    · rw [Function.update_of_ne heq]
      exact hon hleads q hq
  · rw [hsame]
    refine iff_of_true hon ?_
    intro hleads pid _ _
    rcases hidle with hx | ⟨hnone, q, rfl⟩
    · have hdead : (x.server.next env ev).exited = true := by rw [Server.next, if_pos hx, hx]
      rw [hleads.runs] at hdead
      cases hdead
    · refine ⟨fun htakes => ?_, fun _ _ hb hfound => ?_⟩
      · cases elects_of_takes htakes
      · rw [hnone] at hfound
        cases hfound
  · rw [next_event hx hfound]
    constructor
    · intro hgoes hleads pid hold hmem
      obtain ⟨hfirst, hthrow⟩ := (live_hbAfter h hon hx hfound hleads hmem).mp (hgoes hleads pid hmem) hold
      refine ⟨hfirst, fun hev hres hb' hfound' => ?_⟩
      cases hfound.symm.trans hfound'
      exact hthrow hev hres
    · intro hkeeps hleads pid hmem
      refine (live_hbAfter h hon hx hfound hleads hmem).mpr fun hold => ?_
      obtain ⟨hfirst, hthrow⟩ := hkeeps hleads pid hold hmem
      exact ⟨hfirst, fun hev hres => hthrow hev hres hb hfound⟩

/-- **The heartbeats of every leader go on**, in every run, exactly if no task was cancelled
before it was first scheduled when its server takes office, and no exception in
`handle_hb_timeout` comes as the last call. -/
theorem goesOn_iff (id : Int) (params : RaftParams) (state : Option SrvState) (logStore : LogStore)
    (config : ClusterConfig) (acts : List HbAct) :
    Throughout next GoesOn (start id params state logStore config) acts ↔
      Along next KeepsBeat (start id params state logStore config) acts := by
  refine (along_iff_throughout (J := Steady) ?_ ?_ ?_ ?_).symm
  · intro x act h
    exact next_steady h act
  · intro x act h hon
    exact next_goesOn h hon act
  · refine ⟨fun _ _ => ⟨rfl, rfl, rfl⟩, fun hleads => ?_⟩
    cases hleads.role
  · intro hleads
    cases hleads.role

/-- Server 2 of three hears of the term of another, and is elected in the next. -/
def electedLater : List HbAct :=
  [.event {} (.request {
    term := 1, type := .requestVoteRequest, src := 1, dst := 2
    lastLogTerm := 0, lastLogIdx := 0, commitIdx := 0 }),
  .event {} .electionTimeout,
  .event {} (.peerResp (some (.peer 3)) .requestVoteRequest ⟨2, .requestVoteResponse, 3, 2, 1, true⟩)]

-- it leads, its timer for server 3 runs, and the task is still cancelled
example : ((run next (start 2 {} none {} { servers := [⟨1, [49]⟩, ⟨2, [50]⟩, ⟨3, [51]⟩] }) electedLater).server.role,
    (run next (start 2 {} none {} { servers := [⟨1, [49]⟩, ⟨2, [50]⟩, ⟨3, [51]⟩] }) electedLater).hb 3) =
      (.leader, { cancelled := true, hasTimer := true, waiting := true }) := by decide +kernel

end HbServer
end Cornerstone
