import Cornerstone.Background

/-! # A server taking step after step

What can happen to a server, and what it does then.  Which requests and
responses arrive is left open: a claim about the server is a claim about every
list of events, and one about a cluster says where the messages come from.
-/

namespace Cornerstone
open Handlers Handler Server

/-- The start of `process_req`: a request of the core algorithm brings its term,
and shows that the leader which told this server to leave is still there. -/
def noteTerm (req : ReqMsg) : Action Unit :=
  if req.type = .appendEntriesRequest ∨ req.type = .requestVoteRequest ∨
      req.type = .installSnapshotRequest then do
    let _ ← updateTerm req.term
    change fun s => if s.stepsToDown > 0 then { s with stepsToDown := 2 } else s
  else
    pure ()

/-- The handler of a request. -/
def answerReq (env : Env) (req : ReqMsg) : Action RespMsg :=
  match req.type with
  | .appendEntriesRequest => handleAppendEntries env req
  | .requestVoteRequest => handleVoteReq req
  | .clientRequest => handleCliReq env req
  | _ => handleExtendedMsg env req

/-- `process_req`. -/
def processReq (env : Env) (req : ReqMsg) : Action Unit := do
  noteTerm req
  let resp ← answerReq env req
  reply resp

/-- What can happen to a server.  `peerResp` and `peerErr` are the two ways a
request sent to a peer can end, `extResp` and `extErr` those of an extended
request, which after an error may be sent again.  `via` is the peer object the
request went through, `none` when the server no longer holds it. -/
inductive Event
  | request (req : ReqMsg)
  | peerResp (via : Option PeerRef) (reqType : MsgType) (resp : RespMsg)
  | peerErr (via : Option PeerRef) (reqType : MsgType)
  | extResp (via : Option PeerRef) (reqType : MsgType) (resp : RespMsg)
  | extErr (via : Option PeerRef) (req : ReqMsg)
  | extRetry (req : ReqMsg)
  | electionTimeout
  | hbTimeout (pid : Int)
  | bgWake
  | bgIter
  | snapshotCompleted (result : Bool)
deriving DecidableEq, Repr

/-- The handler of an event. -/
def handle (env : Env) : Event → Action Unit
  | .request req => processReq env req
  | .peerResp via reqType resp => do
    rpcResult via reqType false
    handlePeerResp env resp
  | .peerErr via reqType => rpcResult via reqType true
  | .extResp via reqType resp => do
    rpcResult via reqType false
    handleExtResp env resp
  | .extErr via req => do
    rpcResult via req.type true
    handleExtRespErr env req
  | .extRetry req => sendExtReq req
  | .electionTimeout => handleElectionTimeout env
  | .hbTimeout pid => handleHbTimeout env pid
  | .bgWake => bgWake
  | .bgIter => bgIter env
  | .snapshotCompleted result => onSnapshotCompleted env result

/-- Whether a handler that ended so has ended the process.  An exception that
leaves a handler is taken by the service that called it. -/
def Stop.ends : Stop → Bool
  | .throw => false
  | _ => true

namespace Server

/-- The effects of an event on a server: none once the process has ended. -/
def effects (env : Env) (ev : Event) (s : Server) : List Effect :=
  if s.exited then [] else (handle env ev s).out

/-- The server after an event. -/
def next (env : Env) (ev : Event) (s : Server) : Server :=
  if s.exited then s
  else
    match (handle env ev s).res with
    | .ok _ => (handle env ev s).state
    | .error e => if e.ends then { (handle env ev s).state with exited := true }
        else (handle env ev s).state

/-- The server after a run. -/
def runFrom (s : Server) : List (Env × Event) → Server
  | [] => s
  | (env, ev) :: run => (s.next env ev).runFrom run

/-- The effects of a run, in order. -/
def trace (s : Server) : List (Env × Event) → List Effect
  | [] => []
  | (env, ev) :: run => s.effects env ev ++ (s.next env ev).trace run

/-- Every step of a run meets `P`. -/
def Along (P : Server → Env → Event → Prop) (s : Server) : List (Env × Event) → Prop
  | [] => True
  | (env, ev) :: run => P s env ev ∧ (s.next env ev).Along P run

variable {P Q : Server → Env → Event → Prop} {I : Server → Prop}

/-- An invariant that the steps of a run preserve holds where the run ends. -/
theorem Along.invariant (hstep : ∀ s env ev, I s → P s env ev → I (s.next env ev)) :
    ∀ {run : List (Env × Event)} {s : Server}, I s → s.Along P run → I (s.runFrom run)
  | [], _, hI, _ => hI
  | (env, ev) :: _, s, hI, ⟨hP, hrun⟩ =>
    invariant hstep (s := s.next env ev) (hstep s env ev hI hP) hrun

theorem Along.mono (h : ∀ s env ev, P s env ev → Q s env ev) :
    ∀ {run : List (Env × Event)} {s : Server}, s.Along P run → s.Along Q run
  | [], _, _ => trivial
  | (_, _) :: _, _, ⟨hP, hrun⟩ => ⟨h _ _ _ hP, mono h hrun⟩

/-- What every step satisfies, all steps of a run satisfy. -/
theorem along_of_forall (h : ∀ s env ev, P s env ev) :
    ∀ (run : List (Env × Event)) (s : Server), s.Along P run
  | [], _ => trivial
  | (env, ev) :: run, s => ⟨h s env ev, along_of_forall h run (s.next env ev)⟩

theorem Along.iff (h : ∀ s env ev, P s env ev ↔ Q s env ev) :
    ∀ (run : List (Env × Event)) (s : Server), s.Along P run ↔ s.Along Q run
  | [], _ => Iff.rfl
  | (env, ev) :: run, s => and_congr (h s env ev) (Along.iff h run (s.next env ev))

end Server

theorem Server.next_cases (env : Env) (ev : Event) (s : Server) :
    s.exited = true ∧ s.next env ev = s ∨
      ∃ x, s.next env ev = { (handle env ev s).state with exited := x } := by
  unfold Server.next
  split
  · exact .inl ⟨‹_›, rfl⟩
  · refine .inr ?_
    split
    · exact ⟨_, rfl⟩
    · split
      · exact ⟨true, rfl⟩
      · exact ⟨_, rfl⟩

theorem Server.effects_cases (env : Env) (ev : Event) (s : Server) :
    s.exited = true ∧ s.effects env ev = [] ∨
      s.exited = false ∧ s.effects env ev = (handle env ev s).out := by
  unfold Server.effects
  split
  · exact .inl ⟨‹_›, rfl⟩
  · exact .inr ⟨Bool.eq_false_iff.mpr ‹_›, rfl⟩

/-- A step ends the process, or leaves the state of the handler. -/
theorem Server.next_exits (env : Env) (ev : Event) (s : Server) :
    (s.next env ev).exited = true ∨ s.next env ev = (handle env ev s).state := by
  unfold Server.next
  split
  · exact .inl ‹_›
  · split
    · exact .inr rfl
    · split
      · exact .inl rfl
      · exact .inr rfl

/-- A live server takes the state its handler left, but for having ended. -/
theorem Server.next_of_live (env : Env) (ev : Event) {s : Server} (h : s.exited = false) :
    ∃ x, s.next env ev = { (handle env ev s).state with exited := x } := by
  rcases Server.next_cases env ev s with ⟨h', -⟩ | hx
  · rw [h] at h'
    cases h'
  · exact hx

/-- A live server whose handler returns. -/
theorem Server.next_of_ok {s : Server} {env : Env} {ev : Event} (hx : s.exited = false)
    (h : (handle env ev s).res = .ok ()) : s.next env ev = (handle env ev s).state := by
  unfold Server.next
  rw [hx, if_neg Bool.false_ne_true, h]

/-- A request that is noted and answered without an early end. -/
theorem processReq_run {env : Env} {req : ReqMsg} {resp : RespMsg} {s n t : Server}
    {o o' : List Effect} (hnote : noteTerm req s = ⟨.ok (), n, o⟩)
    (ha : answerReq env req n = ⟨.ok resp, t, o'⟩) :
    processReq env req s = ⟨.ok (), t, o ++ (o' ++ [.reply resp t.state])⟩ := by
  simp only [processReq, bind_run, hnote, ha, reply, look_run, emit_run, Outcome.andThen_ok,
    List.nil_append]

end Cornerstone
