import Cornerstone.Requests

/-! # Standing for election and taking office

What `request_vote` and `become_leader` make of a server before they go on to
their requests, and what the requests for votes say.
-/

namespace Cornerstone
open Handlers Handler Server

/-- The server as `become_leader` sets it up. -/
def Server.leading (s : Server) : Server :=
  { s with
    role := .leader
    leader := s.id
    srvToJoin := none
    peers := s.peers.map fun p =>
      (({ p with
          nextLogIdx := s.logStore.nextSlot
          snpSyncCtx := none
          busy := false } : Peer).enableHb true).resumeHbSpeed s.params }

/-- The configuration entry of a leader that finds none in its log. -/
def Server.firstConfigEntry (s : Server) : LogEntry :=
  ⟨s.state.term, (s.config.setLogIdx s.logStore.nextSlot).serialize, .conf⟩

/-- The server with that entry appended. -/
def Server.firstConfig (s : Server) : Server :=
  { s with
    config := s.config.setLogIdx s.logStore.nextSlot
    logStore := s.logStore.append s.firstConfigEntry
    configChanging := true }

/-- The server in office, before it sends its first requests. -/
def Server.elected (s : Server) : Server :=
  if s.config.logIdx = 0 then s.leading.firstConfig else s.leading

/-- What is seen of a server taking office. -/
def Server.electedEffects (s : Server) : List Effect :=
  .becomeLeader s.state.term s.votesGranted ::
    if s.config.logIdx = 0 then
      [.originate .leader s.state.term s.logStore.nextSlot s.firstConfigEntry]
    else []

variable {s : Server}

/-- **`become_leader`** takes office and then makes requests. -/
theorem becomeLeader_run (env : Env) (s : Server) :
    becomeLeader env s =
      ⟨(requestAppendEntries env s.elected).res, (requestAppendEntries env s.elected).state,
        s.electedEffects ++ (requestAppendEntries env s.elected).out⟩ := by
  by_cases hz : s.config.logIdx = 0
  · simp only [becomeLeader, originate, bind_run, look_run, emit_run, change_run, ite_run,
      Outcome.andThen_ok, List.nil_append, List.singleton_append, elected, electedEffects, hz, if_true]
    rfl
  · simp only [becomeLeader, bind_run, look_run, emit_run, change_run, ite_run,
      Outcome.andThen_ok, List.nil_append, List.singleton_append, elected, electedEffects, hz,
      if_false]
    rfl

/-- A request for the vote of another server. -/
structure VoteRequest (s : Server) (req : ReqMsg) : Prop where
  term : req.term = s.state.term
  src : req.src = s.id
  type : req.type = .requestVoteRequest
  lastLogIdx : req.lastLogIdx = s.logStore.nextSlot - 1
  lastLogTerm : s.logStore.startIdx = 1 →
    req.lastLogTerm = termAtEnd s.logStore.entries (s.logStore.nextSlot - 1)

/-- The law of asking for votes. -/
structure Canvasses (s : Server) (o : List Effect) (t : Server) : Prop where
  rest : t = { s with exited := t.exited }
  exits : s.exited = true → t.exited = true
  out : ∀ e ∈ o, (∃ req, e = .send req s.state ∧ VoteRequest s req) ∨ ∃ code, e = .systemExit code

theorem canvasses_law : Law Canvasses where
  refl s := ⟨rfl, id, by simp⟩
  trans := by
    intro s t u o o' h h'
    refine ⟨?_, fun hx => h'.exits (h.exits hx), fun e he => ?_⟩
    · have hu := h'.rest
      rw [h.rest] at hu
      exact hu
    · rcases List.mem_append.mp he with he | he
      · exact h.out e he
      · rcases h'.out e he with ⟨req, rfl, hreq⟩ | hexit
        · rw [h.rest] at hreq ⊢
          exact .inl ⟨req, rfl, hreq.1, hreq.2, hreq.3, hreq.4, hreq.5⟩
        · exact .inr hexit

theorem canvasses_exits : Exits Canvasses := fun _ _ => ⟨rfl, fun _ => rfl, by simp⟩

/-- The loop of `request_vote`. -/
theorem canvasses_requestVotes (env : Env) (pids : List Int) :
    Obeys Canvasses s (requestVotes env pids) := by
  refine .forEach canvasses_law (fun _ => True) trivial fun pid _ s _ => ⟨.look_bind ?_, trivial⟩
  refine .bind canvasses_law (reads_termForLog canvasses_law canvasses_exits env _) fun t ht => ?_
  have hc : Canvasses s _ (termForLog env (s.logStore.nextSlot - 1) s).state :=
    reads_termForLog canvasses_law canvasses_exits env _
  refine ⟨rfl, id, fun e he => ?_⟩
  obtain rfl : e = _ := List.mem_singleton.mp he
  have hst : (termForLog env (s.logStore.nextSlot - 1) s).state.state = s.state := by rw [hc.rest]
  have hid : (termForLog env (s.logStore.nextSlot - 1) s).state.id = s.id := by rw [hc.rest]
  have hlog : (termForLog env (s.logStore.nextSlot - 1) s).state.logStore = s.logStore := by
    rw [hc.rest]
  refine .inl ⟨_, by rw [hst], ?_, ?_, rfl, ?_, ?_⟩
  · rw [hst]
  · rw [hid]
  · rw [hlog]
  · rw [hlog]
    exact fun h1 => termForLog_eq h1 t ht

/-- The server as a candidate that has voted for itself. -/
def Server.campaign (s : Server) : Server :=
  { s with
    state := { s.state.incTerm with votedFor := s.id }
    role := .candidate
    votesGranted := 1
    votesResponded := 1
    electionCompleted := false }

/-- A candidate without peers has won. -/
def Server.wonAlone (s : Server) : Server := { s.campaign with electionCompleted := true }

/-- What is seen of a server standing for election. -/
def Server.campaignEffects (s : Server) : List Effect :=
  [.saveState { s.state.incTerm with votedFor := -1 }, .saveState s.campaign.state]

/-- A server that may stand for election. -/
structure Server.Standing (s : Server) : Prop where
  stepsToDown : ¬ s.stepsToDown > 0
  catchingUp : s.catchingUp = false
  role : s.role ≠ .leader

/-- **Standing for election**: a new term, the server's own vote, and then office
at once or requests for votes. -/
theorem handleElectionTimeout_run (env : Env) (h : s.Standing) :
    handleElectionTimeout env s =
      if s.peers.length = 0 then
        ⟨(becomeLeader env s.wonAlone).res, (becomeLeader env s.wonAlone).state,
          s.campaignEffects ++ (becomeLeader env s.wonAlone).out⟩
      else
        ⟨(requestVotes env s.peerIds s.campaign).res, (requestVotes env s.peerIds s.campaign).state,
          s.campaignEffects ++ (requestVotes env s.peerIds s.campaign).out⟩ := by
  have hlone : 0 + 1 > (s.peers.length + 1) / 2 ↔ s.peers.length = 0 := by omega
  have hcatch : ¬ s.catchingUp = true := by
    rw [h.catchingUp]
    exact Bool.false_ne_true
  simp only [handleElectionTimeout, requestVote, saveState, bind_run, look_run, emit_run, change_run,
    ite_run, Outcome.andThen_ok, List.nil_append, if_neg h.stepsToDown, if_neg hcatch,
    if_neg h.role, hlone]
  split
  · rfl
  · rfl

/-- The server once a response to its request for a vote is counted. -/
def Server.counted (s : Server) (accepted : Bool) : Server :=
  (Server.addVote { s with votesResponded := s.votesResponded + 1 } accepted).closeElection

/-- Counting touches the three fields of the election only. -/
theorem counted_rest (accepted : Bool) :
    s.counted accepted = { s with
      votesResponded := s.votesResponded + 1
      votesGranted := if accepted then s.votesGranted + 1 else s.votesGranted
      electionCompleted := (s.counted accepted).electionCompleted } := by
  have hclose : ∀ t : Server, t.closeElection =
      { t with electionCompleted := t.closeElection.electionCompleted } := by
    intro t
    by_cases h : t.votesResponded ≥ t.peers.length + 1
    · simp only [Server.closeElection, if_pos h]
    · simp only [Server.closeElection, if_neg h]
  rw [Server.counted, hclose]
  cases accepted <;> rfl

/-- **Counting a vote**: in an election under way the response counts, and a
majority brings the server into office. -/
theorem handleVotingResp_run (env : Env) (resp : RespMsg) (h : s.electionCompleted = false) :
    handleVotingResp env resp s =
      if (s.counted resp.accepted).votesGranted > ((s.counted resp.accepted).peers.length + 1) / 2 then
        becomeLeader env { s.counted resp.accepted with electionCompleted := true }
      else ⟨.ok (), s.counted resp.accepted, []⟩ := by
  have hgoing : ¬ s.electionCompleted = true := by
    rw [h]
    exact Bool.false_ne_true
  simp only [handleVotingResp, bind_run, look_run, change_run, ite_run, pure_run,
    Outcome.andThen_ok, List.nil_append, if_neg hgoing]
  by_cases hwin : (s.counted resp.accepted).votesGranted >
      ((s.counted resp.accepted).peers.length + 1) / 2
  · rw [if_pos hwin]
    exact if_pos hwin
  · rw [if_neg hwin]
    exact if_neg hwin

theorem handleVotingResp_done (env : Env) (resp : RespMsg) (h : s.electionCompleted = true) :
    handleVotingResp env resp s =
      ⟨.ok (), { s with votesResponded := s.votesResponded + 1 }, []⟩ := by
  simp only [handleVotingResp, bind_run, look_run, change_run, ite_run, pure_run,
    Outcome.andThen_ok, List.nil_append, if_pos h]

/-- The answer of `handle_vote_req`. -/
def Server.voteResp (s : Server) (req : ReqMsg) : RespMsg :=
  { term := s.state.term, type := .requestVoteResponse, src := s.id, dst := req.src }

/-- The server with its vote given. -/
def Server.votingFor (s : Server) (candidate : Int) : Server :=
  { s with state := { s.state with votedFor := candidate } }

theorem handleVoteReq_run (req : ReqMsg) :
    handleVoteReq req s =
      if s.grants req = true then
        ⟨.ok ((s.voteResp req).accept s.logStore.nextSlot), s.votingFor req.src,
          [.saveState (s.votingFor req.src).state]⟩
      else ⟨.ok (s.voteResp req), s, []⟩ := by
  simp only [handleVoteReq, saveState, bind_run, look_run, change_run, emit_run, ite_run, pure_run,
    Outcome.andThen_ok, List.nil_append, List.append_nil]
  split <;> rfl

end Cornerstone
