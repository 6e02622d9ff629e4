import Cornerstone.AppendRun
import Cornerstone.CommitRule
import Cornerstone.VoteOnce

/-! # What an event does to an election

A server stands for election, counts a response to its request for votes, or does
something else.  Whatever else it does, it asks nobody for a vote, does not take
office, and loses the votes it has counted only with the term they are from.
-/

namespace Cornerstone
open Handlers Handler Server

/-- What an election is about in a server: who it is, whom it asks, and how many
votes it has counted in which term. -/
structure Poll where
  id : Int
  peerIds : List Int
  startIdx : Nat
  term : Nat
  votes : Nat

def Server.poll (s : Server) : Poll :=
  ⟨s.id, s.peerIds, s.logStore.startIdx, s.state.term, s.votesGranted⟩

/-- A poll at which nothing has happened but for a new term, with no votes yet. -/
def Poll.Ages (p p' : Poll) : Prop :=
  p' = p ∨ p.term < p'.term ∧ p' = { p with term := p'.term, votes := 0 }

/-- Effects that are no part of an election. -/
def Effect.offPoll : Effect → Bool
  | .send req _ => req.type = .appendEntriesRequest
  | .reply resp _ => !resp.grants
  | .becomeLeader _ _ => false
  | _ => true

/-- The law of keeping out of elections, for servers that were never compacted. -/
structure Bystands (s : Server) (o : List Effect) (t : Server) : Prop where
  ages : s.poll.Ages t.poll
  out : s.logStore.startIdx = 1 → ∀ e ∈ o, e.offPoll = true

variable {s t u : Server} {o : List Effect} {α : Type}

theorem Poll.Ages.trans {p q r : Poll} (h : p.Ages q) (h' : q.Ages r) : p.Ages r := by
  rcases h with rfl | ⟨hlt, hq⟩
  · exact h'
  · rcases h' with rfl | ⟨hlt', hr⟩
    · exact .inr ⟨hlt, hq⟩
    · refine .inr ⟨hlt.trans hlt', ?_⟩
      rw [hr, hq]

theorem Poll.Ages.startIdx_eq {p q : Poll} (h : p.Ages q) : q.startIdx = p.startIdx := by
  rcases h with rfl | ⟨-, hq⟩
  · rfl
  · rw [hq]

theorem bystands_law : Law Bystands where
  refl _ := ⟨.inl rfl, by simp⟩
  trans := by
    intro s t u o o' h h'
    refine ⟨h.ages.trans h'.ages, fun h1 e he => ?_⟩
    have hstart : t.logStore.startIdx = s.logStore.startIdx := h.ages.startIdx_eq
    rcases List.mem_append.mp he with he | he
    · exact h.out h1 e he
    · exact h'.out (hstart.trans h1) e he

/-- A change of fields that have nothing to do with an election. -/
theorem bystands_same (h : t.poll = s.poll) : Bystands s [] t := ⟨.inl h, by simp⟩

theorem bystands_emit {e : Effect} (h : e.offPoll = true) : Bystands s [e] s :=
  ⟨.inl rfl, fun _ => by simpa using h⟩

theorem bystands_exits : Exits Bystands := fun _ _ => ⟨.inl rfl, by simp [Effect.offPoll]⟩

/-! ## Requests of a leader -/

theorem Quiet.bystands (h : Quiet s o t) : Bystands s o t := by
  refine ⟨.inl ?_, fun h1 e he => ?_⟩
  · rw [Server.poll, Server.poll, h.id_eq, h.peerIds_eq, h.logStore_eq, h.state_eq, h.votesGranted_eq]
  · cases h.out e he with
    | send hown => exact decide_eq_true (hown.quotes h1).1
    | sendExt req => rfl
    | systemExit code => rfl

theorem Sends.bystands (h : Sends s o t) : Bystands s o t := h.quiet.bystands

theorem poll_updatePeer (pid : Int) {f : Peer → Peer} (hid : ∀ p, (f p).id = p.id) :
    (s.updatePeer pid f).poll = s.poll := by
  have hids : (s.updatePeer pid f).peerIds = s.peerIds := by
    simp only [Server.peerIds, Server.updatePeer, List.map_map]
    refine List.map_congr_left fun p _ => ?_
    simp only [Function.comp_apply]
    split
    · exact hid p
    · rfl
  rw [Server.poll, hids]
  rfl

theorem poll_setMatched (pid : Int) (m : Nat) : (s.setMatched pid m).poll = s.poll :=
  poll_updatePeer pid fun _ => rfl

theorem poll_mapPeers {f : Peer → Peer} (hid : ∀ p, (f p).id = p.id) :
    (s.peers.map f).map Peer.id = s.peerIds := by
  rw [Server.peerIds, List.map_map]
  exact List.map_congr_left fun p _ => hid p

/-! ## Terms -/

theorem poll_inTerm (term : Nat) : (s.inTerm term).poll = { s.poll with term := term, votes := 0 } := by
  have hids : (s.inTerm term).peerIds = s.peerIds := poll_mapPeers fun _ => rfl
  rw [Server.poll, hids]
  rfl

theorem bystands_updateTerm (term : Nat) : Obeys Bystands s (updateTerm term) := by
  unfold Obeys
  rcases Nat.lt_or_ge s.state.term term with hlt | hge
  · rw [updateTerm_of_lt hlt]
    exact ⟨.inr ⟨hlt, poll_inTerm term⟩, by simp [Effect.offPoll]⟩
  · rw [updateTerm_of_le hge]
    exact bystands_law.refl s

theorem bystands_noteTerm (req : ReqMsg) : Obeys Bystands s (noteTerm req) := by
  refine .ite (fun _ => .bind bystands_law (bystands_updateTerm _) fun _ _ => ?_) fun _ => .pure bystands_law _
  refine bystands_same ?_
  simp only [change_run]
  split <;> rfl

theorem bystands_becomeFollower : Obeys Bystands s becomeFollower := by
  have hids : (s.peers.map (·.enableHb false)).map Peer.id = s.peerIds := poll_mapPeers fun _ => rfl
  refine bystands_same ?_
  simp only [becomeFollower, change_run, Server.poll, Server.peerIds] at hids ⊢
  rw [hids]

/-! ## Requests -/

theorem offPoll_writeEffects (l : LogStore) (idx : Nat) (stale fresh : List LogEntry) :
    ∀ e ∈ writeEffects l idx stale fresh, e.offPoll = true := by
  intro e he
  obtain ⟨n, x, rfl | rfl⟩ := mem_writeEffects he
  · rfl
  · rfl

theorem bystands_writeEntries (prev : Nat) (es : List LogEntry) :
    Obeys Bystands s (writeEntries prev es) := by
  unfold Obeys
  rcases Nat.lt_or_ge (prev + 1) s.logStore.startIdx with hlt | hge
  · obtain ⟨hstate, hout⟩ := writeEntries_below es hlt
    rw [hstate, hout]
    exact bystands_law.refl s
  · rw [writeEntries_run es hge]
    refine ⟨.inl ?_, fun _ => offPoll_writeEffects _ _ _ _⟩
    rw [Server.poll, replicate_startIdx]
    rfl

theorem bystands_handleAppendEntries (env : Env) (req : ReqMsg) :
    Obeys Bystands s (handleAppendEntries env req) := by
  have hlaw := bystands_law
  refine .look_bind (.bind hlaw ?_ fun _ _ => .look_bind (.bind hlaw ?_ fun okay _ => ?_))
  · refine .look_bind (.ite (fun _ => .ite (fun _ => bystands_becomeFollower) fun _ =>
      .ite (fun _ => reads_exit bystands_exits _) fun _ => .pure hlaw _) fun _ => .pure hlaw _)
  · exact Sends.bystands (sends_appendLogOkay env req)
  · refine .ite (fun _ => .pure hlaw _) fun _ => .bind hlaw (bystands_writeEntries _ _) fun _ _ => ?_
    exact .change_bind hlaw (bystands_same rfl)
      (.bind hlaw (Quiet.bystands (quiet_commit env _)) fun _ _ => .pure hlaw _)

theorem bystands_appendClientEntries : ∀ {es : List LogEntry} {s : Server},
    Obeys Bystands s (appendClientEntries es)
  | [], _ => .pure bystands_law _
  | _ :: _, _ => by
    have hlaw := bystands_law
    refine .bind hlaw (.look_bind (.emit_bind hlaw (bystands_emit rfl) (bystands_same rfl))) fun _ _ => ?_
    exact .look_bind (.emit_bind hlaw (bystands_emit rfl) bystands_appendClientEntries)

theorem bystands_handleCliReq (env : Env) (req : ReqMsg) : Obeys Bystands s (handleCliReq env req) := by
  have hlaw := bystands_law
  refine .look_bind (.ite (fun _ => .pure hlaw _) fun _ => .bind hlaw bystands_appendClientEntries fun _ _ => ?_)
  exact .bind hlaw (Quiet.bystands (quiet_requestAppendEntries env)) fun _ _ => .look_bind (.pure hlaw _)

theorem bystands_processReq (env : Env) {req : ReqMsg}
    (h : req.type = .appendEntriesRequest ∨ req.type = .clientRequest) :
    Obeys Bystands s (processReq env req) := by
  have hlaw := bystands_law
  have hne : req.type ≠ .requestVoteRequest := by
    rcases h with h | h <;> (rw [h]; decide)
  refine .bind hlaw (bystands_noteTerm req) fun _ _ => .bind hlaw ?_ fun resp hresp => ?_
  · rcases h with h | h
    · rw [answerReq, h]
      exact bystands_handleAppendEntries env req
    · rw [answerReq, h]
      exact bystands_handleCliReq env req
  · have hno : NoVote resp _ := noVote_answerReq env hne resp hresp
    refine .look_bind (bystands_emit ?_)
    simp [Effect.offPoll, RespMsg.grants, hno]

/-! ## Responses -/

theorem bystands_handleAppendEntriesResp (env : Env) (resp : RespMsg) :
    Obeys Bystands s (handleAppendEntriesResp env resp) := by
  have hans := (answers_handleAppendEntriesResp (sends_law.refl s) env resp).quiet
  have hpoll : (s.answered resp).poll = s.poll := by
    unfold Server.answered
    split
    · exact poll_setMatched _ _
    · rfl
  have hlog : (s.answered resp).logStore = s.logStore := by
    unfold Server.answered
    split <;> rfl
  have hb := hans.bystands
  exact ⟨hpoll ▸ hb.ages, fun h1 => hb.out (hlog ▸ h1)⟩

theorem bystands_handleInstallSnapshotResp (env : Env) (resp : RespMsg) :
    Obeys Bystands s (handleInstallSnapshotResp env resp) := by
  have hlaw := bystands_law
  refine .look_bind ?_
  cases s.findPeer resp.src with
  | none => exact .pure hlaw _
  | some p =>
    have haccepted : Obeys Bystands s (acceptedSnapshot resp p) := by
      unfold acceptedSnapshot
      cases p.snpSyncCtx with
      | none => exact .pure hlaw _
      | some ctx =>
        refine .look_bind (.ite (fun _ => .change_bind hlaw (bystands_same ?_) (.pure hlaw _))
          fun _ => .change_bind hlaw (bystands_same ?_) (.pure hlaw _))
        · exact poll_updatePeer resp.src (f := fun p => { p with
            nextLogIdx := ctx.snapshot.lastLogIdx + 1, matchedIdx := ctx.snapshot.lastLogIdx
            snpSyncCtx := none, pendingCommit := false }) fun _ => rfl
        · exact poll_updatePeer resp.src (f := fun p => { p with
            snpSyncCtx := some { ctx with offset := resp.nextIdx } }) fun _ => rfl
    have hgo : ∀ (t : Server) (b : Bool), Obeys Bystands t (continueWith env resp.src b) :=
      fun t b => Sends.bystands (sends_continueWith env resp.src b)
    exact .ite (fun _ => .bind hlaw haccepted fun b _ => hgo _ b)
      fun _ => .bind hlaw (.pure hlaw _) fun b _ => hgo _ b

/-! ## Taking office -/

theorem poll_leading : s.leading.poll = s.poll := by
  have hids : s.leading.peerIds = s.peerIds := poll_mapPeers fun _ => rfl
  rw [Server.poll, hids]
  rfl

theorem poll_elected : s.elected.poll = s.poll := by
  unfold Server.elected
  split
  · have hfirst : s.leading.firstConfig.poll = s.leading.poll := rfl
    exact hfirst.trans poll_leading
  · exact poll_leading

/-- Whoever takes office takes no further part in the election. -/
theorem becomeLeader_bystands (env : Env) (s : Server) :
    ∃ o, (becomeLeader env s).out = .becomeLeader s.state.term s.votesGranted :: o ∧
      Bystands s o (becomeLeader env s).state := by
  have hq : Bystands s.elected _ _ := Quiet.bystands (quiet_requestAppendEntries env)
  have hlead : Bystands s (if s.config.logIdx = 0 then
      [.originate .leader s.state.term s.logStore.nextSlot s.firstConfigEntry] else []) s.elected := by
    refine ⟨.inl poll_elected, fun _ e he => ?_⟩
    split at he
    · rw [List.mem_singleton.mp he]
      rfl
    · cases he
  rw [becomeLeader_run]
  exact ⟨_, by rw [Server.electedEffects, List.cons_append], bystands_law.trans hlead hq⟩

/-- A request of a candidate for the vote of a peer. -/
def Server.voteReq (s : Server) (pid : Int) : ReqMsg where
  term := s.state.term
  type := .requestVoteRequest
  src := s.id
  dst := pid
  lastLogTerm := termAtEnd s.logStore.entries (s.logStore.nextSlot - 1)
  lastLogIdx := s.logStore.nextSlot - 1
  commitIdx := s.state.commitIdx

/-- The loop of `request_vote` at a server that was never compacted. -/
theorem requestVotes_run (env : Env) (h1 : s.logStore.startIdx = 1) : ∀ pids : List Int,
    requestVotes env pids s = ⟨.ok (), s, pids.map fun pid => .send (s.voteReq pid) s.state⟩
  | [] => rfl
  | pid :: pids => by
    have hlt : s.logStore.nextSlot - 1 < s.logStore.nextSlot := by
      rw [LogStore.nextSlot]
      omega
    have ih := requestVotes_run env h1 pids
    simp only [requestVotes, sendReq] at ih
    simp only [requestVotes, forEach_cons, sendReq, bind_run, look_run, Outcome.andThen_ok,
      termForLog_run env h1 hlt, emit_run, ih, List.nil_append, List.map_cons]
    rfl

/-! ## Events -/

/-- The poll with one more response counted. -/
def Poll.counting (p : Poll) (accepted : Bool) : Poll :=
  { p with votes := if accepted then p.votes + 1 else p.votes }

/-- What an event makes of the poll of a server. -/
inductive Polls (s : Server) (ev : Event) : List Effect → Server → Prop
  | bystands {o : List Effect} {t : Server} (h : Bystands s o t) : Polls s ev o t
  /-- It grants its vote. -/
  | grants {req : ReqMsg} {resp : RespMsg} {m : SrvState} {o : List Effect} {t : Server}
      (he : ev = .request req) (hq : req.type = .requestVoteRequest) (hterm : resp.term = req.term)
      (hdst : resp.dst = req.src) (hg : resp.grants = true) (h : Bystands s o t) :
      Polls s ev (o ++ [.reply resp m]) t
  /-- It stands for election and asks its peers. -/
  | stands {t : Server} (he : ev = .electionTimeout) (hr : s.role ≠ .leader)
      (ht : t.poll = s.campaign.poll) :
      Polls s ev (s.campaignEffects ++
        s.peerIds.map fun pid => .send (s.campaign.voteReq pid) s.campaign.state) t
  /-- It has nobody to ask. -/
  | alone {o : List Effect} {t : Server} (he : ev = .electionTimeout) (hr : s.role ≠ .leader)
      (hp : s.peerIds = []) (h : Bystands s.campaign o t) :
      Polls s ev (s.campaignEffects ++ .becomeLeader s.campaign.state.term 1 :: o) t
  | counts {via : Option PeerRef} {reqType : MsgType} {resp : RespMsg} {t : Server}
      (he : ev = .peerResp via reqType resp) (ht : resp.type = .requestVoteResponse)
      (hle : resp.term ≤ s.state.term) (hopen : s.electionCompleted = false)
      (h : t.poll = s.poll.counting resp.accepted) : Polls s ev [] t
  /-- With the response it has a majority. -/
  | wins {via : Option PeerRef} {reqType : MsgType} {resp : RespMsg} {u t : Server} {o : List Effect}
      (he : ev = .peerResp via reqType resp) (ht : resp.type = .requestVoteResponse)
      (hle : resp.term ≤ s.state.term) (hopen : s.electionCompleted = false)
      (hu : u.poll = s.poll.counting resp.accepted)
      (hmost : (s.peerIds.length + 1) / 2 < u.votesGranted) (h : Bystands u o t) :
      Polls s ev (.becomeLeader u.state.term u.votesGranted :: o) t

/-- The requests of the core algorithm, but for the transfer of snapshots. -/
def ReqMsg.core (req : ReqMsg) : Prop :=
  req.type = .appendEntriesRequest ∨ req.type = .requestVoteRequest ∨ req.type = .clientRequest

/-- The events of the core algorithm, but for the rounds of the committing thread. -/
def Event.core : Event → Prop
  | .request req => req.core
  | .peerResp _ _ _ | .peerErr _ _ | .electionTimeout | .hbTimeout _ | .bgWake => True
  | _ => False

theorem Polls.of_poll {ev : Event} (h : Polls s ev o t) (hu : u.poll = t.poll) : Polls s ev o u := by
  have hmove : ∀ {s o}, Bystands s o t → Bystands s o u := fun hb => ⟨hu ▸ hb.ages, hb.out⟩
  cases h with
  | bystands h => exact .bystands (hmove h)
  | grants he hq hterm hdst hg h => exact .grants he hq hterm hdst hg (hmove h)
  | stands he hr ht => exact .stands he hr (hu.trans ht)
  | alone he hr hp h => exact .alone he hr hp (hmove h)
  | counts he ht hle hopen h => exact .counts he ht hle hopen (hu.trans h)
  | wins he ht hle hopen hu' hmost h => exact .wins he ht hle hopen hu' hmost (hmove h)

/-- A request for a vote. -/
theorem polls_voteReq (env : Env) {req : ReqMsg} (h : req.type = .requestVoteRequest) :
    Polls s (.request req) (processReq env req s).out (processReq env req s).state := by
  have hnote : Bystands s _ _ := bystands_noteTerm req
  have hrun := noteTerm_run (s := s) (.inr (.inl h))
  set n := s.noted req.term with hn
  set o := if s.state.term < req.term then [Effect.saveState (s.inTerm req.term).state] else [] with ho
  rw [hrun] at hnote
  have hanswer : answerReq env req n = handleVoteReq req n := by rw [answerReq, h]
  rw [handleVoteReq_run] at hanswer
  split at hanswer
  · rename_i hg
    rw [processReq_run hrun hanswer]
    have hterm : req.term = n.state.term := by
      simp only [Server.grants, decide_eq_true_eq] at hg
      exact hg.1
    have hvoting : Bystands s (o ++ [.saveState (n.votingFor req.src).state]) (n.votingFor req.src) :=
      bystands_law.trans hnote ⟨.inl rfl, by simp [Effect.offPoll]⟩
    rw [← List.append_assoc]
    exact .grants rfl h hterm.symm rfl rfl hvoting
  · rw [processReq_run hrun hanswer, List.nil_append]
    exact .bystands (bystands_law.trans hnote (bystands_emit rfl))

theorem polls_handleElectionTimeout (env : Env) (h1 : s.logStore.startIdx = 1) :
    Polls s .electionTimeout (handleElectionTimeout env s).out (handleElectionTimeout env s).state := by
  by_cases hstand : s.Standing
  · rw [handleElectionTimeout_run env hstand]
    have hlen : s.peers.length = 0 ↔ s.peerIds = [] := by
      simp [Server.peerIds]
    split
    · rename_i hnone
      obtain ⟨o, hout, hb⟩ := becomeLeader_bystands env s.wonAlone
      have hcamp : Bystands s.campaign o (becomeLeader env s.wonAlone).state := ⟨hb.ages, hb.out⟩
      simp only [hout]
      exact .alone rfl hstand.role (hlen.mp hnone) hcamp
    · have hrun := requestVotes_run (s := s.campaign) env h1 s.peerIds
      simp only [hrun]
      exact .stands rfl hstand.role rfl
  · refine .bystands ?_
    have hlaw := bystands_law
    refine Obeys.look_bind (.ite (fun _ => .change_bind hlaw (bystands_same rfl) (.look_bind (.ite (fun _ => ?_)
      fun _ => .pure hlaw _))) fun hdown => .ite (fun _ => .pure hlaw _) fun hcatch =>
      .ite (fun _ => reads_exit bystands_exits _) fun hrole => ?_)
    · split
      · exact reads_exit bystands_exits _
      · refine .change_bind hlaw (bystands_same rfl) (.look_bind (.emit_bind hlaw (bystands_emit rfl) ?_))
        exact reads_exit bystands_exits _
    · exact absurd ⟨hdown, by simpa using hcatch, hrole⟩ hstand

/-- A response to a request for votes, at a server `s` that was `s₀` before its peers
changed. -/
theorem polls_handleVotingResp (env : Env) {s₀ : Server} (hb : Bystands s₀ [] s) (hpoll : s.poll = s₀.poll)
    (hdone : s.electionCompleted = s₀.electionCompleted) {via : Option PeerRef} {reqType : MsgType}
    {resp : RespMsg} (ht : resp.type = .requestVoteResponse) (hle : resp.term ≤ s₀.state.term) :
    Polls s₀ (.peerResp via reqType resp) (handleVotingResp env resp s).out
      (handleVotingResp env resp s).state := by
  cases hopen : s.electionCompleted with
  | true =>
    rw [handleVotingResp_done env resp hopen]
    exact .bystands (bystands_law.trans hb (bystands_same rfl))
  | false =>
    rw [hopen] at hdone
    have hrest := counted_rest (s := s) resp.accepted
    have hcount : (s.counted resp.accepted).poll = s₀.poll.counting resp.accepted := by
      rw [hrest, ← hpoll]
      rfl
    rw [handleVotingResp_run env resp hopen]
    split
    · rename_i hwin
      have hids : s.peerIds = s₀.peerIds := congrArg Poll.peerIds hpoll
      have hlen : (s.counted resp.accepted).peers.length = s₀.peerIds.length := by
        rw [hrest, ← hids, Server.peerIds, List.length_map]
      obtain ⟨o, hout, hb⟩ := becomeLeader_bystands env
        { s.counted resp.accepted with electionCompleted := true }
      rw [hout]
      rw [hlen] at hwin
      exact .wins rfl ht hle hdone.symm hcount hwin hb
    · exact .counts rfl ht hle hdone.symm hcount

/-- A response reaches `handle_peer_resp` once its peer has taken note of it. -/
theorem peerResp_run (env : Env) (via : Option PeerRef) (reqType : MsgType) (resp : RespMsg) :
    ∃ s', Sends s [] s' ∧ handle env (.peerResp via reqType resp) s = handlePeerResp env resp s' := by
  have hsends := sends_rpcResult (s := s) via reqType false
  have hout : (rpcResult via reqType false s).out = [] := by cases via <;> rfl
  have hok : (rpcResult via reqType false s).res = .ok () := by cases via <;> rfl
  unfold Obeys at hsends
  rw [hout] at hsends
  refine ⟨_, hsends, ?_⟩
  simp only [handle, bind_run, Outcome.andThen, hok, hout, List.nil_append]

theorem handlePeerResp_of_lt (env : Env) {resp : RespMsg} (h : s.state.term < resp.term) :
    handlePeerResp env resp s =
      ⟨.ok (), s.inTerm resp.term, [.saveState (s.inTerm resp.term).state]⟩ := by
  simp only [handlePeerResp, bind_run, updateTerm_of_lt h, Outcome.andThen_ok]
  rfl

theorem handlePeerResp_of_le (env : Env) {resp : RespMsg} (h : resp.term ≤ s.state.term) :
    handlePeerResp env resp s = (match resp.type with
      | .requestVoteResponse => handleVotingResp env resp
      | .appendEntriesResponse => handleAppendEntriesResp env resp
      | .installSnapshotResponse => handleInstallSnapshotResp env resp
      | _ => systemExitAndExit (-1)) s := by
  simp only [handlePeerResp, bind_run, updateTerm_of_le h, Outcome.andThen_ok]
  rfl

theorem polls_peerResp (env : Env) (via : Option PeerRef) (reqType : MsgType) (resp : RespMsg) :
    Polls s (.peerResp via reqType resp) (handle env (.peerResp via reqType resp) s).out
      (handle env (.peerResp via reqType resp) s).state := by
  have hlaw := bystands_law
  obtain ⟨s', hsends, hrun⟩ := peerResp_run (s := s) env via reqType resp
  have hq := hsends.quiet
  rw [hrun]
  rcases Nat.lt_or_ge s'.state.term resp.term with hlt | hge
  · have hterm : Bystands s' [.saveState (s'.inTerm resp.term).state] (s'.inTerm resp.term) :=
      ⟨.inr ⟨hlt, poll_inTerm _⟩, by simp [Effect.offPoll]⟩
    rw [handlePeerResp_of_lt env hlt]
    exact .bystands (hlaw.trans hq.bystands hterm)
  · have hpoll : s'.poll = s.poll := by
      rw [Server.poll, hq.id_eq, hq.peerIds_eq, hq.logStore_eq, hq.state_eq, hq.votesGranted_eq]
      rfl
    have hrest : ∀ {x : Action Unit}, Obeys Bystands s' x →
        Polls s (.peerResp via reqType resp) (x s').out (x s').state :=
      fun hx => .bystands (hlaw.trans hq.bystands hx)
    rw [handlePeerResp_of_le env hge]
    cases hty : resp.type with
    | requestVoteResponse =>
      exact polls_handleVotingResp env hq.bystands hpoll hq.electionCompleted_eq hty (hq.state_eq ▸ hge)
    | appendEntriesResponse => exact hrest (bystands_handleAppendEntriesResp env resp)
    | installSnapshotResponse => exact hrest (bystands_handleInstallSnapshotResp env resp)
    | _ => exact hrest (reads_exit bystands_exits _)

/-- **What an event of the core algorithm makes of a poll.** -/
theorem polls_next (env : Env) {ev : Event} (h1 : s.logStore.startIdx = 1) (hev : ev.core) :
    Polls s ev (s.effects env ev) (s.next env ev) := by
  rcases Server.effects_cases env ev s with ⟨hx, ho⟩ | ⟨hx, ho⟩
  · rw [ho, Server.next, if_pos hx]
    exact .bystands (bystands_law.refl s)
  · obtain ⟨x, hnext⟩ := Server.next_of_live env ev hx
    rw [ho, hnext]
    refine Polls.of_poll (t := (handle env ev s).state) ?_ rfl
    cases ev with
    | request req =>
      rcases hev with h | h | h
      · exact .bystands (bystands_processReq env (.inl h))
      · exact polls_voteReq env h
      · exact .bystands (bystands_processReq env (.inr h))
    | peerResp via reqType resp => exact polls_peerResp env via reqType resp
    | peerErr via reqType => exact .bystands (Sends.bystands (sends_rpcResult via reqType true))
    | electionTimeout => exact polls_handleElectionTimeout env h1
    | hbTimeout pid => exact .bystands (Sends.bystands (sends_handleHbTimeout env pid))
    | bgWake =>
      exact .bystands (Obeys.look_bind (.ite (fun _ => bystands_same rfl) fun _ => .pure bystands_law _))
    | _ => exact hev.elim

end Cornerstone
