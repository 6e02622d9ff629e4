import Cornerstone.Replication

/-! # Elections, log replication and client requests

The handlers of the core algorithm, one definition for each function of
`raft_server`, with each loop a recursion on what it still has to go through.
-/

namespace Cornerstone
open Handlers Handler Server

/-! ## append_entries requests -/

/-- The first loop of `handle_append_entries`: skip the entries the log already
has. -/
def skipOverlapped : Nat → List LogEntry → Action (Nat × List LogEntry)
  | idx, [] => pure (idx, [])
  | idx, e :: es => do
    let s ← look
    if idx < s.logStore.nextSlot then do
      let entry ← entryAt idx
      if entry.term = e.term then skipOverlapped (idx + 1) es else pure (idx, e :: es)
    else
      pure (idx, e :: es)

/-- The second loop of `handle_append_entries`: deal with overwrites.  `write_at`
drops everything behind the index, so the loop condition sees a shorter log. -/
def overwriteEntries : Nat → List LogEntry → Action (List LogEntry)
  | _, [] => pure []
  | idx, e :: es => do
    let s ← look
    if idx < s.logStore.nextSlot then do
      let oldEntry ← entryAt idx
      if oldEntry.valType = .appLog then
        emit (.rollback idx oldEntry)
      else if oldEntry.valType = .conf then
        change fun s => { s with configChanging := false }
      else
        pure ()
      change fun s => { s with logStore := s.logStore.writeAt idx e }
      overwriteEntries (idx + 1) es
    else
      pure (e :: es)

/-- The third loop of `handle_append_entries`: append the new log entries. -/
def appendNewEntries : List LogEntry → Action Unit
  | [] => pure ()
  | e :: es => do
    let s ← look
    let idx := s.logStore.nextSlot
    change fun s => { s with logStore := s.logStore.append e }
    if e.valType = .conf then
      change fun s => { s with configChanging := true }
    else
      emit (.preCommit idx e)
    appendNewEntries es

/-- The three loops, for the entries that follow index `lastLogIdx`. -/
def writeEntries (lastLogIdx : Nat) (es : List LogEntry) : Action Unit := do
  let (idx, es) ← skipOverlapped (lastLogIdx + 1) es
  let es ← overwriteEntries idx es
  appendNewEntries es

/-- `log_okay` of `handle_append_entries`. -/
def appendLogOkay (env : Env) (req : ReqMsg) : Action Bool := do
  let s ← look
  if req.lastLogIdx = 0 then
    pure true
  else if req.lastLogIdx < s.logStore.nextSlot then do
    let term ← termForLog env req.lastLogIdx
    pure (req.lastLogTerm = term)
  else
    pure false

/-- `handle_append_entries`. -/
def handleAppendEntries (env : Env) (req : ReqMsg) : Action RespMsg := do
  let s ← look
  followLeader (req.term = s.state.term)
  let s ← look
  let resp : RespMsg := {
    term := s.state.term
    type := .appendEntriesResponse
    src := s.id
    dst := req.src
    nextIdx := s.logStore.nextSlot }
  let logOkay ← appendLogOkay env req
  if req.term < s.state.term ∨ logOkay = false then
    pure resp
  else do
    writeEntries req.lastLogIdx req.logEntries
    change fun s => { s with leader := req.src }
    commit env req.commitIdx
    pure (resp.accept (req.lastLogIdx + req.logEntries.length + 1))

/-! ## Elections -/

/-- `log_okay` of `handle_vote_req`. -/
def Server.voteLogOkay (s : Server) (req : ReqMsg) : Bool :=
  req.lastLogTerm > s.logStore.lastTerm ∨
    (req.lastLogTerm = s.logStore.lastTerm ∧ s.logStore.nextSlot - 1 ≤ req.lastLogIdx)

/-- `grant` of `handle_vote_req`. -/
def Server.grants (s : Server) (req : ReqMsg) : Bool :=
  req.term = s.state.term ∧ s.voteLogOkay req ∧
    (s.state.votedFor = req.src ∨ s.state.votedFor = -1)

/-- `handle_vote_req`. -/
def handleVoteReq (req : ReqMsg) : Action RespMsg := do
  let s ← look
  let resp : RespMsg := {
    term := s.state.term
    type := .requestVoteResponse
    src := s.id
    dst := req.src }
  if s.grants req then do
    change fun s => { s with state := { s.state with votedFor := req.src } }
    saveState
    pure (resp.accept s.logStore.nextSlot)
  else
    pure resp

/-- `handle_election_timeout`. -/
def handleElectionTimeout (env : Env) : Action Unit := do
  let s ← look
  if s.stepsToDown > 0 then do
    change fun s => { s with stepsToDown := s.stepsToDown - 1 }
    let s ← look
    if s.stepsToDown = 0 then do
      match s.config.getServer s.id with
      | none => pure ()
      | some srv => do
        change fun s => { s with config :=
            { s.config with servers := s.config.servers.erase srv } }
        let s ← look
        emit (.saveConfig s.config)
      systemExitAndExit (-1)
    else
      pure ()
  else if s.catchingUp then
    pure ()
  else if s.role = .leader then
    systemExitAndExit (-1)
  else do
    change fun s => { s with
      state := { s.state.incTerm with votedFor := -1 }
      role := .candidate
      votesGranted := 0
      votesResponded := 0
      electionCompleted := false }
    saveState
    requestVote env

/-- Count a granted vote. -/
def Server.addVote (s : Server) (accepted : Bool) : Server :=
  if accepted then { s with votesGranted := s.votesGranted + 1 } else s

/-- The election is over once everyone has responded. -/
def Server.closeElection (s : Server) : Server :=
  if s.votesResponded ≥ s.peers.length + 1 then { s with electionCompleted := true } else s

/-- `handle_voting_resp`. -/
def handleVotingResp (env : Env) (resp : RespMsg) : Action Unit := do
  change fun s => { s with votesResponded := s.votesResponded + 1 }
  let s ← look
  if s.electionCompleted then
    pure ()
  else do
    change (·.addVote resp.accepted)
    change Server.closeElection
    let s ← look
    if s.votesGranted > (s.peers.length + 1) / 2 then do
      change fun s => { s with electionCompleted := true }
      becomeLeader env
    else
      pure ()

/-! ## Client requests -/

/-- The loop of `handle_cli_req`. -/
def appendClientEntries : List LogEntry → Action Unit
  | [] => pure ()
  | e :: es => do
    originate e
    let s ← look
    emit (.preCommit (s.logStore.nextSlot - 1) e)
    appendClientEntries es

/-- `handle_cli_req`. -/
def handleCliReq (env : Env) (req : ReqMsg) : Action RespMsg := do
  let s ← look
  let resp : RespMsg := {
    term := s.state.term
    type := .appendEntriesResponse
    src := s.id
    dst := s.leader }
  if s.role ≠ .leader then
    pure resp
  else do
    appendClientEntries req.logEntries
    requestAppendEntries env
    let s ← look
    pure (resp.accept s.logStore.nextSlot)

/-! ## Responses from peers -/

/-- `peer::handle_rpc_result`, before it hands the result on, as it changes the
peer object. -/
def Peer.rpcResult (params : RaftParams) (reqType : MsgType) (failed : Bool) (p : Peer) : Peer :=
  let p := if reqType = .appendEntriesRequest ∨ reqType = .installSnapshotRequest then
    { p with busy := false } else p
  if failed then p.slowDownHb params else p.resumeHbSpeed params

/-- `peer::handle_rpc_result` on the object a request went through; one that the
server has dropped is nobody's concern. -/
def rpcResult (via : Option PeerRef) (reqType : MsgType) (failed : Bool) : Action Unit :=
  match via with
  | none => pure ()
  | some r => change fun s => s.updateAt r (Peer.rpcResult s.params reqType failed)

/-- Whether a peer still lags once a response is dealt with: a commit came while
it was busy, or its log is shorter. -/
def stillLags (resp : RespMsg) : Action Bool := do
  let s ← look
  change (·.updatePeer resp.src fun p => { p with pendingCommit := false })
  pure ((s.findPeer resp.src).any Peer.pendingCommit || resp.nextIdx < s.logStore.nextSlot)

/-- The accepted half of `handle_append_entries_resp`. -/
def acceptedAppend (env : Env) (resp : RespMsg) : Action Bool := do
  change (·.updatePeer resp.src fun p => { p with
    nextLogIdx := resp.nextIdx
    matchedIdx := ulongSub resp.nextIdx 1 })
  let s ← look
  commit env (majorityIdx (s.logStore.nextSlot - 1) (s.peers.map Peer.matchedIdx))
  stillLags resp

/-- The declined half of `handle_append_entries_resp`: fall back to the end of
the peer's log, or by one. -/
def declinedAppend (resp : RespMsg) (p : Peer) : Action Bool := do
  if resp.nextIdx > 0 ∧ p.nextLogIdx > resp.nextIdx then
    change (·.updatePeer resp.src fun p => { p with nextLogIdx := resp.nextIdx })
  else
    change (·.updatePeer resp.src fun p => { p with nextLogIdx := ulongSub p.nextLogIdx 1 })
  pure true

/-- The end of both response handlers: a leader goes on with a lagging peer. -/
def continueWith (env : Env) (pid : Int) (needToCatchup : Bool) : Action Unit := do
  let s ← look
  if s.role = .leader ∧ needToCatchup = true then do
    let _ ← requestAppendEntriesTo env pid
    pure ()
  else
    pure ()

/-- `handle_append_entries_resp`. -/
def handleAppendEntriesResp (env : Env) (resp : RespMsg) : Action Unit := do
  let s ← look
  match s.findPeer resp.src with
  | none => pure ()
  | some p => do
    let needToCatchup ← if resp.accepted then acceptedAppend env resp else declinedAppend resp p
    continueWith env resp.src needToCatchup

/-- The accepted half of `handle_install_snapshot_resp`. -/
def acceptedSnapshot (resp : RespMsg) (p : Peer) : Action Bool := do
  match p.snpSyncCtx with
  | none => pure false
  | some ctx => do
    let s ← look
    if resp.nextIdx ≥ ctx.snapshot.size then do
      change (·.updatePeer resp.src fun p => { p with
        nextLogIdx := ctx.snapshot.lastLogIdx + 1
        matchedIdx := ctx.snapshot.lastLogIdx
        snpSyncCtx := none
        pendingCommit := false })
      pure (p.pendingCommit || resp.nextIdx < s.logStore.nextSlot)
    else do
      change (·.updatePeer resp.src fun p => { p with
        snpSyncCtx := some { ctx with offset := resp.nextIdx } })
      pure true

/-- `handle_install_snapshot_resp`. -/
def handleInstallSnapshotResp (env : Env) (resp : RespMsg) : Action Unit := do
  let s ← look
  match s.findPeer resp.src with
  | none => pure ()
  | some p => do
    let needToCatchup ← if resp.accepted then acceptedSnapshot resp p else pure true
    continueWith env resp.src needToCatchup

/-- `handle_peer_resp` with a response. -/
def handlePeerResp (env : Env) (resp : RespMsg) : Action Unit := do
  let updated ← updateTerm resp.term
  if updated then
    pure ()
  else
    match resp.type with
    | .requestVoteResponse => handleVotingResp env resp
    | .appendEntriesResponse => handleAppendEntriesResp env resp
    | .installSnapshotResponse => handleInstallSnapshotResp env resp
    | _ => systemExitAndExit (-1)

/-- `handle_hb_timeout`. -/
def handleHbTimeout (env : Env) (pid : Int) : Action Unit := do
  let s ← look
  if s.role = .leader then do
    let _ ← requestAppendEntriesTo env pid
    pure ()
  else
    pure ()

end Cornerstone
