import Cornerstone.Server
import Mathlib.Data.List.Sort

/-! # Terms, leadership and the leader's requests

What the handlers share: the term and role changes, the requests a leader makes
up for a peer, and `commit`.  A loop over `peers_` goes over the ids, since the
bodies change the peers as they go.
-/

namespace Cornerstone
open Handlers Handler Server

/-- `become_follower`. -/
def becomeFollower : Action Unit :=
  change fun s => { s with
    peers := s.peers.map (·.enableHb false)
    srvToJoin := none
    role := .follower }

/-- What a server does about a request of a leader, if that is the leader of its
own term. -/
def followLeader (ofOwnTerm : Bool) : Action Unit := do
  let s ← look
  if ofOwnTerm then
    if s.role = .candidate then becomeFollower
    else if s.role = .leader then systemExitAndExit (-1)
    else pure ()
  else
    pure ()

/-- `update_term`. -/
def updateTerm (term : Nat) : Action Bool := do
  let s ← look
  if term > s.state.term then
    change fun s => { s with
      state := { s.state with term := term, votedFor := -1 }
      electionCompleted := false
      votesGranted := 0
      votesResponded := 0 }
    saveState
    becomeFollower
    pure true
  else
    pure false

theorem updateTerm_of_le {term : Nat} {s : Server} (h : term ≤ s.state.term) :
    updateTerm term s = ⟨.ok false, s, []⟩ := by
  simp only [updateTerm, bind_run, look_run, Outcome.andThen_ok, ite_run, pure_run]
  rw [if_neg (by omega)]
  rfl

/-- The server as `update_term` leaves it when the term is new. -/
def Server.inTerm (s : Server) (term : Nat) : Server :=
  { s with
    state := { s.state with term := term, votedFor := -1 }
    electionCompleted := false
    votesGranted := 0
    votesResponded := 0
    peers := s.peers.map (·.enableHb false)
    srvToJoin := none
    role := .follower }

theorem updateTerm_of_lt {term : Nat} {s : Server} (h : s.state.term < term) :
    updateTerm term s = ⟨.ok true, s.inTerm term, [.saveState (s.inTerm term).state]⟩ := by
  simp only [updateTerm, bind_run, look_run, Outcome.andThen_ok, ite_run, change_run]
  rw [if_pos h]
  rfl

/-- `term_for_log`. -/
def termForLog (env : Env) (logIdx : Nat) : Action Nat := do
  let s ← look
  if logIdx = 0 then
    pure 0
  else if logIdx ≥ s.logStore.startIdx then
    termAt logIdx
  else
    match env.lastSnapshot with
    | none => systemExitAndExit (-1)
    | some snp =>
      if logIdx ≠ snp.lastLogIdx then systemExitAndExit (-1) else pure snp.lastLogTerm

/-- `get_snapshot_sync_block_size`. -/
def snapshotSyncBlockSize (p : RaftParams) : Int :=
  if p.snapshotBlockSize = 0 then 4 * 1024 else p.snapshotBlockSize

/-- Whether `create_sync_snapshot_req` turns to the last snapshot of the state
machine: none is being copied to the peer, or an older one. -/
def needsLastSnapshot : Option SnapshotSyncCtx → Option Snapshot → Bool
  | none, _ => true
  | some ctx, some snp => snp.lastLogIdx > ctx.snapshot.lastLogIdx
  | some _, none => false

/-- The snapshot `create_sync_snapshot_req` goes on with. -/
def pickSnapshot (env : Env) (r : PeerRef) (lastLogIdx : Nat) : Action SnapshotSyncCtx := do
  let p ← derefPeer r
  match needsLastSnapshot p.snpSyncCtx env.lastSnapshot, p.snpSyncCtx, env.lastSnapshot with
  | false, some ctx, _ => pure ctx
  | _, _, none => systemExitAndExit (-1)
  | _, _, some snp =>
    if lastLogIdx > snp.lastLogIdx then
      systemExitAndExit (-1)
    else if snp.size < 1 then
      systemExitAndExit (-1)
    else do
      change (·.updateAt r (·.setSnapshotInSync (some snp)))
      pure { snapshot := snp }

/-- `create_sync_snapshot_req`. -/
def createSyncSnapshotReq (env : Env) (r : PeerRef) (lastLogIdx term commitIdx : Nat) :
    Action ReqMsg := do
  let ctx ← pickSnapshot env r lastLogIdx
  let p ← derefPeer r
  let s ← look
  let szLeft := int32OfUlong (ulongSub ctx.snapshot.size ctx.offset)
  let size := min (snapshotSyncBlockSize s.params) szLeft
  -- a negative size is far above what `buffer::alloc` allows
  if size < 0 then
    halt .throw
  else
    let data := (env.readSnapshotData ctx.offset size.toNat).take size.toNat
    if data.length < size.toNat then
      systemExitAndExit (-1)
    else
      let done : Bool := ctx.offset + data.length ≥ ctx.snapshot.size
      let syncReq : SnapshotSyncReq := ⟨ctx.snapshot, ctx.offset, data, done⟩
      -- what `serialize` makes must fit a buffer as well
      if bufferLimit ≤ syncReq.serialize.length then
        halt .throw
      else
        pure {
          term := term
          type := .installSnapshotRequest
          src := s.id
          dst := p.id
          lastLogTerm := ctx.snapshot.lastLogTerm
          lastLogIdx := ctx.snapshot.lastLogIdx
          commitIdx := commitIdx
          logEntries := [⟨term, syncReq.serialize, .snpSyncReq⟩] }

/-- The end of the slice of the log that goes into one request. -/
def endIdx (s : Server) (lastLogIdx : Nat) : Nat :=
  min s.logStore.nextSlot ((lastLogIdx + 1 + ulongOfInt s.params.maxAppendSize) % ulongSize)

/-- `create_append_entries_req`. -/
def createAppendEntriesReq (env : Env) (pid : Int) : Action ReqMsg := do
  let s ← look
  let nextSlot := s.logStore.nextSlot
  change (·.updatePeer pid fun p =>
    if p.nextLogIdx = 0 then { p with nextLogIdx := nextSlot } else p)
  let p ← derefPeer (.peer pid)
  let lastLogIdx := p.nextLogIdx - 1
  if lastLogIdx ≥ nextSlot then
    systemExitAndExit (-1)
  else if lastLogIdx > 0 ∧ lastLogIdx < s.logStore.startIdx - 1 then
    createSyncSnapshotReq env (.peer pid) lastLogIdx s.state.term s.quickCommitIdx
  else do
    let lastLogTerm ← termForLog env lastLogIdx
    if lastLogIdx + 1 < nextSlot ∧ lastLogIdx + 1 < s.logStore.startIdx then
      -- `log_entries` below the first stored index
      halt .throw
    else
      pure {
        term := s.state.term
        type := .appendEntriesRequest
        src := s.id
        dst := p.id
        lastLogTerm := lastLogTerm
        lastLogIdx := lastLogIdx
        commitIdx := s.quickCommitIdx
        logEntries := s.logStore.logEntries (lastLogIdx + 1) (endIdx s lastLogIdx) }

/-- `request_append_entries(peer&)`: whether a request was sent. -/
def requestAppendEntriesTo (env : Env) (pid : Int) : Action Bool := do
  let s ← look
  match s.findPeer pid with
  | none => pure false
  | some p =>
    if p.busy then
      pure false
    else do
      change (·.updatePeer pid fun p => { p with busy := true })
      let req ← createAppendEntriesReq env pid
      sendReq req
      pure true

/-- `commit`.  Waking the committing thread is no step here: it may wake at any
moment. -/
def commit (env : Env) (targetIdx : Nat) : Action Unit := do
  let s ← look
  if targetIdx > s.quickCommitIdx then
    change fun s => { s with quickCommitIdx := targetIdx }
    if s.role = .leader then
      forEach (fun pid => do
        let sent ← requestAppendEntriesTo env pid
        if sent then pure ()
        else change (·.updatePeer pid fun p => { p with pendingCommit := true })) s.peerIds
    else
      pure ()
  else
    pure ()

/-- `request_append_entries()`. -/
def requestAppendEntries (env : Env) : Action Unit := do
  let s ← look
  if s.peers.length = 0 then
    commit env (s.logStore.nextSlot - 1)
  else
    forEach (fun pid => do
      let _ ← requestAppendEntriesTo env pid
      pure ()) s.peerIds

/-- `become_leader`. -/
def becomeLeader (env : Env) : Action Unit := do
  let s ← look
  emit (.becomeLeader s.state.term s.votesGranted)
  change fun s => { s with
    role := .leader
    leader := s.id
    srvToJoin := none
    peers := s.peers.map fun p =>
      (({ p with
          nextLogIdx := s.logStore.nextSlot
          snpSyncCtx := none
          busy := false } : Peer).enableHb true).resumeHbSpeed s.params }
  let s ← look
  if s.config.logIdx = 0 then do
    change fun s => { s with config := s.config.setLogIdx s.logStore.nextSlot }
    let s ← look
    originate ⟨s.state.term, s.config.serialize, .conf⟩
    change fun s => { s with configChanging := true }
  else
    pure ()
  requestAppendEntries env

/-- The loop of `request_vote`. -/
def requestVotes (env : Env) : List Int → Action Unit :=
  forEach fun pid => do
    let s ← look
    let lastLogIdx := s.logStore.nextSlot - 1
    let lastLogTerm ← termForLog env lastLogIdx
    sendReq {
      term := s.state.term
      type := .requestVoteRequest
      src := s.id
      dst := pid
      lastLogTerm := lastLogTerm
      lastLogIdx := lastLogIdx
      commitIdx := s.state.commitIdx }

/-- `request_vote`. -/
def requestVote (env : Env) : Action Unit := do
  change fun s => { s with state := { s.state with votedFor := s.id } }
  saveState
  change fun s => { s with
    votesGranted := s.votesGranted + 1
    votesResponded := s.votesResponded + 1 }
  let s ← look
  if s.votesGranted > (s.peers.length + 1) / 2 then do
    change fun s => { s with electionCompleted := true }
    becomeLeader env
  else
    requestVotes env s.peerIds

/-- The index `handle_append_entries_resp` passes to `commit`: the leader's last
index and the matched indexes, sorted in descending order, at position
`(peers_.size() + 1) / 2`. -/
def majorityIdx (own : Nat) (matched : List Nat) : Nat :=
  ((own :: matched).insertionSort (· ≥ ·)).getD ((matched.length + 1) / 2) 0

end Cornerstone
