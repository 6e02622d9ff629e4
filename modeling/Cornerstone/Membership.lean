import Cornerstone.PeerHandlers

/-! # Membership changes and snapshot installation

`reconfigure`, the requests beyond the core algorithm, and what the server does
with the extended responses and with the errors of extended requests.
-/

namespace Cornerstone
open Handlers Handler Server

/-! ## reconfigure -/

/-- One round of the loop over `srvs_added`. -/
def addServer (srv : SrvConfig) : Action Unit := do
  let s ← look
  let p : Peer := { Peer.new s.params srv with nextLogIdx := s.logStore.nextSlot }
  if s.role = .leader then do
    let p := (p.enableHb true).resumeHbSpeed s.params
    match s.srvToJoin with
    | none => change fun s => { s with peers := insertPeer s.peers p }
    | some joining =>
      if joining.id = p.id then
        change fun s => { s with
          peers := insertPeer s.peers { p with nextLogIdx := joining.nextLogIdx }
          srvToJoin := none }
      else
        change fun s => { s with peers := insertPeer s.peers p }
  else
    change fun s => { s with peers := insertPeer s.peers p }

/-- The loop over `srvs_removed`: whether it came upon this server itself, which
ends `reconfigure` early. -/
def removeServers (newConfig : ClusterConfig) : List Int → Action Bool
  | [] => pure false
  | srvRemoved :: rest => do
    let s ← look
    if srvRemoved = s.id ∧ s.catchingUp = false then do
      emit (.saveConfig newConfig)
      emit (.systemExit 0)
      pure true
    else do
      erasePeer srvRemoved
      removeServers newConfig rest

/-- `reconfigure`. -/
def reconfigure (newConfig : ClusterConfig) : Action Unit := do
  let s ← look
  let srvsAdded := newConfig.servers.filter fun srv => srv.id ∉ s.peerIds ∧ srv.id ≠ s.id
  let srvsRemoved := s.peerIds.filter (fun id => newConfig.getServer id = none) ++
    (if newConfig.getServer s.id = none then [s.id] else [])
  forEach addServer srvsAdded
  let stepDown ← removeServers newConfig srvsRemoved
  if stepDown then pure ()
  else change fun s => { s with config := newConfig }

/-! ## Bringing a server into the cluster -/

/-- `invite_srv_to_join_cluster`. -/
def inviteSrvToJoinCluster : Action Unit := do
  let p ← derefPeer .joining
  let s ← look
  sendExtReq {
    term := s.state.term
    type := .joinClusterRequest
    src := s.id
    dst := p.id
    lastLogTerm := 0
    lastLogIdx := s.logStore.nextSlot - 1
    commitIdx := s.quickCommitIdx
    logEntries := [⟨s.state.term, s.config.serialize, .conf⟩] }

/-- `gap` of `sync_log_to_new_srv`. -/
def syncGap (s : Server) (startIdx : Nat) : Int :=
  int32OfUlong (ulongSub s.quickCommitIdx startIdx)

/-- Append a configuration entry that follows the current configuration, as
`sync_log_to_new_srv` and `rm_srv_from_cluster` do. -/
def appendConfig (servers : List SrvConfig) : Action Unit := do
  let s ← look
  let newConf : ClusterConfig := ⟨s.logStore.nextSlot, s.config.logIdx, servers⟩
  originate ⟨s.state.term, newConf.serialize, .conf⟩
  change fun s => { s with configChanging := true }

/-- `sync_log_to_new_srv`. -/
def syncLogToNewSrv (env : Env) (startIdx : Nat) : Action Unit := do
  let s ← look
  let p ← derefPeer .joining
  let gap := syncGap s startIdx
  if gap < s.params.logSyncStopGap then
    match s.confToAdd with
    | none => halt .fault
    | some confToAdd => do
      appendConfig (s.config.servers ++ [confToAdd])
      requestAppendEntries env
  else if startIdx > 0 ∧ startIdx < s.logStore.startIdx then do
    let req ← createSyncSnapshotReq env .joining startIdx s.state.term s.quickCommitIdx
    sendExtReq req
  else do
    match s.logStore.pack startIdx (min gap s.params.logSyncBatchSize) with
    | none => halt .throw
    | some logPack =>
      sendExtReq {
        term := s.state.term
        type := .syncLogRequest
        src := s.id
        dst := p.id
        lastLogTerm := 0
        lastLogIdx := ulongSub startIdx 1
        commitIdx := s.quickCommitIdx
        logEntries := [⟨s.state.term, logPack, .logPack⟩] }

/-- `rm_srv_from_cluster`. -/
def rmSrvFromCluster (env : Env) (srvId : Int) : Action Unit := do
  let s ← look
  appendConfig (s.config.servers.filter (·.id ≠ srvId))
  requestAppendEntries env

/-! ## Extended requests -/

/-- `handle_rm_srv_req`. -/
def handleRmSrvReq (req : ReqMsg) : Action RespMsg := do
  let s ← look
  let resp : RespMsg := {
    term := s.state.term
    type := .removeServerResponse
    src := s.id
    dst := s.leader }
  match req.logEntries with
  | [e] =>
    if e.buf.length ≠ 4 then pure resp
    else if s.role ≠ .leader then pure resp
    else if s.configChanging then pure resp
    else
      match getInt e.buf with
      | none => halt .throw
      | some (srvId, _) =>
        if srvId = s.id then pure resp
        else
          match s.findPeer srvId with
          | none => pure resp
          | some _ => do
            sendExtReq {
              term := s.state.term
              type := .leaveClusterRequest
              src := s.id
              dst := srvId
              lastLogTerm := 0
              lastLogIdx := s.logStore.nextSlot - 1
              commitIdx := s.quickCommitIdx }
            pure (resp.accept s.logStore.nextSlot)
  | _ => pure resp

/-- `handle_add_srv_req`. -/
def handleAddSrvReq (req : ReqMsg) : Action RespMsg := do
  let s ← look
  let resp : RespMsg := {
    term := s.state.term
    type := .addServerResponse
    src := s.id
    dst := s.leader }
  match req.logEntries with
  | [e] =>
    if e.valType ≠ .clusterServer then pure resp
    else if s.role ≠ .leader then pure resp
    else
      match SrvConfig.deserialize e.buf with
      | none => halt .throw
      | some (srvConf, _) =>
        if srvConf.id ∈ s.peerIds ∨ s.id = srvConf.id then pure resp
        else if s.configChanging then pure resp
        else do
          change fun s => { s with
            confToAdd := some srvConf
            srvToJoin := some (Peer.new s.params srvConf) }
          inviteSrvToJoinCluster
          pure (resp.accept s.logStore.nextSlot)
  | _ => pure resp

/-- `handle_log_sync_req`. -/
def handleLogSyncReq (env : Env) (req : ReqMsg) : Action RespMsg := do
  let s ← look
  let resp : RespMsg := {
    term := s.state.term
    type := .syncLogResponse
    src := s.id
    dst := req.src }
  match req.logEntries with
  | [e] =>
    if e.valType ≠ .logPack then pure resp
    else if s.catchingUp = false then pure resp
    else
      match s.logStore.applyPack (req.lastLogIdx + 1) e.buf with
      | none => halt .throw
      | some logStore => do
        change fun s => { s with logStore := logStore }
        commit env (logStore.nextSlot - 1)
        let s ← look
        pure (resp.accept s.logStore.nextSlot)
  | _ => pure resp

/-- `handle_join_cluster_req`. -/
def handleJoinClusterReq (req : ReqMsg) : Action RespMsg := do
  let s ← look
  let resp : RespMsg := {
    term := s.state.term
    type := .joinClusterResponse
    src := s.id
    dst := req.src }
  match req.logEntries with
  | [e] =>
    if e.valType ≠ .conf then pure resp
    else if s.catchingUp then pure resp
    else do
      change fun s => { s with
        catchingUp := true
        role := .follower
        leader := req.src
        quickCommitIdx := 0
        state := { s.state.setCommitIdx 0 with votedFor := -1, term := req.term } }
      saveState
      match ClusterConfig.deserialize e.buf with
      | none => halt .throw
      | some (conf, _) => do
        reconfigure conf
        let s ← look
        pure (resp.accept s.logStore.nextSlot)
  | _ => pure resp

/-- `handle_leave_cluster_req`. -/
def handleLeaveClusterReq (req : ReqMsg) : Action RespMsg := do
  let s ← look
  let resp : RespMsg := {
    term := s.state.term
    type := .leaveClusterResponse
    src := s.id
    dst := req.src }
  if s.configChanging = false then do
    change fun s => { s with stepsToDown := 2 }
    pure (resp.accept s.logStore.nextSlot)
  else
    pure resp

/-- What `handle_snapshot_sync_req` does when the data of a snapshot is complete
and the log may be compacted up to it. -/
def applySnapshotData (env : Env) (snp : Snapshot) : Action Bool := do
  change fun s => { s with logStore := s.logStore.compact snp.lastLogIdx }
  if env.applySnapshot = false then
    systemExitAndExit (-1)
  else do
    emit (.applySnapshot snp)
    reconfigure snp.lastConfig
    let s ← look
    emit (.saveConfig s.config)
    change fun s => { s with
      state := s.state.setCommitIdx snp.lastLogIdx
      quickCommitIdx := snp.lastLogIdx }
    saveState
    pure true

/-- The `try` block of `handle_snapshot_sync_req`. -/
def installSnapshotBlock (env : Env) (req : SnapshotSyncReq) : Action Bool := do
  if env.saveSnapshotData = false then
    halt .throw
  else do
    emit (.saveSnapshotData req.snapshot req.offset req.data)
    if req.done then do
      let s ← look
      if s.role ≠ .follower then
        systemExitAndExit (-1)
      else if req.snapshot.lastLogIdx < s.logStore.startIdx then
        -- `compact` below the store
        halt .throw
      else if env.compact then
        applySnapshotData env req.snapshot
      else
        pure false
    else
      pure true

/-- `handle_snapshot_sync_req`. -/
def handleSnapshotSyncReq (env : Env) (req : SnapshotSyncReq) : Action Bool :=
  (installSnapshotBlock env req).rescue Stop.caught (systemExitAndExit (-1))

/-- `handle_install_snapshot_req`. -/
def handleInstallSnapshotReq (env : Env) (req : ReqMsg) : Action RespMsg := do
  let s ← look
  followLeader (req.term = s.state.term ∧ s.catchingUp = false)
  let s ← look
  let resp : RespMsg := {
    term := s.state.term
    type := .installSnapshotResponse
    src := s.id
    dst := req.src }
  if s.catchingUp = false ∧ req.term < s.state.term then
    pure resp
  else
    match req.logEntries with
    | [e] =>
      if e.valType ≠ .snpSyncReq then pure resp
      else
        match SnapshotSyncReq.deserialize e.buf with
        | none => halt .throw
        | some syncReq =>
          if syncReq.snapshot.lastLogIdx ≤ s.state.commitIdx then pure resp
          else do
            let ok ← handleSnapshotSyncReq env syncReq
            if ok then pure (resp.accept (syncReq.offset + syncReq.data.length))
            else pure resp
    | _ => pure resp

/-- `handle_extended_msg`. -/
def handleExtendedMsg (env : Env) (req : ReqMsg) : Action RespMsg :=
  match req.type with
  | .addServerRequest => handleAddSrvReq req
  | .removeServerRequest => handleRmSrvReq req
  | .syncLogRequest => handleLogSyncReq env req
  | .joinClusterRequest => handleJoinClusterReq req
  | .leaveClusterRequest => handleLeaveClusterReq req
  | .installSnapshotRequest => handleInstallSnapshotReq env req
  | _ => systemExitAndExit (-1)

/-! ## Extended responses -/

/-- The `install_snapshot_response` case of `handle_ext_resp`. -/
def handleExtSnapshotResp (env : Env) (resp : RespMsg) : Action Unit := do
  let s ← look
  match s.srvToJoin with
  | none => pure ()
  | some joining =>
    if resp.accepted = false then pure ()
    else
      match joining.snpSyncCtx with
      | none => systemExitAndExit (-1)
      | some ctx => do
        if resp.nextIdx ≥ ctx.snapshot.size then
          change (·.updateAt .joining fun p => { p with
            snpSyncCtx := none
            nextLogIdx := ctx.snapshot.lastLogIdx + 1
            matchedIdx := ctx.snapshot.lastLogIdx })
        else
          change (·.updateAt .joining fun p => { p with
            snpSyncCtx := some { ctx with offset := resp.nextIdx } })
        let p ← derefPeer .joining
        syncLogToNewSrv env p.nextLogIdx

/-- `handle_ext_resp` with a response. -/
def handleExtResp (env : Env) (resp : RespMsg) : Action Unit := do
  let s ← look
  match resp.type with
  | .syncLogResponse =>
    match s.srvToJoin with
    | none => pure ()
    | some _ => do
      change fun s => s.updateAt .joining fun p => { p.resumeHbSpeed s.params with
        nextLogIdx := resp.nextIdx
        matchedIdx := ulongSub resp.nextIdx 1 }
      syncLogToNewSrv env resp.nextIdx
  | .joinClusterResponse =>
    match s.srvToJoin with
    | none => pure ()
    | some _ => if resp.accepted then syncLogToNewSrv env 1 else pure ()
  | .leaveClusterResponse =>
    if resp.accepted then rmSrvFromCluster env resp.src else pure ()
  | .installSnapshotResponse => handleExtSnapshotResp env resp
  | _ => systemExitAndExit (-1)

/-- The peer object an extended request was sent through. -/
def extPeer (req : ReqMsg) : PeerRef :=
  if req.type = .leaveClusterRequest then .peer req.dst else .joining

/-- `handle_ext_resp_err`.  A retried request is an event of its own. -/
def handleExtRespErr (env : Env) (req : ReqMsg) : Action Unit := do
  if req.type = .syncLogRequest ∨ req.type = .joinClusterRequest ∨
      req.type = .leaveClusterRequest then do
    let s ← look
    match s.peerAt? (extPeer req) with
    | none => pure ()
    | some p =>
      if p.currentHbInterval ≥ s.params.maxHbInterval then
        if req.type = .leaveClusterRequest then do
          if s.peers.length = 1 then
            erasePeer p.id
          else
            pure ()
          rmSrvFromCluster env p.id
        else
          change fun s => { s with configChanging := false, srvToJoin := none }
      else
        change fun s => s.updateAt (extPeer req) (Peer.slowDownHb s.params)
  else
    pure ()

end Cornerstone
