import Cornerstone.Handler
import Cornerstone.LogStore

/-! # The state of a `raft_server`

The fields of `raft_server` that its handlers read and write, the peers it keeps
for the other servers, and the visible effects of a handler.  A handler is a
step under `lock_`: it runs to its end before another one starts.

Left out are the log, the locks and the timers.  Timers are not state here, so
an election timeout or a heartbeat may happen at any moment, and the committing
thread may wake at any moment.

The state machine, and whether a compaction succeeds, lie outside the server;
what they answer during one step is the step's `Env`, and nothing is assumed
about it.
-/

namespace Cornerstone
open Handlers

/-- A `peer`, as the handlers use it. -/
structure Peer where
  config : SrvConfig
  currentHbInterval : Int
  nextLogIdx : Nat := 0
  matchedIdx : Nat := 0
  busy : Bool := false
  pendingCommit : Bool := false
  hbEnabled : Bool := false
  snpSyncCtx : Option SnapshotSyncCtx := none
deriving DecidableEq, Repr

namespace Peer

/-- The constructor of `peer`. -/
def new (params : RaftParams) (config : SrvConfig) : Peer :=
  { config := config, currentHbInterval := params.heartBeatInterval }

def id (p : Peer) : Int := p.config.id

/-- `enable_hb`. -/
def enableHb (p : Peer) (enable : Bool) : Peer := { p with hbEnabled := enable }

/-- `slow_down_hb`. -/
def slowDownHb (params : RaftParams) (p : Peer) : Peer :=
  let slower := p.currentHbInterval + params.rpcFailureBackoff
  { p with currentHbInterval := min params.maxHbInterval slower }

/-- `resume_hb_speed`. -/
def resumeHbSpeed (params : RaftParams) (p : Peer) : Peer :=
  { p with currentHbInterval := params.heartBeatInterval }

/-- `set_snapshot_in_sync`. -/
def setSnapshotInSync (p : Peer) (s : Option Snapshot) : Peer :=
  { p with snpSyncCtx := s.map fun snp => { snapshot := snp } }

end Peer

/-- Where the committing thread is: at the wait, or in the inner loop of
`commit_in_bg` with its own copy of the commit index. -/
inductive BgThread
  | waiting
  | committing (currentCommitIdx : Nat)
deriving DecidableEq, Repr

/-- The state of a `raft_server`.  `snpPending` is the snapshot handed to
`create_snapshot` whose completion is outstanding, and `exited` says that the
process has ended. -/
structure Server where
  id : Int
  params : RaftParams := {}
  leader : Int := -1
  votesResponded : Nat := 0
  votesGranted : Nat := 0
  quickCommitIdx : Nat := 0
  electionCompleted : Bool := true
  configChanging : Bool := false
  catchingUp : Bool := false
  stepsToDown : Int := 0
  snpInProgress : Bool := false
  snpPending : Option Snapshot := none
  peers : List Peer := []
  role : SrvRole := .follower
  state : SrvState := {}
  logStore : LogStore := {}
  config : ClusterConfig := {}
  srvToJoin : Option Peer := none
  confToAdd : Option SrvConfig := none
  bg : BgThread := .waiting
  exited : Bool := false
deriving DecidableEq, Repr

/-- What a handler does that can be seen from outside the server object, in the
order in which it does it.  A message is noted with what the server state in memory
is when it leaves.  The last three are points of the code worth seeing in a history:
the start of `become_leader`, an append of an entry that does not come from
another server's log, with the role and the term of that moment, and a peer object
that leaves `peers_`, as it is then. -/
inductive Effect
  | send (req : ReqMsg) (memory : SrvState)
  | sendExt (req : ReqMsg) (memory : SrvState)
  | reply (resp : RespMsg) (memory : SrvState)
  | saveState (st : SrvState)
  | saveConfig (c : ClusterConfig)
  | systemExit (code : Int)
  | preCommit (idx : Nat) (e : LogEntry)
  | commit (idx : Nat) (e : LogEntry)
  | rollback (idx : Nat) (e : LogEntry)
  | saveSnapshotData (s : Snapshot) (offset : Nat) (data : Bytes)
  | applySnapshot (s : Snapshot)
  | createSnapshot (s : Snapshot)
  | becomeLeader (term : Nat) (votesGranted : Nat)
  | originate (role : SrvRole) (term : Nat) (idx : Nat) (e : LogEntry)
  | erasePeer (p : Peer)
deriving DecidableEq, Repr

/-- Why a handler did not run to its end: the process exits, an exception leaves
the handler, a null pointer is dereferenced, or a loop never ends. -/
inductive Stop
  | exit
  | throw
  | fault
  | hang
deriving DecidableEq, Repr

/-- What a `catch` block sees. -/
def Stop.caught : Stop → Bool
  | .throw => true
  | _ => false

/-- What the state machine and the file system answer during one step.
`bufPos idx` is where earlier reads left the cursor of the cached buffer of
entry `idx`. -/
structure Env where
  lastSnapshot : Option Snapshot := none
  saveSnapshotData : Bool := true
  applySnapshot : Bool := true
  readSnapshotData : Nat → Nat → Bytes := fun _ _ => []
  compact : Bool := true
  bufPos : Nat → Nat := fun _ => 0

/-- A handler of the server. -/
abbrev Action := Handler Server Effect Stop

namespace Server

/-- `peers_.find(id)`. -/
def findPeer (s : Server) (id : Int) : Option Peer := s.peers.find? (·.id = id)

/-- The ids under which peers are kept. -/
def peerIds (s : Server) : List Int := s.peers.map Peer.id

/-- Change the peer with this id. -/
def updatePeer (s : Server) (id : Int) (f : Peer → Peer) : Server :=
  { s with peers := s.peers.map fun p => if p.id = id then f p else p }

/-- The peer object a function is called on: one of `peers_`, or `srv_to_join_`. -/
inductive PeerRef
  | peer (id : Int)
  | joining
deriving DecidableEq, Repr

/-- The peer object itself. -/
def peerAt? (s : Server) : PeerRef → Option Peer
  | .peer id => s.findPeer id
  | .joining => s.srvToJoin

/-- Change the peer object. -/
def updateAt (s : Server) (r : PeerRef) (f : Peer → Peer) : Server :=
  match r with
  | .peer id => s.updatePeer id f
  | .joining => { s with srvToJoin := s.srvToJoin.map f }

/-- `unordered_map::insert` keeps what is there. -/
def insertPeer (peers : List Peer) (p : Peer) : List Peer :=
  if p.id ∈ peers.map Peer.id then peers else peers ++ [p]

/-- The constructor of `raft_server`: the persisted state, log and configuration
of an earlier run, or none. -/
def start (id : Int) (params : RaftParams) (state : Option SrvState) (logStore : LogStore)
    (config : ClusterConfig) : Server :=
  let st := state.getD {}
  { id := id
    params := params
    quickCommitIdx := st.commitIdx
    configChanging := logStore.pendingConf st.commitIdx
    peers := (config.servers.filter (·.id ≠ id)).foldl
      (fun peers srv => insertPeer peers (Peer.new params srv)) []
    state := st
    logStore := logStore
    config := config }

end Server

open Handler

/-- `system_exit(code)` followed by `::exit`. -/
def systemExitAndExit {α : Type} (code : Int) : Action α := do
  emit (.systemExit code)
  change fun s => { s with exited := true }
  halt .exit

/-- `save_state(*state_)`. -/
def saveState : Action Unit := do
  let s ← look
  emit (.saveState s.state)

/-- `send_req` of a peer with the handler of peer responses. -/
def sendReq (req : ReqMsg) : Action Unit := do
  let s ← look
  emit (.send req s.state)

/-- `send_req` of a peer with the handler of extended responses. -/
def sendExtReq (req : ReqMsg) : Action Unit := do
  let s ← look
  emit (.sendExt req s.state)

/-- A response leaves. -/
def reply (resp : RespMsg) : Action Unit := do
  let s ← look
  emit (.reply resp s.state)

/-- The peer object a reference stands for. -/
def derefPeer (r : Server.PeerRef) : Action Peer := do
  let s ← look
  match s.peerAt? r with
  | some p => pure p
  | none => halt .fault

/-- `log_store_->entry_at(idx)` where the result is used: a throw below the
store, a null pointer above it. -/
def entryAt (idx : Nat) : Action LogEntry := do
  let s ← look
  match s.logStore.entryAt? idx with
  | some e => pure e
  | none => if idx < s.logStore.startIdx then halt .throw else halt .fault

/-- `log_store_->term_at(idx)`. -/
def termAt (idx : Nat) : Action Nat := do
  let s ← look
  match s.logStore.termAt? idx with
  | some t => pure t
  | none => halt .throw

/-- `enable_hb(false)` and `peers_.erase` for the peer with this id, if there is one. -/
def erasePeer (pid : Int) : Action Unit := do
  let s ← look
  match s.findPeer pid with
  | none => pure ()
  | some p => do
    emit (.erasePeer (p.enableHb false))
    change fun s => { s with peers := s.peers.filter (·.id ≠ pid) }

/-- The server without this peer. -/
def Server.withoutPeer (s : Server) (pid : Int) : Server :=
  { s with peers := s.peers.filter (·.id ≠ pid) }

/-- Erasing a peer obeys a law if seeing it go and leaving it out do. -/
theorem obeys_erasePeer {R : Server → List Effect → Server → Prop} (hR : Law R) {s : Server} {pid : Int}
    (hsee : ∀ p, R s [.erasePeer p] s) (hdrop : R s [] (s.withoutPeer pid)) : Obeys R s (erasePeer pid) := by
  refine .look_bind ?_
  cases s.findPeer pid with
  | none => exact .pure hR _
  | some p => exact .emit_bind hR (hsee _) hdrop

theorem total_erasePeer (pid : Int) : Total (erasePeer pid) := by
  refine .look_bind fun s => ?_
  cases s.findPeer pid with
  | none => exact .pure _
  | some p => exact .bind (.emit _) fun _ => .change _

/-- `log_store_->append` of an entry of the server's own. -/
def originate (e : LogEntry) : Action Unit := do
  let s ← look
  emit (.originate s.role s.state.term s.logStore.nextSlot e)
  change fun s => { s with logStore := s.logStore.append e }

end Cornerstone
