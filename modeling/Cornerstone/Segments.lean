import Cornerstone.AppendEntries
import Cornerstone.Leadership

/-! # What a step of a server is made of

Whatever happens to a server, its handler goes through a few kinds of segments:
it takes up a new term, grants a vote, stands for election, writes entries of
another server or of its own to the log, commits an entry, and so on, with
sending and bookkeeping in between.  `Segment` lists them, each with what the
code has made sure of when it comes to it, and `handle_path` says that there is
nothing else.  The invariants of one server follow from the segments.
-/

namespace Cornerstone
open Handlers Handler Server Splice

/-- `t` is `s` but for fields that no invariant here rests on. -/
structure Bookkeeping (s t : Server) : Prop where
  rest : t = { s with
    leader := t.leader
    votesResponded := t.votesResponded
    votesGranted := t.votesGranted
    quickCommitIdx := t.quickCommitIdx
    catchingUp := t.catchingUp
    stepsToDown := t.stepsToDown
    snpInProgress := t.snpInProgress
    peers := t.peers
    srvToJoin := t.srvToJoin
    confToAdd := t.confToAdd
    exited := t.exited }
  exits : s.exited = true → t.exited = true

/-- Effects that no invariant here rests on, with the server state at `memory`.  A
request for votes is in the name of the server voted for. -/
def Effect.plain (memory : SrvState) : Effect → Bool
  | .send req m => m = memory ∧
      (req.type = .requestVoteRequest → m.term = req.term ∧ m.votedFor = req.src)
  | .sendExt _ m => m = memory
  | .reply _ _ | .saveState _ | .commit _ _ | .becomeLeader _ _ | .originate _ _ _ _ => false
  | _ => true

/-- The peer object of `handle_ext_resp_err`, once `handle_rpc_result` has slowed
it down. -/
def Server.failedPeer (s : Server) (via : Option PeerRef) (req : ReqMsg) : Option Peer :=
  (rpcResult via req.type true s).state.peerAt? (extPeer req)

/-- Whether an extended request has failed for the last time. -/
def Server.failsFinally (s : Server) (via : Option PeerRef) (req : ReqMsg) : Bool :=
  (s.failedPeer via req).any fun p => p.currentHbInterval ≥ s.params.maxHbInterval

/-- The configuration entry that follows the current configuration. -/
def Server.nextConfig (s : Server) (servers : List SrvConfig) : LogEntry :=
  ⟨s.state.term, (ClusterConfig.mk s.logStore.nextSlot s.config.logIdx servers).serialize, .conf⟩

/-- How an extended response or error brings a server to append a configuration. -/
inductive ChangesTo (s : Server) : Event → List SrvConfig → Prop
  | add {via : Option PeerRef} {reqType : MsgType} {resp : RespMsg} {srv : SrvConfig}
      (h : s.confToAdd = some srv) (hj : s.srvToJoin.isSome)
      (ht : resp.type = .syncLogResponse ∨ resp.accepted = true ∧
        (resp.type = .joinClusterResponse ∨ resp.type = .installSnapshotResponse)) :
      ChangesTo s (.extResp via reqType resp) (s.config.servers ++ [srv])
  | remove {via : Option PeerRef} {reqType : MsgType} {resp : RespMsg}
      (h : resp.type = .leaveClusterResponse ∧ resp.accepted = true) :
      ChangesTo s (.extResp via reqType resp) (s.config.servers.filter (·.id ≠ resp.src))
  | drop {via : Option PeerRef} {req : ReqMsg} (h : req.type = .leaveClusterRequest)
      (hf : s.failsFinally via req = true) (id : Int) :
      ChangesTo s (.extErr via req) (s.config.servers.filter (·.id ≠ id))

/-- The log has the entry a request starts behind, as far as it can tell. -/
def LogOkay (l : LogStore) (req : ReqMsg) : Prop :=
  req.lastLogIdx = 0 ∨ req.lastLogIdx < l.nextSlot ∧
    (l.startIdx ≤ req.lastLogIdx → l.termAt? req.lastLogIdx = some req.lastLogTerm)

/-- The request brings the last part of a snapshot of the log up to `n`. -/
def CompletesSnapshot (req : ReqMsg) (n : Nat) : Prop :=
  ∃ e syncReq, req.logEntries = [e] ∧ SnapshotSyncReq.deserialize e.buf = some syncReq ∧
    syncReq.done = true ∧ syncReq.snapshot.lastLogIdx = n

/-- How a server comes to take office: an election of its own is under way, or
it stands for election. -/
def MayLead (s₀ : Server) (ev : Event) : Prop :=
  s₀.electionCompleted = false ∨ ev = .electionTimeout ∧ s₀.role ≠ .leader

/-- The segments of what a server that was `s₀` does about the event `ev`. -/
inductive Segment (s₀ : Server) (ev : Event) : Server → List Effect → Server → Prop
  /-- Fields and effects that do not matter. -/
  | book {s t : Server} {o : List Effect} (h : Bookkeeping s t) (ho : ∀ e ∈ o, e.plain s.state) :
      Segment s₀ ev s o t
  /-- An answer leaves; a granted vote is the one the state says. -/
  | reply {s : Server} {resp : RespMsg}
      (h : resp.type = .requestVoteResponse → resp.accepted = true →
        resp.term = s.state.term ∧ resp.dst = s.state.votedFor ∧
        ∃ req, ev = .request req ∧ req.type = .requestVoteRequest ∧ req.src = resp.dst) :
      Segment s₀ ev s [.reply resp s.state] s
  | save (s : Server) : Segment s₀ ev s [.saveState s.state] s
  | stepDown (s : Server) : Segment s₀ ev s [] { s with role := .follower }
  | newTerm {s : Server} {term : Nat} (h : s.state.term < term) :
      Segment s₀ ev s [.saveState (s.inTerm term).state] (s.inTerm term)
  | grant {s : Server} {req : ReqMsg} (he : ev = .request req)
      (ht : req.type = .requestVoteRequest) (h : req.term = s.state.term)
      (hv : s.state.votedFor = req.src ∨ s.state.votedFor = -1) :
      Segment s₀ ev s [.saveState { s.state with votedFor := req.src }]
        { s with state := { s.state with votedFor := req.src } }
  | campaign (he : ev = .electionTimeout) (h : s₀.role ≠ .leader) :
      Segment s₀ ev s₀ s₀.campaignEffects s₀.campaign
  | electionDone (s : Server) : Segment s₀ ev s [] { s with electionCompleted := true }
  | lead {s : Server} (h : MayLead s₀ ev) :
      Segment s₀ ev s [.becomeLeader s.state.term s.votesGranted] s.leading
  /-- A leader without a configuration in its log appends one. -/
  | leadConfig {s : Server} (h : MayLead s₀ ev) (hr : s.role = .leader) (hz : s.config.logIdx = 0)
      (hc : s.config = s₀.config) (hl : s.logStore = s₀.logStore) (hf : s.configChanging = s₀.configChanging)
      (hs : s.state.commitIdx = s₀.state.commitIdx) :
      Segment s₀ ev s [.originate .leader s.state.term s.logStore.nextSlot s.firstConfigEntry]
        s.firstConfig
  /-- A membership change reaches the log. -/
  | changeConfig {s : Server} {servers : List SrvConfig} (hb : Bookkeeping s₀ s)
      (h : ChangesTo s₀ ev servers) :
      Segment s₀ ev s
        [.originate s.role s.state.term s.logStore.nextSlot (s.nextConfig servers)]
        { s with logStore := s.logStore.append (s.nextConfig servers), configChanging := true }
  | client {s : Server} {req : ReqMsg} {e : LogEntry} (he : ev = .request req)
      (ht : req.type = .clientRequest) (hr : s.role = .leader) (hs : s.state = s₀.state)
      (hr₀ : s₀.role = .leader) (hf : s.configChanging = s₀.configChanging)
      (hm : e ∈ req.logEntries) :
      Segment s₀ ev s
        [.originate s.role s.state.term s.logStore.nextSlot e, .preCommit s.logStore.nextSlot e]
        { s with logStore := s.logStore.append e }
  /-- The entries of an append_entries request reach the log. -/
  | replicate {s : Server} {req : ReqMsg} {o : List Effect} (he : ev = .request req)
      (ht : req.type = .appendEntriesRequest) (h : req.term = s.state.term)
      (hle : s₀.state.term ≤ s.state.term) (hl : s.logStore = s₀.logStore) (hf : s.configChanging = s₀.configChanging)
      (hs : s.state.commitIdx = s₀.state.commitIdx)
      (hge : s.logStore.startIdx ≤ req.lastLogIdx + 1)
      (hok : LogOkay s.logStore req) (ho : ∀ e ∈ o, e.plain s.state) :
      Segment s₀ ev s o (s.replicate req.lastLogIdx req.logEntries)
  | applyPack {req : ReqMsg} {e : LogEntry} {l : LogStore} (he : ev = .request req)
      (ht : req.type = .syncLogRequest) (hm : req.logEntries = [e]) (hc : s₀.catchingUp = true)
      (hl : s₀.logStore.applyPack (req.lastLogIdx + 1) e.buf = some l) :
      Segment s₀ ev s₀ [] { s₀ with logStore := l }
  | join {req : ReqMsg} {e : LogEntry} (he : ev = .request req)
      (ht : req.type = .joinClusterRequest) (hm : req.logEntries = [e]) (hv : e.valType = .conf)
      (hc : s₀.catchingUp = false) :
      Segment s₀ ev s₀ [.saveState { s₀.state.setCommitIdx 0 with votedFor := -1, term := req.term }]
        { s₀ with
          catchingUp := true
          role := .follower
          leader := req.src
          quickCommitIdx := 0
          state := { s₀.state.setCommitIdx 0 with votedFor := -1, term := req.term } }
  | joinConfig {s : Server} {req : ReqMsg} (he : ev = .request req)
      (ht : req.type = .joinClusterRequest) (c : ClusterConfig) :
      Segment s₀ ev s [] { s with config := c }
  /-- A snapshot takes the place of the log it covers. -/
  | install {s t : Server} {req : ReqMsg} {n : Nat} {o : List Effect} {c : ClusterConfig}
      (he : ev = .request req) (ht : req.type = .installSnapshotRequest)
      (hm : CompletesSnapshot req n) (hl : s.logStore = s₀.logStore) (hf : s.configChanging = s₀.configChanging)
      (hs : s.state.commitIdx = s₀.state.commitIdx) (hn : s.state.commitIdx < n)
      (hge : s.logStore.startIdx ≤ n)
      (hb : Bookkeeping { s with
        logStore := s.logStore.compact n, state := s.state.setCommitIdx n, config := c } t)
      (ho : ∀ e ∈ o, e.plain s.state) :
      Segment s₀ ev s (o ++ [.saveState t.state]) t
  /-- The process ends on the way. -/
  | quit {s t : Server} {o : List Effect} {l : LogStore} {c : ClusterConfig}
      (hl : l = s.logStore ∨ ∃ n, s.logStore.startIdx ≤ n ∧ l = s.logStore.compact n)
      (hb : Bookkeeping { s with logStore := l, config := c } t) (hx : t.exited = true)
      (ho : ∀ e ∈ o, e.plain s.state) : Segment s₀ ev s o t
  | giveUp {s : Server} {via : Option PeerRef} {req : ReqMsg} (hb : Bookkeeping s₀ s)
      (he : ev = .extErr via req)
      (ht : req.type = .syncLogRequest ∨ req.type = .joinClusterRequest)
      (h : s₀.failsFinally via req = true) :
      Segment s₀ ev s [] { s with configChanging := false }
  /-- The committing thread passes an entry that is no configuration. -/
  | commitEntry {cur : Nat} {e : LogEntry} (he : ev = .bgIter) (hbg : s₀.bg = .committing cur)
      (hm : hasMore s₀ cur = true) (hat : s₀.logStore.entryAt? (cur + 1) = some e)
      (hc : e.valType ≠ .conf) :
      Segment s₀ ev s₀ (if e.valType = .appLog then [.commit (cur + 1) e] else [])
        { s₀ with state := s₀.state.setCommitIdx (cur + 1), bg := .committing (cur + 1) }
  /-- The committing thread passes a configuration. -/
  | commitConfig {cur : Nat} {e : LogEntry} {newConf c : ClusterConfig} {rest : Bytes} {t : Server}
      {o : List Effect} (he : ev = .bgIter) (hbg : s₀.bg = .committing cur)
      (hm : hasMore s₀ cur = true) (hat : s₀.logStore.entryAt? (cur + 1) = some e)
      (hc : e.valType = .conf) (hd : ClusterConfig.deserialize e.buf = some (newConf, rest))
      (hcfg : s₀.config.logIdx < newConf.logIdx ∧ c = newConf ∨ c = s₀.config ∧
        (newConf.logIdx ≤ s₀.config.logIdx ∨ newConf.getServer s₀.id = none))
      (hb : Bookkeeping { s₀ with
        state := s₀.state.setCommitIdx (cur + 1), bg := .committing (cur + 1)
        configChanging := false, config := c } t) (ho : ∀ e ∈ o, e.plain s₀.state) :
      Segment s₀ ev s₀ o t
  | snapshot {s : Server} {snp : Snapshot} (h : snp.lastLogIdx ≤ s.state.commitIdx) :
      Segment s₀ ev s [] { s with snpPending := some snp }
  | compact {l : LogStore}
      (hl : l = s₀.logStore ∨ ∃ snp, s₀.snpPending = some snp ∧
        s₀.logStore.startIdx ≤ snp.lastLogIdx ∧ l = s₀.logStore.compact snp.lastLogIdx) :
      Segment s₀ ev s₀ [] { s₀ with snpPending := none, logStore := l }
  | wake (s : Server) : Segment s₀ ev s [] { s with bg := .committing s.state.commitIdx }
  | sleep (s : Server) : Segment s₀ ev s [] { s with bg := .waiting }

end Cornerstone
