import Cornerstone.FlagFrame
import Cornerstone.PeerMoves

/-! # Coming into office and leaving it

The role of a server, whether it is catching up, and which of its peers get heartbeats change
in a few ways only: `become_follower` where a message brings a later term or a candidate hears
of a leader, `become_leader`, a request to join another cluster, a committed configuration
that ends the catching up, and peers that are added or erased.  Every handler is a sequence
of these.
-/

namespace Cornerstone
open Handlers Handler Server

/-- A peer and whether it gets heartbeats. -/
def Peer.beat (p : Peer) : Int × Bool := (p.id, p.hbEnabled)

/-- The peers and which of them get heartbeats. -/
def Server.beats (s : Server) : List (Int × Bool) := s.peers.map Peer.beat

/-- The start of `become_leader`. -/
def Effect.takesOffice : Effect → Bool
  | .becomeLeader _ _ => true
  | _ => false

/-- A message with a later term than the server's: a request of the core algorithm or of a
snapshot transfer, or a response. -/
def Event.raises (s : Server) : Event → Bool
  | .request req => (req.type = .appendEntriesRequest ∨ req.type = .requestVoteRequest ∨
      req.type = .installSnapshotRequest) ∧ s.state.term < req.term
  | .peerResp _ _ resp => s.state.term < resp.term
  | _ => false

/-- The events that end an election. -/
def Event.elects : Event → Bool
  | .electionTimeout | .peerResp _ _ _ => true
  | _ => false

/-- The law of leaving the office and the heartbeats alone. -/
structure Still (s : Server) (o : List Effect) (t : Server) : Prop where
  role : t.role = s.role
  catching : t.catchingUp = s.catchingUp
  beats : t.beats = s.beats
  out : ∀ e ∈ o, e.takesOffice = false

theorem still_law : Law Still where
  refl _ := ⟨rfl, rfl, rfl, by simp⟩
  trans := by
    intro s t u o o' h h'
    refine ⟨h'.role.trans h.role, h'.catching.trans h.catching, h'.beats.trans h.beats, fun e he => ?_⟩
    rcases List.mem_append.mp he with he | he
    · exact h.out e he
    · exact h'.out e he

/-- One change of the office or the heartbeats, on the way of a server that was `s₀` through
the event `ev`. -/
inductive OfficeMove (s₀ : Server) (ev : Event) : Server → List Effect → Server → Prop
  | still {s t : Server} {o : List Effect} (h : Still s o t) : OfficeMove s₀ ev s o t
  | follow {s t : Server} (h : s.role ≠ .leader ∨ ev.raises s₀ = true) (hr : t.role = .follower)
      (hc : t.catchingUp = s.catchingUp) (hb : t.beats = s.beats.map fun b => (b.1, false)) :
      OfficeMove s₀ ev s [] t
  | stand {s t : Server} {o : List Effect} (h : s.role ≠ .leader) (hr : t.role = .candidate)
      (hc : t.catchingUp = s.catchingUp) (hb : t.beats = s.beats) (ho : ∀ e ∈ o, e.takesOffice = false) :
      OfficeMove s₀ ev s o t
  | lead {s t : Server} {u n : Nat} (he : ev.elects = true) (hr : t.role = .leader) (hc : t.catchingUp = s.catchingUp)
      (hb : t.beats = s.beats.map fun b => (b.1, true)) : OfficeMove s₀ ev s [.becomeLeader u n] t
  | join {s t : Server} {req : ReqMsg} (he : ev = .request req) (ht : req.type = .joinClusterRequest)
      (hr : t.role = .follower) (hc : t.catchingUp = true) (hb : t.beats = s.beats) : OfficeMove s₀ ev s [] t
  | caughtUp {s t : Server} (he : ev = .bgIter) (hr : t.role = s.role) (hc : t.catchingUp = false)
      (hb : t.beats = s.beats) : OfficeMove s₀ ev s [] t
  | add {s t : Server} {p : Peer} (hr : t.role = s.role) (hc : t.catchingUp = s.catchingUp)
      (hnew : p.id ∉ s.peerIds) (hhb : p.hbEnabled = decide (s.role = .leader))
      (hb : t.beats = s.beats ++ [p.beat]) : OfficeMove s₀ ev s [] t
  | erase {s t : Server} {p : Peer} (hr : t.role = s.role) (hc : t.catchingUp = s.catchingUp)
      (hb : t.beats = s.beats.filter (·.1 ≠ p.id)) : OfficeMove s₀ ev s [.erasePeer p] t

/-- The law of such changes. -/
abbrev Offices (s₀ : Server) (ev : Event) : Server → List Effect → Server → Prop := Path (OfficeMove s₀ ev)

variable {s₀ s t : Server} {ev : Event} {o : List Effect} {α : Type}

theorem offices_law : Law (Offices s₀ ev) := Path.law

/-! ## Single steps -/

theorem Still.offices (h : Still s o t) : Offices s₀ ev s o t := .single (.still h)

theorem still_same (hr : t.role = s.role) (hc : t.catchingUp = s.catchingUp) (hp : t.peers = s.peers)
    (ho : ∀ e ∈ o, e.takesOffice = false) : Still s o t :=
  ⟨hr, hc, by rw [Server.beats, hp, Server.beats], ho⟩

theorem still_emit {e : Effect} (h : e.takesOffice = false) : Still s [e] s :=
  still_same rfl rfl rfl (by simpa using h)

theorem still_exits : Exits Still := fun _ _ => still_same rfl rfl rfl (by simp [Effect.takesOffice])

theorem still_changed (hr : t.role = s.role) (hc : t.catchingUp = s.catchingUp) (hp : t.peers = s.peers) :
    Still s [] t := still_same hr hc hp (by simp)

/-- A change of fields that have nothing to do with the office. -/
theorem still_change {f : Server → Server} (hr : (f s).role = s.role) (hc : (f s).catchingUp = s.catchingUp)
    (hp : (f s).peers = s.peers) : Obeys Still s (change f : Action Unit) := still_changed hr hc hp

theorem offices_change {f : Server → Server} (hr : (f s).role = s.role) (hc : (f s).catchingUp = s.catchingUp)
    (hp : (f s).peers = s.peers) : Obeys (Offices s₀ ev) s (change f : Action Unit) :=
  (still_changed hr hc hp).offices

theorem offices_changed (hr : t.role = s.role) (hc : t.catchingUp = s.catchingUp) (hp : t.peers = s.peers) :
    Offices s₀ ev s [] t := (still_changed hr hc hp).offices

theorem offices_emit {e : Effect} (h : e.takesOffice = false) : Offices s₀ ev s [e] s := (still_emit h).offices

theorem offices_exits (s₀ : Server) (ev : Event) : Exits (Offices s₀ ev) := fun _ _ => (still_exits _ _).offices

theorem beats_map {f : Peer → Peer} (hf : ∀ p, (f p).beat = p.beat) (peers : List Peer) :
    (peers.map f).map Peer.beat = peers.map Peer.beat := by
  rw [List.map_map]
  exact List.map_congr_left fun p _ => hf p

theorem still_updateAt (r : PeerRef) {f : Peer → Peer} (hf : ∀ p, (f p).beat = p.beat) (s : Server) :
    Still s [] (s.updateAt r f) := by
  cases r with
  | peer pid =>
    refine ⟨rfl, rfl, beats_map (fun p => ?_) s.peers, by simp⟩
    split
    · exact hf p
    · rfl
  | joining => exact still_changed rfl rfl rfl

/-! ## Requests to the peers -/

theorem still_createSyncSnapshotReq (env : Env) (r : PeerRef) (n t c : Nat) :
    Obeys Still s (createSyncSnapshotReq env r n t c) := by
  refine .bind still_law (.bind still_law (reads_derefPeer still_law r) fun p _ => ?_) fun ctx _ =>
    .bind still_law (reads_derefPeer still_law r) fun p _ => .look_bind (.ite (fun _ => .halt still_law _) fun _ =>
      .ite (fun _ => reads_exit still_exits _) fun _ => .ite (fun _ => .halt still_law _) fun _ => .pure still_law _)
  split
  · exact .pure still_law _
  · exact reads_exit still_exits _
  · refine .ite (fun _ => reads_exit still_exits _) fun _ => .ite (fun _ => reads_exit still_exits _) fun _ => ?_
    exact .change_bind still_law (still_updateAt r (f := (·.setSnapshotInSync _)) (fun _ => rfl) _)
      (.pure still_law _)

theorem still_createAppendEntriesReq (env : Env) (pid : Int) :
    Obeys Still s (createAppendEntriesReq env pid) := by
  refine .look_bind (.change_bind still_law (still_updateAt (.peer pid) (fun p => ?_) s) ?_)
  · split <;> rfl
  refine .bind still_law (reads_derefPeer still_law _) fun p _ => .ite (fun _ => reads_exit still_exits _) fun _ =>
    .ite (fun _ => still_createSyncSnapshotReq env _ _ _ _) fun _ => ?_
  exact .bind still_law (reads_termForLog still_law still_exits env _) fun t _ =>
    .ite (fun _ => .halt still_law _) fun _ => .pure still_law _

theorem still_requestAppendEntriesTo (env : Env) (pid : Int) : Obeys Still s (requestAppendEntriesTo env pid) := by
  refine .look_bind ?_
  split
  · exact .pure still_law _
  · refine .ite (fun _ => .pure still_law _) fun _ => ?_
    refine .change_bind still_law (still_updateAt (.peer pid) (f := fun p => { p with busy := true })
      (fun _ => rfl) s) ?_
    refine .bind still_law (still_createAppendEntriesReq env pid) fun req _ => ?_
    exact .bind still_law (.look_bind (still_emit rfl)) fun _ _ => .pure still_law _

theorem still_commit (env : Env) (idx : Nat) : Obeys Still s (commit env idx) := by
  refine .look_bind (.ite (fun _ => .bind still_law (still_change rfl rfl rfl) fun _ _ => .ite (fun _ => ?_)
    fun _ => .pure still_law _) fun _ => .pure still_law _)
  refine .forEach still_law (fun _ => True) trivial fun pid _ u _ => ⟨?_, trivial⟩
  refine .bind still_law (still_requestAppendEntriesTo env pid) fun sent _ => .ite (fun _ => .pure still_law _)
    fun _ => ?_
  exact still_updateAt (.peer pid) (f := fun p => { p with pendingCommit := true }) (fun _ => rfl) _

theorem still_requestAppendEntries (env : Env) : Obeys Still s (requestAppendEntries env) := by
  refine .look_bind (.ite (fun _ => still_commit env _) fun _ => ?_)
  refine .forEach still_law (fun _ => True) trivial fun pid _ u _ => ⟨?_, trivial⟩
  exact .bind still_law (still_requestAppendEntriesTo env pid) fun _ _ => .pure still_law _

theorem still_continueWith (env : Env) (pid : Int) (b : Bool) : Obeys Still s (continueWith env pid b) :=
  .look_bind (.ite (fun _ => .bind still_law (still_requestAppendEntriesTo env pid) fun _ _ => .pure still_law _)
    fun _ => .pure still_law _)

theorem still_handleHbTimeout (env : Env) (pid : Int) : Obeys Still s (handleHbTimeout env pid) :=
  .look_bind (.ite (fun _ => .bind still_law (still_requestAppendEntriesTo env pid) fun _ _ => .pure still_law _)
    fun _ => .pure still_law _)

theorem still_sendExtReq (req : ReqMsg) : Obeys Still s (sendExtReq req) := .look_bind (still_emit rfl)

theorem still_originate (e : LogEntry) : Obeys Still s (originate e) :=
  .look_bind (.emit_bind still_law (still_emit rfl) (still_change rfl rfl rfl))

theorem still_rpcResult (via : Option PeerRef) (reqType : MsgType) (failed : Bool) :
    Obeys Still s (rpcResult via reqType failed) := by
  cases via with
  | none => exact .pure still_law _
  | some r =>
    refine still_updateAt r (fun p => ?_) s
    unfold Peer.rpcResult
    split_ifs <;> rfl

/-! ## Terms and elections -/

/-- **`become_follower`** takes a server out of office. -/
theorem offices_becomeFollower (h : s.role ≠ .leader ∨ ev.raises s₀ = true) :
    Obeys (Offices s₀ ev) s becomeFollower := by
  refine .single (.follow h rfl rfl ?_)
  change (s.peers.map (·.enableHb false)).map Peer.beat = (s.peers.map Peer.beat).map fun b => (b.1, false)
  rw [List.map_map, List.map_map]
  rfl

theorem offices_updateTerm {term : Nat} (h : s.state.term < term → ev.raises s₀ = true) :
    Obeys (Offices s₀ ev) s (updateTerm term) := by
  refine .look_bind (.ite (fun hlt => ?_) fun _ => .pure offices_law _)
  refine .change_bind offices_law (offices_changed rfl rfl rfl) ?_
  refine .bind offices_law (.look_bind (offices_emit rfl)) fun _ _ => ?_
  exact .bind offices_law (offices_becomeFollower (.inr (h hlt))) fun _ _ => .pure offices_law _

theorem offices_noteTerm {req : ReqMsg} (he : ev = .request req) : Obeys (Offices s ev) s (noteTerm req) := by
  refine .ite (fun htype => .bind offices_law (offices_updateTerm fun hlt => ?_) fun _ _ => ?_)
    fun _ => .pure offices_law _
  · rw [he]
    exact decide_eq_true ⟨htype, hlt⟩
  · refine offices_change ?_ ?_ ?_
    all_goals split <;> rfl

/-- A candidate follows a leader of its term; a leader ends its process. -/
theorem offices_followLeader (b : Bool) : Obeys (Offices s₀ ev) s (followLeader b) := by
  refine .look_bind (.ite (fun _ => .ite (fun hr => offices_becomeFollower (.inl ?_)) fun _ =>
    .ite (fun _ => reads_exit (offices_exits s₀ ev) _) fun _ => .pure offices_law _) fun _ => .pure offices_law _)
  rw [hr]
  decide

theorem still_handleVoteReq (req : ReqMsg) : Obeys Still s (handleVoteReq req) := by
  refine .look_bind (.ite (fun _ => ?_) fun _ => .pure still_law _)
  refine .bind still_law (still_change rfl rfl rfl) fun _ _ => ?_
  exact .bind still_law (.look_bind (still_emit rfl)) fun _ _ => .pure still_law _

/-- **`become_leader`** brings a server into office, and heartbeats to all its peers. -/
theorem offices_becomeLeader (env : Env) (he : ev.elects = true) : Obeys (Offices s₀ ev) s (becomeLeader env) := by
  unfold Obeys
  rw [becomeLeader_run]
  refine Handlers.Path.trans ?_ (Still.offices (still_requestAppendEntries env))
  have hlead : OfficeMove s₀ ev s [.becomeLeader s.state.term s.votesGranted] s.leading := by
    refine .lead he rfl rfl ?_
    change (s.peers.map _).map Peer.beat = (s.peers.map Peer.beat).map fun b => (b.1, true)
    rw [List.map_map, List.map_map]
    rfl
  have hrest : Still s.leading (if s.config.logIdx = 0 then
      [.originate .leader s.state.term s.logStore.nextSlot s.firstConfigEntry] else []) s.elected := by
    by_cases hz : s.config.logIdx = 0
    · rw [Server.elected, if_pos hz, if_pos hz]
      exact still_same rfl rfl rfl (by simp [Effect.takesOffice])
    · rw [Server.elected, if_neg hz, if_neg hz]
      exact still_law.refl _
  exact .step hlead hrest.offices

theorem Canvasses.still (h : Canvasses s o t) : Still s o t := by
  refine still_same ?_ ?_ ?_ fun e he => ?_
  · rw [h.rest]
  · rw [h.rest]
  · rw [h.rest]
  · rcases h.out e he with ⟨req, rfl, -⟩ | ⟨code, rfl⟩
    · rfl
    · rfl

theorem offices_handleElectionTimeout (env : Env) (he : ev.elects = true) :
    Obeys (Offices s₀ ev) s (handleElectionTimeout env) := by
  by_cases hstand : s.Standing
  · unfold Obeys
    rw [handleElectionTimeout_run env hstand]
    have hout : ∀ e ∈ s.campaignEffects, e.takesOffice = false := by
      simp [Server.campaignEffects, Effect.takesOffice]
    split
    · have hwon : OfficeMove s₀ ev s s.campaignEffects s.wonAlone := .stand hstand.role rfl rfl rfl hout
      exact Path.step hwon (offices_becomeLeader env he)
    · have hcampaign : OfficeMove s₀ ev s s.campaignEffects s.campaign := .stand hstand.role rfl rfl rfl hout
      exact Path.step hcampaign (Canvasses.still (canvasses_requestVotes env _)).offices
  · refine .look_bind (.ite (fun _ => ?_) fun hdown => .ite (fun _ => .pure offices_law _) fun hcatch =>
      .ite (fun _ => reads_exit (offices_exits s₀ ev) _) fun hr => ?_)
    · refine .bind offices_law (offices_change rfl rfl rfl) fun _ _ => .look_bind (.ite (fun _ => ?_)
        fun _ => .pure offices_law _)
      split
      · exact reads_exit (offices_exits s₀ ev) _
      · exact .bind offices_law (offices_change rfl rfl rfl) fun _ _ =>
          .look_bind (.emit_bind offices_law (offices_emit rfl) (reads_exit (offices_exits s₀ ev) _))
    · exact absurd ⟨hdown, Bool.eq_false_iff.mpr hcatch, hr⟩ hstand

theorem offices_handleVotingResp (env : Env) (resp : RespMsg) (he : ev.elects = true) :
    Obeys (Offices s₀ ev) s (handleVotingResp env resp) := by
  cases hgoing : s.electionCompleted with
  | true =>
    unfold Obeys
    rw [handleVotingResp_done env resp hgoing]
    exact offices_changed rfl rfl rfl
  | false =>
    have hrest := counted_rest (s := s) resp.accepted
    have hcount : Offices s₀ ev s [] (s.counted resp.accepted) := by
      rw [hrest]
      exact offices_changed rfl rfl rfl
    unfold Obeys
    rw [handleVotingResp_run env resp hgoing]
    split
    · have hdone : Offices s₀ ev (s.counted resp.accepted) []
          { s.counted resp.accepted with electionCompleted := true } := offices_changed rfl rfl rfl
      exact (hcount.trans hdone).trans (offices_becomeLeader env he)
    · exact hcount

/-! ## Requests -/

theorem still_appendLogOkay (env : Env) (req : ReqMsg) : Obeys Still s (appendLogOkay env req) := by
  refine .look_bind (.ite (fun _ => .pure still_law _) fun _ => .ite (fun _ => ?_) fun _ => .pure still_law _)
  exact .bind still_law (reads_termForLog still_law still_exits env _) fun _ _ => .pure still_law _

theorem still_skipOverlapped : ∀ {idx : Nat} {es : List LogEntry} {s : Server}, Obeys Still s (skipOverlapped idx es)
  | _, [], _ => .pure still_law _
  | _, _ :: _, _ => .look_bind (.ite (fun _ => .bind still_law (reads_entryAt still_law _) fun _ _ =>
      .ite (fun _ => still_skipOverlapped) fun _ => .pure still_law _) fun _ => .pure still_law _)

theorem still_overwriteEntries : ∀ {idx : Nat} {es : List LogEntry} {s : Server},
    Obeys Still s (overwriteEntries idx es)
  | _, [], _ => .pure still_law _
  | idx, e :: es, s => by
    have hgo : ∀ {u : Server}, Obeys Still u (do
        change fun s => { s with logStore := s.logStore.writeAt idx e }
        overwriteEntries (idx + 1) es) :=
      .change_bind still_law (still_changed rfl rfl rfl) still_overwriteEntries
    refine .look_bind (.ite (fun _ => .bind still_law (reads_entryAt still_law _) fun _ _ => ?_)
      fun _ => .pure still_law _)
    refine .ite (fun _ => .emit_bind still_law (still_emit rfl) hgo) fun _ => .ite (fun _ => ?_) fun _ => hgo
    exact .change_bind still_law (still_changed rfl rfl rfl) hgo

theorem still_appendNewEntries : ∀ {es : List LogEntry} {s : Server}, Obeys Still s (appendNewEntries es)
  | [], _ => .pure still_law _
  | e :: es, s => by
    refine .look_bind (.change_bind still_law (still_changed rfl rfl rfl) (.ite (fun _ => ?_) fun _ => ?_))
    · exact .change_bind still_law (still_changed rfl rfl rfl) still_appendNewEntries
    · exact .emit_bind still_law (still_emit rfl) still_appendNewEntries

theorem still_writeEntries (prev : Nat) (es : List LogEntry) : Obeys Still s (writeEntries prev es) :=
  .bind still_law still_skipOverlapped fun _ _ => .bind still_law still_overwriteEntries fun _ _ =>
    still_appendNewEntries

theorem offices_handleAppendEntries (env : Env) (req : ReqMsg) :
    Obeys (Offices s₀ ev) s (handleAppendEntries env req) := by
  refine .look_bind (.bind offices_law (offices_followLeader _) fun _ _ => .look_bind ?_)
  refine .bind offices_law (Still.offices (still_appendLogOkay env req)) fun okay _ =>
    .ite (fun _ => .pure offices_law _) fun _ => ?_
  refine .bind offices_law (Still.offices (still_writeEntries _ _)) fun _ _ => ?_
  refine .bind offices_law (offices_change rfl rfl rfl) fun _ _ => ?_
  exact .bind offices_law (Still.offices (still_commit env _)) fun _ _ => .pure offices_law _

theorem still_appendClientEntries : ∀ {es : List LogEntry} {s : Server}, Obeys Still s (appendClientEntries es)
  | [], _ => .pure still_law _
  | e :: _, _ => .bind still_law (still_originate e) fun _ _ => .look_bind
      (.emit_bind still_law (still_emit rfl) still_appendClientEntries)

theorem still_handleCliReq (env : Env) (req : ReqMsg) : Obeys Still s (handleCliReq env req) :=
  .look_bind (.ite (fun _ => .pure still_law _) fun _ => .bind still_law still_appendClientEntries fun _ _ =>
    .bind still_law (still_requestAppendEntries env) fun _ _ => .look_bind (.pure still_law _))

theorem still_handleAddSrvReq (req : ReqMsg) : Obeys Still s (handleAddSrvReq req) := by
  refine .look_bind ?_
  split
  · refine .ite (fun _ => .pure still_law _) fun _ => .ite (fun _ => .pure still_law _) fun _ => ?_
    split
    · exact .halt still_law _
    · refine .ite (fun _ => .pure still_law _) fun _ => .ite (fun _ => .pure still_law _) fun _ => ?_
      refine .bind still_law (still_change rfl rfl rfl) fun _ _ => ?_
      exact .bind still_law (.bind still_law (reads_derefPeer still_law _) fun _ _ =>
        .look_bind (still_sendExtReq _)) fun _ _ => .pure still_law _
  · exact .pure still_law _

theorem still_handleRmSrvReq (req : ReqMsg) : Obeys Still s (handleRmSrvReq req) := by
  refine .look_bind ?_
  split
  · refine .ite (fun _ => .pure still_law _) fun _ => .ite (fun _ => .pure still_law _)
      fun _ => .ite (fun _ => .pure still_law _) fun _ => ?_
    split
    · exact .halt still_law _
    · refine .ite (fun _ => .pure still_law _) fun _ => ?_
      split
      · exact .pure still_law _
      · exact .bind still_law (still_sendExtReq _) fun _ _ => .pure still_law _
  · exact .pure still_law _

theorem still_handleLeaveClusterReq (req : ReqMsg) : Obeys Still s (handleLeaveClusterReq req) :=
  .look_bind (.ite (fun _ => .bind still_law (still_change rfl rfl rfl) fun _ _ => .pure still_law _)
    fun _ => .pure still_law _)

theorem still_handleLogSyncReq (env : Env) (req : ReqMsg) : Obeys Still s (handleLogSyncReq env req) := by
  refine .look_bind ?_
  split
  · refine .ite (fun _ => .pure still_law _) fun _ => .ite (fun _ => .pure still_law _) fun _ => ?_
    split
    · exact .halt still_law _
    · exact .bind still_law (still_change rfl rfl rfl) fun _ _ => .bind still_law (still_commit env _) fun _ _ =>
        .look_bind (.pure still_law _)
  · exact .pure still_law _

/-! ## Configurations -/

theorem offices_addServer (srv : SrvConfig) : Obeys (Offices s₀ ev) s (addServer srv) := by
  unfold Obeys
  rw [addServer_run]
  by_cases hnew : (s.addedPeer srv).id ∈ s.peerIds
  · have hp : (s.withServer srv).peers = s.peers := if_pos hnew
    exact offices_changed rfl rfl hp
  · have hp : (s.withServer srv).peers = s.peers ++ [s.addedPeer srv] := if_neg hnew
    refine .single (.add (p := s.addedPeer srv) rfl rfl hnew rfl ?_)
    rw [Server.beats, hp, List.map_append]
    rfl

theorem offices_erasePeer (pid : Int) : Obeys (Offices s₀ ev) s (erasePeer pid) := by
  refine .look_bind ?_
  cases hp : s.findPeer pid with
  | none => exact .pure offices_law _
  | some p =>
    obtain ⟨-, rfl⟩ := findPeer_mem hp
    have herase : OfficeMove s₀ ev s [.erasePeer (p.enableHb false)] (s.withoutPeer p.id) := by
      refine .erase rfl rfl ?_
      rw [Server.beats, Server.beats, Server.withoutPeer, List.filter_map]
      rfl
    exact .single herase

theorem offices_removeServers (newConfig : ClusterConfig) : ∀ {pids : List Int} {s : Server},
    Obeys (Offices s₀ ev) s (removeServers newConfig pids)
  | [], _ => .pure offices_law _
  | q :: _, _ => by
    refine .look_bind (.ite (fun _ => ?_) fun _ => ?_)
    · exact .emit_bind offices_law (offices_emit rfl) (.emit_bind offices_law (offices_emit rfl)
        (.pure offices_law _))
    · exact .bind offices_law (offices_erasePeer q) fun _ _ => offices_removeServers newConfig

/-- **`reconfigure`** adds and erases peers. -/
theorem offices_reconfigure (newConfig : ClusterConfig) : Obeys (Offices s₀ ev) s (reconfigure newConfig) := by
  refine .look_bind (.bind offices_law ?_ fun _ _ => .bind offices_law (offices_removeServers _) fun _ _ => ?_)
  · exact .forEach offices_law (fun _ => True) trivial fun srv _ u _ => ⟨offices_addServer srv, trivial⟩
  · exact .ite (fun _ => .pure offices_law _) fun _ => offices_change rfl rfl rfl

theorem offices_handleJoinClusterReq {req : ReqMsg} (he : ev = .request req) (ht : req.type = .joinClusterRequest) :
    Obeys (Offices s₀ ev) s (handleJoinClusterReq req) := by
  refine .look_bind ?_
  split
  · refine .ite (fun _ => .pure offices_law _) fun _ => .ite (fun _ => .pure offices_law _) fun _ => ?_
    refine .change_bind offices_law (Handlers.Path.single (.join he ht rfl rfl rfl)) ?_
    refine .bind offices_law (.look_bind (offices_emit rfl)) fun _ _ => ?_
    split
    · exact .halt offices_law _
    · exact .bind offices_law (offices_reconfigure _) fun _ _ => .look_bind (.pure offices_law _)
  · exact .pure offices_law _

theorem offices_handleInstallSnapshotReq (env : Env) (req : ReqMsg) :
    Obeys (Offices s₀ ev) s (handleInstallSnapshotReq env req) := by
  have hlaw : Law (Offices s₀ ev) := offices_law
  have hexit : ∀ {u : Server} {α : Type} (code : Int), Obeys (Offices s₀ ev) u (systemExitAndExit code : Action α) :=
    fun code => reads_exit (offices_exits s₀ ev) code
  refine .look_bind (.bind hlaw (offices_followLeader _) fun _ _ => .look_bind (.ite (fun _ => .pure hlaw _)
    fun _ => ?_))
  split
  · refine .ite (fun _ => .pure hlaw _) fun _ => ?_
    split
    · exact .halt hlaw _
    · refine .ite (fun _ => .pure hlaw _) fun _ => .bind hlaw (.rescue hlaw ?_ (hexit _)) fun _ _ =>
        .ite (fun _ => .pure hlaw _) fun _ => .pure hlaw _
      refine .ite (fun _ => .halt hlaw _) fun _ => .emit_bind hlaw (offices_emit rfl) (.ite (fun _ => ?_)
        fun _ => .pure hlaw _)
      refine .look_bind (.ite (fun _ => hexit _) fun _ => .ite (fun _ => .halt hlaw _) fun _ => .ite (fun _ => ?_)
        fun _ => .pure hlaw _)
      refine .bind hlaw (offices_change rfl rfl rfl) fun _ _ => .ite (fun _ => hexit _) fun _ =>
        .emit_bind hlaw (offices_emit rfl) (.bind hlaw (offices_reconfigure _) fun _ _ => ?_)
      exact .look_bind (.emit_bind hlaw (offices_emit rfl) (.change_bind hlaw (offices_changed rfl rfl rfl)
        (.bind hlaw (.look_bind (offices_emit rfl)) fun _ _ => .pure hlaw _)))
  · exact .pure hlaw _

theorem offices_answerReq (env : Env) {req : ReqMsg} (he : ev = .request req) :
    Obeys (Offices s₀ ev) s (answerReq env req) := by
  unfold answerReq handleExtendedMsg
  split
  · exact offices_handleAppendEntries env req
  · exact Still.offices (still_handleVoteReq req)
  · exact Still.offices (still_handleCliReq env req)
  · split
    · exact Still.offices (still_handleAddSrvReq req)
    · exact Still.offices (still_handleRmSrvReq req)
    · exact Still.offices (still_handleLogSyncReq env req)
    · exact offices_handleJoinClusterReq he ‹_›
    · exact Still.offices (still_handleLeaveClusterReq req)
    · exact offices_handleInstallSnapshotReq env req
    · exact reads_exit (offices_exits s₀ ev) _

theorem offices_processReq (env : Env) {req : ReqMsg} (he : ev = .request req) :
    Obeys (Offices s ev) s (processReq env req) :=
  .bind offices_law (offices_noteTerm he) fun _ _ => .bind offices_law (offices_answerReq env he) fun _ _ =>
    .look_bind (offices_emit rfl)

/-! ## Responses -/

theorem still_handleAppendEntriesResp (env : Env) (resp : RespMsg) :
    Obeys Still s (handleAppendEntriesResp env resp) := by
  refine .look_bind ?_
  split
  · exact .pure still_law _
  · have hgo : ∀ {x : Action Bool}, Obeys Still s x → Obeys Still s (x >>= continueWith env resp.src) :=
      fun hx => .bind still_law hx fun b _ => still_continueWith env resp.src b
    refine .ite (fun _ => hgo ?_) fun _ => hgo (.ite (fun _ => ?_) fun _ => ?_)
    · refine .bind still_law (still_updateAt (.peer resp.src) (f := fun p => { p with
        nextLogIdx := resp.nextIdx, matchedIdx := ulongSub resp.nextIdx 1 }) (fun _ => rfl) s) fun _ _ => ?_
      refine .look_bind (.bind still_law (still_commit env _) fun _ _ => .look_bind (.bind still_law ?_ fun _ _ =>
        .pure still_law _))
      exact still_updateAt (.peer resp.src) (f := fun p => { p with pendingCommit := false }) (fun _ => rfl) _
    · refine .bind still_law ?_ fun _ _ => .pure still_law _
      exact still_updateAt (.peer resp.src) (f := fun p => { p with nextLogIdx := resp.nextIdx }) (fun _ => rfl) s
    · refine .bind still_law ?_ fun _ _ => .pure still_law _
      have hbeat : ∀ (p : Peer) (n : Nat), ({ p with nextLogIdx := n } : Peer).beat = p.beat := fun _ _ => rfl
      exact still_updateAt (.peer resp.src) (f := fun p => { p with nextLogIdx := ulongSub p.nextLogIdx 1 })
        (fun p => hbeat p _) s

theorem still_handleInstallSnapshotResp (env : Env) (resp : RespMsg) :
    Obeys Still s (handleInstallSnapshotResp env resp) := by
  refine .look_bind ?_
  split
  · exact .pure still_law _
  · rename_i p _
    have hgo : ∀ {x : Action Bool}, Obeys Still s x → Obeys Still s (x >>= continueWith env resp.src) :=
      fun hx => .bind still_law hx fun b _ => still_continueWith env resp.src b
    refine .ite (fun _ => hgo ?_) fun _ => hgo (.pure still_law _)
    unfold acceptedSnapshot
    cases p.snpSyncCtx with
    | none => exact .pure still_law _
    | some ctx =>
      refine .look_bind (.ite (fun _ => .bind still_law ?_ fun _ _ => .pure still_law _) fun _ =>
        .bind still_law ?_ fun _ _ => .pure still_law _)
      · exact still_updateAt (.peer resp.src) (f := fun p => { p with
          nextLogIdx := ctx.snapshot.lastLogIdx + 1, matchedIdx := ctx.snapshot.lastLogIdx
          snpSyncCtx := none, pendingCommit := false }) (fun _ => rfl) s
      · exact still_updateAt (.peer resp.src) (f := fun p => { p with
          snpSyncCtx := some { ctx with offset := resp.nextIdx } }) (fun _ => rfl) s

theorem offices_handlePeerResp (env : Env) {resp : RespMsg} (he : ev.elects = true)
    (h : s.state.term < resp.term → ev.raises s₀ = true) :
    Obeys (Offices s₀ ev) s (handlePeerResp env resp) := by
  refine .bind offices_law (offices_updateTerm h) fun updated _ => .ite (fun _ => .pure offices_law _) fun _ => ?_
  split
  · exact offices_handleVotingResp env resp he
  · exact Still.offices (still_handleAppendEntriesResp env resp)
  · exact Still.offices (still_handleInstallSnapshotResp env resp)
  · exact reads_exit (offices_exits s₀ ev) _

/-! ## Extended responses -/

theorem still_appendConfig (servers : List SrvConfig) : Obeys Still s (appendConfig servers) :=
  .look_bind (.bind still_law (still_originate _) fun _ _ => still_change rfl rfl rfl)

theorem still_rmSrvFromCluster (env : Env) (srvId : Int) : Obeys Still s (rmSrvFromCluster env srvId) :=
  .look_bind (.bind still_law (still_appendConfig _) fun _ _ => still_requestAppendEntries env)

theorem still_syncLogToNewSrv (env : Env) (startIdx : Nat) : Obeys Still s (syncLogToNewSrv env startIdx) := by
  refine .look_bind (.bind still_law (reads_derefPeer still_law _) fun p _ => .ite (fun _ => ?_) fun _ =>
    .ite (fun _ => ?_) fun _ => ?_)
  · split
    · exact .halt still_law _
    · exact .bind still_law (still_appendConfig _) fun _ _ => still_requestAppendEntries env
  · exact .bind still_law (still_createSyncSnapshotReq env _ _ _ _) fun _ _ => still_sendExtReq _
  · split
    · exact .halt still_law _
    · exact still_sendExtReq _

theorem still_joining (f : Peer → Peer) : Obeys Still s (change (·.updateAt .joining f) : Action Unit) :=
  still_change rfl rfl rfl

theorem still_handleExtSnapshotResp (env : Env) (resp : RespMsg) :
    Obeys Still s (handleExtSnapshotResp env resp) := by
  refine .look_bind ?_
  split
  · exact .pure still_law _
  · refine .ite (fun _ => .pure still_law _) fun _ => ?_
    split
    · exact reads_exit still_exits _
    · refine .ite (fun _ => ?_) fun _ => ?_
      all_goals
        refine .bind still_law (still_joining _) fun _ _ => ?_
        exact .bind still_law (reads_derefPeer still_law _) fun _ _ => still_syncLogToNewSrv env _

theorem still_handleExtResp (env : Env) (resp : RespMsg) : Obeys Still s (handleExtResp env resp) := by
  refine .look_bind ?_
  split
  · split
    · exact .pure still_law _
    · exact .bind still_law (still_change rfl rfl rfl) fun _ _ => still_syncLogToNewSrv env _
  · split
    · exact .pure still_law _
    · exact .ite (fun _ => still_syncLogToNewSrv env _) fun _ => .pure still_law _
  · exact .ite (fun _ => still_rmSrvFromCluster env _) fun _ => .pure still_law _
  · exact still_handleExtSnapshotResp env resp
  · exact reads_exit still_exits _

theorem offices_handleExtRespErr (env : Env) (req : ReqMsg) :
    Obeys (Offices s₀ ev) s (handleExtRespErr env req) := by
  refine .ite (fun _ => .look_bind ?_) fun _ => .pure offices_law _
  split
  · exact .pure offices_law _
  · refine .ite (fun _ => .ite (fun _ => ?_) fun _ => offices_change rfl rfl rfl) fun _ => Still.offices ?_
    · refine .ite (fun _ => ?_) fun _ => Still.offices (still_rmSrvFromCluster env _)
      exact .bind offices_law (offices_erasePeer _) fun _ _ => Still.offices (still_rmSrvFromCluster env _)
    · exact still_updateAt (extPeer req) (f := Peer.slowDownHb s.params) (fun _ => rfl) s

/-! ## The committing thread -/

theorem still_onSnapshotCompleted (env : Env) (result : Bool) :
    Obeys Still s (onSnapshotCompleted env result) := by
  refine .look_bind ?_
  split
  · exact .pure still_law _
  · exact .ite (fun _ => .change_bind still_law (still_changed rfl rfl rfl) (.halt still_law _))
      fun _ => still_change rfl rfl rfl

theorem still_bgWake : Obeys Still s bgWake :=
  .look_bind (.ite (fun _ => still_change rfl rfl rfl) fun _ => .pure still_law _)

theorem still_snapshotAndCompact (env : Env) (committedIdx : Nat) :
    Obeys Still s (snapshotAndCompact env committedIdx) := by
  refine .look_bind (.ite (fun _ => .bind still_law (still_change rfl rfl rfl) fun _ _ => ?_)
    fun _ => .pure still_law _)
  refine .ite (fun _ => still_change rfl rfl rfl) fun _ => .rescue still_law ?_ (still_change rfl rfl rfl)
  refine .look_bind (.bind still_law (reads_confInForce still_law env _) fun _ _ =>
    .bind still_law (reads_confOrSnapshot still_law still_exits env _ _) fun _ _ =>
    .bind still_law (reads_termAt still_law _) fun _ _ => ?_)
  exact .bind still_law (still_change rfl rfl rfl) fun _ _ => still_emit rfl

/-- A committed configuration may end the catching up. -/
theorem offices_commitConfig (he : ev = .bgIter) (e : LogEntry) : Obeys (Offices s₀ ev) s (commitConfig e) := by
  unfold commitConfig
  cases ClusterConfig.deserialize e.buf with
  | none => exact .halt offices_law _
  | some p =>
    refine .emit_bind offices_law (offices_emit rfl) (.change_bind offices_law (offices_changed rfl rfl rfl)
      (.bind offices_law ?_ fun _ _ => ?_))
    · exact .look_bind (.ite (fun _ => offices_reconfigure _) fun _ => .pure offices_law _)
    · unfold Obeys
      rw [change_run]
      generalize hu : (_ : Server) = u
      unfold Server.caughtUp
      split
      · exact .single (.caughtUp he rfl rfl rfl)
      · exact offices_law.refl _

theorem offices_bgIter (env : Env) (he : ev = .bgIter) : Obeys (Offices s₀ ev) s (bgIter env) := by
  refine .look_bind ?_
  split
  · exact .pure offices_law _
  · refine .ite (fun _ => .rescue offices_law ?_ (reads_exit (offices_exits s₀ ev) _)) fun _ => ?_
    · refine .bind offices_law (reads_entryAt offices_law _) fun e _ => .bind offices_law ?_ fun _ _ => ?_
      · exact .ite (fun _ => offices_emit rfl) fun _ => .ite (fun _ => offices_commitConfig he e)
          fun _ => .pure offices_law _
      · exact .bind offices_law (offices_change rfl rfl rfl) fun _ _ => Still.offices (still_snapshotAndCompact env _)
    · exact .bind offices_law (.look_bind (offices_emit rfl)) fun _ _ => offices_change rfl rfl rfl

/-- **Whatever happens** to a server changes its office and its heartbeats in the known ways. -/
theorem handle_offices (env : Env) (ev : Event) (s : Server) : Obeys (Offices s ev) s (handle env ev) := by
  cases ev with
  | request req => exact offices_processReq env rfl
  | peerResp via reqType resp =>
    have hstate := (sends_rpcResult (s := s) via reqType false).quiet.state_eq
    refine .bind offices_law (Still.offices (still_rpcResult via reqType false)) fun _ _ => ?_
    refine offices_handlePeerResp env rfl fun hlt => ?_
    rw [hstate] at hlt
    exact decide_eq_true hlt
  | peerErr via reqType => exact Still.offices (still_rpcResult via reqType true)
  | extResp via reqType resp =>
    exact .bind offices_law (Still.offices (still_rpcResult via reqType false)) fun _ _ =>
      Still.offices (still_handleExtResp env resp)
  | extErr via req =>
    exact .bind offices_law (Still.offices (still_rpcResult via req.type true)) fun _ _ =>
      offices_handleExtRespErr env req
  | extRetry req => exact Still.offices (still_sendExtReq req)
  | electionTimeout => exact offices_handleElectionTimeout env rfl
  | hbTimeout pid => exact Still.offices (still_handleHbTimeout env pid)
  | bgWake => exact Still.offices still_bgWake
  | bgIter => exact offices_bgIter env rfl
  | snapshotCompleted result => exact Still.offices (still_onSnapshotCompleted env result)

/-! ## What follows for an event -/

/-- All peers get heartbeats. -/
def Server.AllBeat (s : Server) : Prop := ∀ p ∈ s.peers, p.hbEnabled = true

theorem allBeat_iff : s.AllBeat ↔ ∀ b ∈ s.beats, b.2 = true := by
  rw [Server.AllBeat, Server.beats, List.forall_mem_map]
  rfl

theorem allBeat_of_beats (h : t.beats = s.beats) (hs : s.AllBeat) : t.AllBeat := by
  rw [allBeat_iff] at hs ⊢
  rw [h]
  exact hs

/-- How a server comes to be in office: it takes it, and all peers get heartbeats, or it was
in office before, and heartbeats go on. -/
def ComesToLead (s : Server) (o : List Effect) (t : Server) : Prop :=
  t.role = .leader → (∃ e ∈ o, e.takesOffice = true) ∧ t.AllBeat ∨ s.role = .leader ∧ (s.AllBeat → t.AllBeat)

theorem comesToLead_law : Law ComesToLead where
  refl _ := fun h => .inr ⟨h, id⟩
  trans := by
    intro s t u o o' h h' hu
    rcases h' hu with ⟨⟨e, he, htakes⟩, hall⟩ | ⟨ht, hgoes⟩
    · exact .inl ⟨⟨e, List.mem_append_right _ he, htakes⟩, hall⟩
    · rcases h ht with ⟨⟨e, he, htakes⟩, hall⟩ | ⟨hs, hgoes'⟩
      · exact .inl ⟨⟨e, List.mem_append_left _ he, htakes⟩, hgoes hall⟩
      · exact .inr ⟨hs, fun hall => hgoes (hgoes' hall)⟩

theorem OfficeMove.comesToLead (h : OfficeMove s₀ ev s o t) : ComesToLead s o t := by
  intro ht
  cases h with
  | still h => exact .inr ⟨h.role ▸ ht, allBeat_of_beats h.beats⟩
  | follow h hr hc hb =>
    rw [hr] at ht
    cases ht
  | stand h hr hc hb ho =>
    rw [hr] at ht
    cases ht
  | lead he hr hc hb =>
    refine .inl ⟨⟨_, List.mem_singleton_self _, rfl⟩, ?_⟩
    rw [allBeat_iff, hb]
    intro b hmem
    obtain ⟨b', -, rfl⟩ := List.mem_map.mp hmem
    rfl
  | join he htype hr hc hb =>
    rw [hr] at ht
    cases ht
  | caughtUp he hr hc hb => exact .inr ⟨hr ▸ ht, allBeat_of_beats hb⟩
  | add hr hc hnew hhb hb =>
    have hs : s.role = .leader := hr ▸ ht
    refine .inr ⟨hs, fun hall => ?_⟩
    rw [allBeat_iff] at hall ⊢
    rw [hb]
    intro b hmem
    rcases List.mem_append.mp hmem with hmem | hmem
    · exact hall b hmem
    · rw [List.mem_singleton.mp hmem]
      exact hhb.trans (decide_eq_true hs)
  | erase hr hc hb =>
    refine .inr ⟨hr ▸ ht, fun hall => ?_⟩
    rw [allBeat_iff] at hall ⊢
    rw [hb]
    exact fun b hmem => hall b (List.mem_of_mem_filter hmem)

theorem handle_comesToLead (env : Env) (ev : Event) (s : Server) : Obeys ComesToLead s (handle env ev) :=
  (handle_offices env ev s).lift comesToLead_law fun _ _ _ h => h.comesToLead

/-- Office is taken at the end of an election only. -/
theorem OfficeMove.elects {e : Effect} (h : OfficeMove s₀ ev s o t) (he : e ∈ o) (htakes : e.takesOffice = true) :
    ev.elects = true := by
  cases h with
  | still h =>
    rw [h.out e he] at htakes
    cases htakes
  | follow | join | caughtUp | add => cases he
  | stand h hr hc hb ho =>
    rw [ho e he] at htakes
    cases htakes
  | lead helects hr hc hb => exact helects
  | erase hr hc hb =>
    rw [List.mem_singleton.mp he] at htakes
    cases htakes

theorem Offices.elects {e : Effect} (h : Offices s₀ ev s o t) (he : e ∈ o) (htakes : e.takesOffice = true) :
    ev.elects = true := by
  induction h with
  | refl s => cases he
  | step hmove _ ih =>
    rcases List.mem_append.mp he with he | he
    · exact hmove.elects he htakes
    · exact ih he

/-- How a server that is in office or takes it comes out of it: by a later term, or into
another cluster. -/
structure LeavesOffice (s₀ : Server) (ev : Event) (s : Server) (o : List Effect) (t : Server) : Prop where
  role : ev.raises s₀ = false → s.role = .leader ∨ (∃ e ∈ o, e.takesOffice = true) →
    t.role = .leader ∨ t.catchingUp = true ∧ ev ≠ .bgIter
  catching : ev ≠ .bgIter → s.catchingUp = true → t.catchingUp = true

theorem leavesOffice_law : Law (LeavesOffice s₀ ev) where
  refl _ := ⟨fun _ h => h.elim .inl (by simp), fun _ h => h⟩
  trans := by
    intro s t u o o' h h'
    refine ⟨fun hraises hs => ?_, fun hne hs => h'.catching hne (h.catching hne hs)⟩
    have hgoes : s.role = .leader ∨ (∃ e ∈ o, e.takesOffice = true) →
        u.role = .leader ∨ u.catchingUp = true ∧ ev ≠ .bgIter := by
      intro hs
      rcases h.role hraises hs with ht | ⟨hcatch, hne⟩
      · exact h'.role hraises (.inl ht)
      · exact .inr ⟨h'.catching hne hcatch, hne⟩
    rcases hs with hs | ⟨e, he, htakes⟩
    · exact hgoes (.inl hs)
    · rcases List.mem_append.mp he with he | he
      · exact hgoes (.inr ⟨e, he, htakes⟩)
      · exact h'.role hraises (.inr ⟨e, he, htakes⟩)

/-- A step that keeps the role and takes no office. -/
theorem leavesOffice_same (hr : t.role = s.role) (ho : ∀ e ∈ o, e.takesOffice = false)
    (hc : ev ≠ .bgIter → s.catchingUp = true → t.catchingUp = true) : LeavesOffice s₀ ev s o t := by
  refine ⟨fun _ hs => ?_, hc⟩
  rcases hs with hs | ⟨e, he, htakes⟩
  · exact .inl (hr.trans hs)
  · rw [ho e he] at htakes
    cases htakes

theorem OfficeMove.leavesOffice (h : OfficeMove s₀ ev s o t) : LeavesOffice s₀ ev s o t := by
  cases h with
  | still h => exact leavesOffice_same h.role h.out fun _ hs => h.catching.trans hs
  | follow h hr hc hb =>
    refine ⟨fun hraises hs => ?_, fun _ hs => hc.trans hs⟩
    rcases h with h | h
    · exact absurd (hs.resolve_right (by simp)) h
    · rw [hraises] at h
      cases h
  | stand h hr hc hb ho =>
    refine ⟨fun _ hs => ?_, fun _ hs => hc.trans hs⟩
    rcases hs with hs | ⟨e, he, htakes⟩
    · exact absurd hs h
    · rw [ho e he] at htakes
      cases htakes
  | lead he hr hc hb => exact ⟨fun _ _ => .inl hr, fun _ hs => hc.trans hs⟩
  | join he ht hr hc hb => exact ⟨fun _ _ => .inr ⟨hc, by rw [he]; nofun⟩, fun _ _ => hc⟩
  | caughtUp he hr hc hb => exact leavesOffice_same hr (by simp) fun hne _ => absurd he hne
  | add hr hc hnew hhb hb => exact leavesOffice_same hr (by simp) fun _ hs => hc.trans hs
  | erase hr hc hb => exact leavesOffice_same hr (by simp [Effect.takesOffice]) fun _ hs => hc.trans hs

theorem handle_leavesOffice (env : Env) (ev : Event) (s : Server) :
    Obeys (LeavesOffice s ev) s (handle env ev) :=
  (handle_offices env ev s).lift leavesOffice_law fun _ _ _ h => h.leavesOffice

/-- **A later term** takes a server out of office. -/
theorem handle_raises (env : Env) (h : ev.raises s = true) : (handle env ev s).state.role ≠ .leader := by
  cases ev with
  | request req =>
    obtain ⟨htype, hlt⟩ := of_decide_eq_true h
    have hfollows : (s.noted req.term).role ≠ .leader := by
      simp only [Server.noted, if_pos hlt]
      split <;> exact show SrvRole.follower ≠ .leader by decide
    have hrest : Offices s (.request req) (s.noted req.term) ((answerReq env req >>= reply) (s.noted req.term)).out
        ((answerReq env req >>= reply) (s.noted req.term)).state :=
      Obeys.bind offices_law (offices_answerReq env rfl) fun _ _ => .look_bind (offices_emit rfl)
    have hstate : (handle env (.request req) s).state =
        ((answerReq env req >>= reply) (s.noted req.term)).state := by
      change (processReq env req s).state = _
      unfold processReq
      rw [bind_run, noteTerm_run htype, Outcome.andThen_ok]
    rw [hstate]
    intro hleads
    rcases (hrest.lift comesToLead_law fun _ _ _ h => h.comesToLead) hleads with ⟨⟨e, he, htakes⟩, -⟩ | ⟨hr, -⟩
    · cases hrest.elects he htakes
    · exact hfollows hr
  | peerResp via reqType resp =>
    have hlt : s.state.term < resp.term := of_decide_eq_true h
    have hstate := (sends_rpcResult (s := s) via reqType false).quiet.state_eq
    have hrun : (handle env (.peerResp via reqType resp) s).state =
        (handlePeerResp env resp (rpcResult via reqType false s).state).state := by
      cases via with
      | none => rfl
      | some r => rfl
    rw [hrun, handlePeerResp, bind_run, updateTerm_of_lt (by rw [hstate]; exact hlt), Outcome.andThen_ok]
    exact show SrvRole.follower ≠ .leader by decide
  | peerErr | extResp | extErr | extRetry | electionTimeout | hbTimeout | bgWake | bgIter | snapshotCompleted =>
    cases h

/-! ## What follows for a server -/

/-- Whether `handle_append_entries` or `handle_install_snapshot_req` takes a request for one of
the leader of its own term. -/
def Server.hearsLeader (s : Server) (req : ReqMsg) : Bool :=
  (req.type = .appendEntriesRequest ∨ req.type = .installSnapshotRequest ∧ s.catchingUp = false) ∧
    req.term = s.state.term

/-- The server runs and is in office. -/
structure Server.Leads (s : Server) : Prop where
  runs : s.exited = false
  role : s.role = .leader

namespace Server
variable {env : Env}

/-- The effects of a server that runs are those of the handler. -/
theorem effects_of_running (hx : s.exited = false) : s.effects env ev = (handle env ev s).out := by
  rcases Server.effects_cases env ev s with ⟨hdead, -⟩ | ⟨-, heff⟩
  · rw [hx] at hdead
    cases hdead
  · exact heff

/-- What the handler has left of a server. -/
theorem next_of_running (env : Env) (ev : Event) (hx : s.exited = false) :
    (s.next env ev).role = (handle env ev s).state.role ∧
    (s.next env ev).catchingUp = (handle env ev s).state.catchingUp ∧
    (s.next env ev).peers = (handle env ev s).state.peers := by
  obtain ⟨y, hnext⟩ := Server.next_of_live env ev hx
  rw [hnext]
  exact ⟨rfl, rfl, rfl⟩

/-- A server runs on after an exception only. -/
theorem throws_of_runs (hx : s.exited = false) (hruns : (s.next env ev).exited = false) {e : Stop}
    (hres : (handle env ev s).res = .error e) : e = .throw := by
  cases hends : e.ends with
  | true =>
    simp only [Server.next, hx, hres, hends, Bool.false_eq_true, if_false, if_true] at hruns
    cases hruns
  | false =>
    cases e with
    | throw => rfl
    | exit | fault | hang => cases hends

/-- Office is taken at the end of an election. -/
theorem elects_of_takes (htakes : (s.effects env ev).any Effect.takesOffice = true) : ev.elects = true := by
  obtain ⟨e, he, htakes⟩ := List.any_eq_true.mp htakes
  rcases Server.effects_cases env ev s with ⟨-, heff⟩ | ⟨-, heff⟩
  · rw [heff] at he
    cases he
  · rw [heff] at he
    exact (handle_offices env ev s).elects he htakes

/-- A request that brings no later term leaves the role alone at first. -/
theorem role_noteTerm {req : ReqMsg} (h : (Event.request req).raises s = false) :
    (noteTerm req s).state.role = s.role := by
  by_cases htype : req.type = .appendEntriesRequest ∨ req.type = .requestVoteRequest ∨
      req.type = .installSnapshotRequest
  · have hle : ¬ s.state.term < req.term := fun hlt => of_decide_eq_false h ⟨htype, hlt⟩
    rw [noteTerm_run htype]
    simp only [Server.noted, if_neg hle]
    split <;> rfl
  · rw [noteTerm, if_neg htype]
    rfl

/-- A later term leaves no leader. -/
theorem not_leads_of_raises (hx : s.exited = false) (h : ev.raises s = true) : ¬ (s.next env ev).Leads := by
  intro hleads
  exact handle_raises env h ((next_of_running _ _ hx).1.symm.trans hleads.role)

/-- A server is in office because it has taken it, or because it was. -/
theorem comesToLead_next (hx : s.exited = false) (hleads : (s.next env ev).Leads) :
    (s.effects env ev).any Effect.takesOffice = true ∧ (s.next env ev).AllBeat ∨
      s.role = .leader ∧ (s.AllBeat → (s.next env ev).AllBeat) := by
  obtain ⟨hrole, -, hpeers⟩ := next_of_running env ev hx
  have hcomes := handle_comesToLead env ev s (hrole.symm.trans hleads.role)
  rw [effects_of_running hx, Server.AllBeat, hpeers]
  rcases hcomes with ⟨⟨e, he, htakes⟩, hall⟩ | ⟨hs, hgoes⟩
  · exact .inl ⟨List.any_eq_true.mpr ⟨e, he, htakes⟩, hall⟩
  · exact .inr ⟨hs, hgoes⟩

end Server
end Cornerstone
