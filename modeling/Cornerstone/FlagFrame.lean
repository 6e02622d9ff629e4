import Cornerstone.AppendRun
import Cornerstone.PeerFlags

/-! # What leaves the pending-commit flags up

Only the response of a peer takes its flag down, and only `commit` moves the commit
index of a leader.  Every other handler keeps both, as long as the server leads at the
end and the peer is still there.
-/

namespace Cornerstone
open Handlers Handler Server

/-- What does nothing about the flags of a peer: none is taken down, and the commit
index does not move while the peer is there. -/
structure Spares (pid : Int) (s : Server) (_ : List Effect) (t : Server) : Prop where
  role : t.role = .leader → s.role = .leader
  ids : t.role = .leader → pid ∈ t.peerIds → pid ∈ s.peerIds
  flag : t.role = .leader → Flagged pid s → Flagged pid t
  quick : t.role = .leader → pid ∈ t.peerIds → t.quickCommitIdx = s.quickCommitIdx

theorem spares_law (pid : Int) : Law (Spares pid) where
  refl _ := ⟨id, fun _ h => h, fun _ h => h, fun _ _ => rfl⟩
  trans := by
    intro s t u o o' h h'
    refine ⟨fun hr => h.role (h'.role hr), fun hr hu => h.ids (h'.role hr) (h'.ids hr hu),
      fun hr hf => h'.flag hr (h.flag (h'.role hr) hf), fun hr hu => ?_⟩
    exact (h'.quick hr hu).trans (h.quick (h'.role hr) (h'.ids hr hu))

variable {s t : Server} {o : List Effect} {pid : Int} {α : Type}

theorem Tunes.spares (h : Tunes s o t) : Spares pid s o t :=
  ⟨fun hr => h.role.symm.trans hr, fun _ hm => peerIds_of_flags h.flags ▸ hm,
    fun _ hf => flagged_of_flags h.flags hf, fun _ _ => h.quick⟩

/-- A change of fields that have nothing to do with peers. -/
theorem spares_change {f : Server → Server} (hr : (f s).role = s.role)
    (hq : (f s).quickCommitIdx = s.quickCommitIdx) (hp : (f s).peers = s.peers) :
    Obeys (Spares pid) s (change f : Action Unit) := Tunes.spares (tunes_same hr hq hp)

theorem spares_emit (e : Effect) : Spares pid s [e] s := Tunes.spares (tunes_same rfl rfl rfl)

theorem spares_exits (pid : Int) : Exits (Spares pid) := fun _ _ => Tunes.spares (tunes_same rfl rfl rfl)

/-- Whoever does not lead at the end is not looked at. -/
theorem spares_of_role (h : t.role ≠ .leader) : Spares pid s o t :=
  ⟨fun hr => absurd hr h, fun hr => absurd hr h, fun hr => absurd hr h, fun hr => absurd hr h⟩

theorem spares_updateAt (r : PeerRef) {f : Peer → Peer} (hid : ∀ p, (f p).id = p.id)
    (hf : ∀ p, p.pendingCommit = true → (f p).pendingCommit = true) (s : Server) :
    Spares pid s [] (s.updateAt r f) := by
  cases r with
  | peer q =>
    have hids := updatePeer_peerIds hid s q
    exact ⟨fun hr => hr, fun _ hm => hids ▸ hm, fun _ h => flagged_updatePeer hid hf h, fun _ _ => rfl⟩
  | joining => exact Tunes.spares ⟨rfl, rfl, rfl⟩

/-! ## Requests of a leader -/

theorem spares_requestAppendEntriesTo (env : Env) (q : Int) :
    Obeys (Spares pid) s (requestAppendEntriesTo env q) := by
  refine .look_bind ?_
  split
  · exact .pure (spares_law pid) _
  · refine .ite (fun _ => .pure (spares_law pid) _) fun _ => ?_
    refine .change_bind (spares_law pid)
      (spares_updateAt (.peer q) (f := fun p => { p with busy := true }) (fun _ => rfl) (fun _ h => h) s) ?_
    refine .bind (spares_law pid) (Tunes.spares (tunes_createAppendEntriesReq env q)) fun req _ => ?_
    exact .bind (spares_law pid) (.look_bind (spares_emit _)) fun _ _ => .pure (spares_law pid) _

theorem spares_requestAppendEntries (env : Env) :
    Obeys (Spares pid) s (requestAppendEntries env) := by
  refine .look_bind (.ite (fun hnone => ?_) fun _ => ?_)
  · -- without peers the commit index moves, and nobody is there to be told
    have hnil : s.peers = [] := List.length_eq_zero_iff.mp hnone
    refine .look_bind (.ite (fun _ => .change_bind (spares_law pid) ?_ (.ite (fun _ => ?_) fun _ => ?_))
      fun _ => .pure (spares_law pid) _)
    · refine ⟨fun hr => hr, fun _ hm => hm, fun _ hf => hf, fun _ hm => ?_⟩
      simp [Server.peerIds, hnil] at hm
    · simp only [Server.peerIds, hnil, List.map_nil, forEach_nil]
      exact .pure (spares_law pid) _
    · exact .pure (spares_law pid) _
  · refine .forEach (spares_law pid) (fun _ => True) trivial fun q _ s _ => ⟨?_, trivial⟩
    exact .bind (spares_law pid) (spares_requestAppendEntriesTo env q) fun _ _ => .pure (spares_law pid) _

theorem spares_continueWith (env : Env) (q : Int) (b : Bool) :
    Obeys (Spares pid) s (continueWith env q b) := by
  refine .look_bind (.ite (fun _ => ?_) fun _ => .pure (spares_law pid) _)
  exact .bind (spares_law pid) (spares_requestAppendEntriesTo env q) fun _ _ => .pure (spares_law pid) _

theorem spares_handleHbTimeout (env : Env) (q : Int) :
    Obeys (Spares pid) s (handleHbTimeout env q) := by
  refine .look_bind (.ite (fun _ => ?_) fun _ => .pure (spares_law pid) _)
  exact .bind (spares_law pid) (spares_requestAppendEntriesTo env q) fun _ _ => .pure (spares_law pid) _

theorem spares_rpcResult (via : Option PeerRef) (reqType : MsgType) (failed : Bool) :
    Obeys (Spares pid) s (rpcResult via reqType failed) := by
  cases via with
  | none => exact .pure (spares_law pid) _
  | some r =>
    refine spares_updateAt r (fun p => ?_) (fun p h => ?_) s
    · unfold Peer.rpcResult
      split_ifs <;> rfl
    · unfold Peer.rpcResult
      split_ifs <;> exact h

theorem spares_sendExtReq (req : ReqMsg) : Obeys (Spares pid) s (sendExtReq req) :=
  .look_bind (spares_emit _)

theorem spares_originate (e : LogEntry) : Obeys (Spares pid) s (originate e) :=
  .look_bind (.emit_bind (spares_law pid) (spares_emit _) (spares_change rfl rfl rfl))

/-- A server that takes office again keeps what it owes. -/
theorem spares_becomeLeader (env : Env) (hr : s.role = .leader) :
    Obeys (Spares pid) s (becomeLeader env) := by
  unfold Obeys
  rw [becomeLeader_run]
  have hreq : Obeys (Spares pid) s.elected (requestAppendEntries env) := spares_requestAppendEntries env
  refine (spares_law pid).trans ?_ hreq
  have hids : s.elected.peerIds = s.peerIds := by
    unfold Server.elected Server.peerIds
    split
    · simp only [Server.firstConfig, Server.leading, List.map_map]
      exact List.map_congr_left fun p _ => rfl
    · simp only [Server.leading, List.map_map]
      exact List.map_congr_left fun p _ => rfl
  have hflag : Flagged pid s → Flagged pid s.elected := by
    intro hf p' hp' hpid
    have hmem : ∃ p ∈ s.peers, p.id = p'.id ∧ p'.pendingCommit = p.pendingCommit := by
      unfold Server.elected at hp'
      split at hp'
      · obtain ⟨p, hp, rfl⟩ := List.mem_map.mp hp'
        exact ⟨p, hp, rfl, rfl⟩
      · obtain ⟨p, hp, rfl⟩ := List.mem_map.mp hp'
        exact ⟨p, hp, rfl, rfl⟩
    obtain ⟨p, hp, hid, hpend⟩ := hmem
    rw [hpend]
    exact hf p hp (hid.trans hpid)
  have hquick : s.elected.quickCommitIdx = s.quickCommitIdx := by
    unfold Server.elected
    split <;> rfl
  exact ⟨fun _ => hr, fun _ hm => hids ▸ hm, fun _ => hflag, fun _ _ => hquick⟩

/-! ## Terms and elections -/

theorem spares_becomeFollower : Obeys (Spares pid) s becomeFollower :=
  spares_of_role (show SrvRole.follower ≠ .leader by decide)

theorem spares_updateTerm (term : Nat) : Obeys (Spares pid) s (updateTerm term) := by
  unfold Obeys
  rcases Nat.lt_or_ge s.state.term term with h | h
  · rw [updateTerm_of_lt h]
    exact spares_of_role (show SrvRole.follower ≠ .leader by decide)
  · rw [updateTerm_of_le h]
    exact (spares_law pid).refl s

theorem spares_noteTerm (req : ReqMsg) : Obeys (Spares pid) s (noteTerm req) := by
  refine .ite (fun _ => .bind (spares_law pid) (spares_updateTerm _) fun _ _ => ?_)
    fun _ => .pure (spares_law pid) _
  refine spares_change ?_ ?_ ?_
  all_goals split <;> rfl

theorem spares_followLeader (b : Bool) : Obeys (Spares pid) s (followLeader b) :=
  .look_bind (.ite (fun _ => .ite (fun _ => spares_becomeFollower) fun _ =>
    .ite (fun _ => reads_exit (spares_exits pid) _) fun _ => .pure (spares_law pid) _) fun _ => .pure (spares_law pid) _)

theorem spares_handleVoteReq (req : ReqMsg) : Obeys (Spares pid) s (handleVoteReq req) := by
  refine .look_bind (.ite (fun _ => ?_) fun _ => .pure (spares_law pid) _)
  refine .bind (spares_law pid) (spares_change rfl rfl rfl) fun _ _ => ?_
  exact .bind (spares_law pid) (.look_bind (spares_emit _)) fun _ _ => .pure (spares_law pid) _

/-- A leader whose election timer goes off ends its process, if it does anything. -/
theorem spares_handleElectionTimeout (env : Env) (hr : s.role = .leader) :
    Obeys (Spares pid) s (handleElectionTimeout env) := by
  refine .look_bind (.ite (fun _ => ?_) fun _ => .ite (fun _ => .pure (spares_law pid) _) fun _ =>
    .ite (fun _ => reads_exit (spares_exits pid) _) fun h => absurd hr h)
  refine .bind (spares_law pid) (spares_change rfl rfl rfl) fun _ _ => .look_bind (.ite (fun _ => ?_)
    fun _ => .pure (spares_law pid) _)
  split
  · exact reads_exit (spares_exits pid) _
  · exact .bind (spares_law pid) (spares_change rfl rfl rfl) fun _ _ =>
      .look_bind (.emit_bind (spares_law pid) (spares_emit _) (reads_exit (spares_exits pid) _))

theorem spares_handleVotingResp (env : Env) (resp : RespMsg) (hr : s.role = .leader) :
    Obeys (Spares pid) s (handleVotingResp env resp) := by
  cases he : s.electionCompleted with
  | true =>
    unfold Obeys
    rw [handleVotingResp_done env resp he]
    exact Tunes.spares (tunes_same rfl rfl rfl)
  | false =>
    have hrest := counted_rest (s := s) resp.accepted
    have hcount : Spares pid s [] (s.counted resp.accepted) := by
      rw [hrest]
      exact Tunes.spares (tunes_same rfl rfl rfl)
    unfold Obeys
    rw [handleVotingResp_run env resp he]
    split
    · refine (spares_law pid).trans (o := []) (t := { s.counted resp.accepted with electionCompleted := true })
        ?_ (spares_becomeLeader env ?_)
      · rw [hrest]
        exact Tunes.spares (tunes_same rfl rfl rfl)
      · rw [hrest]
        exact hr
    · exact hcount

/-! ## Requests to a leader -/

/-- The law of not coming into office. -/
def StaysOut (s : Server) (_ : List Effect) (t : Server) : Prop := s.role ≠ .leader → t.role ≠ .leader

theorem staysOut_law : Law StaysOut := ⟨fun _ h => h, fun h h' hs => h' (h hs)⟩

theorem Tunes.staysOut (h : Tunes s o t) : StaysOut s o t := fun hs => h.role ▸ hs

theorem Quiet.staysOut (h : Quiet s o t) : StaysOut s o t := fun hs => h.role_eq ▸ hs

theorem staysOut_followLeader (b : Bool) : Obeys StaysOut s (followLeader b) :=
  .look_bind (.ite (fun _ => .ite (fun _ _ => show SrvRole.follower ≠ .leader by decide) fun _ =>
    .ite (fun _ => Tunes.staysOut (tunes_same rfl rfl rfl)) fun _ => .pure staysOut_law _) fun _ => .pure staysOut_law _)

theorem staysOut_writeEntries (prev : Nat) (es : List LogEntry) :
    Obeys StaysOut s (writeEntries prev es) := by
  intro hs
  rcases Nat.lt_or_ge (prev + 1) s.logStore.startIdx with hlt | hge
  · rw [(writeEntries_below es hlt).1]
    exact hs
  · rw [writeEntries_run es hge]
    exact hs

theorem staysOut_handleAppendEntries (env : Env) (req : ReqMsg) :
    Obeys StaysOut s (handleAppendEntries env req) := by
  refine .look_bind (.bind staysOut_law (staysOut_followLeader _) fun _ _ => .look_bind
    (.bind staysOut_law (Quiet.staysOut (Sends.quiet (sends_appendLogOkay env req))) fun _ _ => ?_))
  refine .ite (fun _ => .pure staysOut_law _) fun _ => ?_
  refine .bind staysOut_law (staysOut_writeEntries _ _) fun _ _ => ?_
  refine .change_bind staysOut_law (fun h => h) ?_
  exact .bind staysOut_law (Quiet.staysOut (quiet_commit env _)) fun _ _ => .pure staysOut_law _

/-- A leader takes in no entries of another one. -/
theorem spares_handleAppendEntries (env : Env) {req : ReqMsg} (hle : req.term ≤ s.state.term) :
    Obeys (Spares pid) s (handleAppendEntries env req) := by
  by_cases hr : s.role = .leader
  · by_cases ht : req.term = s.state.term
    · have hrun : followLeader (decide (req.term = s.state.term)) s =
          systemExitAndExit (-1) s := by
        simp [followLeader, ht, hr]
      refine .look_bind (.bind (spares_law pid) (spares_followLeader _) fun a ha => ?_)
      rw [hrun] at ha
      cases ha
    · have hrun : followLeader (decide (req.term = s.state.term)) s = ⟨.ok (), s, []⟩ := by
        simp [followLeader, ht]
      refine .look_bind (.bind (spares_law pid) (spares_followLeader _) fun a ha => ?_)
      rw [hrun]
      refine .look_bind (.bind (spares_law pid) ?_ fun okay _ => .ite (fun _ => .pure (spares_law pid) _)
        fun h => ?_)
      · refine .look_bind (.ite (fun _ => .pure (spares_law pid) _) fun _ => .ite (fun _ => ?_)
          fun _ => .pure (spares_law pid) _)
        exact .bind (spares_law pid) (reads_termForLog (spares_law pid) (spares_exits pid) env _) fun _ _ =>
          .pure (spares_law pid) _
      · exact absurd (.inl (show req.term < s.state.term by omega)) h
  · exact spares_of_role (staysOut_handleAppendEntries env req hr)

theorem spares_appendClientEntries : ∀ {es : List LogEntry} {s : Server},
    Obeys (Spares pid) s (appendClientEntries es)
  | [], _ => .pure (spares_law pid) _
  | e :: _, _ => .bind (spares_law pid) (spares_originate e) fun _ _ => .look_bind
      (.emit_bind (spares_law pid) (spares_emit _) spares_appendClientEntries)

theorem spares_handleCliReq (env : Env) (req : ReqMsg) : Obeys (Spares pid) s (handleCliReq env req) := by
  refine .look_bind (.ite (fun _ => .pure (spares_law pid) _) fun _ => ?_)
  exact .bind (spares_law pid) spares_appendClientEntries fun _ _ =>
    .bind (spares_law pid) (spares_requestAppendEntries env) fun _ _ => .look_bind (.pure (spares_law pid) _)

theorem spares_handleAddSrvReq (req : ReqMsg) : Obeys (Spares pid) s (handleAddSrvReq req) := by
  refine .look_bind ?_
  split
  · refine .ite (fun _ => .pure (spares_law pid) _) fun _ => .ite (fun _ => .pure (spares_law pid) _) fun _ => ?_
    split
    · exact .halt (spares_law pid) _
    · refine .ite (fun _ => .pure (spares_law pid) _) fun _ => .ite (fun _ => .pure (spares_law pid) _)
        fun _ => ?_
      refine .bind (spares_law pid) (spares_change rfl rfl rfl) fun _ _ => ?_
      refine .bind (spares_law pid) (.bind (spares_law pid) (reads_derefPeer (spares_law pid) _) fun _ _ =>
        .look_bind (spares_sendExtReq _)) fun _ _ => .pure (spares_law pid) _
  · exact .pure (spares_law pid) _

theorem spares_handleRmSrvReq (req : ReqMsg) : Obeys (Spares pid) s (handleRmSrvReq req) := by
  refine .look_bind ?_
  split
  · refine .ite (fun _ => .pure (spares_law pid) _) fun _ => .ite (fun _ => .pure (spares_law pid) _)
      fun _ => .ite (fun _ => .pure (spares_law pid) _) fun _ => ?_
    split
    · exact .halt (spares_law pid) _
    · refine .ite (fun _ => .pure (spares_law pid) _) fun _ => ?_
      split
      · exact .pure (spares_law pid) _
      · exact .bind (spares_law pid) (spares_sendExtReq _) fun _ _ => .pure (spares_law pid) _
  · exact .pure (spares_law pid) _

theorem spares_handleLeaveClusterReq (req : ReqMsg) :
    Obeys (Spares pid) s (handleLeaveClusterReq req) :=
  .look_bind (.ite (fun _ => .bind (spares_law pid) (spares_change rfl rfl rfl) fun _ _ =>
    .pure (spares_law pid) _) fun _ => .pure (spares_law pid) _)

theorem reconfigure_role (newConfig : ClusterConfig) :
    (reconfigure newConfig s).state.role = s.role := Aside.role (aside_reconfigure newConfig)

/-- Whoever joins a cluster does not lead. -/
theorem spares_handleJoinClusterReq (req : ReqMsg) :
    Obeys (Spares pid) s (handleJoinClusterReq req) := by
  refine .look_bind ?_
  split
  · refine .ite (fun _ => .pure (spares_law pid) _) fun _ => .ite (fun _ => .pure (spares_law pid) _)
      fun _ => ?_
    refine .change_bind (spares_law pid) (spares_of_role (show SrvRole.follower ≠ .leader by decide)) ?_
    refine .bind (spares_law pid) (.look_bind (spares_emit _)) fun _ _ => ?_
    split
    · exact .halt (spares_law pid) _
    · refine .bind (spares_law pid) (spares_of_role ?_) fun _ _ => .look_bind (.pure (spares_law pid) _)
      rw [reconfigure_role]
      exact show SrvRole.follower ≠ .leader by decide
  · exact .pure (spares_law pid) _

/-- Only a follower installs a snapshot. -/
theorem spares_handleInstallSnapshotReq (env : Env) (req : ReqMsg) :
    Obeys (Spares pid) s (handleInstallSnapshotReq env req) := by
  refine .look_bind (.bind (spares_law pid) (spares_followLeader _) fun _ _ => .look_bind ?_)
  refine .ite (fun _ => .pure (spares_law pid) _) fun _ => ?_
  split
  · refine .ite (fun _ => .pure (spares_law pid) _) fun _ => ?_
    split
    · exact .halt (spares_law pid) _
    · refine .ite (fun _ => .pure (spares_law pid) _) fun _ => ?_
      refine .bind (spares_law pid) (.rescue (spares_law pid) ?_ (reads_exit (spares_exits pid) _)) fun _ _ =>
        .ite (fun _ => .pure (spares_law pid) _) fun _ => .pure (spares_law pid) _
      refine .ite (fun _ => .halt (spares_law pid) _) fun _ => .emit_bind (spares_law pid) (spares_emit _) ?_
      refine .ite (fun _ => .look_bind (.ite (fun _ => reads_exit (spares_exits pid) _) fun hr => ?_))
        fun _ => .pure (spares_law pid) _
      refine .ite (fun _ => .halt (spares_law pid) _) fun _ => .ite (fun _ => ?_) fun _ => .pure (spares_law pid) _
      refine .bind (spares_law pid) (spares_change rfl rfl rfl) fun _ _ => .ite (fun _ => reads_exit (spares_exits pid) _)
        fun _ => .emit_bind (spares_law pid) (spares_emit _) ?_
      refine spares_of_role (Obeys.bind (R := StaysOut) staysOut_law ?_ (fun _ _ => ?_) ?_)
      · exact fun h => (reconfigure_role _).symm ▸ h
      · exact .look_bind (.emit_bind staysOut_law id (.change_bind staysOut_law id
          (.bind staysOut_law (.look_bind id) fun _ _ => .pure staysOut_law _)))
      · change ¬ (followLeader _ s).state.role = .leader
        rw [not_not.mp hr]
        decide
  · exact .pure (spares_law pid) _

/-! ## Extended responses -/

theorem spares_inviteSrvToJoinCluster : Obeys (Spares pid) s inviteSrvToJoinCluster :=
  .bind (spares_law pid) (reads_derefPeer (spares_law pid) _) fun _ _ => .look_bind (spares_sendExtReq _)

theorem spares_appendConfig (servers : List SrvConfig) : Obeys (Spares pid) s (appendConfig servers) :=
  .look_bind (.bind (spares_law pid) (spares_originate _) fun _ _ => spares_change rfl rfl rfl)

theorem spares_rmSrvFromCluster (env : Env) (srvId : Int) :
    Obeys (Spares pid) s (rmSrvFromCluster env srvId) :=
  .look_bind (.bind (spares_law pid) (spares_appendConfig _) fun _ _ => spares_requestAppendEntries env)

theorem spares_syncLogToNewSrv (env : Env) (startIdx : Nat) :
    Obeys (Spares pid) s (syncLogToNewSrv env startIdx) := by
  refine .look_bind (.bind (spares_law pid) (reads_derefPeer (spares_law pid) _) fun p _ => .ite (fun _ => ?_) fun _ =>
    .ite (fun _ => ?_) fun _ => ?_)
  · split
    · exact .halt (spares_law pid) _
    · exact .bind (spares_law pid) (spares_appendConfig _) fun _ _ => spares_requestAppendEntries env
  · exact .bind (spares_law pid) (Tunes.spares (tunes_createSyncSnapshotReq env _ _ _ _)) fun _ _ =>
      spares_sendExtReq _
  · split
    · exact .halt (spares_law pid) _
    · exact spares_sendExtReq _

theorem spares_joining (f : Peer → Peer) :
    Obeys (Spares pid) s (change (·.updateAt .joining f) : Action Unit) := Tunes.spares ⟨rfl, rfl, rfl⟩

theorem spares_handleExtSnapshotResp (env : Env) (resp : RespMsg) :
    Obeys (Spares pid) s (handleExtSnapshotResp env resp) := by
  refine .look_bind ?_
  split
  · exact .pure (spares_law pid) _
  · refine .ite (fun _ => .pure (spares_law pid) _) fun _ => ?_
    split
    · exact reads_exit (spares_exits pid) _
    · refine .ite (fun _ => ?_) fun _ => ?_
      all_goals
        refine .bind (spares_law pid) (spares_joining _) fun _ _ => ?_
        exact .bind (spares_law pid) (reads_derefPeer (spares_law pid) _) fun _ _ =>
          spares_syncLogToNewSrv env _

theorem spares_handleExtResp (env : Env) (resp : RespMsg) :
    Obeys (Spares pid) s (handleExtResp env resp) := by
  refine .look_bind ?_
  split
  · split
    · exact .pure (spares_law pid) _
    · exact .change_bind (spares_law pid) (spares_joining _) (spares_syncLogToNewSrv env _)
  · split
    · exact .pure (spares_law pid) _
    · exact .ite (fun _ => spares_syncLogToNewSrv env _) fun _ => .pure (spares_law pid) _
  · exact .ite (fun _ => spares_rmSrvFromCluster env _) fun _ => .pure (spares_law pid) _
  · exact spares_handleExtSnapshotResp env resp
  · exact reads_exit (spares_exits pid) _

/-- Dropping a peer takes down no flag of one that stays. -/
theorem spares_erasePeer (q : Int) : Obeys (Spares pid) s (erasePeer q) := by
  refine obeys_erasePeer (spares_law pid) (fun _ => spares_emit _) ⟨fun hr => hr, fun _ hm => ?_, fun _ hf p hp => hf p (List.mem_of_mem_filter hp), fun _ _ => rfl⟩
  obtain ⟨p, hp, hid⟩ := List.mem_map.mp hm
  exact List.mem_map.mpr ⟨p, List.mem_of_mem_filter hp, hid⟩

theorem spares_handleExtRespErr (env : Env) (req : ReqMsg) :
    Obeys (Spares pid) s (handleExtRespErr env req) := by
  refine .ite (fun _ => .look_bind ?_) fun _ => .pure (spares_law pid) _
  split
  · exact .pure (spares_law pid) _
  · refine .ite (fun _ => .ite (fun _ => ?_) fun _ => ?_) fun _ => ?_
    · refine .ite (fun _ => ?_) fun _ => spares_rmSrvFromCluster env _
      exact .bind (spares_law pid) (spares_erasePeer _) fun _ _ => spares_rmSrvFromCluster env _
    · exact spares_change rfl rfl rfl
    · exact spares_updateAt (extPeer req) (f := Peer.slowDownHb s.params) (fun _ => rfl) (fun _ h => h) s

/-! ## The committing thread -/

theorem spares_onSnapshotCompleted (env : Env) (result : Bool) :
    Obeys (Spares pid) s (onSnapshotCompleted env result) := by
  refine .look_bind ?_
  split
  · exact .pure (spares_law pid) _
  · exact .ite (fun _ => .change_bind (spares_law pid) (Tunes.spares (tunes_same rfl rfl rfl))
      (.halt (spares_law pid) _)) fun _ => spares_change rfl rfl rfl

theorem spares_bgWake : Obeys (Spares pid) s bgWake :=
  .look_bind (.ite (fun _ => spares_change rfl rfl rfl) fun _ => .pure (spares_law pid) _)

/-- The same for a peer that is there, which stays. -/
def Stays (pid : Int) (s : Server) (o : List Effect) (t : Server) : Prop :=
  pid ∈ s.peerIds → Spares pid s o t ∧ pid ∈ t.peerIds

theorem stays_law (pid : Int) : Law (Stays pid) where
  refl s := fun hm => ⟨(spares_law pid).refl s, hm⟩
  trans h h' := fun hm => ⟨(spares_law pid).trans (h hm).1 (h' (h hm).2).1, (h' (h hm).2).2⟩

/-- A peer that is there is not replaced by one that is added. -/
theorem stays_insertPeer {f : Server → Server} (p : Peer) (hr : (f s).role = s.role)
    (hq : (f s).quickCommitIdx = s.quickCommitIdx) (hp : (f s).peers = insertPeer s.peers p) :
    Obeys (Stays pid) s (change f : Action Unit) := by
  intro hm
  obtain ⟨q, hq', hid⟩ := List.mem_map.mp hm
  by_cases hnew : p.id ∈ s.peers.map Peer.id
  · have hsame : (f s).peers = s.peers := by rw [hp, insertPeer, if_pos hnew]
    exact ⟨Tunes.spares (tunes_same hr hq hsame), List.mem_map.mpr ⟨q, hsame ▸ hq', hid⟩⟩
  · have hadd : (f s).peers = s.peers ++ [p] := by rw [hp, insertPeer, if_neg hnew]
    refine ⟨⟨fun h => hr ▸ h, fun _ _ => hm, fun _ hf r hmem hrid => ?_, fun _ _ => hq⟩,
      List.mem_map.mpr ⟨q, hadd ▸ List.mem_append_left _ hq', hid⟩⟩
    change r ∈ (f s).peers at hmem
    rw [hadd] at hmem
    rcases List.mem_append.mp hmem with h | h
    · exact hf r h hrid
    · rw [List.mem_singleton.mp h] at hrid
      exact absurd (hrid ▸ hm) hnew

theorem stays_addServer (srv : SrvConfig) : Obeys (Stays pid) s (addServer srv) := by
  refine .look_bind (.ite (fun _ => ?_) fun _ => stays_insertPeer _ rfl rfl rfl)
  cases s.srvToJoin with
  | none => exact stays_insertPeer _ rfl rfl rfl
  | some joining =>
    exact .ite (fun _ => stays_insertPeer _ rfl rfl rfl) fun _ => stays_insertPeer _ rfl rfl rfl

theorem spares_removeServers (newConfig : ClusterConfig) : ∀ {pids : List Int} {s : Server},
    Obeys (Spares pid) s (removeServers newConfig pids)
  | [], _ => .pure (spares_law pid) _
  | q :: _, _ => by
    refine .look_bind (.ite (fun _ => ?_) fun _ => ?_)
    · exact .emit_bind (spares_law pid) (spares_emit _) (.emit_bind (spares_law pid) (spares_emit _)
        (.pure (spares_law pid) _))
    · exact .bind (spares_law pid) (spares_erasePeer q) fun _ _ => spares_removeServers newConfig

/-- A new configuration brings in peers and removes some. -/
theorem spares_reconfigure (newConfig : ClusterConfig) (hm : pid ∈ s.peerIds) :
    Obeys (Spares pid) s (reconfigure newConfig) := by
  have hadd : ∀ srvs, Obeys (Stays pid) s (forEach addServer srvs) := fun srvs =>
    .forEach (stays_law pid) (fun _ => True) trivial fun srv _ s _ => ⟨stays_addServer srv, trivial⟩
  refine .look_bind (.bind (spares_law pid) (hadd _ hm).1 fun _ _ =>
    .bind (spares_law pid) (spares_removeServers _) fun _ _ => ?_)
  exact .ite (fun _ => .pure (spares_law pid) _) fun _ => spares_change rfl rfl rfl

theorem spares_commitConfig (e : LogEntry) (hm : pid ∈ s.peerIds) :
    Obeys (Spares pid) s (commitConfig e) := by
  unfold commitConfig
  cases ClusterConfig.deserialize e.buf with
  | none => exact .halt (spares_law pid) _
  | some p =>
    refine .emit_bind (spares_law pid) (spares_emit _) (.change_bind (spares_law pid)
      (Tunes.spares (tunes_same rfl rfl rfl)) (.bind (spares_law pid) ?_ fun _ _ => ?_))
    · exact .look_bind (.ite (fun _ => spares_reconfigure _ hm) fun _ => .pure (spares_law pid) _)
    · refine spares_change ?_ ?_ ?_ <;> (simp only [Server.caughtUp]; split <;> rfl)

/-- Taking a snapshot has nothing to do with the peers. -/
theorem tunes_snapshotAndCompact (env : Env) (committedIdx : Nat) :
    Obeys Tunes s (snapshotAndCompact env committedIdx) := by
  have hsame : ∀ {s : Server} (f : Server → Server), (f s).role = s.role →
      (f s).quickCommitIdx = s.quickCommitIdx → (f s).peers = s.peers →
      Obeys Tunes s (change f : Action Unit) := fun _ hr hq hp => tunes_same hr hq hp
  refine .look_bind (.ite (fun _ => .bind tunes_law (hsame _ rfl rfl rfl) fun _ _ => ?_)
    fun _ => .pure tunes_law _)
  refine .ite (fun _ => hsame _ rfl rfl rfl) fun _ => .rescue tunes_law ?_ (hsame _ rfl rfl rfl)
  refine .look_bind (.bind tunes_law (reads_confInForce tunes_law env _) fun _ _ =>
    .bind tunes_law (reads_confOrSnapshot tunes_law tunes_exits env _ _) fun _ _ =>
    .bind tunes_law (reads_termAt tunes_law _) fun _ _ => ?_)
  exact .bind tunes_law (hsame _ rfl rfl rfl) fun _ _ => tunes_same rfl rfl rfl

theorem spares_applyEntry (idx : Nat) (e : LogEntry) (hm : pid ∈ s.peerIds) :
    Obeys (Spares pid) s (applyEntry idx e) :=
  .ite (fun _ => spares_emit _) fun _ => .ite (fun _ => spares_commitConfig e hm) fun _ =>
    .pure (spares_law pid) _

/-- A committed configuration may bring in the peer; one that is there keeps its flag. -/
theorem spares_bgIter (env : Env) (hm : pid ∈ s.peerIds) : Obeys (Spares pid) s (bgIter env) := by
  refine .look_bind ?_
  split
  · exact .pure (spares_law pid) _
  · refine .ite (fun _ => .rescue (spares_law pid) ?_ (reads_exit (spares_exits pid) _)) fun _ => ?_
    · rename_i cur _ _
      have hread : Obeys Tunes s (entryAt (cur + 1)) := reads_entryAt tunes_law _
      refine .bind (spares_law pid) (reads_entryAt (spares_law pid) _) fun e _ =>
        .bind (spares_law pid) (spares_applyEntry _ e ?_) fun _ _ => ?_
      · exact peerIds_of_flags hread.flags ▸ hm
      · exact .bind (spares_law pid) (spares_change rfl rfl rfl) fun _ _ =>
          Tunes.spares (tunes_snapshotAndCompact env _)
    · exact .bind (spares_law pid) (.look_bind (spares_emit _)) fun _ _ => spares_change rfl rfl rfl

/-! ## Requests -/

theorem spares_answerReq (env : Env) {req : ReqMsg} (hsync : req.type ≠ .syncLogRequest)
    (hle : req.type = .appendEntriesRequest → req.term ≤ s.state.term) :
    Obeys (Spares pid) s (answerReq env req) := by
  unfold answerReq handleExtendedMsg
  split
  · exact spares_handleAppendEntries env (hle ‹_›)
  · exact spares_handleVoteReq req
  · exact spares_handleCliReq env req
  · split
    · exact spares_handleAddSrvReq req
    · exact spares_handleRmSrvReq req
    · exact absurd ‹_› hsync
    · exact spares_handleJoinClusterReq req
    · exact spares_handleLeaveClusterReq req
    · exact spares_handleInstallSnapshotReq env req
    · exact reads_exit (spares_exits pid) _

/-- Every request but a log pack leaves the flags up. -/
theorem spares_processReq (env : Env) {req : ReqMsg} (hsync : req.type ≠ .syncLogRequest) :
    Obeys (Spares pid) s (processReq env req) := by
  refine .bind (spares_law pid) (spares_noteTerm req) fun _ _ =>
    .bind (spares_law pid) (spares_answerReq env hsync fun htype => ?_) fun _ _ => .look_bind (spares_emit _)
  rw [noteTerm_run (.inl htype)]
  exact (noted_noted s req).term

end Cornerstone
