import Cornerstone.FlagFrame

/-! # What keeps the next index of a peer within the log

`next_log_idx_` is where a leader believes a peer to go on, `snp_sync_ctx_` the
snapshot it is being sent.  Only the responses of a peer move them by what somebody
else says; whatever else a server does leaves them within its log, which does not
shrink while it leads.
-/

namespace Cornerstone
open Handlers Handler Server

/-- The peers of a server, and the one it is bringing in. -/
def Server.members (s : Server) : List Peer := s.peers ++ s.srvToJoin.toList

/-- One of them still has the next index its peer object began with. -/
def Server.ZeroAt (s : Server) (id : Int) : Prop := ∃ p ∈ s.members, p.id = id ∧ p.nextLogIdx = 0

/-- What is believed of a peer lies within a log. -/
structure Peer.Within (slot : Nat) (p : Peer) : Prop where
  next : p.nextLogIdx ≤ slot
  ctx : ∀ c, p.snpSyncCtx = some c → c.snapshot.lastLogIdx < slot

/-- What is believed of the members lies within the log. -/
def Server.Fits (s : Server) : Prop := ∀ p ∈ s.members, p.Within s.logStore.nextSlot

/-- The last snapshot of the state machine was taken of this log. -/
def Server.Covers (env : Env) (s : Server) : Prop :=
  ∀ snp, env.lastSnapshot = some snp → snp.lastLogIdx < s.logStore.nextSlot

/-- What keeps the members of a leader within its log: the log does not shrink, and a
next index is 0 only where it was 0 before, or at a server that is added. -/
structure Ranges (env : Env) (adds : Int → Prop) (s : Server) (_ : List Effect) (t : Server) : Prop where
  role : t.role = .leader → s.role = .leader
  grows : t.role = .leader → s.logStore.nextSlot ≤ t.logStore.nextSlot
  fits : t.role = .leader → s.Covers env → s.Fits → t.Fits
  zeros : t.role = .leader → 0 < s.logStore.nextSlot → ∀ p ∈ t.members, p.nextLogIdx = 0 →
    s.ZeroAt p.id ∨ adds p.id

variable {s t : Server} {o : List Effect} {env : Env} {adds : Int → Prop} {α : Type}

theorem Peer.Within.mono {p : Peer} {n n' : Nat} (h : p.Within n) (hle : n ≤ n') : p.Within n' :=
  ⟨h.next.trans hle, fun c hc => (h.ctx c hc).trans_le hle⟩

theorem Ranges.covers (h : Ranges env adds s o t) (hr : t.role = .leader) (hc : s.Covers env) :
    t.Covers env := fun snp hsnp => (hc snp hsnp).trans_le (h.grows hr)

theorem ranges_law (env : Env) (adds : Int → Prop) : Law (Ranges env adds) where
  refl _ := ⟨id, fun _ => le_refl _, fun _ _ h => h, fun _ _ p hp h0 => .inl ⟨p, hp, rfl, h0⟩⟩
  trans := by
    intro s t u o o' h h'
    refine ⟨fun hr => h.role (h'.role hr), fun hr => (h.grows (h'.role hr)).trans (h'.grows hr),
      fun hr hc hs => h'.fits hr (h.covers (h'.role hr) hc) (h.fits (h'.role hr) hc hs),
      fun hr hpos p hp h0 => ?_⟩
    have hpos' : 0 < t.logStore.nextSlot := hpos.trans_le (h.grows (h'.role hr))
    rcases h'.zeros hr hpos' p hp h0 with ⟨q, hq, hid, hq0⟩ | hadd
    · rw [← hid]
      exact h.zeros (h'.role hr) hpos q hq hq0
    · exact .inr hadd

/-- A log that grows under members that come from those before. -/
theorem ranges_of_members (hr : t.role = s.role) (hg : s.logStore.nextSlot ≤ t.logStore.nextSlot)
    (hm : s.role = .leader → ∀ p ∈ t.members, (s.Covers env → s.Fits → p.Within t.logStore.nextSlot) ∧
      (p.nextLogIdx = 0 → 0 < s.logStore.nextSlot → s.ZeroAt p.id ∨ adds p.id)) :
    Ranges env adds s o t := by
  refine ⟨fun h => hr ▸ h, fun _ => hg, fun h hc hs p hp => ?_, fun h hpos p hp h0 => ?_⟩
  · exact (hm (hr ▸ h) p hp).1 hc hs
  · exact (hm (hr ▸ h) p hp).2 h0 hpos

/-- The members stay, and the log grows at most. -/
theorem ranges_grow (hr : t.role = s.role) (hg : s.logStore.nextSlot ≤ t.logStore.nextSlot)
    (hp : t.peers = s.peers) (hj : t.srvToJoin = s.srvToJoin) : Ranges env adds s o t := by
  have hm : t.members = s.members := by rw [Server.members, Server.members, hp, hj]
  refine ranges_of_members hr hg fun _ p hp => ?_
  rw [hm] at hp
  exact ⟨fun _ hs => (hs p hp).mono hg, fun h0 _ => .inl ⟨p, hp, rfl, h0⟩⟩

theorem ranges_same (hr : t.role = s.role) (hl : t.logStore = s.logStore) (hp : t.peers = s.peers)
    (hj : t.srvToJoin = s.srvToJoin) : Ranges env adds s o t :=
  ranges_grow hr (by rw [hl]) hp hj

/-- A change of fields that have nothing to do with members. -/
theorem ranges_change {f : Server → Server} (hr : (f s).role = s.role) (hl : (f s).logStore = s.logStore)
    (hp : (f s).peers = s.peers) (hj : (f s).srvToJoin = s.srvToJoin) :
    Obeys (Ranges env adds) s (change f : Action Unit) := ranges_same hr hl hp hj

theorem ranges_emit (e : Effect) : Ranges env adds s [e] s := ranges_same rfl rfl rfl rfl

theorem ranges_exits (env : Env) (adds : Int → Prop) : Exits (Ranges env adds) :=
  fun _ _ => ranges_same rfl rfl rfl rfl

/-- Whoever does not lead at the end is not looked at. -/
theorem ranges_of_role (h : t.role ≠ .leader) : Ranges env adds s o t :=
  ⟨fun hr => absurd hr h, fun hr => absurd hr h, fun hr => absurd hr h, fun hr => absurd hr h⟩

/-! ## One member -/

/-- The peer object a reference stands for is this one. -/
def Server.IsAt (s : Server) (q : Peer) : PeerRef → Prop
  | .peer id => q ∈ s.peers ∧ q.id = id
  | .joining => s.srvToJoin = some q

theorem Server.IsAt.mem {q : Peer} {r : PeerRef} (h : s.IsAt q r) : q ∈ s.members := by
  cases r with
  | peer id => exact List.mem_append_left _ h.1
  | joining =>
    have hj : s.srvToJoin = some q := h
    simp [Server.members, hj]

/-- A member after one peer object is changed. -/
theorem mem_updateAt {r : PeerRef} {f : Peer → Peer} {p : Peer} (hp : p ∈ (s.updateAt r f).members) :
    p ∈ s.members ∨ ∃ q, s.IsAt q r ∧ p = f q := by
  rcases List.mem_append.mp hp with hp | hp
  · cases r with
    | peer id =>
      obtain ⟨q, hq, rfl⟩ := List.mem_map.mp hp
      split
      · exact .inr ⟨q, ⟨hq, ‹_›⟩, rfl⟩
      · exact .inl (List.mem_append_left _ hq)
    | joining => exact .inl (List.mem_append_left _ hp)
  · cases r with
    | peer id => exact .inl (List.mem_append_right _ hp)
    | joining =>
      rw [Option.mem_toList] at hp
      obtain ⟨q, hq, rfl⟩ := Option.map_eq_some_iff.mp hp
      exact .inr ⟨q, hq, rfl⟩

/-- Changing one peer object to one within the log. -/
theorem ranges_updateAt (r : PeerRef) {f : Peer → Peer} (hid : ∀ p, (f p).id = p.id)
    (hf : s.role = .leader → ∀ q, s.IsAt q r → (s.Covers env → s.Fits → (f q).Within s.logStore.nextSlot) ∧
      ((f q).nextLogIdx = 0 → q.nextLogIdx = 0)) :
    Ranges env adds s o (s.updateAt r f) := by
  have hrole : (s.updateAt r f).role = s.role := by cases r <;> rfl
  have hlog : (s.updateAt r f).logStore = s.logStore := by cases r <;> rfl
  refine ranges_of_members hrole (by rw [hlog]) fun hlead p hp => ?_
  rw [hlog]
  rcases mem_updateAt hp with hp | ⟨q, hq, rfl⟩
  · exact ⟨fun _ hs => hs p hp, fun h0 _ => .inl ⟨p, hp, rfl, h0⟩⟩
  · exact ⟨(hf hlead q hq).1, fun h0 _ => .inl ⟨q, hq.mem, (hid q).symm, (hf hlead q hq).2 h0⟩⟩

/-- A change of what is not believed of the peer. -/
theorem ranges_mark (r : PeerRef) {f : Peer → Peer} (hid : ∀ p, (f p).id = p.id)
    (hn : ∀ p, (f p).nextLogIdx = p.nextLogIdx)
    (hc : ∀ q, s.IsAt q r → ∀ c, (f q).snpSyncCtx = some c →
      ∃ c', q.snpSyncCtx = some c' ∧ c'.snapshot = c.snapshot) :
    Ranges env adds s o (s.updateAt r f) := by
  refine ranges_updateAt r hid fun _ q hq => ⟨fun _ hs => ⟨?_, fun c hctx => ?_⟩, fun h0 => ?_⟩
  · rw [hn]
    exact (hs q hq.mem).next
  · obtain ⟨c', hctx', hsnp⟩ := hc q hq c hctx
    rw [← hsnp]
    exact (hs q hq.mem).ctx c' hctx'
  · rw [← hn]
    exact h0

/-- A change of the flags or the timer of a peer. -/
theorem ranges_flag (r : PeerRef) {f : Peer → Peer} (hid : ∀ p, (f p).id = p.id)
    (hn : ∀ p, (f p).nextLogIdx = p.nextLogIdx) (hc : ∀ p, (f p).snpSyncCtx = p.snpSyncCtx) :
    Ranges env adds s o (s.updateAt r f) :=
  ranges_mark r hid hn fun q _ c h => ⟨c, hc q ▸ h, rfl⟩

/-! ## Requests of a leader -/

theorem ranges_createSyncSnapshotReq (r : PeerRef) (n k c : Nat) :
    Obeys (Ranges env adds) s (createSyncSnapshotReq env r n k c) := by
  have hlaw := ranges_law env adds
  refine .bind hlaw (.bind hlaw (reads_derefPeer hlaw r) fun p _ => ?_) fun ctx _ =>
    .bind hlaw (reads_derefPeer hlaw r) fun p _ => .look_bind (.ite (fun _ => .halt hlaw _) fun _ =>
      .ite (fun _ => reads_exit (ranges_exits env adds) _) fun _ => .ite (fun _ => .halt hlaw _) fun _ =>
        .pure hlaw _)
  split
  · exact .pure hlaw _
  · exact reads_exit (ranges_exits env adds) _
  · rename_i snp hlast _
    refine .ite (fun _ => reads_exit (ranges_exits env adds) _) fun _ =>
      .ite (fun _ => reads_exit (ranges_exits env adds) _) fun _ => ?_
    refine .change_bind hlaw (ranges_updateAt r (f := (·.setSnapshotInSync _)) (fun _ => rfl) fun _ q hq => ?_)
      (.pure hlaw _)
    refine ⟨fun hc hs => ⟨?_, fun ctx hctx => ?_⟩, id⟩
    · exact (hs q hq.mem).next
    · cases hctx
      exact hc snp hlast

/-- A request changes a next index of 0 alone, to the end of the log. -/
theorem ranges_createAppendEntriesReq (pid : Int) :
    Obeys (Ranges env adds) s (createAppendEntriesReq env pid) := by
  have hlaw := ranges_law env adds
  refine .look_bind (.change_bind hlaw (ranges_updateAt (.peer pid) (fun p => ?_) fun _ q hq => ?_) ?_)
  · split <;> rfl
  · split
    · exact ⟨fun _ hs => ⟨le_refl _, (hs q hq.mem).ctx⟩, fun _ => ‹_›⟩
    · exact ⟨fun _ hs => hs q hq.mem, id⟩
  refine .bind hlaw (reads_derefPeer hlaw _) fun p _ => .ite (fun _ => reads_exit (ranges_exits env adds) _)
    fun _ => .ite (fun _ => ranges_createSyncSnapshotReq _ _ _ _) fun _ => ?_
  exact .bind hlaw (reads_termForLog hlaw (ranges_exits env adds) env _) fun _ _ =>
    .ite (fun _ => .halt hlaw _) fun _ => .pure hlaw _

theorem ranges_requestAppendEntriesTo (pid : Int) :
    Obeys (Ranges env adds) s (requestAppendEntriesTo env pid) := by
  have hlaw := ranges_law env adds
  refine .look_bind ?_
  split
  · exact .pure hlaw _
  · refine .ite (fun _ => .pure hlaw _) fun _ => ?_
    refine .change_bind hlaw (ranges_flag (.peer pid) (f := fun p => { p with busy := true })
      (fun _ => rfl) (fun _ => rfl) (fun _ => rfl)) ?_
    refine .bind hlaw (ranges_createAppendEntriesReq pid) fun req _ => ?_
    exact .bind hlaw (.look_bind (ranges_emit _)) fun _ _ => .pure hlaw _

theorem ranges_commit (idx : Nat) : Obeys (Ranges env adds) s (commit env idx) := by
  have hlaw := ranges_law env adds
  refine .look_bind (.ite (fun _ => .change_bind hlaw (ranges_same rfl rfl rfl rfl) ?_) fun _ => .pure hlaw _)
  refine .ite (fun _ => ?_) fun _ => .pure hlaw _
  refine .forEach hlaw (fun _ => True) trivial fun pid _ s _ => ⟨?_, trivial⟩
  refine .bind hlaw (ranges_requestAppendEntriesTo pid) fun sent _ => .ite (fun _ => .pure hlaw _) fun _ => ?_
  exact ranges_flag (.peer pid) (f := fun p => { p with pendingCommit := true })
    (fun _ => rfl) (fun _ => rfl) (fun _ => rfl)

theorem ranges_requestAppendEntries : Obeys (Ranges env adds) s (requestAppendEntries env) := by
  have hlaw := ranges_law env adds
  refine .look_bind (.ite (fun _ => ranges_commit _) fun _ => ?_)
  refine .forEach hlaw (fun _ => True) trivial fun pid _ s _ => ⟨?_, trivial⟩
  exact .bind hlaw (ranges_requestAppendEntriesTo pid) fun _ _ => .pure hlaw _

theorem ranges_continueWith (pid : Int) (b : Bool) : Obeys (Ranges env adds) s (continueWith env pid b) := by
  have hlaw := ranges_law env adds
  refine .look_bind (.ite (fun _ => ?_) fun _ => .pure hlaw _)
  exact .bind hlaw (ranges_requestAppendEntriesTo pid) fun _ _ => .pure hlaw _

theorem ranges_handleHbTimeout (pid : Int) : Obeys (Ranges env adds) s (handleHbTimeout env pid) := by
  have hlaw := ranges_law env adds
  refine .look_bind (.ite (fun _ => ?_) fun _ => .pure hlaw _)
  exact .bind hlaw (ranges_requestAppendEntriesTo pid) fun _ _ => .pure hlaw _

theorem rpcResult_next (params : RaftParams) (reqType : MsgType) (failed : Bool) (p : Peer) :
    (p.rpcResult params reqType failed).nextLogIdx = p.nextLogIdx := by
  unfold Peer.rpcResult
  split_ifs <;> rfl

theorem ranges_rpcResult (via : Option PeerRef) (reqType : MsgType) (failed : Bool) :
    Obeys (Ranges env adds) s (rpcResult via reqType failed) := by
  cases via with
  | none => exact .pure (ranges_law env adds) _
  | some r =>
    refine ranges_flag r (fun p => ?_) (rpcResult_next s.params reqType failed) fun p => ?_
    all_goals
      unfold Peer.rpcResult
      split_ifs <;> rfl

theorem ranges_sendExtReq (req : ReqMsg) : Obeys (Ranges env adds) s (sendExtReq req) :=
  .look_bind (ranges_emit _)

/-- The log of a server grows by an entry of its own. -/
theorem ranges_originate (e : LogEntry) : Obeys (Ranges env adds) s (originate e) := by
  have hgrow : s.logStore.nextSlot ≤ (s.logStore.append e).nextSlot := by
    rw [LogStore.append_nextSlot]
    exact Nat.le_succ _
  exact .look_bind (.emit_bind (ranges_law env adds) (ranges_emit _) (ranges_grow rfl hgrow rfl rfl))

/-! ## Terms and elections -/

theorem ranges_becomeFollower : Obeys (Ranges env adds) s becomeFollower :=
  ranges_of_role (show SrvRole.follower ≠ .leader by decide)

theorem ranges_updateTerm (term : Nat) : Obeys (Ranges env adds) s (updateTerm term) := by
  unfold Obeys
  rcases Nat.lt_or_ge s.state.term term with h | h
  · rw [updateTerm_of_lt h]
    exact ranges_of_role (show SrvRole.follower ≠ .leader by decide)
  · rw [updateTerm_of_le h]
    exact (ranges_law env adds).refl s

theorem ranges_noteTerm (req : ReqMsg) : Obeys (Ranges env adds) s (noteTerm req) := by
  have hlaw := ranges_law env adds
  refine .ite (fun _ => .bind hlaw (ranges_updateTerm _) fun _ _ => ?_) fun _ => .pure hlaw _
  refine ranges_change ?_ ?_ ?_ ?_
  all_goals split <;> rfl

theorem ranges_followLeader (b : Bool) : Obeys (Ranges env adds) s (followLeader b) := by
  have hlaw := ranges_law env adds
  exact .look_bind (.ite (fun _ => .ite (fun _ => ranges_becomeFollower) fun _ =>
    .ite (fun _ => reads_exit (ranges_exits env adds) _) fun _ => .pure hlaw _) fun _ => .pure hlaw _)

theorem ranges_handleVoteReq (req : ReqMsg) : Obeys (Ranges env adds) s (handleVoteReq req) := by
  have hlaw := ranges_law env adds
  refine .look_bind (.ite (fun _ => ?_) fun _ => .pure hlaw _)
  refine .bind hlaw (ranges_change rfl rfl rfl rfl) fun _ _ => ?_
  exact .bind hlaw (.look_bind (ranges_emit _)) fun _ _ => .pure hlaw _

/-- Who may not stand for election leaves, waits, or ends its process. -/
theorem ranges_handleElectionTimeout (h : ¬ s.Standing) :
    Obeys (Ranges env adds) s (handleElectionTimeout env) := by
  have hlaw := ranges_law env adds
  have hexit := ranges_exits env adds
  refine .look_bind (.ite (fun _ => ?_) fun hsteps => .ite (fun _ => .pure hlaw _) fun hcatch =>
    .ite (fun _ => reads_exit hexit _) fun hrole =>
      absurd ⟨hsteps, Bool.eq_false_iff.mpr hcatch, hrole⟩ h)
  refine .bind hlaw (ranges_change rfl rfl rfl rfl) fun _ _ => .look_bind (.ite (fun _ => ?_)
    fun _ => .pure hlaw _)
  split
  · exact reads_exit hexit _
  · exact .bind hlaw (ranges_change rfl rfl rfl rfl) fun _ _ =>
      .look_bind (.emit_bind hlaw (ranges_emit _) (reads_exit hexit _))

/-! ## Requests to a leader -/

/-- A leader takes in no entries of another one. -/
theorem ranges_handleAppendEntries {req : ReqMsg} (hle : req.term ≤ s.state.term) :
    Obeys (Ranges env adds) s (handleAppendEntries env req) := by
  have hlaw := ranges_law env adds
  by_cases hr : s.role = .leader
  · by_cases ht : req.term = s.state.term
    · have hrun : followLeader (decide (req.term = s.state.term)) s = systemExitAndExit (-1) s := by
        simp [followLeader, ht, hr]
      refine .look_bind (.bind hlaw (ranges_followLeader _) fun a ha => ?_)
      rw [hrun] at ha
      cases ha
    · have hrun : followLeader (decide (req.term = s.state.term)) s = ⟨.ok (), s, []⟩ := by
        simp [followLeader, ht]
      refine .look_bind (.bind hlaw (ranges_followLeader _) fun a ha => ?_)
      rw [hrun]
      refine .look_bind (.bind hlaw ?_ fun okay _ => .ite (fun _ => .pure hlaw _) fun h => ?_)
      · refine .look_bind (.ite (fun _ => .pure hlaw _) fun _ => .ite (fun _ => ?_) fun _ => .pure hlaw _)
        exact .bind hlaw (reads_termForLog hlaw (ranges_exits env adds) env _) fun _ _ => .pure hlaw _
      · exact absurd (.inl (show req.term < s.state.term by omega)) h
  · exact ranges_of_role (staysOut_handleAppendEntries env req hr)

theorem ranges_appendClientEntries : ∀ {es : List LogEntry} {s : Server},
    Obeys (Ranges env adds) s (appendClientEntries es)
  | [], _ => .pure (ranges_law env adds) _
  | e :: _, _ => .bind (ranges_law env adds) (ranges_originate e) fun _ _ => .look_bind
      (.emit_bind (ranges_law env adds) (ranges_emit _) ranges_appendClientEntries)

theorem ranges_handleCliReq (req : ReqMsg) : Obeys (Ranges env adds) s (handleCliReq env req) := by
  have hlaw := ranges_law env adds
  refine .look_bind (.ite (fun _ => .pure hlaw _) fun _ => ?_)
  exact .bind hlaw ranges_appendClientEntries fun _ _ =>
    .bind hlaw ranges_requestAppendEntries fun _ _ => .look_bind (.pure hlaw _)

/-- The server an add_server request is about. -/
def ReqMsg.Adds (req : ReqMsg) (id : Int) : Prop :=
  req.type = .addServerRequest ∧ ∃ e srv rest, req.logEntries = [e] ∧
    SrvConfig.deserialize e.buf = some (srv, rest) ∧ srv.id = id

/-- The server that is added begins with a next index of 0. -/
theorem ranges_handleAddSrvReq {req : ReqMsg} (htype : req.type = .addServerRequest) :
    Obeys (Ranges env req.Adds) s (handleAddSrvReq req) := by
  have hlaw := ranges_law env req.Adds
  refine .look_bind ?_
  split
  · rename_i e hentries
    refine .ite (fun _ => .pure hlaw _) fun _ => .ite (fun _ => .pure hlaw _) fun _ => ?_
    split
    · exact .halt hlaw _
    · rename_i srv rest hsrv
      refine .ite (fun _ => .pure hlaw _) fun _ => .ite (fun _ => .pure hlaw _) fun _ => ?_
      refine .change_bind hlaw (ranges_of_members rfl (le_refl _) fun _ p hp => ?_) ?_
      · rcases List.mem_append.mp hp with hp | hp
        · have hmem : p ∈ s.members := List.mem_append_left _ hp
          exact ⟨fun _ hs => hs p hmem, fun h0 _ => .inl ⟨p, hmem, rfl, h0⟩⟩
        · obtain rfl := Option.some.inj (Option.mem_toList.mp hp)
          exact ⟨fun _ _ => ⟨Nat.zero_le _, fun c hc => by cases hc⟩,
            fun _ _ => .inr ⟨htype, e, srv, rest, hentries, hsrv, rfl⟩⟩
      · exact .bind hlaw (.bind hlaw (reads_derefPeer hlaw _) fun _ _ =>
          .look_bind (ranges_sendExtReq _)) fun _ _ => .pure hlaw _
  · exact .pure hlaw _

theorem ranges_handleRmSrvReq (req : ReqMsg) : Obeys (Ranges env adds) s (handleRmSrvReq req) := by
  have hlaw := ranges_law env adds
  refine .look_bind ?_
  split
  · refine .ite (fun _ => .pure hlaw _) fun _ => .ite (fun _ => .pure hlaw _)
      fun _ => .ite (fun _ => .pure hlaw _) fun _ => ?_
    split
    · exact .halt hlaw _
    · refine .ite (fun _ => .pure hlaw _) fun _ => ?_
      split
      · exact .pure hlaw _
      · exact .bind hlaw (ranges_sendExtReq _) fun _ _ => .pure hlaw _
  · exact .pure hlaw _

theorem ranges_handleLeaveClusterReq (req : ReqMsg) :
    Obeys (Ranges env adds) s (handleLeaveClusterReq req) := by
  have hlaw := ranges_law env adds
  exact .look_bind (.ite (fun _ => .bind hlaw (ranges_change rfl rfl rfl rfl) fun _ _ => .pure hlaw _)
    fun _ => .pure hlaw _)

/-- Whoever joins a cluster does not lead. -/
theorem ranges_handleJoinClusterReq (req : ReqMsg) :
    Obeys (Ranges env adds) s (handleJoinClusterReq req) := by
  have hlaw := ranges_law env adds
  refine .look_bind ?_
  split
  · refine .ite (fun _ => .pure hlaw _) fun _ => .ite (fun _ => .pure hlaw _) fun _ => ?_
    refine .change_bind hlaw (ranges_of_role (show SrvRole.follower ≠ .leader by decide)) ?_
    refine .bind hlaw (.look_bind (ranges_emit _)) fun _ _ => ?_
    split
    · exact .halt hlaw _
    · refine .bind hlaw (ranges_of_role ?_) fun _ _ => .look_bind (.pure hlaw _)
      rw [reconfigure_role]
      exact show SrvRole.follower ≠ .leader by decide
  · exact .pure hlaw _

/-- Only a follower installs a snapshot. -/
theorem ranges_handleInstallSnapshotReq (req : ReqMsg) :
    Obeys (Ranges env adds) s (handleInstallSnapshotReq env req) := by
  have hlaw := ranges_law env adds
  have hexit := ranges_exits env adds
  refine .look_bind (.bind hlaw (ranges_followLeader _) fun _ _ => .look_bind ?_)
  refine .ite (fun _ => .pure hlaw _) fun _ => ?_
  split
  · refine .ite (fun _ => .pure hlaw _) fun _ => ?_
    split
    · exact .halt hlaw _
    · refine .ite (fun _ => .pure hlaw _) fun _ => ?_
      refine .bind hlaw (.rescue hlaw ?_ (reads_exit hexit _)) fun _ _ =>
        .ite (fun _ => .pure hlaw _) fun _ => .pure hlaw _
      refine .ite (fun _ => .halt hlaw _) fun _ => .emit_bind hlaw (ranges_emit _) ?_
      refine .ite (fun _ => .look_bind (.ite (fun _ => reads_exit hexit _) fun hr => ?_))
        fun _ => .pure hlaw _
      refine .ite (fun _ => .halt hlaw _) fun _ => .ite (fun _ => ?_) fun _ => .pure hlaw _
      refine ranges_of_role (Obeys.bind (R := StaysOut) staysOut_law (fun h => h) (fun _ _ => ?_) ?_)
      · refine .ite (fun _ => Tunes.staysOut (tunes_same rfl rfl rfl)) fun _ => .emit_bind staysOut_law id ?_
        refine .bind staysOut_law (fun h => (reconfigure_role _).symm ▸ h) fun _ _ => ?_
        exact .look_bind (.emit_bind staysOut_law id (.change_bind staysOut_law id
          (.bind staysOut_law (.look_bind id) fun _ _ => .pure staysOut_law _)))
      · rw [not_not.mp hr]
        decide
  · exact .pure hlaw _

/-- A leader that takes in no log pack keeps its log. -/
theorem ranges_handleLogSyncReq (req : ReqMsg) (h : s.role = .leader → s.catchingUp = false) :
    Obeys (Ranges env adds) s (handleLogSyncReq env req) := by
  have hlaw := ranges_law env adds
  refine .look_bind ?_
  split
  · refine .ite (fun _ => .pure hlaw _) fun _ => .ite (fun _ => .pure hlaw _) fun hcatch => ?_
    have hrole : s.role ≠ .leader := fun hr => hcatch (h hr)
    split
    · exact .halt hlaw _
    · refine ranges_of_role (Obeys.bind (R := StaysOut) staysOut_law (fun h => h) (fun _ _ => ?_) hrole)
      exact .bind staysOut_law (Quiet.staysOut (quiet_commit env _)) fun _ _ =>
        .look_bind (.pure staysOut_law _)
  · exact .pure hlaw _

/-! ## Extended responses -/

theorem ranges_appendConfig (servers : List SrvConfig) :
    Obeys (Ranges env adds) s (appendConfig servers) :=
  .look_bind (.bind (ranges_law env adds) (ranges_originate _) fun _ _ => ranges_change rfl rfl rfl rfl)

theorem ranges_rmSrvFromCluster (srvId : Int) : Obeys (Ranges env adds) s (rmSrvFromCluster env srvId) :=
  .look_bind (.bind (ranges_law env adds) (ranges_appendConfig _) fun _ _ => ranges_requestAppendEntries)

theorem ranges_syncLogToNewSrv (startIdx : Nat) :
    Obeys (Ranges env adds) s (syncLogToNewSrv env startIdx) := by
  have hlaw := ranges_law env adds
  refine .look_bind (.bind hlaw (reads_derefPeer hlaw _) fun p _ => .ite (fun _ => ?_) fun _ =>
    .ite (fun _ => ?_) fun _ => ?_)
  · split
    · exact .halt hlaw _
    · exact .bind hlaw (ranges_appendConfig _) fun _ _ => ranges_requestAppendEntries
  · exact .bind hlaw (ranges_createSyncSnapshotReq _ _ _ _) fun _ _ => ranges_sendExtReq _
  · split
    · exact .halt hlaw _
    · exact ranges_sendExtReq _

/-- The server being brought in goes on behind the snapshot it has. -/
theorem ranges_handleExtSnapshotResp (resp : RespMsg) :
    Obeys (Ranges env adds) s (handleExtSnapshotResp env resp) := by
  have hlaw := ranges_law env adds
  refine .look_bind ?_
  split
  · exact .pure hlaw _
  · rename_i joining hj
    refine .ite (fun _ => .pure hlaw _) fun _ => ?_
    split
    · exact reads_exit (ranges_exits env adds) _
    · rename_i ctx hctx
      have hgo : ∀ {f : Peer → Peer} (_ : Ranges env adds s [] (s.updateAt .joining f)),
          Obeys (Ranges env adds) s ((change (·.updateAt .joining f) : Action Unit) >>= fun _ =>
            derefPeer .joining >>= fun p => syncLogToNewSrv env p.nextLogIdx) := fun h =>
        .bind hlaw h fun _ _ => .bind hlaw (reads_derefPeer hlaw _) fun _ _ => ranges_syncLogToNewSrv _
      refine .ite (fun _ => hgo (ranges_updateAt .joining (fun _ => rfl) fun _ q hq => ?_)) fun _ =>
        hgo (ranges_mark .joining (fun _ => rfl) (fun _ => rfl) fun q hq c hc => ?_)
      · have hlast : s.Fits → ctx.snapshot.lastLogIdx < s.logStore.nextSlot := fun hs =>
          (hs joining (Server.IsAt.mem (r := .joining) hj)).ctx ctx hctx
        exact ⟨fun _ hs => ⟨hlast hs, fun c hc => by cases hc⟩, fun h0 => absurd h0 (Nat.succ_ne_zero _)⟩
      · -- the block that is acknowledged belongs to the same snapshot
        have hq' : s.srvToJoin = some q := hq
        obtain rfl : joining = q := Option.some.inj (hj.symm.trans hq')
        cases hc
        exact ⟨ctx, hctx, rfl⟩

theorem ranges_handleExtResp {resp : RespMsg}
    (h : s.role = .leader → resp.type = .syncLogResponse → s.srvToJoin ≠ none →
      1 ≤ resp.nextIdx ∧ resp.nextIdx ≤ s.logStore.nextSlot) :
    Obeys (Ranges env adds) s (handleExtResp env resp) := by
  have hlaw := ranges_law env adds
  refine .look_bind ?_
  split
  · rename_i htype
    cases hj : s.srvToJoin with
    | none => exact .pure hlaw _
    | some joining =>
      refine .change_bind hlaw (ranges_updateAt .joining (fun _ => rfl) fun hr q hq => ?_)
        (ranges_syncLogToNewSrv _)
      obtain ⟨h1, h2⟩ := h hr htype (by rw [hj]; exact Option.some_ne_none _)
      exact ⟨fun _ hs => ⟨h2, (hs q hq.mem).ctx⟩, fun h0 => absurd h0 (Nat.ne_of_gt h1)⟩
  · split
    · exact .pure hlaw _
    · exact .ite (fun _ => ranges_syncLogToNewSrv _) fun _ => .pure hlaw _
  · exact .ite (fun _ => ranges_rmSrvFromCluster _) fun _ => .pure hlaw _
  · exact ranges_handleExtSnapshotResp resp
  · exact reads_exit (ranges_exits env adds) _

/-- Dropping members leaves the others. -/
theorem ranges_drop (hr : t.role = s.role) (hl : t.logStore = s.logStore)
    (hm : ∀ p ∈ t.members, p ∈ s.members) : Ranges env adds s o t := by
  refine ranges_of_members hr (by rw [hl]) fun _ p hp => ?_
  rw [hl]
  exact ⟨fun _ hs => hs p (hm p hp), fun h0 _ => .inl ⟨p, hm p hp, rfl, h0⟩⟩

theorem ranges_erasePeer (q : Int) : Obeys (Ranges env adds) s (erasePeer q) := by
  refine obeys_erasePeer (ranges_law env adds) (fun _ => ranges_emit _) (ranges_drop rfl rfl fun p hp => ?_)
  rcases List.mem_append.mp hp with hp | hp
  · exact List.mem_append_left _ (List.mem_of_mem_filter hp)
  · exact List.mem_append_right _ hp

theorem ranges_handleExtRespErr (req : ReqMsg) : Obeys (Ranges env adds) s (handleExtRespErr env req) := by
  have hlaw := ranges_law env adds
  refine .ite (fun _ => .look_bind ?_) fun _ => .pure hlaw _
  split
  · exact .pure hlaw _
  · refine .ite (fun _ => .ite (fun _ => ?_) fun _ => ?_) fun _ => ?_
    · refine .ite (fun _ => ?_) fun _ => ranges_rmSrvFromCluster _
      exact .bind hlaw (ranges_erasePeer _) fun _ _ => ranges_rmSrvFromCluster _
    · refine ranges_drop rfl rfl fun p hp => List.mem_append_left _ ?_
      simpa [Server.members] using hp
    · exact ranges_flag (extPeer req) (f := Peer.slowDownHb s.params) (fun _ => rfl) (fun _ => rfl)
        (fun _ => rfl)

/-! ## The committing thread -/

theorem ranges_onSnapshotCompleted (result : Bool) :
    Obeys (Ranges env adds) s (onSnapshotCompleted env result) := by
  have hlaw := ranges_law env adds
  refine .look_bind ?_
  split
  · exact .pure hlaw _
  · rename_i snp _
    refine .ite (fun _ => .change_bind hlaw (ranges_same rfl rfl rfl rfl) (.halt hlaw _)) fun hge => ?_
    refine ranges_grow rfl ?_ rfl rfl
    show s.logStore.nextSlot ≤ LogStore.nextSlot (if result = true ∧ env.compact = true then
      s.logStore.compact snp.lastLogIdx else s.logStore)
    split_ifs with hcompact
    · exact LogStore.le_nextSlot_compact (not_lt.mp fun hlt => hge ⟨hcompact.1, hlt⟩)
    · exact le_refl _

theorem ranges_bgWake : Obeys (Ranges env adds) s bgWake :=
  .look_bind (.ite (fun _ => ranges_change rfl rfl rfl rfl) fun _ => .pure (ranges_law env adds) _)

/-- A peer that is added goes on from the end of the log, or where the server that was
brought in stands. -/
theorem ranges_insertPeer {f : Server → Server} {p : Peer} (hr : (f s).role = s.role)
    (hl : (f s).logStore = s.logStore) (hp : (f s).peers = insertPeer s.peers p)
    (hj : ∀ q, (f s).srvToJoin = some q → s.srvToJoin = some q) (hctx : p.snpSyncCtx = none)
    (hnext : s.role = .leader → p.nextLogIdx = s.logStore.nextSlot ∨
      ∃ q, s.srvToJoin = some q ∧ q.id = p.id ∧ p.nextLogIdx = q.nextLogIdx) :
    Obeys (Ranges env adds) s (change f : Action Unit) := by
  refine ranges_of_members hr (by rw [change_run, hl]) fun hlead q hq => ?_
  rw [change_run, hl]
  have hq' : q ∈ s.members ∨ q = p := by
    rcases List.mem_append.mp hq with hq | hq
    · rw [change_run, hp, insertPeer] at hq
      split at hq
      · exact .inl (List.mem_append_left _ hq)
      · rcases List.mem_append.mp hq with hq | hq
        · exact .inl (List.mem_append_left _ hq)
        · exact .inr (List.mem_singleton.mp hq)
    · exact .inl (Server.IsAt.mem (r := .joining) (hj q (Option.mem_toList.mp hq)))
  rcases hq' with hmem | rfl
  · exact ⟨fun _ hs => hs q hmem, fun h0 _ => .inl ⟨q, hmem, rfl, h0⟩⟩
  · rcases hnext hlead with hslot | ⟨j, hjoin, hid, hn⟩
    · exact ⟨fun _ _ => ⟨hslot.le, fun c hc => by rw [hctx] at hc; cases hc⟩,
        fun h0 hpos => absurd (hslot.symm.trans h0) hpos.ne'⟩
    · have hmem : j ∈ s.members := Server.IsAt.mem (r := .joining) hjoin
      exact ⟨fun _ hs => ⟨hn.le.trans (hs j hmem).next, fun c hc => by rw [hctx] at hc; cases hc⟩,
        fun h0 _ => .inl ⟨j, hmem, hid, hn.symm.trans h0⟩⟩

theorem ranges_addServer (srv : SrvConfig) : Obeys (Ranges env adds) s (addServer srv) := by
  refine .look_bind (.ite (fun _ => ?_) fun _ =>
    ranges_insertPeer rfl rfl rfl (fun _ h => h) rfl fun _ => .inl rfl)
  cases hj : s.srvToJoin with
  | none => exact ranges_insertPeer rfl rfl rfl (fun _ h => h) rfl fun _ => .inl rfl
  | some joining =>
    refine .ite (fun hid => ?_) fun _ => ranges_insertPeer rfl rfl rfl (fun _ h => h) rfl fun _ => .inl rfl
    exact ranges_insertPeer rfl rfl rfl (fun q hq => by cases hq) rfl fun _ => .inr ⟨joining, hj, hid, rfl⟩

theorem ranges_removeServers (newConfig : ClusterConfig) : ∀ {pids : List Int} {s : Server},
    Obeys (Ranges env adds) s (removeServers newConfig pids)
  | [], _ => .pure (ranges_law env adds) _
  | q :: _, _ => by
    have hlaw := ranges_law env adds
    refine .look_bind (.ite (fun _ => ?_) fun _ => ?_)
    · exact .emit_bind hlaw (ranges_emit _) (.emit_bind hlaw (ranges_emit _) (.pure hlaw _))
    · exact .bind hlaw (ranges_erasePeer q) fun _ _ => ranges_removeServers newConfig

theorem ranges_reconfigure (newConfig : ClusterConfig) :
    Obeys (Ranges env adds) s (reconfigure newConfig) := by
  have hlaw := ranges_law env adds
  have hadd : ∀ srvs, Obeys (Ranges env adds) s (forEach addServer srvs) := fun srvs =>
    .forEach hlaw (fun _ => True) trivial fun srv _ s _ => ⟨ranges_addServer srv, trivial⟩
  refine .look_bind (.bind hlaw (hadd _) fun _ _ => .bind hlaw (ranges_removeServers _) fun _ _ => ?_)
  exact .ite (fun _ => .pure hlaw _) fun _ => ranges_change rfl rfl rfl rfl

theorem ranges_commitConfig (e : LogEntry) : Obeys (Ranges env adds) s (commitConfig e) := by
  have hlaw := ranges_law env adds
  unfold commitConfig
  cases ClusterConfig.deserialize e.buf with
  | none => exact .halt hlaw _
  | some p =>
    refine .emit_bind hlaw (ranges_emit _) (.change_bind hlaw (ranges_same rfl rfl rfl rfl)
      (.bind hlaw (.look_bind (.ite (fun _ => ranges_reconfigure _) fun _ => .pure hlaw _)) fun _ _ => ?_))
    refine ranges_change ?_ ?_ ?_ ?_ <;> (simp only [Server.caughtUp]; split <;> rfl)

theorem ranges_snapshotAndCompact (committedIdx : Nat) :
    Obeys (Ranges env adds) s (snapshotAndCompact env committedIdx) := by
  have hlaw := ranges_law env adds
  refine .look_bind (.ite (fun _ => .bind hlaw (ranges_change rfl rfl rfl rfl) fun _ _ => ?_)
    fun _ => .pure hlaw _)
  refine .ite (fun _ => ranges_change rfl rfl rfl rfl) fun _ =>
    .rescue hlaw ?_ (ranges_change rfl rfl rfl rfl)
  refine .look_bind (.bind hlaw (reads_confInForce hlaw env _) fun _ _ =>
    .bind hlaw (reads_confOrSnapshot hlaw (ranges_exits env adds) env _ _) fun _ _ =>
    .bind hlaw (reads_termAt hlaw _) fun _ _ => ?_)
  exact .bind hlaw (ranges_change rfl rfl rfl rfl) fun _ _ => ranges_emit _

theorem ranges_bgIter : Obeys (Ranges env adds) s (bgIter env) := by
  have hlaw := ranges_law env adds
  refine .look_bind ?_
  split
  · exact .pure hlaw _
  · refine .ite (fun _ => .rescue hlaw ?_ (reads_exit (ranges_exits env adds) _)) fun _ => ?_
    · refine .bind hlaw (reads_entryAt hlaw _) fun e _ => .bind hlaw ?_ fun _ _ =>
        .bind hlaw (ranges_change rfl rfl rfl rfl) fun _ _ => ranges_snapshotAndCompact _
      exact .ite (fun _ => ranges_emit _) fun _ => .ite (fun _ => ranges_commitConfig e) fun _ => .pure hlaw _
    · exact .bind hlaw (.look_bind (ranges_emit _)) fun _ _ => ranges_change rfl rfl rfl rfl

end Cornerstone
