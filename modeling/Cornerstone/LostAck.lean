import Cornerstone.PeerMoves
import Cornerstone.SnapshotTransfer

/-! # A snapshot that is installed already

What a follower that has a snapshot answers to a request with a block of it, and what
the leader makes of that.  The follower refuses, as it refuses a block that it could not
save, and the leader tries again: no answer to such a request has it leave the snapshot.
-/

namespace Cornerstone
open Handlers Handler Server

variable {s t l f : Server} {env : Env} {pid : Int} {p : Peer} {ctx : SnapshotSyncCtx} {req : ReqMsg}

/-! ## The follower -/

/-- A request with a block of the snapshot a peer is being sent, for a follower of the same
term. -/
structure Resends (ctx : SnapshotSyncCtx) (f : Server) (req : ReqMsg) : Prop where
  type : req.type = .installSnapshotRequest
  term : req.term = f.state.term
  entries : ∃ e r, req.logEntries = [e] ∧ e.valType = .snpSyncReq ∧ SnapshotSyncReq.deserialize e.buf = some r ∧
    r.snapshot = ctx.snapshot

/-- The follower declines. -/
def Server.refusal (s : Server) (req : ReqMsg) : RespMsg where
  term := s.state.term
  type := .installSnapshotResponse
  src := s.id
  dst := req.src

theorem handleInstallSnapshotReq_refuses (env : Env) (h : Resends ctx s req) (hr : s.role ≠ .leader)
    (hdone : ctx.snapshot.lastLogIdx ≤ s.state.commitIdx) :
    ∃ t, handleInstallSnapshotReq env req s = ⟨.ok (s.refusal req), t, []⟩ ∧ t.state = s.state := by
  obtain ⟨e, r, hentries, htype, hd, hsnp⟩ := h.entries
  set t := s.followed (decide (req.term = s.state.term ∧ s.catchingUp = false)) with ht
  obtain ⟨hstate, hid⟩ : t.state = s.state ∧ t.id = s.id := by
    obtain ⟨p, j, r, hrest, -⟩ := followed_rest (s := s) (decide (req.term = s.state.term ∧ s.catchingUp = false))
    rw [ht, hrest]
    exact ⟨rfl, rfl⟩
  have hterm : ¬ (t.catchingUp = false ∧ req.term < t.state.term) := by
    rw [hstate, h.term]
    omega
  refine ⟨t, ?_, hstate⟩
  rw [handleInstallSnapshotReq, bind_silent (look_run _), bind_silent (followLeader_run hr), bind_silent (look_run _),
    ← ht, if_neg hterm, hentries]
  dsimp only
  rw [if_neg (not_not.mpr htype), hd]
  dsimp only
  rw [hsnp, hstate, if_pos hdone, pure_run, Server.refusal, hid]

/-- **`process_req`** at a follower that has the snapshot: nothing but a refusal leaves it. -/
theorem processReq_refuses (env : Env) (h : Resends ctx f req) (hr : f.role ≠ .leader)
    (hdone : ctx.snapshot.lastLogIdx ≤ f.state.commitIdx) :
    ∃ t, processReq env req f = ⟨.ok (), t, [.reply (f.refusal req) t.state]⟩ := by
  have hnoted : (f.noted req.term).state = f.state ∧ (f.noted req.term).id = f.id ∧
      (f.noted req.term).role = f.role := by
    rw [h.term, Server.noted, if_neg (lt_irrefl _)]
    split <;> exact ⟨rfl, rfl, rfl⟩
  have hnote : noteTerm req f = ⟨.ok (), f.noted req.term, []⟩ := by
    rw [noteTerm_run (.inr (.inr h.type)), if_neg (by rw [h.term]; exact lt_irrefl _)]
  have hagain : Resends ctx (f.noted req.term) req := ⟨h.type, by rw [hnoted.1]; exact h.term, h.entries⟩
  obtain ⟨t, hrun, -⟩ := handleInstallSnapshotReq_refuses env hagain (hnoted.2.2 ▸ hr) (hnoted.1 ▸ hdone)
  have hanswer : answerReq env req (f.noted req.term) = ⟨.ok ((f.noted req.term).refusal req), t, []⟩ := by
    rw [answerReq, h.type]
    dsimp only
    rw [handleExtendedMsg, h.type]
    exact hrun
  refine ⟨t, ?_⟩
  rw [processReq_run hnote hanswer, Server.refusal, Server.refusal, hnoted.1, hnoted.2.1]
  rfl

/-! ## The leader -/

/-- The peer is in snapshot mode. -/
def Server.syncs (s : Server) (pid : Int) : Prop := ∃ p, s.findPeer pid = some p ∧ p.snpSyncCtx ≠ none

/-- The law of not leaving it. -/
def StaysSyncing (pid : Int) (s : Server) (_ : List Effect) (t : Server) : Prop := s.syncs pid → t.syncs pid

theorem staysSyncing_law (pid : Int) : Law (StaysSyncing pid) := ⟨fun _ h => h, fun h h' hs => h' (h hs)⟩

theorem staysSyncing_updateAt (r : PeerRef) {f : Peer → Peer} (hid : ∀ p, (f p).id = p.id)
    (hctx : ∀ p, p.snpSyncCtx ≠ none → (f p).snpSyncCtx ≠ none) (s : Server) :
    StaysSyncing pid s [] (s.updateAt r f) := by
  rintro ⟨p, hp, hsync⟩
  cases r with
  | joining => exact ⟨p, hp, hsync⟩
  | peer q =>
    by_cases hq : pid = q
    · subst hq
      exact ⟨f p, findPeer_updatePeer hid hp, hctx p hsync⟩
    · exact ⟨p, (findPeer_updatePeer_ne hid hq).trans hp, hsync⟩

theorem staysSyncing_exits (pid : Int) : Exits (StaysSyncing pid) := fun _ _ h => h

theorem staysSyncing_createSyncSnapshotReq (env : Env) (pid : Int) (n t c : Nat) :
    Obeys (StaysSyncing pid) s (createSyncSnapshotReq env (.peer pid) n t c) := by
  have hlaw := staysSyncing_law pid
  have hexit : ∀ {u : Server} {α : Type} (code : Int), Obeys (StaysSyncing pid) u (systemExitAndExit code : Action α) :=
    fun code => reads_exit (staysSyncing_exits pid) code
  refine .bind hlaw (.bind hlaw (reads_derefPeer hlaw _) fun p _ => ?_) fun ctx _ =>
    .bind hlaw (reads_derefPeer hlaw _) fun p _ => .look_bind (.ite (fun _ => .halt hlaw _) fun _ =>
      .ite (fun _ => hexit _) fun _ => .ite (fun _ => .halt hlaw _) fun _ => .pure hlaw _)
  split
  · exact .pure hlaw _
  · exact hexit _
  · refine .ite (fun _ => hexit _) fun _ => .ite (fun _ => hexit _) fun _ => ?_
    -- another snapshot may take the place of the one that is under way
    exact .change_bind hlaw (staysSyncing_updateAt _ (f := (·.setSnapshotInSync (some _))) (fun _ => rfl)
      (fun _ _ h => by cases h) _) (.pure hlaw _)

theorem staysSyncing_createAppendEntriesReq (env : Env) (pid : Int) :
    Obeys (StaysSyncing pid) s (createAppendEntriesReq env pid) := by
  have hlaw := staysSyncing_law pid
  have hexit : ∀ {u : Server} {α : Type} (code : Int), Obeys (StaysSyncing pid) u (systemExitAndExit code : Action α) :=
    fun code => reads_exit (staysSyncing_exits pid) code
  refine .look_bind (.change_bind hlaw (staysSyncing_updateAt (.peer pid) (fun p => ?_) (fun p h => ?_) s) ?_)
  · split <;> rfl
  · split
    · exact h
    · exact h
  refine .bind hlaw (reads_derefPeer hlaw _) fun p _ => .ite (fun _ => hexit _) fun _ =>
    .ite (fun _ => staysSyncing_createSyncSnapshotReq env _ _ _ _) fun _ => ?_
  exact .bind hlaw (reads_termForLog hlaw (staysSyncing_exits pid) env _) fun t _ =>
    .ite (fun _ => .halt hlaw _) fun _ => .pure hlaw _

theorem staysSyncing_requestAppendEntriesTo (env : Env) (pid : Int) :
    Obeys (StaysSyncing pid) s (requestAppendEntriesTo env pid) := by
  have hlaw := staysSyncing_law pid
  refine .look_bind ?_
  split
  · exact .pure hlaw _
  · refine .ite (fun _ => .pure hlaw _) fun _ => .change_bind hlaw
      (staysSyncing_updateAt (.peer pid) (f := fun p => { p with busy := true }) (fun _ => rfl) (fun _ h => h) s) ?_
    exact .bind hlaw (staysSyncing_createAppendEntriesReq env pid) fun req _ =>
      .bind hlaw (fun h => h) fun _ _ => .pure hlaw _

theorem staysSyncing_rpcResult (via : Option PeerRef) (reqType : MsgType) (failed : Bool) :
    Obeys (StaysSyncing pid) s (rpcResult via reqType failed) := by
  cases via with
  | none => exact .pure (staysSyncing_law pid) _
  | some r =>
    refine staysSyncing_updateAt r (fun p => ?_) (fun p h => ?_) s
    · exact congrArg Prod.fst (mark_rpcResult s.params reqType failed p)
    · unfold Peer.rpcResult
      split_ifs <;> exact h

theorem staysSyncing_handlePeerResp (env : Env) {resp : RespMsg} (htype : resp.type = .installSnapshotResponse)
    (hterm : resp.term ≤ s.state.term) (hacc : resp.accepted = false) :
    Obeys (StaysSyncing resp.src) s (handlePeerResp env resp) := by
  have hlaw := staysSyncing_law resp.src
  have hrun : handlePeerResp env resp s = handleInstallSnapshotResp env resp s := by
    rw [handlePeerResp, bind_silent (updateTerm_of_le hterm), if_neg Bool.false_ne_true, htype]
  have hobeys : Obeys (StaysSyncing resp.src) s (handleInstallSnapshotResp env resp) := by
    refine .look_bind ?_
    split
    · exact .pure hlaw _
    · rw [hacc]
      refine .bind hlaw (.pure hlaw true) fun need _ => .look_bind (.ite (fun _ => ?_) fun _ => .pure hlaw _)
      exact .bind hlaw (staysSyncing_requestAppendEntriesTo env _) fun _ _ => .pure hlaw _
  unfold Obeys
  rw [hrun]
  exact hobeys

/-- **A refusal keeps the leader in snapshot mode.** -/
theorem refused_syncs (env : Env) (via : Option PeerRef) (reqType : MsgType) {resp : RespMsg}
    (htype : resp.type = .installSnapshotResponse) (hterm : resp.term ≤ l.state.term)
    (hacc : resp.accepted = false) (hsync : l.syncs resp.src) :
    (handle env (.peerResp via reqType resp) l).state.syncs resp.src := by
  have hlaw := staysSyncing_law resp.src
  have hstate := (sends_rpcResult (s := l) via reqType false).quiet.state_eq
  have hobeys : Obeys (StaysSyncing resp.src) l (handle env (.peerResp via reqType resp)) :=
    .bind hlaw (staysSyncing_rpcResult via reqType false) fun _ _ =>
      staysSyncing_handlePeerResp env htype (hstate ▸ hterm) hacc
  exact hobeys hsync

/-! ## Both -/

/-- The leader is done with the snapshot for this peer. -/
def Server.LeftSnapshot (s : Server) (pid : Int) (ctx : SnapshotSyncCtx) : Prop :=
  ∃ p, s.findPeer pid = some p ∧ p.snpSyncCtx = none ∧ p.nextLogIdx = ctx.snapshot.lastLogIdx + 1

/-- **A lost acknowledgement wedges a peer.**  For every leader and follower of one term
and every snapshot that the follower has and the leader still sends, the follower answers
the next request with a refusal, and the leader stays in snapshot mode. -/
theorem lost_ack_wedges (lenv fenv : Env) (hp : l.findPeer f.id = some p) (hctx : p.snpSyncCtx = some ctx)
    (hterm : f.state.term = l.state.term) (hrole : f.role ≠ .leader)
    (hdone : ctx.snapshot.lastLogIdx ≤ f.state.commitIdx) (hreq : Resends ctx f req) :
    ∃ resp t, processReq fenv req f = ⟨.ok (), t, [.reply resp t.state]⟩ ∧
      ¬ (handle lenv (.peerResp (some (.peer f.id)) .installSnapshotRequest resp) l).state.LeftSnapshot f.id ctx := by
  obtain ⟨t, hrun⟩ := processReq_refuses fenv hreq hrole hdone
  have hsync : l.syncs (f.refusal req).src := by
    refine ⟨p, hp, ?_⟩
    rw [hctx]
    exact Option.some_ne_none _
  refine ⟨f.refusal req, t, hrun, ?_⟩
  rintro ⟨q, hq, hnone, -⟩
  have hrefusal : (f.refusal req).type = .installSnapshotResponse := rfl
  obtain ⟨q', hq', hsome⟩ := refused_syncs lenv (some (.peer f.id)) .installSnapshotRequest hrefusal hterm.le rfl hsync
  cases hq.symm.trans hq'
  exact hsome hnone

/-- A leader that has one byte of a snapshot of three left to send to server 2. -/
def lastByteLeader : Server :=
  { compactedLeader 3 with peers := [{ peerNext 3 with busy := true, snpSyncCtx := some ⟨sizedSnapshot 3, 2⟩ }] }

/-- Server 2, which has installed the snapshot; the answer it gave got lost. -/
def installedFollower : Server := { id := 2, state := ⟨0, 5, -1⟩, logStore := ⟨6, []⟩ }

/-- The last block once more. -/
def lastByteReq : ReqMsg := lastByteLeader.blockReq (sizedEnv 3) 2 ⟨sizedSnapshot 3, 2⟩ 0 0

theorem resends_lastByteReq : Resends ⟨sizedSnapshot 3, 2⟩ installedFollower lastByteReq where
  type := rfl
  term := rfl
  entries := ⟨_, lastByteLeader.nextBlock (sizedEnv 3) ⟨sizedSnapshot 3, 2⟩, blockReq_entries, rfl, by decide +kernel,
    nextBlock_snapshot⟩

theorem lost_ack_wedges_last : ∃ resp t, processReq {} lastByteReq installedFollower = ⟨.ok (), t, [.reply resp t.state]⟩ ∧
    ¬ (handle (sizedEnv 3) (.peerResp (some (.peer 2)) .installSnapshotRequest resp)
      lastByteLeader).state.LeftSnapshot 2 ⟨sizedSnapshot 3, 2⟩ :=
  lost_ack_wedges (sizedEnv 3) {} (l := lastByteLeader) (f := installedFollower) rfl rfl rfl (by decide) (by decide)
    resends_lastByteReq

/-- The follower refuses the block it has, and the leader sends it again. -/
theorem lost_ack_fails :
    installedFollower.state.commitIdx = (sizedSnapshot 3).lastLogIdx ∧
      (processReq {} lastByteReq installedFollower).out =
        [.reply (installedFollower.refusal lastByteReq) installedFollower.state] ∧
      ((handle (sizedEnv 3) (.peerResp (some (.peer 2)) .installSnapshotRequest (installedFollower.refusal lastByteReq))
        lastByteLeader).state.findPeer 2).any (fun p => p.snpSyncCtx = some ⟨sizedSnapshot 3, 2⟩ ∧ p.nextLogIdx = 3) := by
  decide +kernel

end Cornerstone
