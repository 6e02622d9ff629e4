import Cornerstone.EntryOrigin
import Cornerstone.NextFrame

/-! # The next index of a peer, over every run

`create_append_entries_req` ends the process when it finds the next index of a peer
beyond the log.  A call changes a next index of 0 alone, and what goes before it in the
same event is seen in what a response leaves, so it is enough to look at a leader
between the events, and at what each response leaves.  Responses of an earlier time in
office are not told from those of the present one, and say what the log once was.
-/

namespace Cornerstone
open Handlers Handler Server

variable {s t : Server} {o : List Effect} {env : Env} {adds : Int → Prop}

/-- A next index beyond the log ends the process, and stays where it is. -/
theorem createAppendEntriesReq_tooLarge {pid : Int} {p : Peer} (hp : s.findPeer pid = some p)
    (h0 : p.nextLogIdx ≠ 0) (hlarge : s.logStore.nextSlot < p.nextLogIdx) :
    (createAppendEntriesReq env pid s).res = .error .exit ∧
      ∃ q ∈ (createAppendEntriesReq env pid s).state.peers, q.nextLogIdx = p.nextLogIdx := by
  have hloc : (s.located pid).findPeer pid = some p := by
    rw [Server.located, findPeer_updatePeer (fun q => by split <;> rfl) hp, if_neg h0]
  have hge : p.nextLogIdx - 1 ≥ s.logStore.nextSlot := by omega
  have hchange : (change (·.updatePeer pid fun p =>
      if p.nextLogIdx = 0 then { p with nextLogIdx := s.logStore.nextSlot } else p) : Action Unit) s =
      ⟨.ok (), s.located pid, []⟩ := rfl
  have hat : (s.located pid).peerAt? (.peer pid) = some p := hloc
  have hrun : createAppendEntriesReq env pid s = systemExitAndExit (-1) (s.located pid) := by
    simp only [createAppendEntriesReq, derefPeer, bind_run, look_run, hchange, Outcome.andThen_ok,
      List.nil_append, hat, pure_run, ite_run, if_pos hge, systemExitAndExit]
  rw [hrun]
  exact ⟨rfl, p, (findPeer_mem hloc).1, rfl⟩

/-! ## Responses -/

/-- The next index an append_entries response leaves at its peer. -/
def Peer.nextAfter (p : Peer) (resp : RespMsg) : Nat :=
  if resp.accepted then resp.nextIdx
  else if resp.nextIdx > 0 ∧ p.nextLogIdx > resp.nextIdx then resp.nextIdx
  else ulongSub p.nextLogIdx 1

/-- The response lowers the next index of its peer by one. -/
def Peer.Lowered (p : Peer) (resp : RespMsg) : Prop :=
  resp.accepted = false ∧ ¬ (resp.nextIdx > 0 ∧ p.nextLogIdx > resp.nextIdx)

/-- What a response says of a peer fits a log: an accepted one names an index of the log
or the one behind it, a declined one leaves a place to go back to. -/
def Peer.NextOkay (slot : Nat) (resp : RespMsg) (p : Peer) : Prop :=
  if resp.accepted then 1 ≤ resp.nextIdx ∧ resp.nextIdx ≤ slot
  else 2 ≤ p.nextLogIdx ∧ p.nextLogIdx < ulongSize

instance (slot : Nat) (resp : RespMsg) (p : Peer) : Decidable (p.NextOkay slot resp) :=
  inferInstanceAs (Decidable (ite _ _ _))

theorem Peer.NextOkay.nextAfter {slot : Nat} {resp : RespMsg} {p : Peer} (h : p.NextOkay slot resp)
    (hle : p.nextLogIdx ≤ slot) : 1 ≤ p.nextAfter resp ∧ p.nextAfter resp ≤ slot := by
  unfold Peer.NextOkay at h
  unfold Peer.nextAfter
  split_ifs at h ⊢ with hacc hback
  · exact h
  · omega
  · rw [ulongSub_of_le (by omega) h.2]
    omega

theorem Peer.NextOkay.lowered {slot : Nat} {resp : RespMsg} {p : Peer} (h : p.NextOkay slot resp)
    (hl : p.Lowered resp) : 1 ≤ p.nextLogIdx := by
  rw [Peer.NextOkay, if_neg (by rw [hl.1]; exact Bool.false_ne_true)] at h
  omega

/-- The peers a response is from. -/
def Server.RespOkay (s : Server) (resp : RespMsg) : Prop :=
  ∀ p ∈ s.peers, p.id = resp.src → p.NextOkay s.logStore.nextSlot resp

instance (s : Server) (resp : RespMsg) : Decidable (s.RespOkay resp) :=
  inferInstanceAs (Decidable (∀ p ∈ s.peers, p.id = resp.src → p.NextOkay s.logStore.nextSlot resp))

/-- Going back by one, from a place behind the first entry. -/
theorem ranges_lower {pid : Int}
    (h : s.role = .leader → ∀ q ∈ s.peers, q.id = pid → 2 ≤ q.nextLogIdx ∧ q.nextLogIdx < ulongSize) :
    Ranges env adds s o (s.updatePeer pid fun p => { p with nextLogIdx := ulongSub p.nextLogIdx 1 }) := by
  apply ranges_updateAt (.peer pid)
  · intro p
    exact show p.config.id = p.id from rfl
  · intro hr q hq
    obtain ⟨h2, hlt⟩ := h hr q hq.1 hq.2
    have hsub : ulongSub q.nextLogIdx 1 = q.nextLogIdx - 1 := ulongSub_of_le (by omega) hlt
    rw [hsub]
    refine ⟨fun _ hs => ⟨?_, (hs q hq.mem).ctx⟩, fun h0 => ?_⟩
    · exact (Nat.sub_le _ _).trans (hs q hq.mem).next
    · have hzero : q.nextLogIdx - 1 = 0 := h0
      omega

theorem ranges_acceptedAppend {resp : RespMsg} (hacc : resp.accepted = true)
    (h : s.role = .leader → s.RespOkay resp) :
    Obeys (Ranges env adds) s (acceptedAppend env resp) := by
  have hlaw := ranges_law env adds
  refine .change_bind hlaw (ranges_updateAt (.peer resp.src) (fun _ => rfl) fun hr q hq => ?_)
    (.look_bind (.bind hlaw (ranges_commit _) fun _ _ => .look_bind (.change_bind hlaw ?_ (.pure hlaw _))))
  · have hokay := h hr q hq.1 hq.2
    rw [Peer.NextOkay, if_pos hacc] at hokay
    exact ⟨fun _ hs => ⟨hokay.2, (hs q hq.mem).ctx⟩, fun h0 => absurd h0 (Nat.ne_of_gt hokay.1)⟩
  · exact ranges_flag (.peer resp.src) (f := fun p => { p with pendingCommit := false })
      (fun _ => rfl) (fun _ => rfl) (fun _ => rfl)

theorem ranges_declinedAppend {resp : RespMsg} {p : Peer} (hacc : resp.accepted = false)
    (hp : s.findPeer resp.src = some p) (h : s.role = .leader → s.RespOkay resp) :
    Obeys (Ranges env adds) s (declinedAppend resp p) := by
  have hlaw := ranges_law env adds
  have hmem := findPeer_mem hp
  refine .ite (fun hback => ?_) fun hback => ?_
  · refine .change_bind hlaw (ranges_updateAt (.peer resp.src) (fun _ => rfl) fun _ q hq => ?_) (.pure hlaw _)
    refine ⟨fun _ hs => ⟨?_, (hs q hq.mem).ctx⟩, fun h0 => absurd h0 (Nat.ne_of_gt hback.1)⟩
    have hle := (hs p (List.mem_append_left _ hmem.1)).next
    exact hback.2.le.trans hle
  · refine .change_bind hlaw (ranges_lower fun hr q hq hid => ?_) (.pure hlaw _)
    have hokay := h hr q hq hid
    rwa [Peer.NextOkay, if_neg (by rw [hacc]; exact Bool.false_ne_true)] at hokay

theorem ranges_handleAppendEntriesResp {resp : RespMsg} (h : s.role = .leader → s.RespOkay resp) :
    Obeys (Ranges env adds) s (handleAppendEntriesResp env resp) := by
  have hlaw := ranges_law env adds
  refine .look_bind ?_
  split
  · exact .pure hlaw _
  · rename_i p hp
    refine .ite (fun hacc => ?_) fun hacc => ?_
    · exact .bind hlaw (ranges_acceptedAppend hacc h) fun b _ => ranges_continueWith _ b
    · exact .bind hlaw (ranges_declinedAppend (Bool.eq_false_iff.mpr hacc) hp h) fun b _ =>
        ranges_continueWith _ b

/-- A peer that has taken in a snapshot goes on behind it. -/
theorem ranges_acceptedSnapshot {resp : RespMsg} {p : Peer} (hp : s.findPeer resp.src = some p) :
    Obeys (Ranges env adds) s (acceptedSnapshot resp p) := by
  have hlaw := ranges_law env adds
  have hmem := findPeer_mem hp
  unfold acceptedSnapshot
  cases hctx : p.snpSyncCtx with
  | none => exact .pure hlaw _
  | some ctx =>
    have hlast : s.Fits → ctx.snapshot.lastLogIdx < s.logStore.nextSlot := fun hs =>
      (hs p (List.mem_append_left _ hmem.1)).ctx ctx hctx
    refine .look_bind (.ite (fun _ => ?_) fun _ => ?_)
    · refine .change_bind hlaw (ranges_updateAt (.peer resp.src) (fun _ => rfl) fun _ q hq => ?_) (.pure hlaw _)
      exact ⟨fun _ hs => ⟨hlast hs, fun c hc => by cases hc⟩, fun h0 => absurd h0 (Nat.succ_ne_zero _)⟩
    · refine .change_bind hlaw (ranges_updateAt (.peer resp.src) (fun _ => rfl) fun _ q hq => ?_) (.pure hlaw _)
      refine ⟨fun _ hs => ⟨(hs q hq.mem).next, fun c hc => ?_⟩, id⟩
      cases hc
      exact hlast hs

theorem ranges_handleInstallSnapshotResp (resp : RespMsg) :
    Obeys (Ranges env adds) s (handleInstallSnapshotResp env resp) := by
  have hlaw := ranges_law env adds
  refine .look_bind ?_
  split
  · exact .pure hlaw _
  · rename_i p hp
    refine .ite (fun _ => ?_) fun _ => ranges_continueWith _ _
    exact .bind hlaw (ranges_acceptedSnapshot hp) fun b _ => ranges_continueWith _ b

/-- Every response but one to a vote request. -/
theorem ranges_handlePeerResp {resp : RespMsg} (hvote : resp.type ≠ .requestVoteResponse)
    (h : s.role = .leader → resp.type = .appendEntriesResponse → resp.term ≤ s.state.term →
      s.RespOkay resp) :
    Obeys (Ranges env adds) s (handlePeerResp env resp) := by
  have hlaw := ranges_law env adds
  refine .bind hlaw (ranges_updateTerm _) fun updated hupdated => .ite (fun _ => .pure hlaw _) fun hsame => ?_
  rcases Nat.lt_or_ge s.state.term resp.term with hlt | hle
  · rw [updateTerm_of_lt hlt] at hupdated
    cases hupdated
    exact absurd rfl hsame
  rw [updateTerm_of_le hle]
  split
  · exact absurd ‹_› hvote
  · exact ranges_handleAppendEntriesResp fun hr => h hr ‹_› hle
  · exact ranges_handleInstallSnapshotResp resp
  · exact reads_exit (ranges_exits env adds) _

/-! ## Taking office -/

/-- Where a step that ends with the server in office leaves the members. -/
def LeadsWithin (env : Env) (adds : Int → Prop) (s t : Server) : Prop :=
  t.role = .leader → 0 < s.logStore.nextSlot → s.Covers env → (s.role = .leader → s.Fits) →
    t.Fits ∧ ∀ p ∈ t.members, p.nextLogIdx = 0 → s.ZeroAt p.id ∨ adds p.id

theorem Ranges.leadsWithin (h : Ranges env adds s o t) : LeadsWithin env adds s t :=
  fun hr hpos hc hs => ⟨h.fits hr hc (hs (h.role hr)), h.zeros hr hpos⟩

theorem leadsWithin_of_role (h : t.role ≠ .leader) : LeadsWithin env adds s t := fun hr => absurd hr h

/-- Who takes office believes every peer to be at the end of its log. -/
theorem elected_members : ∀ p ∈ s.elected.members,
    p.nextLogIdx = s.logStore.nextSlot ∧ p.snpSyncCtx = none := by
  have hjoin : s.elected.srvToJoin = none := by
    unfold Server.elected
    split <;> rfl
  intro p hp
  rcases List.mem_append.mp hp with hp | hp
  · unfold Server.elected at hp
    split at hp
    all_goals
      obtain ⟨q, -, rfl⟩ := List.mem_map.mp hp
      exact ⟨rfl, rfl⟩
  · rw [hjoin] at hp
    cases hp

theorem elected_nextSlot : s.logStore.nextSlot ≤ s.elected.logStore.nextSlot := by
  unfold Server.elected
  split
  · show s.logStore.nextSlot ≤ (s.logStore.append _).nextSlot
    rw [LogStore.append_nextSlot]
    exact Nat.le_succ _
  · exact le_refl _

/-- **`become_leader`** forgets what was believed of the peers. -/
theorem becomeLeader_within {u : Server} (hlog : u.logStore = s.logStore) :
    LeadsWithin env adds s (becomeLeader env u).state := by
  intro hr hpos hc _
  have hreq : Ranges env (fun _ => False) u.elected _ (requestAppendEntries env u.elected).state :=
    ranges_requestAppendEntries
  rw [becomeLeader_run] at hr ⊢
  have hgrow := @elected_nextSlot u
  rw [← hlog] at hpos
  have hcover : u.elected.Covers env := fun snp hsnp => (hlog ▸ hc snp hsnp : _ < u.logStore.nextSlot).trans_le hgrow
  refine ⟨hreq.fits hr hcover fun p hp => ?_, fun p hp h0 => ?_⟩
  · obtain ⟨hn, hctx⟩ := elected_members p hp
    exact ⟨hn.le.trans hgrow, fun c hc => by rw [hctx] at hc; cases hc⟩
  · rcases hreq.zeros hr (hpos.trans_le hgrow) p hp h0 with ⟨q, hq, -, hq0⟩ | hno
    · exact absurd ((elected_members q hq).1.symm.trans hq0) hpos.ne'
    · exact hno.elim

theorem handleVotingResp_within (resp : RespMsg) {u : Server} (hu : Ranges env adds s o u)
    (hlog : u.logStore = s.logStore) : LeadsWithin env adds s (handleVotingResp env resp u).state := by
  have hlaw := ranges_law env adds
  cases he : u.electionCompleted with
  | true =>
    rw [handleVotingResp_done env resp he]
    have hsame : Ranges env adds u [] _ := ranges_same rfl rfl rfl rfl
    exact (hlaw.trans hu hsame).leadsWithin
  | false =>
    have hrest := @counted_rest u resp.accepted
    rw [handleVotingResp_run env resp he]
    split
    · apply becomeLeader_within
      rw [hrest]
      exact hlog
    · have hcount : Ranges env adds u [] (u.counted resp.accepted) := by
        rw [hrest]
        exact ranges_same rfl rfl rfl rfl
      exact (hlaw.trans hu hcount).leadsWithin

theorem handlePeerResp_within {resp : RespMsg} (hvote : resp.type = .requestVoteResponse) {u : Server}
    (hu : Ranges env adds s o u) (hlog : u.logStore = s.logStore) :
    LeadsWithin env adds s (handlePeerResp env resp u).state := by
  unfold handlePeerResp
  rcases Nat.lt_or_ge u.state.term resp.term with hlt | hle
  · rw [bind_run, updateTerm_of_lt hlt]
    exact leadsWithin_of_role (show SrvRole.follower ≠ .leader by decide)
  · rw [bind_run, updateTerm_of_le hle, hvote]
    exact handleVotingResp_within resp hu hlog

theorem handleElectionTimeout_within : LeadsWithin env adds s (handleElectionTimeout env s).state := by
  by_cases hstand : s.Standing
  · rw [handleElectionTimeout_run env hstand]
    split
    · exact becomeLeader_within rfl
    · have hvotes : Obeys Canvasses s.campaign (requestVotes env s.peerIds) :=
        canvasses_requestVotes env s.peerIds
      have hrole : (requestVotes env s.peerIds s.campaign).state.role = .candidate := by
        rw [hvotes.rest]
        rfl
      exact leadsWithin_of_role (by rw [hrole]; decide)
  · exact Ranges.leadsWithin (ranges_handleElectionTimeout hstand)

/-! ## Every event -/

/-- The server an event adds. -/
def Event.Adds : Event → Int → Prop
  | .request req, pid => req.Adds pid
  | _, _ => False

/-- A leader takes in what its peers can mean: an append_entries response fits its log, so
does the response of the server it brings in, and it takes in no log pack.  The last
snapshot of the state machine was taken of the log. -/
def NextSafely (s : Server) (env : Env) (ev : Event) : Prop :=
  s.Covers env ∧ (s.role = .leader →
    match ev with
    | .peerResp _ _ resp => resp.type = .appendEntriesResponse → resp.term ≤ s.state.term → s.RespOkay resp
    | .extResp _ _ resp => resp.type = .syncLogResponse → s.srvToJoin ≠ none →
        1 ≤ resp.nextIdx ∧ resp.nextIdx ≤ s.logStore.nextSlot
    | .request req => req.type = .syncLogRequest → s.catchingUp = false
    | _ => True)

/-- `rpc_result` returns, and leaves what is asked of the next indexes as it is. -/
structure Freed (s u : Server) : Prop where
  role : u.role = s.role
  state : u.state = s.state
  log : u.logStore = s.logStore
  joining : s.srvToJoin = none → u.srvToJoin = none
  peers : ∀ p ∈ u.peers, ∃ q ∈ s.peers, q.id = p.id ∧ q.nextLogIdx = p.nextLogIdx

theorem rpcResult_freed (via : Option PeerRef) (reqType : MsgType) (failed : Bool) :
    ∃ u, rpcResult via reqType failed s = ⟨.ok (), u, []⟩ ∧ Freed s u := by
  cases via with
  | none => exact ⟨s, rfl, rfl, rfl, rfl, id, fun p hp => ⟨p, hp, rfl, rfl⟩⟩
  | some r =>
    refine ⟨s.updateAt r (Peer.rpcResult s.params reqType failed), rfl, ?_⟩
    cases r with
    | peer pid =>
      refine ⟨rfl, rfl, rfl, id, fun p hp => ?_⟩
      obtain ⟨q, hq, rfl⟩ := List.mem_map.mp hp
      refine ⟨q, hq, ?_, ?_⟩
      · split
        · unfold Peer.rpcResult
          split_ifs <;> rfl
        · rfl
      · split
        · exact (rpcResult_next _ _ _ q).symm
        · rfl
    | joining => exact ⟨rfl, rfl, rfl, Option.map_eq_none_iff.mpr, fun p hp => ⟨p, hp, rfl, rfl⟩⟩

theorem Freed.respOkay {u : Server} {resp : RespMsg} (h : Freed s u) (hs : s.RespOkay resp) :
    u.RespOkay resp := by
  intro p hp hpid
  obtain ⟨q, hq, hid, hn⟩ := h.peers p hp
  have hokay := hs q hq (hid.trans hpid)
  unfold Peer.NextOkay at hokay ⊢
  rw [h.log, ← hn]
  exact hokay

theorem answerReq_ranges {req : ReqMsg} (hle : req.type = .appendEntriesRequest → req.term ≤ s.state.term)
    (hsync : req.type = .syncLogRequest → s.role = .leader → s.catchingUp = false) :
    Obeys (Ranges env req.Adds) s (answerReq env req) := by
  unfold answerReq handleExtendedMsg
  split
  · exact ranges_handleAppendEntries (hle ‹_›)
  · exact ranges_handleVoteReq req
  · exact ranges_handleCliReq req
  · split
    · exact ranges_handleAddSrvReq ‹_›
    · exact ranges_handleRmSrvReq req
    · exact ranges_handleLogSyncReq req (hsync ‹_›)
    · exact ranges_handleJoinClusterReq req
    · exact ranges_handleLeaveClusterReq req
    · exact ranges_handleInstallSnapshotReq req
    · exact reads_exit (ranges_exits env _) _

theorem processReq_ranges {req : ReqMsg}
    (hsync : req.type = .syncLogRequest → s.role = .leader → s.catchingUp = false) :
    Obeys (Ranges env req.Adds) s (processReq env req) := by
  have hlaw := ranges_law env req.Adds
  refine .bind hlaw (ranges_noteTerm req) fun _ _ =>
    .bind hlaw (answerReq_ranges (fun htype => ?_) fun htype => ?_) fun _ _ => .look_bind (ranges_emit _)
  · rw [noteTerm_run (.inl htype)]
    exact (noted_noted s req).term
  · have hnote : noteTerm req s = ⟨.ok (), s, []⟩ := by
      simp [noteTerm, htype]
    rw [hnote]
    exact hsync htype

/-- **Every event leaves the members of a leader within its log**, if what comes in fits. -/
theorem handle_within {ev : Event} (h : NextSafely s env ev) :
    LeadsWithin env ev.Adds s (handle env ev s).state := by
  cases ev with
  | request req =>
    have hreq : Obeys (Ranges env req.Adds) s (processReq env req) :=
      processReq_ranges fun htype hr => h.2 hr htype
    exact Ranges.leadsWithin hreq
  | peerResp via reqType resp =>
    obtain ⟨u, hrun, hfreed⟩ := rpcResult_freed (s := s) via reqType false
    have hu : Obeys (Ranges env (Event.Adds (.peerResp via reqType resp))) s (rpcResult via reqType false) :=
      ranges_rpcResult via reqType false
    have hgo : handle env (.peerResp via reqType resp) s = handlePeerResp env resp u :=
      Handler.bind_silent hrun _
    rw [Obeys, hrun] at hu
    rw [hgo]
    by_cases hvote : resp.type = .requestVoteResponse
    · exact handlePeerResp_within hvote hu hfreed.log
    · refine Ranges.leadsWithin ((ranges_law env _).trans hu (ranges_handlePeerResp hvote fun hr htype hle => ?_))
      exact hfreed.respOkay (h.2 (hfreed.role ▸ hr) htype (hfreed.state ▸ hle))
  | peerErr via reqType => exact Ranges.leadsWithin (ranges_rpcResult via reqType true)
  | extResp via reqType resp =>
    obtain ⟨u, hrun, hfreed⟩ := rpcResult_freed (s := s) via reqType false
    refine Ranges.leadsWithin (Obeys.bind (ranges_law env _) (ranges_rpcResult via reqType false) fun _ _ => ?_)
    rw [hrun]
    refine ranges_handleExtResp fun hr htype hj => ?_
    rw [hfreed.log]
    exact h.2 (hfreed.role ▸ hr) htype fun hnone => hj (hfreed.joining hnone)
  | extErr via req =>
    exact Ranges.leadsWithin (Obeys.bind (ranges_law env _) (ranges_rpcResult via req.type true) fun _ _ =>
      ranges_handleExtRespErr req)
  | extRetry req => exact Ranges.leadsWithin (ranges_sendExtReq req)
  | electionTimeout => exact handleElectionTimeout_within
  | hbTimeout pid => exact Ranges.leadsWithin (ranges_handleHbTimeout pid)
  | bgWake => exact Ranges.leadsWithin ranges_bgWake
  | bgIter => exact Ranges.leadsWithin ranges_bgIter
  | snapshotCompleted result => exact Ranges.leadsWithin (ranges_onSnapshotCompleted result)

/-! ## Every run -/

/-- Log indexes start at 1. -/
def StartsAtOne (s : Server) (_ : List Effect) (t : Server) : Prop :=
  1 ≤ s.logStore.startIdx → 1 ≤ t.logStore.startIdx

theorem startsAtOne_law : Law StartsAtOne := ⟨fun _ h => h, fun h h' hs => h' (h hs)⟩

theorem Segment.startsAtOne {s₀ : Server} {ev : Event} (h : Segment s₀ ev s o t) : StartsAtOne s o t := by
  intro hs
  have hcompact : ∀ n (l : LogStore), 1 ≤ (l.compact n).startIdx := fun n _ => Nat.le_add_left 1 n
  cases h with
  | book hb ho =>
    rw [hb.rest]
    exact hs
  | replicate =>
    rw [replicate_startIdx]
    exact hs
  | applyPack he ht hm hc hl =>
    show 1 ≤ LogStore.startIdx _
    rw [← LogStore.applyPack_startIdx hl]
    exact hs
  | install he ht hm hl hf hst hn hge hb ho =>
    rw [hb.rest]
    exact hcompact _ _
  | quit hl hb hx ho =>
    rw [hb.rest]
    rcases hl with rfl | ⟨n, -, rfl⟩
    · exact hs
    · exact hcompact _ _
  | commitConfig he hbg hm hat hc hd hcfg hb ho =>
    rw [hb.rest]
    exact hs
  | compact hl =>
    rcases hl with rfl | ⟨snp, -, -, rfl⟩
    · exact hs
    · exact hcompact _ _
  | _ => exact hs

/-- What holds of a server between the events. -/
structure NextBounded (s : Server) : Prop where
  start : 1 ≤ s.logStore.startIdx
  fits : s.role = .leader → s.Fits

theorem NextBounded.nextSlot_pos (h : NextBounded s) : 0 < s.logStore.nextSlot :=
  Nat.lt_of_lt_of_le h.start (Nat.le_add_right _ _)

/-- The response an event brings a server, and the peer it is from. -/
def Server.Hears (s : Server) (ev : Event) (resp : RespMsg) (p : Peer) : Prop :=
  (∃ via reqType, ev = .peerResp via reqType resp) ∧ resp.type = .appendEntriesResponse ∧
    resp.term ≤ s.state.term ∧ s.findPeer resp.src = some p

/-- What is asked of the next indexes when an event brings a server from `s` to `t`.  While
it leads, each lies in its log or just behind it, and is 0 only if it was 0 before or its
peer object is new.  What a response leaves, before the leader goes on with its peer, lies
between 1 and the end of the log, and no next index is lowered below 0. -/
structure NextsInRange (s : Server) (ev : Event) (t : Server) : Prop where
  upper : t.role = .leader → ∀ p ∈ t.members, p.nextLogIdx ≤ t.logStore.nextSlot
  zero : t.role = .leader → ∀ p ∈ t.members, p.nextLogIdx = 0 → s.ZeroAt p.id ∨ ev.Adds p.id
  left : s.role = .leader → s.exited = false → ∀ resp p, s.Hears ev resp p →
    1 ≤ p.nextAfter resp ∧ p.nextAfter resp ≤ s.logStore.nextSlot
  lowered : s.role = .leader → s.exited = false → ∀ resp p, s.Hears ev resp p → p.Lowered resp →
    1 ≤ p.nextLogIdx

/-- One step of a run. -/
theorem next_bounded {ev : Event} (hs : NextBounded s) (h : NextSafely s env ev) :
    NextBounded (s.next env ev) ∧ NextsInRange s ev (s.next env ev) := by
  have hstep : NextBounded (s.next env ev) ∧ ((s.next env ev).role = .leader →
      ∀ p ∈ (s.next env ev).members, p.nextLogIdx = 0 → s.ZeroAt p.id ∨ ev.Adds p.id) := by
    rcases Server.next_cases env ev s with ⟨-, hsame⟩ | ⟨x, hnext⟩
    · rw [hsame]
      exact ⟨hs, fun _ p hp h0 => .inl ⟨p, hp, rfl, h0⟩⟩
    · have hstart : StartsAtOne s _ (handle env ev s).state :=
        (handle_path env ev s).lift startsAtOne_law fun _ _ _ h => h.startsAtOne
      have hwithin : LeadsWithin env ev.Adds s (handle env ev s).state := handle_within h
      rw [hnext]
      exact ⟨⟨hstart hs.start, fun hr => (hwithin hr hs.nextSlot_pos h.1 hs.fits).1⟩,
        fun hr => (hwithin hr hs.nextSlot_pos h.1 hs.fits).2⟩
  have hokay : s.role = .leader → ∀ resp p, s.Hears ev resp p →
      p.NextOkay s.logStore.nextSlot resp ∧ p.nextLogIdx ≤ s.logStore.nextSlot := by
    rintro hr resp p ⟨⟨via, reqType, rfl⟩, htype, hle, hp⟩
    obtain ⟨hmem, hid⟩ := findPeer_mem hp
    exact ⟨h.2 hr htype hle p hmem hid, (hs.fits hr p (List.mem_append_left _ hmem)).next⟩
  refine ⟨hstep.1, fun hr p hp => (hstep.1.fits hr p hp).next, hstep.2, fun hr _ resp p hp => ?_,
    fun hr _ resp p hp hl => ?_⟩
  · exact (hokay hr resp p hp).1.nextAfter (hokay hr resp p hp).2
  · exact (hokay hr resp p hp).1.lowered hl

/-- The next indexes of a server along a run. -/
def Server.NextsAlong (s : Server) (run : List (Env × Event)) : Prop :=
  s.Along (fun s env ev => NextsInRange s ev (s.next env ev)) run

theorem nextsAlong_of_bounded : ∀ {run : List (Env × Event)} {s : Server}, NextBounded s →
    s.Along NextSafely run → s.NextsAlong run
  | [], _, _, _ => trivial
  | (_, _) :: _, _, hs, ⟨hsafe, hrun⟩ =>
    ⟨(next_bounded hs hsafe).2, nextsAlong_of_bounded (next_bounded hs hsafe).1 hrun⟩

/-- **In every run of a server in which a leader takes in only what fits its log, the next
indexes of its peers stay in range.** -/
theorem nexts_in_range_of_safe (id : Int) (params : RaftParams) (state : Option SrvState)
    (logStore : LogStore) (config : ClusterConfig) (hstart : 1 ≤ logStore.startIdx)
    (run : List (Env × Event)) (hsafe : (start id params state logStore config).Along NextSafely run) :
    (start id params state logStore config).NextsAlong run :=
  nextsAlong_of_bounded ⟨hstart, fun hr => by cases hr⟩ hsafe

/-- The configuration of a cluster of five. -/
def clusterOfFive : ClusterConfig :=
  { servers := [⟨1, [49]⟩, ⟨2, [50]⟩, ⟨3, [51]⟩, ⟨4, [52]⟩, ⟨5, [53]⟩] }

/-- Server 1 of five, as it is first started. -/
def oneOfFive : Server := start 1 {} none {} clusterOfFive

/-- A response to server 1 through the peer object it is from. -/
def hears (reqType : MsgType) (resp : RespMsg) : Env × Event :=
  ({}, .peerResp (some (.peer resp.src)) reqType resp)

/-- Server `src` gives server 1 its vote in `term`. -/
def voteOf (src : Int) (term : Nat) : Env × Event :=
  hears .requestVoteRequest ⟨term, .requestVoteResponse, src, 1, 1, true⟩

/-- Server `src` answers an append_entries request that server 1 sent in `term`. -/
def appendedBy (src : Int) (term next : Nat) (accepted : Bool) : Env × Event :=
  hears .appendEntriesRequest ⟨term, .appendEntriesResponse, src, 1, next, accepted⟩

/-- Server 1 takes office, one peer declines what it is sent first and another accepts. -/
theorem nexts_in_range_of_safe_five : oneOfFive.NextsAlong
    [({}, .electionTimeout), voteOf 2 1, voteOf 3 1, appendedBy 2 1 2 true, clientSays 1,
      appendedBy 2 1 3 true, appendedBy 2 1 2 false] := by
  have hcovers : ∀ s : Server, s.Covers {} := fun s snp hsnp => by cases hsnp
  have hvote : ∀ (s : Server) src term, NextSafely s {} (voteOf src term).2 := fun s src term =>
    ⟨hcovers s, fun _ htype => by cases htype⟩
  refine nexts_in_range_of_safe 1 {} none {} clusterOfFive (by decide) _ ?_
  refine ⟨⟨hcovers _, fun _ => trivial⟩, hvote _ _ _, hvote _ _ _, ⟨hcovers _, fun _ _ _ => ?_⟩,
    ⟨hcovers _, fun _ htype => by cases htype⟩, ⟨hcovers _, fun _ _ _ => ?_⟩, ⟨hcovers _, fun _ _ _ => ?_⟩, trivial⟩
  all_goals decide +kernel

/-- Server 1 leads in term 1 and sends two entries of a client to server 2, whose response is
delayed.  Server 5 leads in term 2 and puts one entry in the place of both.  Server 1 leads
again in term 3 when the response arrives. -/
def delayedResponse : List (Env × Event) :=
  [({}, .electionTimeout), voteOf 2 1, voteOf 3 1, appendedBy 2 1 2 true,
    ({}, .request {
      term := 0, type := .clientRequest, src := 0, dst := 1
      lastLogTerm := 0, lastLogIdx := 0, commitIdx := 0
      logEntries := [⟨1, [7], .appLog⟩, ⟨1, [8], .appLog⟩] }),
    ({}, .request {
      term := 2, type := .appendEntriesRequest, src := 5, dst := 1
      lastLogTerm := 1, lastLogIdx := 1, commitIdx := 0
      logEntries := [⟨2, (clusterOfFive.setLogIdx 2).serialize, .conf⟩] }),
    ({}, .electionTimeout), voteOf 2 3, voteOf 3 3, appendedBy 2 1 4 true, ({}, .hbTimeout 2)]

/-- **A response of an earlier time in office takes a next index beyond the log**, and the
next request to that peer ends the process. -/
theorem nexts_in_range_fails :
    ¬ oneOfFive.NextsAlong delayedResponse ∧ (oneOfFive.runFrom delayedResponse).exited = true := by
  refine ⟨fun h => ?_, by decide +kernel⟩
  obtain ⟨-, -, -, -, -, -, -, -, -, hresp, -⟩ := h
  have hupper := hresp.upper (by decide +kernel)
  have hbeyond : ¬ ∀ p ∈ (oneOfFive.runFrom (delayedResponse.take 10)).members,
      p.nextLogIdx ≤ (oneOfFive.runFrom (delayedResponse.take 10)).logStore.nextSlot := by decide +kernel
  exact hbeyond hupper

end Cornerstone
