import Cornerstone.ServerRun
import Cornerstone.Reads

/-! # What making requests leaves alone

A leader makes up requests in many places: on a heartbeat, after a client
request, when it commits, in answer to a response.  All of them change only how
far each peer is believed to be and whether it is busy, move the commit index
forward at most, and send requests that quote the server's own log.  `Quiet` says
this once.
-/

namespace Cornerstone
open Handlers Handler Server

/-- What making requests keeps of a peer. -/
def Peer.kept (p : Peer) : SrvConfig × Nat := (p.config, p.matchedIdx)

theorem Peer.kept_nextLogIdx (p : Peer) (n : Nat) : ({ p with nextLogIdx := n } : Peer).kept = p.kept :=
  rfl

/-- The term of the last of the first `n` entries of a log that starts at index
one, zero for none. -/
def termAtEnd (log : List LogEntry) (n : Nat) : Nat := ((log.take n).getLast?.map LogEntry.term).getD 0

/-- An append_entries request that quotes a log which starts at index one. -/
structure Quotes (log : List LogEntry) (req : ReqMsg) : Prop where
  lastLogIdx_le : req.lastLogIdx ≤ log.length
  lastLogTerm : req.lastLogTerm = termAtEnd log req.lastLogIdx
  entries : req.logEntries <+: log.drop req.lastLogIdx

/-- A request of server `s`, made when its commit index is at most `quick`. -/
structure OwnRequest (s : Server) (quick : Nat) (req : ReqMsg) : Prop where
  term : req.term = s.state.term
  src : req.src = s.id
  dst : req.dst ∈ s.peerIds
  commitIdx : req.commitIdx ≤ quick
  type_ne : req.type ≠ .requestVoteRequest
  quotes : s.logStore.startIdx = 1 →
    req.type = .appendEntriesRequest ∧ Quotes s.logStore.entries req

/-- The effects making requests may have. -/
inductive RequestEffect (s : Server) (quick : Nat) : Effect → Prop
  | send {req : ReqMsg} (h : OwnRequest s quick req) : RequestEffect s quick (.send req s.state)
  | sendExt (req : ReqMsg) : RequestEffect s quick (.sendExt req s.state)
  | systemExit (code : Int) : RequestEffect s quick (.systemExit code)

/-- The law of sending requests, with the commit index where it is. -/
structure Sends (s : Server) (o : List Effect) (t : Server) : Prop where
  rest : t = { s with peers := t.peers, srvToJoin := t.srvToJoin, exited := t.exited }
  peers : t.peers.map Peer.kept = s.peers.map Peer.kept
  joining : t.srvToJoin.map Peer.kept = s.srvToJoin.map Peer.kept
  exits : s.exited = true → t.exited = true
  out : ∀ e ∈ o, RequestEffect s s.quickCommitIdx e

/-- The law of making requests: the commit index may move forward as well. -/
structure Quiet (s : Server) (o : List Effect) (t : Server) : Prop where
  rest : t = { s with
    peers := t.peers, quickCommitIdx := t.quickCommitIdx, srvToJoin := t.srvToJoin
    exited := t.exited }
  peers : t.peers.map Peer.kept = s.peers.map Peer.kept
  joining : t.srvToJoin.map Peer.kept = s.srvToJoin.map Peer.kept
  quick : s.quickCommitIdx ≤ t.quickCommitIdx
  exits : s.exited = true → t.exited = true
  out : ∀ e ∈ o, RequestEffect s t.quickCommitIdx e

theorem Sends.quick_eq {s t : Server} {o : List Effect} (h : Sends s o t) :
    t.quickCommitIdx = s.quickCommitIdx := by rw [h.rest]

theorem Sends.quiet {s t : Server} {o : List Effect} (h : Sends s o t) : Quiet s o t := by
  refine ⟨?_, h.peers, h.joining, h.quick_eq.ge, h.exits, fun e he => ?_⟩
  · rw [h.quick_eq]
    exact h.rest
  · rw [h.quick_eq]
    exact h.out e he

namespace Quiet
variable {s t u : Server} {o : List Effect}

theorem id_eq (h : Quiet s o t) : t.id = s.id := by rw [h.rest]
theorem state_eq (h : Quiet s o t) : t.state = s.state := by rw [h.rest]
theorem logStore_eq (h : Quiet s o t) : t.logStore = s.logStore := by rw [h.rest]
theorem role_eq (h : Quiet s o t) : t.role = s.role := by rw [h.rest]
theorem config_eq (h : Quiet s o t) : t.config = s.config := by rw [h.rest]
theorem configChanging_eq (h : Quiet s o t) : t.configChanging = s.configChanging := by rw [h.rest]
theorem params_eq (h : Quiet s o t) : t.params = s.params := by rw [h.rest]
theorem bg_eq (h : Quiet s o t) : t.bg = s.bg := by rw [h.rest]
theorem snpPending_eq (h : Quiet s o t) : t.snpPending = s.snpPending := by rw [h.rest]
theorem confToAdd_eq (h : Quiet s o t) : t.confToAdd = s.confToAdd := by rw [h.rest]
theorem catchingUp_eq (h : Quiet s o t) : t.catchingUp = s.catchingUp := by rw [h.rest]
theorem votesGranted_eq (h : Quiet s o t) : t.votesGranted = s.votesGranted := by rw [h.rest]
theorem votesResponded_eq (h : Quiet s o t) : t.votesResponded = s.votesResponded := by rw [h.rest]
theorem electionCompleted_eq (h : Quiet s o t) : t.electionCompleted = s.electionCompleted := by
  rw [h.rest]
theorem stepsToDown_eq (h : Quiet s o t) : t.stepsToDown = s.stepsToDown := by rw [h.rest]

theorem peerIds_eq (h : Quiet s o t) : t.peerIds = s.peerIds := by
  have h' := congrArg (List.map fun c => c.1.id) h.peers
  rw [List.map_map, List.map_map] at h'
  exact h'

theorem matched_eq (h : Quiet s o t) : t.peers.map Peer.matchedIdx = s.peers.map Peer.matchedIdx := by
  have h' := congrArg (List.map Prod.snd) h.peers
  rw [List.map_map, List.map_map] at h'
  exact h'

theorem length_eq (h : Quiet s o t) : t.peers.length = s.peers.length := by
  simpa using congrArg List.length h.peers

end Quiet

/-- The requests of a server do not depend on the peers it keeps, and stay within
a commit index that has moved on. -/
theorem RequestEffect.mono {s t : Server} {q q' : Nat} {e : Effect} (hid : t.id = s.id)
    (hst : t.state = s.state) (hlog : t.logStore = s.logStore) (hpeers : t.peerIds = s.peerIds)
    (hq : q ≤ q') (h : RequestEffect t q e) : RequestEffect s q' e := by
  cases h with
  | sendExt req =>
    rw [hst]
    exact .sendExt req
  | systemExit code => exact .systemExit code
  | send h =>
    rw [hst]
    refine .send ⟨?_, ?_, hpeers ▸ h.dst, h.commitIdx.trans hq, h.type_ne, fun h1 => ?_⟩
    · rw [h.term, hst]
    · rw [h.src, hid]
    · rw [← hlog] at h1 ⊢
      exact h.quotes h1

theorem quiet_law : Law Quiet where
  refl s := ⟨rfl, rfl, rfl, le_refl _, id, by simp⟩
  trans := by
    intro s t u o o' h h'
    refine ⟨?_, h'.peers.trans h.peers, h'.joining.trans h.joining, h.quick.trans h'.quick,
      fun hx => h'.exits (h.exits hx), ?_⟩
    · have hu := h'.rest
      rw [h.rest] at hu
      exact hu
    · intro e he
      rcases List.mem_append.mp he with he | he
      · exact (h.out e he).mono rfl rfl rfl rfl h'.quick
      · exact (h'.out e he).mono h.id_eq h.state_eq h.logStore_eq h.peerIds_eq (le_refl _)

theorem sends_law : Law Sends where
  refl s := ⟨rfl, rfl, rfl, id, by simp⟩
  trans := by
    intro s t u o o' h h'
    refine ⟨?_, h'.peers.trans h.peers, h'.joining.trans h.joining,
      fun hx => h'.exits (h.exits hx), ?_⟩
    · have hu := h'.rest
      rw [h.rest] at hu
      exact hu
    · intro e he
      rcases List.mem_append.mp he with he | he
      · exact h.out e he
      · exact (h'.out e he).mono h.quiet.id_eq h.quiet.state_eq h.quiet.logStore_eq
          h.quiet.peerIds_eq h.quick_eq.le

/-! ## The primitive steps -/

theorem Server.updatePeer_kept {f : Peer → Peer} (hf : ∀ p, (f p).kept = p.kept) (s : Server)
    (id : Int) : (s.updatePeer id f).peers.map Peer.kept = s.peers.map Peer.kept := by
  simp only [Server.updatePeer, List.map_map]
  refine List.map_congr_left fun p _ => ?_
  simp only [Function.comp_apply]
  split
  · exact hf p
  · rfl

/-- Changing what is believed of one peer only sends. -/
theorem sends_updateAt (r : PeerRef) {f : Peer → Peer} (hf : ∀ p, (f p).kept = p.kept)
    (s : Server) : Sends s [] (s.updateAt r f) := by
  cases r with
  | peer id => exact ⟨rfl, Server.updatePeer_kept hf s id, rfl, fun hx => hx, by simp⟩
  | joining =>
    refine ⟨rfl, rfl, ?_, fun hx => hx, by simp⟩
    cases h : s.srvToJoin <;> simp [Server.updateAt, h, hf]

theorem sends_updatePeer (id : Int) {f : Peer → Peer} (hf : ∀ p, (f p).kept = p.kept)
    (s : Server) : Sends s [] (s.updatePeer id f) := sends_updateAt (.peer id) hf s

theorem sends_emit {s : Server} {e : Effect} (h : RequestEffect s s.quickCommitIdx e) :
    Sends s [e] s :=
  ⟨rfl, rfl, rfl, id, by simpa using h⟩

variable {s : Server}

theorem sends_exits : Exits Sends :=
  fun _ code => ⟨rfl, rfl, rfl, fun _ => rfl, by simpa using RequestEffect.systemExit code⟩

theorem sends_exit {α : Type} (code : Int) : Obeys Sends s (systemExitAndExit code : Action α) :=
  reads_exit sends_exits code

theorem derefPeer_state (r : PeerRef) : (derefPeer r s).state = s := by
  simp only [derefPeer, bind_run, look_run, Outcome.andThen_ok]
  cases s.peerAt? r <;> rfl

/-- The object found under an id is one of `peers_`. -/
theorem derefPeer_mem (pid : Int) : Returns s (derefPeer (.peer pid)) fun p _ => p.id ∈ s.peerIds := by
  refine .look_bind ?_
  cases hp : s.peerAt? (.peer pid) with
  | none => exact .halt _
  | some p => exact .pure (List.mem_map_of_mem (List.mem_of_find?_eq_some hp))

/-! ## Snapshot requests -/

theorem sends_pickSnapshot (env : Env) (r : PeerRef) (n : Nat) :
    Obeys Sends s (pickSnapshot env r n) := by
  refine .bind sends_law (reads_derefPeer sends_law r) fun p _ => ?_
  split
  · exact .pure sends_law _
  · exact sends_exit _
  · refine .ite (fun _ => sends_exit _) fun _ => .ite (fun _ => sends_exit _) fun _ => ?_
    exact .change_bind sends_law (sends_updateAt r (f := (·.setSnapshotInSync _)) (fun _ => rfl) _)
      (.pure sends_law _)

theorem sends_createSyncSnapshotReq (env : Env) (r : PeerRef) (n t c : Nat) :
    Obeys Sends s (createSyncSnapshotReq env r n t c) := by
  refine .bind sends_law (sends_pickSnapshot env r n) fun ctx _ => ?_
  refine .bind sends_law (reads_derefPeer sends_law r) fun p _ => .look_bind ?_
  exact .ite (fun _ => .halt sends_law _) fun _ => .ite (fun _ => sends_exit _) fun _ =>
    .ite (fun _ => .halt sends_law _) fun _ => .pure sends_law _

/-- What a snapshot request is made from. -/
theorem createSyncSnapshotReq_fields {env : Env} {pid : Int} {n t q : Nat} :
    Returns s (createSyncSnapshotReq env (.peer pid) n t q) fun req _ =>
      req.term = t ∧ req.src = s.id ∧ req.dst ∈ s.peerIds ∧ req.commitIdx = q ∧
        req.type = .installSnapshotRequest := by
  refine .bind fun ctx _ => .bind fun p hp => .look_bind ?_
  have hpick := Sends.quiet (sends_pickSnapshot (s := s) env (.peer pid) n)
  have hid : (derefPeer (.peer pid) (pickSnapshot env (.peer pid) n s).state).state.id = s.id :=
    (Sends.quiet (reads_derefPeer sends_law _)).id_eq.trans hpick.id_eq
  have hdst := hpick.peerIds_eq ▸ derefPeer_mem pid p hp
  exact .ite (fun _ => .halt _) fun _ => .ite (fun _ => .bind fun _ _ => .bind fun _ _ => .halt _) fun _ =>
    .ite (fun _ => .halt _) fun _ => .pure ⟨rfl, hid, hdst, rfl, rfl⟩

/-! ## append_entries requests -/

theorem termAtEnd_zero (log : List LogEntry) : termAtEnd log 0 = 0 := by simp [termAtEnd]

theorem termAtEnd_succ {log : List LogEntry} {n : Nat} {e : LogEntry} (h : log[n]? = some e) :
    termAtEnd log (n + 1) = e.term := by
  have hn : n < log.length := (List.getElem?_eq_some_iff.mp h).1
  rw [termAtEnd, List.getLast?_take]
  simp [h]

/-- On a log that was never compacted, `term_for_log` is the term of the entry
there, or zero before the first. -/
theorem termForLog_eq {env : Env} {idx : Nat} (h1 : s.logStore.startIdx = 1) :
    Returns s (termForLog env idx) fun t _ => t = termAtEnd s.logStore.entries idx := by
  refine .look_bind (.ite (fun h0 => .pure ?_) fun h0 => .ite (fun hge => .look_bind ?_) fun hlt => ?_)
  · rw [h0, termAtEnd_zero]
  · cases he : s.logStore.termAt? idx with
    | none => exact .halt _
    | some t =>
      refine .pure ?_
      rw [LogStore.termAt?] at he
      obtain ⟨n, rfl⟩ : ∃ n, idx = n + 1 := ⟨idx - 1, by omega⟩
      rw [LogStore.entryAt?_of_mem (by omega), h1, Nat.add_sub_cancel] at he
      obtain ⟨e, he', rfl⟩ := Option.map_eq_some_iff.mp he
      exact (termAtEnd_succ he').symm
  · omega

/-- The request `create_append_entries_req` makes up is the server's own. -/
theorem createAppendEntriesReq_own (env : Env) (pid : Int) :
    Returns s (createAppendEntriesReq env pid) fun req _ => OwnRequest s s.quickCommitIdx req := by
  refine .look_bind (.change_bind (.bind fun p hp => ?_))
  set s₁ := s.updatePeer pid fun p =>
    if p.nextLogIdx = 0 then { p with nextLogIdx := s.logStore.nextSlot } else p with hs₁
  have hquiet : Quiet s [] s₁ :=
    (sends_updatePeer pid (fun p => by split <;> rfl) s).quiet
  have hdst := hquiet.peerIds_eq ▸ derefPeer_mem pid p hp
  rw [derefPeer_state]
  refine .ite (fun _ => .bind fun _ _ => .bind fun _ _ => .halt _) fun hlt => .ite (fun hold => ?_) fun _ => ?_
  · refine createSyncSnapshotReq_fields.mono fun req _ h => ?_
    obtain ⟨ht, hsrc, hmem, hq, htype⟩ := h
    have hne : req.type ≠ .requestVoteRequest := by
      rw [htype]
      decide
    exact ⟨ht, hsrc, hquiet.peerIds_eq ▸ hmem, hq.le, hne, fun h1 => by omega⟩
  · refine .bind fun t ht => .ite (fun _ => .halt _) fun _ => .pure ?_
    refine ⟨rfl, rfl, hdst, le_refl _, by simp, fun h1 => ⟨rfl, ?_, ?_, ?_⟩⟩
    · simp only [LogStore.nextSlot, h1] at hlt ⊢
      omega
    · exact termForLog_eq (s := s₁) h1 t ht
    · simp only [LogStore.logEntries, h1]
      exact List.take_prefix _ _

theorem sends_createAppendEntriesReq (env : Env) (pid : Int) :
    Obeys Sends s (createAppendEntriesReq env pid) := by
  refine .look_bind (.change_bind sends_law (sends_updatePeer pid (fun p => ?_) _) ?_)
  · split <;> rfl
  refine .bind sends_law (reads_derefPeer sends_law _) fun p _ => .ite (fun _ => sends_exit _) fun _ =>
    .ite (fun _ => sends_createSyncSnapshotReq env _ _ _ _) fun _ => ?_
  refine .bind sends_law (reads_termForLog sends_law sends_exits env _) fun t _ => ?_
  exact .ite (fun _ => .halt sends_law _) fun _ => .pure sends_law _

/-- It may be sent from the state its making leaves. -/
theorem createAppendEntriesReq_sends (env : Env) (pid : Int) :
    Returns s (createAppendEntriesReq env pid) fun req t =>
      RequestEffect t t.quickCommitIdx (.send req t.state) := by
  intro req hreq
  have hown := createAppendEntriesReq_own env pid req hreq
  have hq : Quiet _ _ _ := Sends.quiet (sends_createAppendEntriesReq (s := s) env pid)
  rw [hq.state_eq]
  exact (RequestEffect.send hown).mono hq.id_eq.symm hq.state_eq.symm hq.logStore_eq.symm
    hq.peerIds_eq.symm hq.quick

/-! ## The loops over the peers -/

/-- Sending a request to one peer only sends. -/
theorem sends_requestAppendEntriesTo (env : Env) (pid : Int) :
    Obeys Sends s (requestAppendEntriesTo env pid) := by
  refine .look_bind ?_
  split
  · exact .pure sends_law _
  · refine .ite (fun _ => .pure sends_law _) fun _ => ?_
    refine .change_bind sends_law (sends_updatePeer pid (fun _ => by rfl) _) ?_
    refine .bind sends_law (sends_createAppendEntriesReq env pid) fun req hreq => ?_
    refine .bind sends_law (.look_bind (sends_emit ?_)) fun _ _ => .pure sends_law _
    exact createAppendEntriesReq_sends env pid req hreq

/-- The loop of `commit` only sends. -/
theorem sends_commitLoop (env : Env) (pids : List Int) :
    Obeys Sends s (forEach (fun pid => do
      let sent ← requestAppendEntriesTo env pid
      if sent then pure ()
      else change (·.updatePeer pid fun p => { p with pendingCommit := true })) pids) := by
  refine .forEach sends_law (fun _ => True) trivial fun pid _ s _ => ⟨?_, trivial⟩
  refine .bind sends_law (sends_requestAppendEntriesTo env pid) fun sent _ => ?_
  exact .ite (fun _ => .pure sends_law _) fun _ => sends_updatePeer pid (fun _ => by rfl) _

/-- `commit` moves the commit index to its target if that is ahead, and then only
sends. -/
theorem commit_sends (env : Env) (idx : Nat) :
    Sends { s with quickCommitIdx := max s.quickCommitIdx idx } (commit env idx s).out
      (commit env idx s).state := by
  simp only [commit, bind_run, look_run, Outcome.andThen_ok, List.nil_append, ite_run, change_run,
    pure_run]
  split
  · rename_i hlt
    rw [max_eq_right (show s.quickCommitIdx ≤ idx from hlt.le)]
    split
    · exact sends_commitLoop env s.peerIds
    · exact sends_law.refl _
  · rename_i hge
    rw [max_eq_left (by omega)]
    exact sends_law.refl _

/-- The same with more sending behind it. -/
theorem commit_bind_sends {α : Type} (env : Env) (idx : Nat) {k : Unit → Action α}
    (hk : ∀ s, Obeys Sends s (k ())) :
    Sends { s with quickCommitIdx := max s.quickCommitIdx idx } ((commit env idx >>= k) s).out
      ((commit env idx >>= k) s).state := by
  rcases bind_cases (commit env idx) k s with ⟨e, -, h⟩ | ⟨a, -, h⟩
  · rw [h]
    exact commit_sends env idx
  · rw [h]
    exact sends_law.trans (commit_sends env idx) (hk _)

/-- **`commit` is quiet**. -/
theorem quiet_commit (env : Env) (idx : Nat) : Obeys Quiet s (commit env idx) := by
  have hq : Quiet s [] { s with quickCommitIdx := max s.quickCommitIdx idx } :=
    ⟨rfl, rfl, rfl, le_max_left _ _, id, by simp⟩
  exact quiet_law.trans hq (commit_sends env idx).quiet

theorem commit_quick (env : Env) (idx : Nat) :
    (commit env idx s).state.quickCommitIdx = max s.quickCommitIdx idx :=
  (commit_sends env idx).quick_eq

theorem quiet_requestAppendEntries (env : Env) : Obeys Quiet s (requestAppendEntries env) := by
  refine .look_bind (.ite (fun _ => quiet_commit env _) fun _ => Sends.quiet ?_)
  refine Obeys.forEach sends_law (fun _ => True) trivial fun pid _ s _ => ⟨?_, trivial⟩
  exact .bind sends_law (sends_requestAppendEntriesTo env pid) fun _ _ => .pure sends_law _

theorem sends_continueWith (env : Env) (pid : Int) (b : Bool) :
    Obeys Sends s (continueWith env pid b) := by
  refine .look_bind (.ite (fun _ => ?_) fun _ => .pure sends_law _)
  exact .bind sends_law (sends_requestAppendEntriesTo env pid) fun _ _ => .pure sends_law _

theorem sends_stillLags (resp : RespMsg) : Obeys Sends s (stillLags resp) :=
  .look_bind (.change_bind sends_law (sends_updatePeer _ (fun _ => by rfl) _) (.pure sends_law _))

theorem sends_handleHbTimeout (env : Env) (pid : Int) :
    Obeys Sends s (handleHbTimeout env pid) := by
  refine .look_bind (.ite (fun _ => ?_) fun _ => .pure sends_law _)
  exact .bind sends_law (sends_requestAppendEntriesTo env pid) fun _ _ => .pure sends_law _

theorem sends_rpcResult (via : Option PeerRef) (reqType : MsgType) (failed : Bool) :
    Obeys Sends s (rpcResult via reqType failed) := by
  cases via with
  | none => exact .pure sends_law _
  | some r =>
    refine sends_updateAt r (fun p => ?_) s
    unfold Peer.rpcResult
    split_ifs <;> rfl

theorem sends_declinedAppend (resp : RespMsg) (p : Peer) :
    Obeys Sends s (declinedAppend resp p) := by
  unfold declinedAppend
  refine .ite (fun _ => ?_) fun _ => ?_
  · have h := sends_updatePeer resp.src (f := fun p => { p with nextLogIdx := resp.nextIdx })
      (fun p => p.kept_nextLogIdx _) s
    exact .change_bind sends_law h (.pure sends_law _)
  · have h := sends_updatePeer resp.src
      (f := fun p => { p with nextLogIdx := ulongSub p.nextLogIdx 1 })
      (fun p => p.kept_nextLogIdx _) s
    exact .change_bind sends_law h (.pure sends_law _)

end Cornerstone
