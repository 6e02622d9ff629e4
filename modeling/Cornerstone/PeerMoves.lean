import Cornerstone.UrgentCommit

/-! # Peers and their busy flags

Which peers a server keeps and which of them are busy changes in a few ways only: a
free peer is made busy and sent a request, a peer is added or erased, and flags are
taken down where an rpc completes or an office begins.  Every handler is a sequence of
these.  What may leave a flag without a request, or a request without a flag, is kept
apart as `slip`.
-/

namespace Cornerstone
open Handlers Handler Server

/-- A peer and whether it is busy. -/
def Peer.mark (p : Peer) : Int × Bool := (p.id, p.busy)

/-- The peers that are kept and their flags. -/
def Server.marks (s : Server) : List (Int × Bool) := s.peers.map Peer.mark

/-- The requests `busy_flag_` is about. -/
def MsgType.replicates (t : MsgType) : Bool := t = .appendEntriesRequest ∨ t = .installSnapshotRequest

/-- Effects that neither send such a request nor lose a peer. -/
def Effect.idle : Effect → Bool
  | .send req _ => !req.type.replicates
  | .erasePeer _ => false
  | _ => true

/-- The law of leaving the peers and their flags alone. -/
structure Idles (s : Server) (o : List Effect) (t : Server) : Prop where
  id : t.id = s.id
  marks : t.marks = s.marks
  out : ∀ e ∈ o, e.idle = true

theorem idles_law : Law Idles where
  refl _ := ⟨rfl, rfl, by simp⟩
  trans := by
    intro s t u o o' h h'
    refine ⟨h'.id.trans h.id, h'.marks.trans h.marks, fun e he => ?_⟩
    rcases List.mem_append.mp he with he | he
    · exact h.out e he
    · exact h'.out e he

/-- The mark of a peer that is made busy. -/
def markBusy (pid : Int) (m : Int × Bool) : Int × Bool := if m.1 = pid then (m.1, true) else m

/-- One change of the peers and their flags.  `slips` says whether one may be a slip. -/
inductive PeerMove (slips : Prop) : Server → List Effect → Server → Prop
  | idle {s t : Server} {o : List Effect} (h : Idles s o t) : PeerMove slips s o t
  | ask {s t : Server} {o : List Effect} {req : ReqMsg} {memory : SrvState} (hid : t.id = s.id)
      (hmem : req.dst ∈ s.peerIds) (hfree : s.busyWith req.dst = false) (htype : req.type.replicates = true)
      (hm : t.marks = s.marks.map (markBusy req.dst)) (ho : ∀ e ∈ o, e.idle = true) :
      PeerMove slips s (o ++ [.send req memory]) t
  | add {s t : Server} {p : Peer} (hid : t.id = s.id) (hself : p.id ≠ s.id) (hnew : p.id ∉ s.peerIds)
      (hfree : p.busy = false) (hm : t.marks = s.marks ++ [p.mark]) : PeerMove slips s [] t
  | erase {s t : Server} {p : Peer} (hid : t.id = s.id) (hm : t.marks = s.marks.filter (·.1 ≠ p.id)) :
      PeerMove slips s [.erasePeer p] t
  | slip {s t : Server} {o : List Effect} (h : slips) (hid : t.id = s.id) (hids : t.peerIds = s.peerIds)
      (ho : ∀ e ∈ o, e.idle = true) : PeerMove slips s o t

/-- The law of such changes. -/
abbrev Moves (slips : Prop) : Server → List Effect → Server → Prop := Path (PeerMove slips)

theorem moves_law (slips : Prop) : Law (Moves slips) := Path.law

/-- A handler makes such changes, and slips only where it does not come to its end. -/
def Behaves {α : Type} (slips : Prop) (s : Server) (x : Action α) : Prop :=
  ((∃ e, (x s).res = .error e) → slips) → Obeys (Moves slips) s x

variable {s t : Server} {o : List Effect} {slips : Prop} {α β : Type}

namespace Behaves

theorem of_obeys {x : Action α} (h : Obeys (Moves slips) s x) : Behaves slips s x := fun _ => h

theorem pure (a : α) : Behaves slips s (pure a : Action α) := of_obeys (.pure (moves_law slips) a)

theorem halt (e : Stop) : Behaves slips s (halt e : Action α) := of_obeys (.halt (moves_law slips) e)

theorem bind {x : Action α} {f : α → Action β} (hx : Behaves slips s x)
    (hf : ∀ a, (x s).res = .ok a → Behaves slips (x s).state (f a)) : Behaves slips s (x >>= f) := by
  intro hend
  have hfirst : (∃ e, (x s).res = .error e) → slips := by
    rintro ⟨e, he⟩
    refine hend ⟨e, ?_⟩
    rw [bind_run, Outcome.andThen, he]
  refine .bind (moves_law slips) (hx hfirst) fun a ha => hf a ha ?_
  rintro ⟨e, he⟩
  refine hend ⟨e, ?_⟩
  rw [bind_run, Outcome.andThen, ha]
  exact he

theorem look_bind {f : Server → Action α} (hf : Behaves slips s (f s)) :
    Behaves slips s (Handler.look >>= f) := hf

theorem ite {c : Prop} [Decidable c] {x y : Action α} (hx : c → Behaves slips s x)
    (hy : ¬ c → Behaves slips s y) : Behaves slips s (if c then x else y) := by
  split
  · exact hx ‹_›
  · exact hy ‹_›

theorem forEach {f : α → Action Unit} (hf : ∀ a s, Behaves slips s (f a)) :
    ∀ {as : List α} {s : Server}, Behaves slips s (forEach f as)
  | [], _ => pure ()
  | a :: _, s => by
    rw [forEach_cons]
    exact bind (hf a s) fun _ _ => forEach hf

end Behaves

/-! ## Single steps -/

theorem Idles.moves (h : Idles s o t) : Moves slips s o t := .single (.idle h)

theorem idles_same (hid : t.id = s.id) (hp : t.peers = s.peers) (ho : ∀ e ∈ o, e.idle = true) : Idles s o t :=
  ⟨hid, by rw [Server.marks, hp, Server.marks], ho⟩

theorem idles_emit {e : Effect} (h : e.idle = true) : Idles s [e] s :=
  idles_same rfl rfl (by simpa using h)

theorem idles_exits : Exits Idles := fun _ _ => idles_same rfl rfl (by simp [Effect.idle])

theorem Peer.mark_nextLogIdx (p : Peer) (n : Nat) : ({ p with nextLogIdx := n } : Peer).mark = p.mark := rfl

theorem marks_map {f : Peer → Peer} (hf : ∀ p, (f p).mark = p.mark) (peers : List Peer) :
    (peers.map f).map Peer.mark = peers.map Peer.mark := by
  rw [List.map_map]
  exact List.map_congr_left fun p _ => hf p

theorem idles_updateAt (r : PeerRef) {f : Peer → Peer} (hf : ∀ p, (f p).mark = p.mark) (s : Server) :
    Idles s [] (s.updateAt r f) := by
  cases r with
  | peer pid =>
    refine ⟨rfl, marks_map (fun p => ?_) s.peers, by simp⟩
    split
    · exact hf p
    · rfl
  | joining => exact idles_same rfl rfl (by simp)

theorem moves_emit {e : Effect} (h : e.idle = true) : Moves slips s [e] s := (idles_emit h).moves

theorem moves_exits (slips : Prop) : Exits (Moves slips) := fun _ _ => (idles_exits _ _).moves

/-- A change of fields that have nothing to do with peers. -/
theorem moves_change {f : Server → Server} (hid : (f s).id = s.id) (hp : (f s).peers = s.peers) :
    Obeys (Moves slips) s (change f : Action Unit) := (idles_same hid hp (by simp)).moves

theorem moves_changed (hid : t.id = s.id) (hp : t.peers = s.peers) : Moves slips s [] t :=
  (idles_same hid hp (by simp)).moves

theorem peerIds_of_marks (h : t.marks = s.marks) : t.peerIds = s.peerIds := by
  have h' := congrArg (List.map Prod.fst) h
  rw [Server.marks, Server.marks, List.map_map, List.map_map] at h'
  exact h'

/-! ## Requests to the peers -/

theorem idles_createSyncSnapshotReq (env : Env) (r : PeerRef) (n t c : Nat) :
    Obeys Idles s (createSyncSnapshotReq env r n t c) := by
  refine .bind idles_law (.bind idles_law (reads_derefPeer idles_law r) fun p _ => ?_) fun ctx _ =>
    .bind idles_law (reads_derefPeer idles_law r) fun p _ => .look_bind (.ite (fun _ => .halt idles_law _) fun _ =>
      .ite (fun _ => reads_exit idles_exits _) fun _ => .ite (fun _ => .halt idles_law _) fun _ => .pure idles_law _)
  split
  · exact .pure idles_law _
  · exact reads_exit idles_exits _
  · refine .ite (fun _ => reads_exit idles_exits _) fun _ => .ite (fun _ => reads_exit idles_exits _) fun _ => ?_
    exact .change_bind idles_law (idles_updateAt r (f := (·.setSnapshotInSync _)) (fun _ => rfl) _)
      (.pure idles_law _)

theorem idles_createAppendEntriesReq (env : Env) (pid : Int) :
    Obeys Idles s (createAppendEntriesReq env pid) := by
  refine .look_bind (.change_bind idles_law (idles_updateAt (.peer pid) (fun p => ?_) s) ?_)
  · split <;> rfl
  refine .bind idles_law (reads_derefPeer idles_law _) fun p _ => .ite (fun _ => reads_exit idles_exits _) fun _ =>
    .ite (fun _ => idles_createSyncSnapshotReq env _ _ _ _) fun _ => ?_
  exact .bind idles_law (reads_termForLog idles_law idles_exits env _) fun t _ =>
    .ite (fun _ => .halt idles_law _) fun _ => .pure idles_law _

theorem makeBusy_marks (s : Server) (pid : Int) : (s.makeBusy pid).marks = s.marks.map (markBusy pid) := by
  simp only [Server.marks, Server.makeBusy, Server.updatePeer, List.map_map]
  refine List.map_congr_left fun p _ => ?_
  have hmark : markBusy pid p.mark = if p.id = pid then (p.id, true) else p.mark := rfl
  simp only [Function.comp_apply, hmark]
  split <;> rfl

/-- **`request_append_entries(peer&)`** asks a free peer, and slips if the request cannot
be made up. -/
theorem behaves_requestAppendEntriesTo (env : Env) (pid : Int) :
    Behaves slips s (requestAppendEntriesTo env pid) := by
  intro hend
  unfold Obeys
  by_cases hskip : ∀ p, s.findPeer pid = some p → p.busy = true
  · rw [requestAppendEntriesTo_skips hskip]
    exact .refl s
  push Not at hskip
  obtain ⟨p, hp, hb⟩ := hskip
  rw [requestAppendEntriesTo_idle hp (Bool.eq_false_iff.mpr hb)] at hend ⊢
  have hidle : Idles (s.makeBusy pid) _ _ := idles_createAppendEntriesReq env pid
  have hmarks := makeBusy_marks s pid
  rcases bind_cases (createAppendEntriesReq env pid) (fun req => sendReq req >>= fun _ => pure true)
    (s.makeBusy pid) with ⟨e, -, hstop⟩ | ⟨req, hreq, hgo⟩
  · rw [hstop] at hend ⊢
    have hids : (s.makeBusy pid).peerIds = s.peerIds :=
      updatePeer_peerIds (f := fun p => { p with busy := true }) (fun _ => rfl) s pid
    exact .single (.slip (hend ⟨e, rfl⟩) hidle.id ((peerIds_of_marks hidle.marks).trans hids) hidle.out)
  · obtain ⟨rfl, -, htype⟩ := createAppendEntriesReq_tells env pid req hreq
    rw [hgo]
    have hmem : req.dst ∈ s.peerIds := findPeer_isSome.mp (by rw [hp]; rfl)
    have hfree : s.busyWith req.dst = false := by
      rw [Server.busyWith, hp]
      exact Bool.eq_false_iff.mpr hb
    exact .single (.ask hidle.id hmem hfree (by simpa [MsgType.replicates] using htype)
      (hidle.marks.trans hmarks) hidle.out)

theorem behaves_commit (env : Env) (idx : Nat) : Behaves slips s (commit env idx) := by
  refine .look_bind (.ite (fun _ => .bind (.of_obeys (moves_change rfl rfl)) fun _ _ => .ite (fun _ => ?_) fun _ =>
    .pure ()) fun _ => .pure ())
  refine .forEach fun pid u => .bind (behaves_requestAppendEntriesTo env pid) fun sent _ => .ite (fun _ => .pure ())
    fun _ => .of_obeys ?_
  exact (idles_updateAt (.peer pid) (f := fun p => { p with pendingCommit := true }) (fun _ => rfl) _).moves

theorem behaves_requestAppendEntries (env : Env) : Behaves slips s (requestAppendEntries env) :=
  .look_bind (.ite (fun _ => behaves_commit env _) fun _ => .forEach fun pid _ =>
    .bind (behaves_requestAppendEntriesTo env pid) fun _ _ => .pure ())

theorem behaves_continueWith (env : Env) (pid : Int) (b : Bool) : Behaves slips s (continueWith env pid b) :=
  .look_bind (.ite (fun _ => .bind (behaves_requestAppendEntriesTo env pid) fun _ _ => .pure ()) fun _ => .pure ())

theorem behaves_handleHbTimeout (env : Env) (pid : Int) : Behaves slips s (handleHbTimeout env pid) :=
  .look_bind (.ite (fun _ => .bind (behaves_requestAppendEntriesTo env pid) fun _ _ => .pure ()) fun _ => .pure ())

theorem moves_sendExtReq (req : ReqMsg) : Obeys (Moves slips) s (sendExtReq req) :=
  .look_bind (moves_emit rfl)

theorem moves_originate (e : LogEntry) : Obeys (Moves slips) s (originate e) :=
  .look_bind (.emit_bind (moves_law slips) (moves_emit rfl) (moves_change rfl rfl))

/-! ## Terms and elections -/

theorem marks_enableHb (s : Server) (b : Bool) : (s.peers.map (·.enableHb b)).map Peer.mark = s.marks :=
  marks_map (f := (·.enableHb b)) (fun _ => rfl) s.peers

theorem moves_becomeFollower : Obeys (Moves slips) s becomeFollower :=
  Idles.moves ⟨rfl, marks_enableHb s false, fun _ he => absurd he List.not_mem_nil⟩

theorem moves_updateTerm (term : Nat) : Obeys (Moves slips) s (updateTerm term) := by
  unfold Obeys
  rcases Nat.lt_or_ge s.state.term term with h | h
  · rw [updateTerm_of_lt h]
    exact Idles.moves ⟨rfl, marks_enableHb s false, by simp [Effect.idle]⟩
  · rw [updateTerm_of_le h]
    exact .refl s

theorem moves_noteTerm (req : ReqMsg) : Obeys (Moves slips) s (noteTerm req) := by
  refine .ite (fun _ => .bind (moves_law slips) (moves_updateTerm _) fun _ _ => ?_)
    fun _ => .pure (moves_law slips) _
  refine moves_change ?_ ?_
  all_goals split <;> rfl

theorem moves_followLeader (b : Bool) : Obeys (Moves slips) s (followLeader b) :=
  .look_bind (.ite (fun _ => .ite (fun _ => moves_becomeFollower) fun _ =>
    .ite (fun _ => reads_exit (moves_exits slips) _) fun _ => .pure (moves_law slips) _)
    fun _ => .pure (moves_law slips) _)

theorem moves_handleVoteReq (req : ReqMsg) : Obeys (Moves slips) s (handleVoteReq req) := by
  refine .look_bind (.ite (fun _ => ?_) fun _ => .pure (moves_law slips) _)
  refine .bind (moves_law slips) (moves_change rfl rfl) fun _ _ => ?_
  exact .bind (moves_law slips) (.look_bind (moves_emit rfl)) fun _ _ => .pure (moves_law slips) _

/-- **`become_leader`** takes down every flag, which is a slip where one was up. -/
theorem behaves_becomeLeader (env : Env) (h : slips ∨ ∀ p ∈ s.peers, p.busy = false) :
    Behaves slips s (becomeLeader env) := by
  have hrun := becomeLeader_run env s
  intro hend
  unfold Obeys
  rw [hrun] at hend ⊢
  refine .trans ?_ (behaves_requestAppendEntries env hend)
  have hid : s.elected.id = s.id := by
    unfold Server.elected
    split <;> rfl
  have hmarks : s.elected.marks = s.peers.map fun p => (p.id, false) := by
    have hpeers : s.elected.peers = s.leading.peers := by
      unfold Server.elected
      split <;> rfl
    rw [Server.marks, hpeers, Server.leading, List.map_map]
    rfl
  have hout : ∀ e ∈ s.electedEffects, e.idle = true := by
    unfold Server.electedEffects
    split <;> simp [Effect.idle]
  rcases h with hslips | hfree
  · refine .single (.slip hslips hid ?_ hout)
    have hids := congrArg (List.map Prod.fst) hmarks
    rw [Server.marks, List.map_map, List.map_map] at hids
    exact hids
  · refine Idles.moves ⟨hid, ?_, hout⟩
    rw [hmarks, Server.marks]
    exact List.map_congr_left fun p hp => by rw [Peer.mark, hfree p hp]

theorem Canvasses.idles (h : Canvasses s o t) : Idles s o t := by
  refine idles_same ?_ ?_ fun e he => ?_
  · rw [h.rest]
  · rw [h.rest]
  · rcases h.out e he with ⟨req, rfl, hreq⟩ | ⟨code, rfl⟩
    · simp [Effect.idle, hreq.type, MsgType.replicates]
    · rfl

/-- Without peers there is nobody to ask. -/
theorem requestAppendEntries_alone (env : Env) (h : s.peers = []) :
    (requestAppendEntries env s).res = .ok () := by
  have hids : s.peerIds = [] := by rw [Server.peerIds, h, List.map_nil]
  simp only [requestAppendEntries, commit, bind_run, look_run, Outcome.andThen_ok, h, hids, List.length_nil,
    ite_run, if_true, change_run, forEach_nil, pure_run]
  split
  · split <;> rfl
  · rfl

theorem moves_handleElectionTimeout (env : Env) : Obeys (Moves slips) s (handleElectionTimeout env) := by
  have hlaw := moves_law slips
  by_cases hstand : s.Standing
  · unfold Obeys
    rw [handleElectionTimeout_run env hstand]
    have hout : ∀ e ∈ s.campaignEffects, e.idle = true := by simp [Server.campaignEffects, Effect.idle]
    split
    · rename_i hnone
      have hnil : s.peers = [] := List.length_eq_zero_iff.mp hnone
      have hwon : Idles s s.campaignEffects s.wonAlone := idles_same rfl rfl hout
      refine hwon.moves.trans (behaves_becomeLeader env (.inr fun p hp => ?_) ?_)
      · rw [show s.wonAlone.peers = s.peers from rfl, hnil] at hp
        exact absurd hp List.not_mem_nil
      · rintro ⟨e, he⟩
        have hpeers : s.wonAlone.elected.peers = [] := by
          have hlead : s.wonAlone.elected.peers = s.wonAlone.leading.peers := by
            unfold Server.elected
            split <;> rfl
          rw [hlead, Server.leading, show s.wonAlone.peers = s.peers from rfl, hnil, List.map_nil]
        rw [becomeLeader_run] at he
        rw [show (requestAppendEntries env s.wonAlone.elected).res = .ok () from
          requestAppendEntries_alone env hpeers] at he
        cases he
    · have hcampaign : Idles s s.campaignEffects s.campaign := idles_same rfl rfl hout
      exact hcampaign.moves.trans (Canvasses.idles (canvasses_requestVotes env _)).moves
  · refine .look_bind (.ite (fun _ => ?_) fun hdown => .ite (fun _ => .pure hlaw _) fun hcatch =>
      .ite (fun _ => reads_exit (moves_exits slips) _) fun hr => ?_)
    · refine .bind hlaw (moves_change rfl rfl) fun _ _ => .look_bind (.ite (fun _ => ?_) fun _ => .pure hlaw _)
      split
      · exact reads_exit (moves_exits slips) _
      · exact .bind hlaw (moves_change rfl rfl) fun _ _ =>
          .look_bind (.emit_bind hlaw (moves_emit rfl) (reads_exit (moves_exits slips) _))
    · exact absurd ⟨hdown, Bool.eq_false_iff.mpr hcatch, hr⟩ hstand

/-- Counting a vote with which nobody wins, or wins where no peer is busy. -/
theorem behaves_handleVotingResp (env : Env) (resp : RespMsg)
    (h : slips ∨ (s.electionCompleted = false →
      (s.peers.length + 1) / 2 < (s.counted resp.accepted).votesGranted → ∀ p ∈ s.peers, p.busy = false)) :
    Behaves slips s (handleVotingResp env resp) := by
  cases hgoing : s.electionCompleted with
  | true =>
    refine .of_obeys ?_
    unfold Obeys
    rw [handleVotingResp_done env resp hgoing]
    exact moves_changed rfl rfl
  | false =>
    have hrest := counted_rest (s := s) resp.accepted
    have hpeers : (s.counted resp.accepted).peers = s.peers := by rw [hrest]
    have hcount : Moves slips s [] (s.counted resp.accepted) := by
      rw [hrest]
      exact moves_changed rfl rfl
    intro hend
    unfold Obeys
    rw [handleVotingResp_run env resp hgoing, hpeers] at hend ⊢
    split at hend
    · rename_i hwin
      rw [if_pos hwin]
      set u : Server := { s.counted resp.accepted with electionCompleted := true } with hu
      have hsame : Moves slips s [] u := hcount.trans (o := []) (moves_changed rfl rfl)
      have hlead : Obeys (Moves slips) u (becomeLeader env) := by
        refine behaves_becomeLeader env (h.imp_right fun hfree => ?_) hend
        rw [show u.peers = s.peers from hpeers]
        exact hfree hgoing hwin
      exact hsame.trans hlead
    · rw [if_neg ‹_›]
      exact hcount

/-! ## Requests -/

theorem moves_appendLogOkay (env : Env) (req : ReqMsg) : Obeys (Moves slips) s (appendLogOkay env req) := by
  have hlaw := moves_law slips
  refine .look_bind (.ite (fun _ => .pure hlaw _) fun _ => .ite (fun _ => ?_) fun _ => .pure hlaw _)
  exact .bind hlaw (reads_termForLog hlaw (moves_exits slips) env _) fun _ _ => .pure hlaw _

theorem idles_skipOverlapped : ∀ {idx : Nat} {es : List LogEntry} {s : Server}, Obeys Idles s (skipOverlapped idx es)
  | _, [], _ => .pure idles_law _
  | _, _ :: _, _ => .look_bind (.ite (fun _ => .bind idles_law (reads_entryAt idles_law _) fun _ _ =>
      .ite (fun _ => idles_skipOverlapped) fun _ => .pure idles_law _) fun _ => .pure idles_law _)

theorem idles_overwriteEntries : ∀ {idx : Nat} {es : List LogEntry} {s : Server},
    Obeys Idles s (overwriteEntries idx es)
  | _, [], _ => .pure idles_law _
  | idx, e :: es, s => by
    have hgo : ∀ {u : Server}, Obeys Idles u (do
        change fun s => { s with logStore := s.logStore.writeAt idx e }
        overwriteEntries (idx + 1) es) :=
      .change_bind idles_law (idles_same rfl rfl (by simp)) idles_overwriteEntries
    refine .look_bind (.ite (fun _ => .bind idles_law (reads_entryAt idles_law _) fun _ _ => ?_)
      fun _ => .pure idles_law _)
    refine .ite (fun _ => .emit_bind idles_law (idles_emit rfl) hgo) fun _ => .ite (fun _ => ?_) fun _ => hgo
    exact .change_bind idles_law (idles_same rfl rfl (by simp)) hgo

theorem idles_appendNewEntries : ∀ {es : List LogEntry} {s : Server}, Obeys Idles s (appendNewEntries es)
  | [], _ => .pure idles_law _
  | e :: es, s => by
    refine .look_bind (.change_bind idles_law (idles_same rfl rfl (by simp)) (.ite (fun _ => ?_) fun _ => ?_))
    · exact .change_bind idles_law (idles_same rfl rfl (by simp)) idles_appendNewEntries
    · exact .emit_bind idles_law (idles_emit rfl) idles_appendNewEntries

theorem idles_writeEntries (prev : Nat) (es : List LogEntry) : Obeys Idles s (writeEntries prev es) :=
  .bind idles_law idles_skipOverlapped fun _ _ => .bind idles_law idles_overwriteEntries fun _ _ =>
    idles_appendNewEntries

/-- Whoever gets past the look at the leader of its own term does not lead. -/
theorem followLeader_outs {b : Bool} (hb : b = true) :
    Returns s (followLeader b) fun _ t => t.role ≠ .leader := by
  refine .look_bind (.ite (fun _ => .ite (fun _ _ _ => ?_) fun _ => .ite (fun _ => ?_) fun hr => .pure hr)
    fun h => absurd hb h)
  · exact show SrvRole.follower ≠ .leader by decide
  · exact .bind fun _ _ => .bind fun _ _ => .halt _

/-- Who does not lead commits without a request. -/
theorem moves_commit (env : Env) (idx : Nat) (hr : s.role ≠ .leader) : Obeys (Moves slips) s (commit env idx) := by
  have hlaw := moves_law slips
  refine .look_bind (.ite (fun _ => .bind hlaw (moves_change rfl rfl) fun _ _ => ?_) fun _ => .pure hlaw _)
  exact .ite (fun h => absurd h hr) fun _ => .pure hlaw _

/-- A leader takes no entries of its own term, so nothing is asked for here. -/
theorem moves_handleAppendEntries (env : Env) {req : ReqMsg} (hle : req.term ≤ s.state.term) :
    Obeys (Moves slips) s (handleAppendEntries env req) := by
  have hlaw := moves_law slips
  refine .look_bind (.bind hlaw (moves_followLeader _) fun _ hfollow => .look_bind
    (.bind hlaw (moves_appendLogOkay env req) fun okay hokay => .ite (fun _ => .pure hlaw _) fun hgo => ?_))
  have hterm : decide (req.term = s.state.term) = true := by
    have hstate : (followLeader (decide (req.term = s.state.term)) s).state.state = s.state := by
      obtain ⟨r, p, j, x, hrest⟩ := followLeader_rest (s := s) (decide (req.term = s.state.term))
      rw [hrest]
    rw [hstate] at hgo
    simp only [decide_eq_true_eq]
    omega
  have hrole : (followLeader (decide (req.term = s.state.term)) s).state.role ≠ .leader :=
    followLeader_outs hterm _ hfollow
  have hrole' : (appendLogOkay env req (followLeader (decide (req.term = s.state.term)) s).state).state.role ≠
      .leader := by
    rw [(Sends.quiet (sends_appendLogOkay env req)).role_eq]
    exact hrole
  refine .bind hlaw (Idles.moves (idles_writeEntries _ _)) fun _ _ => .bind hlaw (moves_change rfl rfl) fun _ _ =>
    .bind hlaw (moves_commit env _ ?_) fun _ _ => .pure hlaw _
  exact staysOut_writeEntries _ _ hrole'

theorem moves_appendClientEntries : ∀ {es : List LogEntry} {s : Server},
    Obeys (Moves slips) s (appendClientEntries es)
  | [], _ => .pure (moves_law slips) _
  | e :: _, _ => .bind (moves_law slips) (moves_originate e) fun _ _ => .look_bind
      (.emit_bind (moves_law slips) (moves_emit rfl) moves_appendClientEntries)

theorem behaves_handleCliReq (env : Env) (req : ReqMsg) : Behaves slips s (handleCliReq env req) :=
  .look_bind (.ite (fun _ => .pure _) fun _ => .bind (.of_obeys moves_appendClientEntries) fun _ _ =>
    .bind (behaves_requestAppendEntries env) fun _ _ => .look_bind (.pure _))

theorem moves_handleAddSrvReq (req : ReqMsg) : Obeys (Moves slips) s (handleAddSrvReq req) := by
  have hlaw := moves_law slips
  refine .look_bind ?_
  split
  · refine .ite (fun _ => .pure hlaw _) fun _ => .ite (fun _ => .pure hlaw _) fun _ => ?_
    split
    · exact .halt hlaw _
    · refine .ite (fun _ => .pure hlaw _) fun _ => .ite (fun _ => .pure hlaw _) fun _ => ?_
      refine .bind hlaw (moves_change rfl rfl) fun _ _ => ?_
      exact .bind hlaw (.bind hlaw (reads_derefPeer hlaw _) fun _ _ => .look_bind (moves_sendExtReq _))
        fun _ _ => .pure hlaw _
  · exact .pure hlaw _

theorem moves_handleRmSrvReq (req : ReqMsg) : Obeys (Moves slips) s (handleRmSrvReq req) := by
  have hlaw := moves_law slips
  refine .look_bind ?_
  split
  · refine .ite (fun _ => .pure hlaw _) fun _ => .ite (fun _ => .pure hlaw _)
      fun _ => .ite (fun _ => .pure hlaw _) fun _ => ?_
    split
    · exact .halt hlaw _
    · refine .ite (fun _ => .pure hlaw _) fun _ => ?_
      split
      · exact .pure hlaw _
      · exact .bind hlaw (moves_sendExtReq _) fun _ _ => .pure hlaw _
  · exact .pure hlaw _

theorem moves_handleLeaveClusterReq (req : ReqMsg) : Obeys (Moves slips) s (handleLeaveClusterReq req) :=
  .look_bind (.ite (fun _ => .bind (moves_law slips) (moves_change rfl rfl) fun _ _ =>
    .pure (moves_law slips) _) fun _ => .pure (moves_law slips) _)

/-- Only what a log pack commits is asked for. -/
theorem behaves_handleLogSyncReq (env : Env) (req : ReqMsg) : Behaves slips s (handleLogSyncReq env req) := by
  refine .look_bind ?_
  split
  · refine .ite (fun _ => .pure _) fun _ => .ite (fun _ => .pure _) fun _ => ?_
    split
    · exact .halt _
    · exact .bind (.of_obeys (moves_change rfl rfl)) fun _ _ => .bind (behaves_commit env _) fun _ _ =>
        .look_bind (.pure _)
  · exact .pure _

/-! ## Configurations -/

/-- A peer that is not there yet is added. -/
theorem moves_insertPeer {p : Peer} (hid : t.id = s.id) (hself : p.id ≠ s.id) (hfree : p.busy = false)
    (hp : t.peers = insertPeer s.peers p) : Moves slips s [] t := by
  by_cases hnew : p.id ∈ s.peers.map Peer.id
  · exact moves_changed hid (by rw [hp, insertPeer, if_pos hnew])
  · refine .single (.add hid hself hnew hfree ?_)
    rw [Server.marks, hp, insertPeer, if_neg hnew, List.map_append]
    rfl

/-- Whether a server that is added is the one a leader has been bringing in. -/
def Server.finishesJoin (s : Server) (srv : SrvConfig) : Bool :=
  s.role = .leader && s.srvToJoin.any (·.id = srv.id)

/-- The peer object for a server that is added. -/
def Server.addedPeer (s : Server) (srv : SrvConfig) : Peer :=
  { Peer.new s.params srv with
    nextLogIdx := if s.finishesJoin srv then (s.srvToJoin.map Peer.nextLogIdx).getD 0 else s.logStore.nextSlot
    hbEnabled := s.role = .leader }

/-- The server with a server added. -/
def Server.withServer (s : Server) (srv : SrvConfig) : Server :=
  { s with
    peers := insertPeer s.peers (s.addedPeer srv)
    srvToJoin := if s.finishesJoin srv then none else s.srvToJoin }

theorem addServer_run (srv : SrvConfig) : addServer srv s = ⟨.ok (), s.withServer srv, []⟩ := by
  by_cases hr : s.role = .leader
  · cases hj : s.srvToJoin with
    | none =>
      simp [addServer, hr, hj, Server.withServer, Server.addedPeer, Server.finishesJoin, Peer.enableHb,
        Peer.resumeHbSpeed, Peer.new]
    | some joining =>
      by_cases hid : joining.config.id = srv.id
      all_goals
        simp [addServer, hr, hj, hid, Server.withServer, Server.addedPeer, Server.finishesJoin, Peer.enableHb,
          Peer.resumeHbSpeed, Peer.new, Peer.id]
  · simp [addServer, hr, Server.withServer, Server.addedPeer, Server.finishesJoin, Peer.new]

theorem moves_addServer {srv : SrvConfig} (h : srv.id ≠ s.id) : Obeys (Moves slips) s (addServer srv) := by
  unfold Obeys
  rw [addServer_run]
  exact moves_insertPeer (p := s.addedPeer srv) rfl h rfl rfl

theorem moves_erasePeer (pid : Int) : Obeys (Moves slips) s (erasePeer pid) := by
  refine .look_bind ?_
  cases hp : s.findPeer pid with
  | none => exact .pure (moves_law slips) _
  | some p =>
    obtain ⟨-, rfl⟩ := findPeer_mem hp
    have herase : PeerMove slips s [.erasePeer (p.enableHb false)] (s.withoutPeer p.id) := by
      refine .erase rfl ?_
      rw [Server.marks, Server.marks, Server.withoutPeer, List.filter_map]
      rfl
    exact .single herase

theorem moves_removeServers (newConfig : ClusterConfig) : ∀ {pids : List Int} {s : Server},
    Obeys (Moves slips) s (removeServers newConfig pids)
  | [], _ => .pure (moves_law slips) _
  | q :: _, _ => by
    have hlaw := moves_law slips
    refine .look_bind (.ite (fun _ => ?_) fun _ => ?_)
    · exact .emit_bind hlaw (moves_emit rfl) (.emit_bind hlaw (moves_emit rfl) (.pure hlaw _))
    · exact .bind hlaw (moves_erasePeer q) fun _ _ => moves_removeServers newConfig

/-- **`reconfigure`** adds and erases peers. -/
theorem moves_reconfigure (newConfig : ClusterConfig) : Obeys (Moves slips) s (reconfigure newConfig) := by
  have hlaw := moves_law slips
  refine .look_bind (.bind hlaw ?_ fun _ _ => .bind hlaw (moves_removeServers _) fun _ _ => ?_)
  · refine .forEach hlaw (fun u => u.id = s.id) rfl fun srv hsrv u hu => ?_
    have hne : srv.id ≠ s.id := by
      have h := (List.mem_filter.mp hsrv).2
      simp only [decide_eq_true_eq] at h
      exact h.2
    exact ⟨moves_addServer (hu ▸ hne), (books_addServer srv).book.id_eq.trans hu⟩
  · exact .ite (fun _ => .pure hlaw _) fun _ => moves_change rfl rfl

theorem moves_handleJoinClusterReq (req : ReqMsg) : Obeys (Moves slips) s (handleJoinClusterReq req) := by
  have hlaw := moves_law slips
  refine .look_bind ?_
  split
  · refine .ite (fun _ => .pure hlaw _) fun _ => .ite (fun _ => .pure hlaw _) fun _ => ?_
    refine .change_bind hlaw (moves_changed rfl rfl) (.bind hlaw (.look_bind (moves_emit rfl)) fun _ _ => ?_)
    split
    · exact .halt hlaw _
    · exact .bind hlaw (moves_reconfigure _) fun _ _ => .look_bind (.pure hlaw _)
  · exact .pure hlaw _

theorem moves_handleInstallSnapshotReq (env : Env) (req : ReqMsg) :
    Obeys (Moves slips) s (handleInstallSnapshotReq env req) := by
  have hlaw := moves_law slips
  have hexit : ∀ {u : Server} {α : Type} (code : Int), Obeys (Moves slips) u (systemExitAndExit code : Action α) :=
    fun code => reads_exit (moves_exits slips) code
  refine .look_bind (.bind hlaw (moves_followLeader _) fun _ _ => .look_bind (.ite (fun _ => .pure hlaw _) fun _ => ?_))
  split
  · refine .ite (fun _ => .pure hlaw _) fun _ => ?_
    split
    · exact .halt hlaw _
    · refine .ite (fun _ => .pure hlaw _) fun _ => .bind hlaw (.rescue hlaw ?_ (hexit _)) fun _ _ =>
        .ite (fun _ => .pure hlaw _) fun _ => .pure hlaw _
      refine .ite (fun _ => .halt hlaw _) fun _ => .emit_bind hlaw (moves_emit rfl) (.ite (fun _ => ?_)
        fun _ => .pure hlaw _)
      refine .look_bind (.ite (fun _ => hexit _) fun _ => .ite (fun _ => .halt hlaw _) fun _ => .ite (fun _ => ?_)
        fun _ => .pure hlaw _)
      refine .bind hlaw (moves_change rfl rfl) fun _ _ => .ite (fun _ => hexit _) fun _ =>
        .emit_bind hlaw (moves_emit rfl) (.bind hlaw (moves_reconfigure _) fun _ _ => ?_)
      exact .look_bind (.emit_bind hlaw (moves_emit rfl) (.change_bind hlaw (moves_changed rfl rfl)
        (.bind hlaw (.look_bind (moves_emit rfl)) fun _ _ => .pure hlaw _)))
  · exact .pure hlaw _

/-! ## Extended responses -/

theorem moves_appendConfig (servers : List SrvConfig) : Obeys (Moves slips) s (appendConfig servers) :=
  .look_bind (.bind (moves_law slips) (moves_originate _) fun _ _ => moves_change rfl rfl)

theorem behaves_rmSrvFromCluster (env : Env) (srvId : Int) : Behaves slips s (rmSrvFromCluster env srvId) :=
  .look_bind (.bind (.of_obeys (moves_appendConfig _)) fun _ _ => behaves_requestAppendEntries env)

/-- Whether `sync_log_to_new_srv` finds the log of the new server long enough. -/
def Server.synced (s : Server) (startIdx : Nat) : Bool := syncGap s startIdx < s.params.logSyncStopGap

/-- A new server that lags is sent something, and nobody is asked. -/
theorem moves_syncLogToNewSrv (env : Env) {startIdx : Nat} (h : s.synced startIdx = false) :
    Obeys (Moves slips) s (syncLogToNewSrv env startIdx) := by
  have hlaw := moves_law slips
  refine .look_bind (.bind hlaw (reads_derefPeer hlaw _) fun p _ => .ite (fun hgap => ?_) fun _ =>
    .ite (fun _ => ?_) fun _ => ?_)
  · exact absurd (decide_eq_true hgap) (Bool.eq_false_iff.mp h)
  · exact .bind hlaw (Idles.moves (idles_createSyncSnapshotReq env _ _ _ _)) fun _ _ => moves_sendExtReq _
  · split
    · exact .halt hlaw _
    · exact moves_sendExtReq _

theorem behaves_syncLogToNewSrv (env : Env) (startIdx : Nat) : Behaves slips s (syncLogToNewSrv env startIdx) := by
  by_cases h : s.synced startIdx = true
  · refine .look_bind (.bind (.of_obeys (reads_derefPeer (moves_law slips) _)) fun p _ => .ite (fun _ => ?_)
      fun hgap => absurd (of_decide_eq_true h) hgap)
    split
    · exact .halt _
    · exact .bind (.of_obeys (moves_appendConfig _)) fun _ _ => behaves_requestAppendEntries env
  · exact .of_obeys (moves_syncLogToNewSrv env (Bool.eq_false_iff.mpr h))

theorem moves_joining (f : Peer → Peer) : Obeys (Moves slips) s (change (·.updateAt .joining f) : Action Unit) :=
  moves_change rfl rfl

theorem behaves_handleExtSnapshotResp (env : Env) (resp : RespMsg) :
    Behaves slips s (handleExtSnapshotResp env resp) := by
  refine .look_bind ?_
  split
  · exact .pure _
  · refine .ite (fun _ => .pure _) fun _ => ?_
    split
    · exact .of_obeys (reads_exit (moves_exits slips) _)
    · refine .ite (fun _ => ?_) fun _ => ?_
      all_goals
        refine .bind (.of_obeys (moves_joining _)) fun _ _ => ?_
        exact .bind (.of_obeys (reads_derefPeer (moves_law slips) _)) fun _ _ => behaves_syncLogToNewSrv env _

theorem behaves_handleExtResp (env : Env) (resp : RespMsg) : Behaves slips s (handleExtResp env resp) := by
  refine .look_bind ?_
  split
  · split
    · exact .pure _
    · exact .bind (.of_obeys (moves_change rfl rfl)) fun _ _ => behaves_syncLogToNewSrv env _
  · split
    · exact .pure _
    · exact .ite (fun _ => behaves_syncLogToNewSrv env _) fun _ => .pure _
  · exact .ite (fun _ => behaves_rmSrvFromCluster env _) fun _ => .pure _
  · exact behaves_handleExtSnapshotResp env resp
  · exact .of_obeys (reads_exit (moves_exits slips) _)

theorem behaves_handleExtRespErr (env : Env) (req : ReqMsg) : Behaves slips s (handleExtRespErr env req) := by
  refine .ite (fun _ => .look_bind ?_) fun _ => .pure _
  split
  · exact .pure _
  · refine .ite (fun _ => .ite (fun _ => ?_) fun _ => ?_) fun _ => .of_obeys ?_
    · refine .ite (fun _ => ?_) fun _ => behaves_rmSrvFromCluster env _
      exact .bind (.of_obeys (moves_erasePeer _)) fun _ _ => behaves_rmSrvFromCluster env _
    · exact .of_obeys (moves_change rfl rfl)
    · exact (idles_updateAt (extPeer req) (f := Peer.slowDownHb s.params) (fun _ => rfl) s).moves

/-! ## The committing thread -/

theorem moves_onSnapshotCompleted (env : Env) (result : Bool) :
    Obeys (Moves slips) s (onSnapshotCompleted env result) := by
  have hlaw := moves_law slips
  refine .look_bind ?_
  split
  · exact .pure hlaw _
  · exact .ite (fun _ => .change_bind hlaw (moves_changed rfl rfl) (.halt hlaw _)) fun _ => moves_change rfl rfl

theorem moves_bgWake : Obeys (Moves slips) s bgWake :=
  .look_bind (.ite (fun _ => moves_change rfl rfl) fun _ => .pure (moves_law slips) _)

theorem moves_commitConfig (e : LogEntry) : Obeys (Moves slips) s (commitConfig e) := by
  have hlaw := moves_law slips
  unfold commitConfig
  cases ClusterConfig.deserialize e.buf with
  | none => exact .halt hlaw _
  | some p =>
    refine .emit_bind hlaw (moves_emit rfl) (.change_bind hlaw (moves_changed rfl rfl) (.bind hlaw ?_ fun _ _ => ?_))
    · exact .look_bind (.ite (fun _ => moves_reconfigure _) fun _ => .pure hlaw _)
    · refine moves_change ?_ ?_ <;> (simp only [Server.caughtUp]; split <;> rfl)

theorem moves_snapshotAndCompact (env : Env) (committedIdx : Nat) :
    Obeys (Moves slips) s (snapshotAndCompact env committedIdx) := by
  have hlaw := moves_law slips
  refine .look_bind (.ite (fun _ => .bind hlaw (moves_change rfl rfl) fun _ _ => ?_) fun _ => .pure hlaw _)
  refine .ite (fun _ => moves_change rfl rfl) fun _ => .rescue hlaw ?_ (moves_change rfl rfl)
  refine .look_bind (.bind hlaw (reads_confInForce hlaw env _) fun _ _ =>
    .bind hlaw (reads_confOrSnapshot hlaw (moves_exits slips) env _ _) fun _ _ =>
    .bind hlaw (reads_termAt hlaw _) fun _ _ => ?_)
  exact .bind hlaw (moves_change rfl rfl) fun _ _ => moves_emit rfl

theorem moves_bgIter (env : Env) : Obeys (Moves slips) s (bgIter env) := by
  have hlaw := moves_law slips
  refine .look_bind ?_
  split
  · exact .pure hlaw _
  · refine .ite (fun _ => .rescue hlaw ?_ (reads_exit (moves_exits slips) _)) fun _ => ?_
    · refine .bind hlaw (reads_entryAt hlaw _) fun e _ => .bind hlaw ?_ fun _ _ => ?_
      · exact .ite (fun _ => moves_emit rfl) fun _ => .ite (fun _ => moves_commitConfig e) fun _ => .pure hlaw _
      · exact .bind hlaw (moves_change rfl rfl) fun _ _ => moves_snapshotAndCompact env _
    · exact .bind hlaw (.look_bind (moves_emit rfl)) fun _ _ => moves_change rfl rfl

/-! ## Responses -/

theorem behaves_handleAppendEntriesResp (env : Env) (resp : RespMsg) :
    Behaves slips s (handleAppendEntriesResp env resp) := by
  refine .look_bind ?_
  split
  · exact .pure _
  · rename_i p _
    have hgo : ∀ {x : Action Bool}, Behaves slips s x → Behaves slips s (x >>= continueWith env resp.src) :=
      fun hx => .bind hx fun b _ => behaves_continueWith env resp.src b
    refine .ite (fun _ => hgo ?_) fun _ => hgo (.ite (fun _ => ?_) fun _ => ?_)
    · refine .bind (.of_obeys (idles_updateAt (.peer resp.src) (f := fun p => { p with
        nextLogIdx := resp.nextIdx, matchedIdx := ulongSub resp.nextIdx 1 }) (fun _ => rfl) s).moves) fun _ _ => ?_
      refine .look_bind (.bind (behaves_commit env _) fun _ _ => .look_bind (.bind (.of_obeys ?_) fun _ _ => .pure _))
      exact (idles_updateAt (.peer resp.src) (f := fun p => { p with pendingCommit := false }) (fun _ => rfl) _).moves
    · refine .bind (.of_obeys ?_) fun _ _ => .pure _
      exact (idles_updateAt (.peer resp.src) (f := fun p => { p with nextLogIdx := resp.nextIdx }) (fun _ => rfl) s).moves
    · refine .bind (.of_obeys ?_) fun _ _ => .pure _
      have hmark : ∀ p : Peer, ({ p with nextLogIdx := ulongSub p.nextLogIdx 1 } : Peer).mark = p.mark :=
        fun p => p.mark_nextLogIdx _
      exact (idles_updateAt (.peer resp.src) (f := fun p => { p with nextLogIdx := ulongSub p.nextLogIdx 1 }) hmark
        s).moves

theorem behaves_handleInstallSnapshotResp (env : Env) (resp : RespMsg) :
    Behaves slips s (handleInstallSnapshotResp env resp) := by
  refine .look_bind ?_
  split
  · exact .pure _
  · rename_i p _
    have hgo : ∀ {x : Action Bool}, Behaves slips s x → Behaves slips s (x >>= continueWith env resp.src) :=
      fun hx => .bind hx fun b _ => behaves_continueWith env resp.src b
    refine .ite (fun _ => hgo ?_) fun _ => hgo (.pure _)
    unfold acceptedSnapshot
    cases p.snpSyncCtx with
    | none => exact .pure _
    | some ctx =>
      refine .look_bind (.ite (fun _ => .bind (.of_obeys ?_) fun _ _ => .pure _) fun _ =>
        .bind (.of_obeys ?_) fun _ _ => .pure _)
      · exact (idles_updateAt (.peer resp.src) (f := fun p => { p with
          nextLogIdx := ctx.snapshot.lastLogIdx + 1, matchedIdx := ctx.snapshot.lastLogIdx
          snpSyncCtx := none, pendingCommit := false }) (fun _ => rfl) s).moves
      · exact (idles_updateAt (.peer resp.src) (f := fun p => { p with
          snpSyncCtx := some { ctx with offset := resp.nextIdx } }) (fun _ => rfl) s).moves

/-- The response brings the server into office: in an election under way a majority has
voted for it with this one. -/
def Server.winsBy (s : Server) (resp : RespMsg) : Prop :=
  resp.term ≤ s.state.term ∧ resp.type = .requestVoteResponse ∧ s.electionCompleted = false ∧
    (s.peers.length + 1) / 2 < (s.counted resp.accepted).votesGranted

theorem behaves_handlePeerResp (env : Env) {resp : RespMsg}
    (h : slips ∨ (s.winsBy resp → ∀ p ∈ s.peers, p.busy = false)) : Behaves slips s (handlePeerResp env resp) := by
  rcases Nat.lt_or_ge s.state.term resp.term with hlt | hle
  · -- a new term, and nothing else
    refine .bind (.of_obeys (moves_updateTerm _)) fun updated hres => ?_
    rw [updateTerm_of_lt hlt] at hres
    cases hres
    exact .pure _
  · refine .bind (.of_obeys (moves_updateTerm _)) fun updated hres => ?_
    rw [updateTerm_of_le hle] at hres ⊢
    cases hres
    refine .ite (fun h => by cases h) fun _ => ?_
    split
    · exact behaves_handleVotingResp env resp (h.imp_right fun hfree hgoing hwin => hfree ⟨hle, ‹_›, hgoing, hwin⟩)
    · exact behaves_handleAppendEntriesResp env resp
    · exact behaves_handleInstallSnapshotResp env resp
    · exact .of_obeys (reads_exit (moves_exits slips) _)

/-! ## Requests and events -/

theorem behaves_answerReq (env : Env) {req : ReqMsg}
    (hle : req.type = .appendEntriesRequest → req.term ≤ s.state.term) : Behaves slips s (answerReq env req) := by
  unfold answerReq handleExtendedMsg
  split
  · exact .of_obeys (moves_handleAppendEntries env (hle ‹_›))
  · exact .of_obeys (moves_handleVoteReq req)
  · exact behaves_handleCliReq env req
  · split
    · exact .of_obeys (moves_handleAddSrvReq req)
    · exact .of_obeys (moves_handleRmSrvReq req)
    · exact behaves_handleLogSyncReq env req
    · exact .of_obeys (moves_handleJoinClusterReq req)
    · exact .of_obeys (moves_handleLeaveClusterReq req)
    · exact .of_obeys (moves_handleInstallSnapshotReq env req)
    · exact .of_obeys (reads_exit (moves_exits slips) _)

theorem behaves_processReq (env : Env) (req : ReqMsg) : Behaves slips s (processReq env req) := by
  refine .bind (.of_obeys (moves_noteTerm req)) fun _ _ => .bind (behaves_answerReq env fun htype => ?_) fun _ _ =>
    .look_bind (.of_obeys (moves_emit rfl))
  rw [noteTerm_run (.inl htype)]
  exact (noted_noted s req).term

/-- Whether the end of such a request through such an object frees a peer. -/
def freesPeer (via : Option PeerRef) (reqType : MsgType) : Bool :=
  reqType.replicates && via.any fun r => match r with
    | .peer _ => true
    | .joining => false

/-- The end of a request that replicates takes the flag down. -/
theorem mark_rpcResult (params : RaftParams) (reqType : MsgType) (failed : Bool) (p : Peer) :
    (Peer.rpcResult params reqType failed p).mark = (p.id, p.busy && !reqType.replicates) := by
  unfold Peer.rpcResult MsgType.replicates
  split_ifs with htype hfailed
  all_goals simp [htype, Peer.mark, Peer.slowDownHb, Peer.resumeHbSpeed, Peer.id]

theorem moves_rpcResult {via : Option PeerRef} {reqType : MsgType} (failed : Bool)
    (h : slips ∨ freesPeer via reqType = false) : Obeys (Moves slips) s (rpcResult via reqType failed) := by
  cases via with
  | none => exact .pure (moves_law slips) _
  | some r =>
    cases r with
    | joining => exact moves_joining _
    | peer pid =>
      rcases h with h | h
      · have hids : (s.updatePeer pid (Peer.rpcResult s.params reqType failed)).peerIds = s.peerIds :=
          updatePeer_peerIds (fun p => congrArg Prod.fst (mark_rpcResult s.params reqType failed p)) s pid
        have hslip : PeerMove slips s [] (s.updatePeer pid (Peer.rpcResult s.params reqType failed)) :=
          .slip h rfl hids (by simp)
        exact .single hslip
      · have htype : reqType.replicates = false := by simpa [freesPeer] using h
        refine (idles_updateAt (.peer pid) (f := Peer.rpcResult s.params reqType failed) (fun p => ?_) s).moves
        rw [mark_rpcResult, htype, Bool.not_false, Bool.and_true]
        rfl

/-- Where an event frees a peer of its request without saying so: nowhere, in a run that
keeps the requests to peers apart from the extended ones. -/
def Event.freesPeer : Event → Bool
  | .extResp via reqType _ => Cornerstone.freesPeer via reqType
  | .extErr via req => Cornerstone.freesPeer via req.type
  | _ => false

theorem behaves_handle (env : Env) {ev : Event} (hpeer : ev.ofPeer = false) (hfrees : slips ∨ ev.freesPeer = false) :
    Behaves slips s (handle env ev) := by
  cases ev with
  | request req => exact behaves_processReq env req
  | peerResp | peerErr => cases hpeer
  | extResp via reqType resp =>
    exact .bind (.of_obeys (moves_rpcResult false hfrees)) fun _ _ => behaves_handleExtResp env resp
  | extErr via req =>
    exact .bind (.of_obeys (moves_rpcResult true hfrees)) fun _ _ => behaves_handleExtRespErr env req
  | extRetry req => exact .of_obeys (moves_sendExtReq req)
  | electionTimeout => exact .of_obeys (moves_handleElectionTimeout env)
  | hbTimeout pid => exact behaves_handleHbTimeout env pid
  | bgWake => exact .of_obeys moves_bgWake
  | bgIter => exact .of_obeys (moves_bgIter env)
  | snapshotCompleted result => exact .of_obeys (moves_onSnapshotCompleted env result)

/-- **Whatever happens** to a server changes its peers and their flags in the known ways. -/
theorem moves_occur (env : Env) (x : Occurrence) : Obeys (Moves True) s (occur env x) := by
  cases x with
  | release via reqType failed => exact moves_rpcResult failed (.inl trivial)
  | respond resp => exact behaves_handlePeerResp env (.inl trivial) fun _ => trivial
  | other ev hev => exact behaves_handle env hev (.inl trivial) fun _ => trivial

end Cornerstone
