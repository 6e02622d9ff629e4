import Cornerstone.CommitRule
import Cornerstone.CommitRun

/-! # The busy flag and the pending-commit flag of a peer

`make_busy` guards the one request a peer may have outstanding, and
`pending_commit_flag_` notes that a commit came while there was one.  Making up a
request changes neither of another peer; `commit` sends to every free peer and sets
the flag of every busy one.
-/

namespace Cornerstone
open Handlers Handler Server

/-- What making up requests keeps of a peer. -/
def Peer.flags (p : Peer) : Int × Bool × Bool := (p.id, p.busy, p.pendingCommit)

/-- The pending-commit flag of a peer is set; nothing is said of one that is gone. -/
def Flagged (pid : Int) (s : Server) : Prop := ∀ p ∈ s.peers, p.id = pid → p.pendingCommit = true

/-- Whether a peer has a request outstanding. -/
def Server.busyWith (s : Server) (pid : Int) : Bool := (s.findPeer pid).any Peer.busy

/-- A request to a peer that carries a commit index of `n` at least. -/
def Effect.tells (pid : Int) (n : Nat) : Effect → Bool
  | .send req _ => req.dst = pid ∧ n ≤ req.commitIdx ∧
      (req.type = .appendEntriesRequest ∨ req.type = .installSnapshotRequest)
  | _ => false

/-- Such a request is sent. -/
def Tells (pid : Int) (n : Nat) (o : List Effect) : Prop := ∃ e ∈ o, e.tells pid n = true

theorem Tells.append_left {pid : Int} {n : Nat} {o : List Effect} (h : Tells pid n o) (o' : List Effect) :
    Tells pid n (o ++ o') := by
  obtain ⟨e, he, ht⟩ := h
  exact ⟨e, List.mem_append_left _ he, ht⟩

theorem Tells.append_right {pid : Int} {n : Nat} {o' : List Effect} (o : List Effect) (h : Tells pid n o') :
    Tells pid n (o ++ o') := by
  obtain ⟨e, he, ht⟩ := h
  exact ⟨e, List.mem_append_right _ he, ht⟩

/-- The law of leaving the flags of the peers, the commit index and the role alone. -/
structure Tunes (s : Server) (_ : List Effect) (t : Server) : Prop where
  role : t.role = s.role
  quick : t.quickCommitIdx = s.quickCommitIdx
  flags : t.peers.map Peer.flags = s.peers.map Peer.flags

theorem tunes_law : Law Tunes where
  refl _ := ⟨rfl, rfl, rfl⟩
  trans h h' := ⟨h'.role.trans h.role, h'.quick.trans h.quick, h'.flags.trans h.flags⟩

variable {s t : Server} {o : List Effect} {pid : Int}

theorem peerIds_of_flags (h : t.peers.map Peer.flags = s.peers.map Peer.flags) :
    t.peerIds = s.peerIds := by
  have h' := congrArg (List.map Prod.fst) h
  rw [List.map_map, List.map_map] at h'
  exact h'

theorem flagged_of_flags (h : t.peers.map Peer.flags = s.peers.map Peer.flags) (hf : Flagged pid s) :
    Flagged pid t := by
  intro q hq hid
  have hmem : q.flags ∈ s.peers.map Peer.flags := h ▸ List.mem_map_of_mem hq
  obtain ⟨p, hp, heq⟩ := List.mem_map.mp hmem
  simp only [Peer.flags, Prod.mk.injEq] at heq
  rw [← heq.2.2]
  exact hf p hp (heq.1.trans hid)

theorem busyWith_eq (s : Server) (pid : Int) :
    s.busyWith pid = ((s.peers.map Peer.flags).find? (·.1 = pid)).any (·.2.1) := by
  rw [List.find?_map, Server.busyWith, Server.findPeer]
  have hpred : (fun f : Int × Bool × Bool => decide (f.1 = pid)) ∘ Peer.flags =
      fun p : Peer => decide (p.id = pid) := rfl
  rw [hpred]
  cases s.peers.find? fun p => decide (p.id = pid) <;> rfl

theorem busyWith_of_flags (h : t.peers.map Peer.flags = s.peers.map Peer.flags) (pid : Int) :
    t.busyWith pid = s.busyWith pid := by
  rw [busyWith_eq, busyWith_eq, h]

/-! ## Making up requests -/

theorem updatePeer_flags {f : Peer → Peer} (hf : ∀ p, (f p).flags = p.flags) (s : Server) (pid : Int) :
    (s.updatePeer pid f).peers.map Peer.flags = s.peers.map Peer.flags := by
  simp only [Server.updatePeer, List.map_map]
  refine List.map_congr_left fun p _ => ?_
  simp only [Function.comp_apply]
  split
  · exact hf p
  · rfl

theorem tunes_updateAt (r : PeerRef) {f : Peer → Peer} (hf : ∀ p, (f p).flags = p.flags) (s : Server) :
    Tunes s [] (s.updateAt r f) := by
  cases r with
  | peer pid => exact ⟨rfl, rfl, updatePeer_flags hf s pid⟩
  | joining => exact ⟨rfl, rfl, rfl⟩

theorem tunes_same (hr : t.role = s.role) (hq : t.quickCommitIdx = s.quickCommitIdx)
    (hp : t.peers = s.peers) : Tunes s o t := ⟨hr, hq, by rw [hp]⟩

theorem tunes_exits : Exits Tunes := fun _ _ => tunes_same rfl rfl rfl

theorem tunes_createSyncSnapshotReq (env : Env) (r : PeerRef) (n t c : Nat) :
    Obeys Tunes s (createSyncSnapshotReq env r n t c) := by
  refine .bind tunes_law (.bind tunes_law (reads_derefPeer tunes_law r) fun p _ => ?_) fun ctx _ =>
    .bind tunes_law (reads_derefPeer tunes_law r) fun p _ => .look_bind (.ite (fun _ => .halt tunes_law _) fun _ =>
      .ite (fun _ => reads_exit tunes_exits _) fun _ => .ite (fun _ => .halt tunes_law _) fun _ => .pure tunes_law _)
  split
  · exact .pure tunes_law _
  · exact reads_exit tunes_exits _
  · refine .ite (fun _ => reads_exit tunes_exits _) fun _ => .ite (fun _ => reads_exit tunes_exits _) fun _ => ?_
    exact .change_bind tunes_law (tunes_updateAt r (f := (·.setSnapshotInSync _)) (fun _ => rfl) _)
      (.pure tunes_law _)

theorem tunes_createAppendEntriesReq (env : Env) (pid : Int) :
    Obeys Tunes s (createAppendEntriesReq env pid) := by
  refine .look_bind (.change_bind tunes_law (tunes_updateAt (.peer pid) (fun p => ?_) s) ?_)
  · split <;> rfl
  refine .bind tunes_law (reads_derefPeer tunes_law _) fun p _ => .ite (fun _ => reads_exit tunes_exits _) fun _ =>
    .ite (fun _ => tunes_createSyncSnapshotReq env _ _ _ _) fun _ => ?_
  exact .bind tunes_law (reads_termForLog tunes_law tunes_exits env _) fun t _ =>
    .ite (fun _ => .halt tunes_law _) fun _ => .pure tunes_law _

/-- Whom a request is for, and what it carries. -/
theorem createAppendEntriesReq_tells (env : Env) (pid : Int) :
    Returns s (createAppendEntriesReq env pid) fun req _ => req.dst = pid ∧
      req.commitIdx = s.quickCommitIdx ∧
      (req.type = .appendEntriesRequest ∨ req.type = .installSnapshotRequest) := by
  have hderef : ∀ u : Server, Returns u (derefPeer (.peer pid)) fun p _ => p.id = pid := by
    intro u
    refine .look_bind ?_
    cases hp : u.peerAt? (.peer pid) with
    | none => exact .halt _
    | some p => exact .pure (by simpa using List.find?_some hp)
  refine .look_bind (.change_bind (.bind fun p hp => ?_))
  have hid := hderef _ p hp
  refine .ite (fun _ => .bind fun _ _ => .bind fun _ _ => .halt _) fun _ => .ite (fun _ => ?_) fun _ => ?_
  · refine .bind fun ctx _ => .bind fun p hp => .look_bind (.ite (fun _ => .halt _) fun _ =>
      .ite (fun _ => .bind fun _ _ => .bind fun _ _ => .halt _) fun _ =>
        .ite (fun _ => .halt _) fun _ => .pure ?_)
    exact ⟨hderef _ p hp, rfl, .inr rfl⟩
  · exact .bind fun _ _ => .ite (fun _ => .halt _) fun _ => .pure ⟨hid, rfl, .inl rfl⟩

/-- The server with a peer made busy. -/
def Server.makeBusy (s : Server) (pid : Int) : Server :=
  s.updatePeer pid fun p => { p with busy := true }

theorem flagged_updatePeer {q : Int} {f : Peer → Peer} (hid : ∀ p, (f p).id = p.id)
    (hf : ∀ p, p.pendingCommit = true → (f p).pendingCommit = true) (h : Flagged pid s) :
    Flagged pid (s.updatePeer q f) := by
  intro p' hp' hpid
  obtain ⟨p, hp, rfl⟩ := List.mem_map.mp hp'
  split at hpid
  · rw [if_pos ‹_›]
    exact hf p (h p hp ((hid p).symm.trans hpid))
  · rw [if_neg ‹_›]
    exact h p hp hpid

theorem updatePeer_peerIds {f : Peer → Peer} (hid : ∀ p, (f p).id = p.id) (s : Server) (pid : Int) :
    (s.updatePeer pid f).peerIds = s.peerIds := by
  simp only [Server.peerIds, Server.updatePeer, List.map_map]
  refine List.map_congr_left fun p _ => ?_
  simp only [Function.comp_apply]
  split
  · exact hid p
  · rfl

theorem busyWith_updatePeer {q : Int} {f : Peer → Peer} (hid : ∀ p, (f p).id = p.id)
    (hb : pid ≠ q ∨ ∀ p, (f p).busy = p.busy) :
    (s.updatePeer q f).busyWith pid = s.busyWith pid := by
  have hpred : (fun p : Peer => decide (p.id = pid)) ∘ (fun p => if p.id = q then f p else p) =
      fun p => decide (p.id = pid) := by
    funext p
    by_cases hq : p.id = q
    · simp [hq, hid]
    · simp [hq]
  simp only [Server.busyWith, Server.findPeer, Server.updatePeer, List.find?_map, hpred]
  cases hp : s.peers.find? fun p => decide (p.id = pid) with
  | none => rfl
  | some p =>
    have hpid : p.id = pid := by simpa using List.find?_some hp
    rcases hb with hne | hb
    · have hq : p.id ≠ q := fun h => hne (hpid.symm.trans h)
      simp [hq]
    · simp only [Option.map_some, Option.any_some]
      split
      · exact hb p
      · rfl

/-- A free peer is made busy, and then the request is made up and sent. -/
theorem requestAppendEntriesTo_idle {env : Env} {p : Peer} (hp : s.findPeer pid = some p) (hidle : p.busy = false) :
    requestAppendEntriesTo env pid s =
      (do
        let req ← createAppendEntriesReq env pid
        sendReq req
        pure true : Action Bool) (s.makeBusy pid) := by
  have hbusy : (change (·.updatePeer pid fun p => { p with busy := true }) : Action Unit) s =
      ⟨.ok (), s.makeBusy pid, []⟩ := rfl
  rw [requestAppendEntriesTo, bind_silent (look_run _), hp]
  dsimp only
  rw [if_neg (by simp [hidle]), bind_silent hbusy]

/-- Of any other nothing is asked. -/
theorem requestAppendEntriesTo_skips {env : Env} (h : ∀ p, s.findPeer pid = some p → p.busy = true) :
    requestAppendEntriesTo env pid s = ⟨.ok false, s, []⟩ := by
  rw [requestAppendEntriesTo, bind_silent (look_run _)]
  cases hp : s.findPeer pid with
  | none => rfl
  | some p => simp [h p hp]

/-- What sending, or not sending, a request to one peer leaves. -/
structure Sent (pid : Int) (sent : Bool) (s : Server) (o : List Effect) (t : Server) : Prop where
  role : t.role = s.role
  quick : t.quickCommitIdx = s.quickCommitIdx
  ids : t.peerIds = s.peerIds
  flag : ∀ q, Flagged q s → Flagged q t
  other : ∀ q, q ≠ pid → t.busyWith q = s.busyWith q
  told : sent = true → Tells pid s.quickCommitIdx o
  skipped : sent = false → pid ∈ s.peerIds → s.busyWith pid = true

/-- **`request_append_entries(peer&)`** sends the current commit index to a free peer. -/
theorem requestAppendEntriesTo_sent (env : Env) (pid : Int) {sent : Bool}
    (h : (requestAppendEntriesTo env pid s).res = .ok sent) :
    Sent pid sent s (requestAppendEntriesTo env pid s).out (requestAppendEntriesTo env pid s).state := by
  by_cases hskip : ∀ p, s.findPeer pid = some p → p.busy = true
  · rw [requestAppendEntriesTo_skips hskip] at h ⊢
    cases h
    refine ⟨rfl, rfl, rfl, fun _ h => h, fun _ _ => rfl, fun h => (by cases h), fun _ hmem => ?_⟩
    obtain ⟨p, hp⟩ := Option.isSome_iff_exists.mp (findPeer_isSome.mpr hmem)
    rw [Server.busyWith, hp]
    exact hskip p hp
  · push Not at hskip
    obtain ⟨p, hp, hb⟩ := hskip
    have hrun := @requestAppendEntriesTo_idle s pid env p hp (Bool.eq_false_iff.mpr hb)
    have htunes : Tunes (s.makeBusy pid) _ _ := tunes_createAppendEntriesReq env pid
    rw [hrun] at h ⊢
    rcases bind_cases (createAppendEntriesReq env pid) (fun req => sendReq req >>= fun _ => pure true)
      (s.makeBusy pid) with ⟨e, -, hstop⟩ | ⟨req, hreq, hgo⟩
    · rw [hstop] at h
      cases h
    · obtain ⟨hdst, hcommit, htype⟩ := createAppendEntriesReq_tells env pid req hreq
      rw [hgo] at h ⊢
      cases h
      have hflags := htunes.flags
      refine ⟨htunes.role, htunes.quick, ?_, fun q hq => ?_, fun q hq => ?_, fun _ => ?_,
        fun h => (by cases h)⟩
      · exact (peerIds_of_flags hflags).trans
          (updatePeer_peerIds (f := fun p => { p with busy := true }) (fun _ => rfl) s pid)
      · exact flagged_of_flags hflags (flagged_updatePeer (fun _ => rfl) (fun _ h => h) hq)
      · exact (busyWith_of_flags hflags q).trans (busyWith_updatePeer (fun _ => rfl) (.inl hq))
      · refine Tells.append_right _ ⟨_, List.mem_append_left _ List.mem_cons_self, ?_⟩
        simp only [Effect.tells, decide_eq_true_eq]
        exact ⟨hdst, hcommit.ge, htype⟩

/-! ## `commit` -/

/-- What a commit that moves the commit index leaves: every peer has been sent the new
index, if it was free, or has its flag set. -/
structure Notifies (pids : List Int) (s : Server) (o : List Effect) (t : Server) : Prop where
  role : t.role = s.role
  quick : t.quickCommitIdx = s.quickCommitIdx
  ids : t.peerIds = s.peerIds
  flag : ∀ q, Flagged q s → Flagged q t
  free : ∀ q ∈ pids, q ∈ s.peerIds → s.busyWith q = false → Tells q s.quickCommitIdx o
  busy : ∀ q ∈ pids, Tells q s.quickCommitIdx o ∨ Flagged q t

/-- The body of the loop of `commit`. -/
def notifyPeer (env : Env) (pid : Int) : Action Unit := do
  let sent ← requestAppendEntriesTo env pid
  if sent then pure ()
  else change (·.updatePeer pid fun p => { p with pendingCommit := true })

theorem notifyPeer_notifies (env : Env) (pid : Int) (h : (notifyPeer env pid s).res = .ok ()) :
    Notifies [pid] s (notifyPeer env pid s).out (notifyPeer env pid s).state ∧
      ∀ q, q ≠ pid → (notifyPeer env pid s).state.busyWith q = s.busyWith q := by
  rcases bind_cases (requestAppendEntriesTo env pid) (fun sent => if sent then pure ()
    else change (·.updatePeer pid fun p => { p with pendingCommit := true })) s with
    ⟨e, -, hstop⟩ | ⟨sent, hres, hgo⟩
  · rw [notifyPeer, hstop] at h
    cases h
  · have hsent := requestAppendEntriesTo_sent env pid hres
    rw [notifyPeer, hgo]
    set t := (requestAppendEntriesTo env pid s).state
    cases sent with
    | true =>
      have htold := hsent.told rfl
      simp only [if_true, pure_run, List.append_nil]
      refine ⟨⟨hsent.role, hsent.quick, hsent.ids, hsent.flag, fun q hq _ _ => ?_, fun q hq => ?_⟩,
        hsent.other⟩
      · rw [List.mem_singleton.mp hq]
        exact htold
      · rw [List.mem_singleton.mp hq]
        exact .inl htold
    | false =>
      simp only [Bool.false_eq_true, if_false, change_run, List.append_nil]
      have hflag : Flagged pid (t.updatePeer pid fun p => { p with pendingCommit := true }) := by
        intro p' hp' hpid
        obtain ⟨p, hp, rfl⟩ := List.mem_map.mp hp'
        split at hpid
        · rw [if_pos ‹_›]
        · exact absurd hpid ‹_›
      have hids := updatePeer_peerIds (f := fun p => { p with pendingCommit := true }) (fun _ => rfl) t pid
      refine ⟨⟨hsent.role, hsent.quick, hids.trans hsent.ids, fun q hq => ?_, fun q hq hmem hfree => ?_,
        fun q hq => ?_⟩, fun q hne => ?_⟩
      · exact flagged_updatePeer (fun _ => rfl) (fun _ _ => rfl) (hsent.flag q hq)
      · rw [List.mem_singleton.mp hq] at hmem hfree
        have hbusy := hsent.skipped rfl hmem
        rw [hfree] at hbusy
        cases hbusy
      · rw [List.mem_singleton.mp hq]
        exact .inr hflag
      · have hb : (t.updatePeer pid fun p => { p with pendingCommit := true }).busyWith q = t.busyWith q :=
          busyWith_updatePeer (fun _ => rfl) (.inl hne)
        exact hb.trans (hsent.other q hne)

/-- The loop of `commit`. -/
theorem notifyPeers_notifies (env : Env) : ∀ {pids : List Int} {s : Server},
    (forEach (notifyPeer env) pids s).res = .ok () →
      Notifies pids s (forEach (notifyPeer env) pids s).out (forEach (notifyPeer env) pids s).state
  | [], s, _ => ⟨rfl, rfl, rfl, fun _ h => h, fun q hq => (by cases hq), fun q hq => (by cases hq)⟩
  | pid :: pids, s, h => by
    rw [forEach_cons] at h ⊢
    rcases bind_cases (notifyPeer env pid) (fun _ => forEach (notifyPeer env) pids) s with
      ⟨e, -, hstop⟩ | ⟨a, hres, hgo⟩
    · rw [hstop] at h
      cases h
    · rw [hgo] at h ⊢
      obtain ⟨hone, hother⟩ := notifyPeer_notifies env pid hres
      set t := (notifyPeer env pid s).state
      have hrest := @notifyPeers_notifies env pids t h
      refine ⟨hrest.role.trans hone.role, hrest.quick.trans hone.quick, hrest.ids.trans hone.ids,
        fun q hq => hrest.flag q (hone.flag q hq), fun q hq hmem hfree => ?_, fun q hq => ?_⟩
      · by_cases hne : q = pid
        · subst hne
          exact (hone.free q List.mem_cons_self hmem hfree).append_left _
        · have hq' : q ∈ pids := (List.mem_cons.mp hq).resolve_left hne
          have htold := hrest.free q hq' (hone.ids.symm ▸ hmem) ((hother q hne).trans hfree)
          rw [hone.quick] at htold
          exact htold.append_right _
      · rcases List.mem_cons.mp hq with rfl | hq'
        · rcases hone.busy q List.mem_cons_self with htold | hflag
          · exact .inl (htold.append_left _)
          · exact .inr (hrest.flag q hflag)
        · rcases hrest.busy q hq' with htold | hflag
          · rw [hone.quick] at htold
            exact .inl (htold.append_right _)
          · exact .inr hflag

/-- A commit that moves the commit index of a leader is a loop over the peers. -/
theorem commit_advances (env : Env) {idx : Nat} (hr : s.role = .leader) (hlt : s.quickCommitIdx < idx) :
    commit env idx s = forEach (notifyPeer env) s.peerIds { s with quickCommitIdx := idx } := by
  simp only [commit, bind_run, look_run, Outcome.andThen_ok, ite_run, change_run, List.nil_append,
    if_pos hlt, hr, if_true]
  rfl

/-- **`commit` at a leader** tells or flags every peer. -/
theorem commit_notifies (env : Env) {idx : Nat} (hr : s.role = .leader) (hlt : s.quickCommitIdx < idx)
    (h : (commit env idx s).res = .ok ()) :
    Notifies s.peerIds { s with quickCommitIdx := idx } (commit env idx s).out
      (commit env idx s).state := by
  rw [commit_advances env hr hlt] at h ⊢
  exact notifyPeers_notifies env h

/-- Below the commit index it does nothing. -/
theorem commit_idle (env : Env) {idx : Nat} (hle : idx ≤ s.quickCommitIdx) :
    commit env idx s = ⟨.ok (), s, []⟩ := by
  simp only [commit, bind_run, look_run, Outcome.andThen_ok, ite_run, if_neg (Nat.not_lt.mpr hle),
    pure_run, List.nil_append]

end Cornerstone
