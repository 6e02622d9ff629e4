import Cornerstone.AppendRun
import Cornerstone.FlagFrame

/-! # Urgent commit

When the commit index of a leader moves, every peer is to hear of it at once: a free
peer is sent a request, and for a busy one the pending-commit flag remembers to.  The
flag is taken down by the response that frees the peer, but freeing the peer and
handling the response are two steps, and a heartbeat or a commit in between makes the
peer busy again: the handler then takes the flag down and sends nothing.
-/

namespace Cornerstone
open Handlers Handler Server

/-! ## What a step does for a peer -/

/-- What a step of a leader does for a peer it keeps: the flag stays up or the peer is
told, and of a commit index that moves the peer is told or the flag goes up. -/
structure Serves (pid : Int) (s : Server) (o : List Effect) (t : Server) : Prop where
  role : t.role = .leader → s.role = .leader
  ids : t.role = .leader → pid ∈ t.peerIds → pid ∈ s.peerIds
  quick : t.role = .leader → pid ∈ t.peerIds → s.quickCommitIdx ≤ t.quickCommitIdx
  kept : t.role = .leader → pid ∈ t.peerIds → Flagged pid s →
    Flagged pid t ∨ Tells pid t.quickCommitIdx o
  news : t.role = .leader → pid ∈ t.peerIds → s.quickCommitIdx < t.quickCommitIdx →
    Flagged pid t ∨ Tells pid t.quickCommitIdx o

variable {s t u : Server} {o o' : List Effect} {pid : Int}

theorem Spares.serves (h : Spares pid s o t) : Serves pid s o t := by
  refine ⟨h.role, h.ids, fun hr hm => (h.quick hr hm).ge, fun hr _ hf => .inl (h.flag hr hf),
    fun hr hm hlt => ?_⟩
  rw [h.quick hr hm] at hlt
  exact absurd hlt (lt_irrefl _)

theorem Serves.trans (h : Serves pid s o t) (h' : Serves pid t o' u) : Serves pid s (o ++ o') u := by
  -- a peer that was told on the way is told of the index at the end, or of a newer one
  have hgoes : u.role = .leader → pid ∈ u.peerIds → Flagged pid t ∨ Tells pid t.quickCommitIdx o →
      Flagged pid u ∨ Tells pid u.quickCommitIdx (o ++ o') := by
    intro hr hm hft
    have hnews := h'.news hr hm
    rcases hft with hf | ht
    · exact (h'.kept hr hm hf).imp id (Tells.append_right o)
    · rcases (h'.quick hr hm).lt_or_eq with hlt | heq
      · exact (hnews hlt).imp id (Tells.append_right o)
      · exact .inr (heq ▸ ht.append_left o')
  refine ⟨fun hr => h.role (h'.role hr), fun hr hm => h.ids (h'.role hr) (h'.ids hr hm),
    fun hr hm => (h.quick (h'.role hr) (h'.ids hr hm)).trans (h'.quick hr hm),
    fun hr hm hf => hgoes hr hm (h.kept (h'.role hr) (h'.ids hr hm) hf), fun hr hm hlt => ?_⟩
  rcases (h.quick (h'.role hr) (h'.ids hr hm)).lt_or_eq with hlt' | heq
  · exact hgoes hr hm (h.news (h'.role hr) (h'.ids hr hm) hlt')
  · exact (h'.news hr hm (heq ▸ hlt)).imp id (Tells.append_right o)

/-- A commit of a leader that runs to its end serves every peer. -/
theorem commit_serves (env : Env) {idx : Nat} (h : (commit env idx s).res = .ok ()) :
    Serves pid s (commit env idx s).out (commit env idx s).state := by
  rcases Nat.lt_or_ge s.quickCommitIdx idx with hlt | hge
  · by_cases hr : s.role = .leader
    · have hn := commit_notifies env hr hlt h
      have hids : (commit env idx s).state.peerIds = s.peerIds := hn.ids
      have hquick : (commit env idx s).state.quickCommitIdx = idx := hn.quick
      refine ⟨fun _ => hr, fun _ hm => hids ▸ hm, fun _ _ => hlt.le.trans hquick.ge,
        fun _ _ hf => .inl (hn.flag pid hf), fun _ hm _ => ?_⟩
      rw [hquick]
      exact (hn.busy pid (hids ▸ hm)).symm
    · have hrole : (commit env idx s).state.role = s.role := (quiet_commit env idx).role_eq
      exact (spares_of_role (hrole ▸ hr)).serves
  · rw [commit_idle env hge]
    exact ((spares_law pid).refl s).serves

/-! ## What can happen to a leader -/

/-- Whether an event is the end of a request to a peer. -/
def Event.ofPeer : Event → Bool
  | .peerResp _ _ _ | .peerErr _ _ => true
  | _ => false

/-- What can happen to a server, with the end of a request to a peer in two steps:
`peer::handle_rpc_result` frees the peer, outside the lock, and `handle_peer_resp`
takes the lock later. -/
inductive Occurrence
  | release (via : Option PeerRef) (reqType : MsgType) (failed : Bool)
  | respond (resp : RespMsg)
  | other (ev : Event) (h : ev.ofPeer = false)

/-- The handler of each. -/
def occur (env : Env) : Occurrence → Action Unit
  | .release via reqType failed => rpcResult via reqType failed
  | .respond resp => handlePeerResp env resp
  | .other ev _ => handle env ev

namespace Server

/-- The effects of a handler on a server: none once the process has ended. -/
def shown (x : Action Unit) (s : Server) : List Effect := if s.exited then [] else (x s).out

/-- The server after a handler. -/
def after (x : Action Unit) (s : Server) : Server :=
  if s.exited then s
  else
    match (x s).res with
    | .ok _ => (x s).state
    | .error e => if e.ends then { (x s).state with exited := true } else (x s).state

end Server

/-- A server, and for each peer the commit indexes it has not been told of. -/
structure Watched where
  server : Server
  owed : Int → List Nat

namespace Watched

/-- What is owed to a peer after a handler: what was owed before, and the commit index
if it moved while the peer was there, less what the peer has been told; nothing once the
server does not lead or the peer is gone. -/
def owedAfter (w : Watched) (x : Action Unit) (pid : Int) : List Nat :=
  let t := w.server.after x
  if t.exited = false ∧ t.role = .leader ∧ pid ∈ t.peerIds then
    let news := if w.server.role = .leader ∧ pid ∈ w.server.peerIds ∧
      w.server.quickCommitIdx < t.quickCommitIdx then [t.quickCommitIdx] else []
    (w.owed pid ++ news).filter fun n => !(w.server.shown x).any (·.tells pid n)
  else []

/-- One step. -/
def step (w : Watched) (x : Action Unit) : Watched := ⟨w.server.after x, w.owedAfter x⟩

/-- A run. -/
def run (w : Watched) : List (Env × Occurrence) → Watched
  | [] => w
  | (env, x) :: xs => (w.step (occur env x)).run xs

/-- Every step of a run meets `P`. -/
def Along (P : Watched → Env → Occurrence → Prop) (w : Watched) : List (Env × Occurrence) → Prop
  | [] => True
  | (env, x) :: xs => P w env x ∧ (w.step (occur env x)).Along P xs

/-- No urgent commit is lost: whoever is owed one has its flag up. -/
def NothingLost (w : Watched) : Prop := ∀ pid, w.owed pid ≠ [] → Flagged pid w.server

end Watched

/-- Request construction does not throw: a handler that ends by an exception handles no
response, and has not moved the commit index. -/
def Constructs (w : Watched) (env : Env) (x : Occurrence) : Prop :=
  (occur env x w.server).res = .error .throw →
    (∀ resp, x ≠ .respond resp) ∧ (occur env x w.server).state.quickCommitIdx = w.server.quickCommitIdx

/-- Whether a response takes down the flag of its peer: an accepted append, or the end
of an installed snapshot. -/
def Server.clearsFlag (s : Server) (resp : RespMsg) : Bool :=
  resp.term ≤ s.state.term && resp.accepted &&
    (resp.type = .appendEntriesResponse ||
      (resp.type = .installSnapshotResponse && (s.findPeer resp.src).any fun p =>
        p.snpSyncCtx.any fun ctx => resp.nextIdx ≥ ctx.snapshot.size))

/-- The condition under which the code keeps its promise: a response that takes down the
flag of a peer which is busy again finds that peer told of everything, and completes no
majority behind the commit index. -/
def KeepsFlag (w : Watched) (_ : Env) : Occurrence → Prop
  | .respond resp => w.server.role = .leader → w.server.busyWith resp.src = true →
      w.server.clearsFlag resp = true → w.owed resp.src = [] ∧
        (resp.type = .appendEntriesResponse →
          ∀ n, Majority (w.server.replicas resp) (n ≤ ·) → n ≤ w.server.quickCommitIdx)
  | _ => True

/-! ## Responses -/

/-- Going on with a free peer tells it the commit index. -/
theorem continueWith_told (env : Env) (hr : s.role = .leader) (hm : pid ∈ s.peerIds)
    (hfree : s.busyWith pid = false) (hok : (continueWith env pid true s).res = .ok ()) :
    Tells pid s.quickCommitIdx (continueWith env pid true s).out := by
  have hrun : continueWith env pid true s =
      (requestAppendEntriesTo env pid >>= fun _ => pure ()) s := by
    simp only [continueWith, bind_run, look_run, Outcome.andThen_ok, ite_run, hr, and_self, if_true,
      List.nil_append]
  rw [hrun] at hok ⊢
  rcases bind_cases (requestAppendEntriesTo env pid) (fun _ => pure ()) s with
    ⟨e, -, hstop⟩ | ⟨sent, hsent, hgo⟩
  · rw [hstop] at hok
    cases hok
  · have h := requestAppendEntriesTo_sent env pid hsent
    rw [hgo]
    cases sent with
    | true => exact (h.told rfl).append_left _
    | false =>
      have hbusy := h.skipped rfl hm
      rw [hfree] at hbusy
      cases hbusy

/-- The flag of another peer stays. -/
theorem spares_clear {q : Int} (hne : pid ≠ q) {f : Peer → Peer} (hid : ∀ p, (f p).id = p.id) :
    Spares pid s [] (s.updatePeer q f) := by
  have hids := updatePeer_peerIds hid s q
  refine ⟨fun hr => hr, fun _ hm => hids ▸ hm, fun _ hf p' hp' hpid => ?_, fun _ _ => rfl⟩
  obtain ⟨p, hp, rfl⟩ := List.mem_map.mp hp'
  split at hpid
  · exact absurd (hpid.symm.trans ((hid p).trans ‹_›)) hne
  · rw [if_neg ‹_›]
    exact hf p hp hpid

/-- A flag that is up is seen by the handler. -/
theorem flagged_seen (hf : Flagged pid s) (hm : pid ∈ s.peerIds) :
    (s.findPeer pid).any Peer.pendingCommit = true := by
  obtain ⟨p, hp⟩ := Option.isSome_iff_exists.mp (findPeer_isSome.mpr hm)
  rw [hp]
  exact hf p (List.mem_of_find?_eq_some hp) (by simpa using List.find?_some hp)

/-- The server with the answer of a peer noted. -/
def Server.noteAnswer (s : Server) (resp : RespMsg) : Server :=
  s.updatePeer resp.src fun p => { p with
    nextLogIdx := resp.nextIdx
    matchedIdx := ulongSub resp.nextIdx 1 }

theorem acceptedAppend_run (env : Env) {resp : RespMsg} (hacc : resp.accepted = true) :
    acceptedAppend env resp s =
      (commit env (s.responseIdx resp) >>= fun _ => stillLags resp) (s.noteAnswer resp) := by
  have hmatched : (s.noteAnswer resp).peers.map Peer.matchedIdx =
      (s.answered resp).peers.map Peer.matchedIdx := by
    rw [Server.answered, if_pos hacc]
    simp only [Server.noteAnswer, Server.setMatched, Server.updatePeer, List.map_map]
    refine List.map_congr_left fun p _ => ?_
    simp only [Function.comp_apply]
    split <;> rfl
  simp only [acceptedAppend, bind_run, change_run, look_run, Outcome.andThen_ok, List.nil_append,
    Server.responseIdx, ← hmatched]
  rfl

theorem noteAnswer_flags (resp : RespMsg) (s : Server) :
    (s.noteAnswer resp).peers.map Peer.flags = s.peers.map Peer.flags :=
  updatePeer_flags (f := fun p => { p with
    nextLogIdx := resp.nextIdx, matchedIdx := ulongSub resp.nextIdx 1 }) (fun _ => rfl) s resp.src

/-- The server with the flag of a peer taken down. -/
def Server.clearFlag (s : Server) (q : Int) : Server :=
  s.updatePeer q fun p => { p with pendingCommit := false }

theorem stillLags_run (resp : RespMsg) : stillLags resp s =
    ⟨.ok ((s.findPeer resp.src).any Peer.pendingCommit || resp.nextIdx < s.logStore.nextSlot),
      s.clearFlag resp.src, []⟩ := rfl

/-- A flag that is taken down from a free peer has a request sent. -/
theorem cleared_told (env : Env) (hr : s.role = .leader) (hm : pid ∈ s.peerIds)
    (hfree : s.busyWith pid = false) (hok : (continueWith env pid true (s.clearFlag pid)).res = .ok ()) :
    Tells pid s.quickCommitIdx (continueWith env pid true (s.clearFlag pid)).out := by
  have hids : (s.clearFlag pid).peerIds = s.peerIds := updatePeer_peerIds (f := fun p => { p with pendingCommit := false }) (fun _ => rfl) s pid
  have hbusy : (s.clearFlag pid).busyWith pid = s.busyWith pid :=
    busyWith_updatePeer (f := fun p => { p with pendingCommit := false }) (fun _ => rfl) (.inr fun _ => rfl)
  exact continueWith_told env hr (hids.symm ▸ hm) (hbusy.trans hfree) hok

/-- An accepted append_entries response that is handled to its end: the answer is noted,
the majority index committed, the flag taken down, and the leader goes on if the flag was
up or the log of the peer is shorter. -/
theorem acceptedResp_run (env : Env) {resp : RespMsg} {p : Peer} (hp : s.findPeer resp.src = some p)
    (hacc : resp.accepted = true) (hok : (handleAppendEntriesResp env resp s).res = .ok ()) :
    let c := commit env (s.responseIdx resp) (s.noteAnswer resp)
    let need := (c.state.findPeer resp.src).any Peer.pendingCommit ||
      resp.nextIdx < c.state.logStore.nextSlot
    let k := continueWith env resp.src need (c.state.clearFlag resp.src)
    c.res = .ok () ∧ k.res = .ok () ∧
      handleAppendEntriesResp env resp s = ⟨k.res, k.state, c.out ++ k.out⟩ := by
  intro c need k
  have hrun : handleAppendEntriesResp env resp s =
      (acceptedAppend env resp >>= continueWith env resp.src) s := by
    simp [handleAppendEntriesResp, hp, hacc]
  have happ := acceptedAppend_run (s := s) env hacc
  rcases bind_cases (commit env (s.responseIdx resp)) (fun _ => stillLags resp) (s.noteAnswer resp) with
    ⟨e, -, hstop⟩ | ⟨a, hcommit, hlags⟩
  · rw [hstop] at happ
    rw [hrun, bind_run, happ, Outcome.andThen_error] at hok
    cases hok
  · rw [hlags, stillLags_run] at happ
    have hall : handleAppendEntriesResp env resp s = ⟨k.res, k.state, c.out ++ k.out⟩ := by
      rw [hrun, bind_run, happ, Outcome.andThen_ok, List.append_nil]
    rw [hall] at hok
    exact ⟨hcommit, hok, hall⟩

/-- The peer an accepted response comes from is told of the commit index, or of nothing
if there is nothing it has to be told. -/
theorem acceptedResp_tells (env : Env) {resp : RespMsg} {p : Peer} (hr : s.role = .leader)
    (hp : s.findPeer resp.src = some p) (hacc : resp.accepted = true)
    (hok : (handleAppendEntriesResp env resp s).res = .ok ()) (hfree : s.busyWith resp.src = false)
    (howe : Flagged resp.src s ∨ s.quickCommitIdx < s.responseIdx resp) :
    Tells resp.src (max s.quickCommitIdx (s.responseIdx resp))
      (handleAppendEntriesResp env resp s).out := by
  obtain ⟨hcommit, hcont, hrun⟩ := acceptedResp_run env hp hacc hok
  have hflags := noteAnswer_flags resp s
  have hmem : resp.src ∈ (s.noteAnswer resp).peerIds := by
    rw [peerIds_of_flags hflags]
    exact findPeer_isSome.mp (by rw [hp]; rfl)
  have hbusy : (s.noteAnswer resp).busyWith resp.src = false := by
    rw [busyWith_of_flags hflags]
    exact hfree
  rw [hrun]
  rcases Nat.lt_or_ge s.quickCommitIdx (s.responseIdx resp) with hlt | hge
  · -- the commit itself sends the request
    rw [max_eq_right hlt.le]
    have hn := commit_notifies (s := s.noteAnswer resp) env hr hlt hcommit
    exact (hn.free resp.src hmem hmem hbusy).append_left _
  · rw [max_eq_left hge]
    have hidle : commit env (s.responseIdx resp) (s.noteAnswer resp) = ⟨.ok (), s.noteAnswer resp, []⟩ :=
      commit_idle env hge
    have hup : Flagged resp.src (s.noteAnswer resp) :=
      flagged_of_flags hflags (howe.resolve_right (not_lt.mpr hge))
    simp only [hidle, flagged_seen hup hmem, Bool.true_or, List.nil_append] at hcont ⊢
    exact cleared_told env hr hmem hbusy hcont

/-- **An append_entries response** serves every peer, but for the one it comes from if
that is busy. -/
theorem appendResp_serves (env : Env) {resp : RespMsg} (hr : s.role = .leader)
    (hok : (handleAppendEntriesResp env resp s).res = .ok ())
    (hfree : pid = resp.src → resp.accepted = true → s.busyWith pid = false) :
    Serves pid s (handleAppendEntriesResp env resp s).out
      (handleAppendEntriesResp env resp s).state := by
  cases hp : s.findPeer resp.src with
  | none =>
    have hrun : handleAppendEntriesResp env resp s = ⟨.ok (), s, []⟩ := by
      simp [handleAppendEntriesResp, hp]
    rw [hrun]
    exact ((spares_law pid).refl s).serves
  | some p =>
    by_cases hacc : resp.accepted = true
    · by_cases hsrc : pid = resp.src
      · subst hsrc
        have hmem : resp.src ∈ s.peerIds := findPeer_isSome.mp (by rw [hp]; rfl)
        have hans := answers_handleAppendEntriesResp (sends_law.refl s) env resp
        have hquick := hans.quick
        rw [if_pos ⟨hacc, hmem⟩] at hquick
        have htells := acceptedResp_tells env hr hp hacc hok (hfree rfl hacc)
        rw [← hquick] at htells
        refine ⟨fun _ => hr, fun _ _ => hmem, fun _ _ => ?_, fun _ _ hf => .inr (htells (.inl hf)),
          fun _ _ hlt => .inr (htells (.inr ?_))⟩
        · rw [hquick]
          exact le_max_left _ _
        · rw [hquick] at hlt
          exact (lt_max_iff.mp hlt).resolve_left (lt_irrefl _)
      · obtain ⟨hcommit, -, hrun⟩ := acceptedResp_run env hp hacc hok
        have hnote : Spares pid s [] (s.noteAnswer resp) :=
          Tunes.spares ⟨rfl, rfl, noteAnswer_flags resp s⟩
        have hrest : ∀ b (u : Server), Spares pid u
            (continueWith env resp.src b (u.clearFlag resp.src)).out
            (continueWith env resp.src b (u.clearFlag resp.src)).state := by
          intro b u
          have hclear : Spares pid u [] (u.clearFlag resp.src) :=
            spares_clear hsrc (f := fun p => { p with pendingCommit := false }) fun _ => rfl
          exact (spares_law pid).trans hclear (spares_continueWith env _ b)
        rw [hrun]
        exact (hnote.serves.trans (commit_serves env hcommit)).trans (hrest _ _).serves
    · have hrun : handleAppendEntriesResp env resp s =
          (declinedAppend resp p >>= continueWith env resp.src) s := by
        simp [handleAppendEntriesResp, hp, hacc]
      rw [hrun]
      refine Spares.serves (Obeys.bind (spares_law pid) ?_ fun b _ => spares_continueWith env _ b)
      refine .ite (fun _ => ?_) fun _ => ?_
      · refine .change_bind (spares_law pid) ?_ (.pure (spares_law pid) _)
        exact spares_updateAt (.peer resp.src) (f := fun p => { p with nextLogIdx := resp.nextIdx })
          (fun _ => rfl) (fun _ h => h) s
      · refine .change_bind (spares_law pid) ?_ (.pure (spares_law pid) _)
        refine spares_updateAt (.peer resp.src)
          (f := fun p => { p with nextLogIdx := ulongSub p.nextLogIdx 1 }) (fun p => ?_) (fun p h => ?_) s
        · simp only [Peer.id]
        · simpa only using h

/-- A peer that has installed a snapshot. -/
def Peer.installed (p : Peer) (ctx : SnapshotSyncCtx) : Peer :=
  { p with
    nextLogIdx := ctx.snapshot.lastLogIdx + 1
    matchedIdx := ctx.snapshot.lastLogIdx
    snpSyncCtx := none
    pendingCommit := false }

/-- The server with the end of a snapshot noted. -/
def Server.noteSnapshot (s : Server) (resp : RespMsg) (ctx : SnapshotSyncCtx) : Server :=
  s.updatePeer resp.src (·.installed ctx)

/-- The last block is in: the leader goes on by the flag or by the offset. -/
theorem lastBlock_run (env : Env) {resp : RespMsg} {p : Peer} {ctx : SnapshotSyncCtx}
    (hp : s.findPeer resp.src = some p) (hacc : resp.accepted = true) (hctx : p.snpSyncCtx = some ctx)
    (hlast : ctx.snapshot.size ≤ resp.nextIdx) :
    handleInstallSnapshotResp env resp s =
      continueWith env resp.src (p.pendingCommit || resp.nextIdx < s.logStore.nextSlot) (s.noteSnapshot resp ctx) := by
  simp [handleInstallSnapshotResp, hp, hacc, acceptedSnapshot, hctx, hlast, Server.noteSnapshot, Peer.installed]

/-- **An install_snapshot response** does the same. -/
theorem snapshotResp_serves (env : Env) {resp : RespMsg} (hr : s.role = .leader)
    (hok : (handleInstallSnapshotResp env resp s).res = .ok ())
    (hfree : pid = resp.src → resp.accepted = true → (s.findPeer resp.src).any (fun p =>
      p.snpSyncCtx.any fun ctx => resp.nextIdx ≥ ctx.snapshot.size) = true → s.busyWith pid = false) :
    Serves pid s (handleInstallSnapshotResp env resp s).out
      (handleInstallSnapshotResp env resp s).state := by
  cases hp : s.findPeer resp.src with
  | none =>
    have hrun : handleInstallSnapshotResp env resp s = ⟨.ok (), s, []⟩ := by
      simp [handleInstallSnapshotResp, hp]
    rw [hrun]
    exact ((spares_law pid).refl s).serves
  | some p =>
    have hmem : resp.src ∈ s.peerIds := findPeer_isSome.mp (by rw [hp]; rfl)
    by_cases hacc : resp.accepted = true
    · cases hctx : p.snpSyncCtx with
      | none =>
        have hrun : handleInstallSnapshotResp env resp s = continueWith env resp.src false s := by
          simp [handleInstallSnapshotResp, hp, hacc, acceptedSnapshot, hctx]
        rw [hrun]
        exact Spares.serves (spares_continueWith env _ _)
      | some ctx =>
        by_cases hdone : resp.nextIdx ≥ ctx.snapshot.size
        · have hrun := lastBlock_run env hp hacc hctx hdone
          have hids : ∀ p : Peer, (p.installed ctx).id = p.id := fun _ => rfl
          rw [hrun] at hok ⊢
          by_cases hsrc : pid = resp.src
          · subst hsrc
            have hquick := (sends_continueWith (s := s.noteSnapshot resp ctx) env resp.src
              (p.pendingCommit || resp.nextIdx < s.logStore.nextSlot)).quick_eq
            have hquick' : (s.noteSnapshot resp ctx).quickCommitIdx = s.quickCommitIdx := rfl
            rw [hquick'] at hquick
            refine ⟨fun _ => hr, fun _ _ => hmem, fun _ _ => hquick.ge, fun _ _ hf => .inr ?_,
              fun _ _ hlt => absurd (hquick ▸ hlt) (lt_irrefl _)⟩
            have hfree' : s.busyWith resp.src = false := hfree rfl hacc (by simp [hp, hctx, hdone])
            have hpend : p.pendingCommit = true := by simpa [hp] using flagged_seen hf hmem
            rw [hquick]
            simp only [hpend, Bool.true_or] at hok ⊢
            refine continueWith_told (s := s.noteSnapshot resp ctx) env hr ?_ ?_ hok
            · rw [Server.noteSnapshot, updatePeer_peerIds hids]
              exact hmem
            · rw [Server.noteSnapshot, busyWith_updatePeer hids (.inr fun _ => rfl)]
              exact hfree'
          · have hclear : Spares pid s [] (s.noteSnapshot resp ctx) := spares_clear hsrc hids
            exact ((spares_law pid).trans hclear (spares_continueWith env _ _)).serves
        · have hrun : handleInstallSnapshotResp env resp s =
              continueWith env resp.src true (s.updateAt (.peer resp.src) fun p => { p with
                snpSyncCtx := some { ctx with offset := resp.nextIdx } }) := by
            simp [handleInstallSnapshotResp, hp, hacc, acceptedSnapshot, hctx, hdone, Server.updateAt]
          have hmove := @spares_updateAt pid (.peer resp.src) (fun p => { p with
            snpSyncCtx := some { ctx with offset := resp.nextIdx } }) (fun _ => rfl) (fun _ h => h) s
          rw [hrun]
          exact ((spares_law pid).trans hmove (spares_continueWith env _ _)).serves
    · have hrun : handleInstallSnapshotResp env resp s = continueWith env resp.src true s := by
        simp [handleInstallSnapshotResp, hp, hacc]
      rw [hrun]
      exact Spares.serves (spares_continueWith env _ _)

/-- **A response** serves every peer, but for one it takes the flag down of while that
is busy. -/
theorem peerResp_serves (env : Env) {resp : RespMsg} (hr : s.role = .leader)
    (hok : (handlePeerResp env resp s).res = .ok ())
    (hfree : pid = resp.src → s.clearsFlag resp = true → s.busyWith pid = false) :
    Serves pid s (handlePeerResp env resp s).out (handlePeerResp env resp s).state := by
  rcases Nat.lt_or_ge s.state.term resp.term with hlt | hge
  · have hrun : handlePeerResp env resp s =
        ⟨.ok (), s.inTerm resp.term, [.saveState (s.inTerm resp.term).state]⟩ := by
      simp [handlePeerResp, updateTerm_of_lt hlt]
    rw [hrun]
    exact (spares_of_role (show SrvRole.follower ≠ .leader by decide)).serves
  · have hclears : resp.accepted = true → (resp.type = .appendEntriesResponse ∨
        resp.type = .installSnapshotResponse ∧ (s.findPeer resp.src).any (fun p =>
          p.snpSyncCtx.any fun ctx => resp.nextIdx ≥ ctx.snapshot.size) = true) →
        s.clearsFlag resp = true := by
      intro hacc htype
      simp only [Server.clearsFlag, hge, hacc, decide_true, Bool.true_and, Bool.or_eq_true,
        decide_eq_true_eq, Bool.and_eq_true]
      exact htype
    cases htype : resp.type with
    | requestVoteResponse =>
      have hrun : handlePeerResp env resp s = handleVotingResp env resp s := by
        simp [handlePeerResp, updateTerm_of_le hge, htype]
      rw [hrun]
      exact Spares.serves (spares_handleVotingResp env resp hr)
    | appendEntriesResponse =>
      have hrun : handlePeerResp env resp s = handleAppendEntriesResp env resp s := by
        simp [handlePeerResp, updateTerm_of_le hge, htype]
      rw [hrun] at hok ⊢
      exact appendResp_serves env hr hok fun hsrc hacc => hfree hsrc (hclears hacc (.inl htype))
    | installSnapshotResponse =>
      have hrun : handlePeerResp env resp s = handleInstallSnapshotResp env resp s := by
        simp [handlePeerResp, updateTerm_of_le hge, htype]
      rw [hrun] at hok ⊢
      exact snapshotResp_serves env hr hok fun hsrc hacc hdone =>
        hfree hsrc (hclears hacc (.inr ⟨htype, hdone⟩))
    | _ =>
      have hrun : handlePeerResp env resp s = systemExitAndExit (-1) s := by
        simp [handlePeerResp, updateTerm_of_le hge, htype]
      rw [hrun] at hok
      cases hok

/-! ## A step of a leader -/

/-- A log pack is refused, cannot be read, or is committed to its end. -/
theorem logSync_cases (env : Env) (req : ReqMsg) (s : Server) :
    (∃ resp, handleLogSyncReq env req s = ⟨.ok resp, s, []⟩) ∨
      handleLogSyncReq env req s = ⟨.error .throw, s, []⟩ ∨
        ∃ (l : LogStore) (resp : Server → RespMsg), handleLogSyncReq env req s = (do
          commit env (l.nextSlot - 1)
          let s ← look
          pure (resp s)) { s with logStore := l } := by
  by_cases hpack : ∃ e, req.logEntries = [e] ∧ e.valType = .logPack ∧ s.catchingUp = true
  · obtain ⟨e, hes, htype, hcatch⟩ := hpack
    cases happly : s.logStore.applyPack (req.lastLogIdx + 1) e.buf with
    | none => exact .inr (.inl (by simp [handleLogSyncReq, hes, htype, hcatch, happly]))
    | some l =>
      refine .inr (.inr ⟨l, fun t => ({
        term := s.state.term
        type := .syncLogResponse
        src := s.id
        dst := req.src } : RespMsg).accept t.logStore.nextSlot, ?_⟩)
      simp [handleLogSyncReq, hes, htype, hcatch, happly]
  · refine .inl ⟨{
      term := s.state.term
      type := .syncLogResponse
      src := s.id
      dst := req.src }, ?_⟩
    match hes : req.logEntries with
    | [] => simp [handleLogSyncReq, hes]
    | [e] =>
      have hor : e.valType ≠ .logPack ∨ s.catchingUp = false := by
        by_contra hcon
        simp only [not_or, not_not, Bool.not_eq_false] at hcon
        exact hpack ⟨e, hes, hcon⟩
      by_cases htype : e.valType = .logPack
      · simp [handleLogSyncReq, hes, htype, hor.resolve_left (not_not.mpr htype)]
      · simp [handleLogSyncReq, hes, htype]
    | e :: e' :: es => simp [handleLogSyncReq, hes]

/-- A log pack serves every peer, unless committing it was cut short. -/
theorem logSync_serves (env : Env) (req : ReqMsg)
    (h : (∃ resp, (handleLogSyncReq env req s).res = .ok resp) ∨
      (handleLogSyncReq env req s).state.quickCommitIdx = s.quickCommitIdx) :
    Serves pid s (handleLogSyncReq env req s).out (handleLogSyncReq env req s).state := by
  have hrefl := ((spares_law pid).refl s).serves
  rcases logSync_cases env req s with ⟨resp, hrun⟩ | hrun | ⟨l, resp, hrun⟩
  · rw [hrun]
    exact hrefl
  · rw [hrun]
    exact hrefl
  · have hstore : Spares pid s [] { s with logStore := l } := Tunes.spares (tunes_same rfl rfl rfl)
    rw [hrun] at h ⊢
    rcases bind_cases (commit env (l.nextSlot - 1)) (fun _ => do
        let s ← look
        pure (resp s)) { s with logStore := l } with ⟨e, herr, hstop⟩ | ⟨a, hcommit, hgo⟩
    · rw [hstop] at h ⊢
      have hquick := commit_quick (s := { s with logStore := l }) env (l.nextSlot - 1)
      have hsame : max s.quickCommitIdx (l.nextSlot - 1) = s.quickCommitIdx := by
        rcases h with ⟨resp, hok⟩ | hsame
        · cases hok
        · exact hquick.symm.trans hsame
      rw [commit_idle (s := { s with logStore := l }) env (max_eq_left_iff.mp hsame)] at herr
      cases herr
    · rw [hgo]
      have hserves := hstore.serves.trans (@commit_serves _ pid env _ hcommit)
      simpa using hserves

/-- What happens to a leader apart from responses serves every peer. -/
theorem other_serves (env : Env) {ev : Event} (hev : ev.ofPeer = false) (hr : s.role = .leader)
    (hm : pid ∈ s.peerIds)
    (h : (handle env ev s).res = .ok () ∨ (handle env ev s).state.quickCommitIdx = s.quickCommitIdx) :
    Serves pid s (handle env ev s).out (handle env ev s).state := by
  cases ev with
  | request req =>
    by_cases hsync : req.type = .syncLogRequest
    · have hnote : noteTerm req s = ⟨.ok (), s, []⟩ := by simp [noteTerm, hsync]
      have hrun : processReq env req s = (handleLogSyncReq env req >>= reply) s := by
        simp [processReq, hnote, answerReq, handleExtendedMsg, hsync]
      simp only [handle, hrun] at h ⊢
      rcases bind_cases (handleLogSyncReq env req) reply s with ⟨e, herr, hstop⟩ | ⟨resp, hok, hgo⟩
      · rw [hstop] at h ⊢
        exact logSync_serves env req (.inr (h.resolve_left (by simp)))
      · rw [hgo]
        exact (logSync_serves env req (.inl ⟨resp, hok⟩)).trans (spares_emit _).serves
    · exact Spares.serves (spares_processReq env hsync)
  | peerResp via reqType resp => cases hev
  | peerErr via reqType => cases hev
  | extResp via reqType resp =>
    exact Spares.serves (Obeys.bind (spares_law pid) (spares_rpcResult via reqType false) fun _ _ =>
      spares_handleExtResp env resp)
  | extErr via req =>
    exact Spares.serves (Obeys.bind (spares_law pid) (spares_rpcResult via req.type true) fun _ _ =>
      spares_handleExtRespErr env req)
  | extRetry req => exact Spares.serves (spares_sendExtReq req)
  | electionTimeout => exact Spares.serves (spares_handleElectionTimeout env hr)
  | hbTimeout q => exact Spares.serves (spares_handleHbTimeout env q)
  | bgWake => exact Spares.serves spares_bgWake
  | bgIter => exact Spares.serves (spares_bgIter env hm)
  | snapshotCompleted result => exact Spares.serves (spares_onSnapshotCompleted env result)

/-- A response that commits nothing leaves the commit index. -/
theorem peerResp_quick (env : Env) {resp : RespMsg} (hclears : s.clearsFlag resp = true)
    (hidle : resp.type = .appendEntriesResponse →
      ∀ n, Majority (s.replicas resp) (n ≤ ·) → n ≤ s.quickCommitIdx) :
    (handlePeerResp env resp s).state.quickCommitIdx = s.quickCommitIdx := by
  obtain ⟨⟨hterm, hacc⟩, htype⟩ : (resp.term ≤ s.state.term ∧ resp.accepted = true) ∧
      (resp.type = .appendEntriesResponse ∨ resp.type = .installSnapshotResponse ∧ _) := by
    simpa [Server.clearsFlag] using hclears
  rcases htype with htype | ⟨htype, -⟩
  · have hrun : handlePeerResp env resp s = handleAppendEntriesResp env resp s := by
      simp [handlePeerResp, updateTerm_of_le hterm, htype]
    have hle : s.responseIdx resp ≤ s.quickCommitIdx :=
      hidle htype _ ((le_responseIdx_iff hacc _).mp le_rfl)
    rw [hrun, (answers_handleAppendEntriesResp (sends_law.refl s) env resp).quick, max_eq_left hle, ite_self]
  · have hrun : handlePeerResp env resp s = handleInstallSnapshotResp env resp s := by
      simp [handlePeerResp, updateTerm_of_le hterm, htype]
    have hlaw : Law fun (s : Server) (_ : List Effect) t => t.quickCommitIdx = s.quickCommitIdx :=
      ⟨fun _ => rfl, fun h h' => h'.trans h⟩
    have hcont : ∀ (u : Server) b, Obeys (fun s _ t => t.quickCommitIdx = s.quickCommitIdx) u
        (continueWith env resp.src b) := fun u b => (sends_continueWith env resp.src b).quick_eq
    have hobeys : Obeys (fun s _ t => t.quickCommitIdx = s.quickCommitIdx) s
        (handleInstallSnapshotResp env resp) := by
      refine .look_bind ?_
      split
      · exact .pure hlaw _
      · refine .ite (fun _ => .bind hlaw ?_ fun b _ => hcont _ b) fun _ => hcont _ true
        unfold acceptedSnapshot
        split
        · exact .pure hlaw _
        · exact .look_bind (.ite (fun _ => .change_bind hlaw rfl (.pure hlaw _)) fun _ =>
            .change_bind hlaw rfl (.pure hlaw _))
    rw [hrun]
    exact hobeys

/-! ## Runs -/

/-- What is owed to a peer is owed by a leader that keeps the peer, and its flag is up. -/
def Watched.Holds (w : Watched) : Prop :=
  ∀ pid, w.owed pid ≠ [] → w.server.role = .leader ∧ pid ∈ w.server.peerIds ∧
    Flagged pid w.server ∧ ∀ n ∈ w.owed pid, n ≤ w.server.quickCommitIdx

/-- A handler that leaves a live server has run from one, to its end or to an exception. -/
theorem after_live {x : Action Unit} (h : (s.after x).exited = false) :
    s.exited = false ∧ s.after x = (x s).state ∧ s.shown x = (x s).out ∧
      ((x s).res = .ok () ∨ (x s).res = .error .throw) := by
  by_cases hx : s.exited = true
  · rw [Server.after, if_pos hx, hx] at h
    cases h
  · rw [Server.after, if_neg hx] at h
    rw [Server.after, if_neg hx, Server.shown, if_neg hx]
    have hlive := Bool.eq_false_iff.mpr hx
    cases hres : (x s).res with
    | ok a => exact ⟨hlive, rfl, rfl, .inl rfl⟩
    | error e =>
      rw [hres] at h
      cases e with
      | throw => exact ⟨hlive, rfl, rfl, .inr rfl⟩
      | exit | fault | hang => cases h

theorem Effect.tells_mono {e : Effect} {n m : Nat} (hnm : n ≤ m) (h : e.tells pid m = true) :
    e.tells pid n = true := by
  cases e with
  | send req memory =>
    simp only [Effect.tells, decide_eq_true_eq] at h ⊢
    exact ⟨h.1, hnm.trans h.2.1, h.2.2⟩
  | _ => cases h

/-- What one step does for a peer, where the condition holds: the peer is served, or
nothing is owed to it and the commit index stays. -/
theorem occur_serves {w : Watched} {env : Env} {x : Occurrence} (hr : w.server.role = .leader)
    (hm : pid ∈ w.server.peerIds) (hcon : Constructs w env x) (hkeep : KeepsFlag w env x)
    (hres : (occur env x w.server).res = .ok () ∨ (occur env x w.server).res = .error .throw) :
    Serves pid w.server (occur env x w.server).out (occur env x w.server).state ∨
      w.owed pid = [] ∧ (occur env x w.server).state.quickCommitIdx = w.server.quickCommitIdx := by
  have hthrow := hres.imp_right hcon
  cases x with
  | release via reqType failed => exact .inl (Spares.serves (spares_rpcResult via reqType failed))
  | respond resp =>
    have hok := hthrow.resolve_right fun h => h.1 resp rfl
    by_cases hbusy : pid = resp.src ∧ w.server.clearsFlag resp = true ∧ w.server.busyWith pid = true
    · obtain ⟨rfl, hclears, hbusy⟩ := hbusy
      obtain ⟨howed, hidle⟩ := hkeep hr hbusy hclears
      exact .inr ⟨howed, peerResp_quick env hclears hidle⟩
    · refine .inl (peerResp_serves env hr hok fun hsrc hclears => ?_)
      by_contra hb
      exact hbusy ⟨hsrc, hclears, Bool.not_eq_false _ ▸ hb⟩
  | other ev hev => exact .inl (other_serves env hev hr hm (hthrow.imp_right And.right))

/-- One step keeps what is owed under a flag. -/
theorem holds_step {w : Watched} {env : Env} {x : Occurrence} (hw : w.Holds)
    (hcon : Constructs w env x) (hkeep : KeepsFlag w env x) : (w.step (occur env x)).Holds := by
  intro pid howes
  set t := w.server.after (occur env x) with ht
  have hcase : t.exited = false ∧ t.role = .leader ∧ pid ∈ t.peerIds := by
    by_contra hnot
    exact howes (by simp only [Watched.step, Watched.owedAfter, ← ht, if_neg hnot])
  obtain ⟨hlive, hrole, hmem⟩ := hcase
  obtain ⟨-, hafter, hshown, hres⟩ := after_live hlive
  set s := w.server with hs
  set news := if s.role = .leader ∧ pid ∈ s.peerIds ∧ s.quickCommitIdx < t.quickCommitIdx then
    [t.quickCommitIdx] else [] with hnews
  have howed : (w.step (occur env x)).owed pid =
      (w.owed pid ++ news).filter fun n => !(occur env x s).out.any (·.tells pid n) := by
    simp only [Watched.step, Watched.owedAfter, ← ht, ← hs, ← hnews, hshown]
    exact if_pos ⟨hlive, hrole, hmem⟩
  rw [howed] at howes ⊢
  obtain ⟨n, hn⟩ := List.exists_mem_of_ne_nil _ howes
  -- nothing is owed to a peer that is new, or by a server that has just come into office
  have hbefore : s.role = .leader ∧ pid ∈ s.peerIds := by
    by_contra hnot
    have hold : w.owed pid = [] := by
      by_contra hne
      exact hnot ⟨(hw pid hne).1, (hw pid hne).2.1⟩
    have hnone : news = [] := if_neg fun h => hnot ⟨h.1, h.2.1⟩
    rw [hold, hnone] at hn
    cases hn
  have hstate : (occur env x s).state = t := hafter.symm
  rcases occur_serves hbefore.1 hbefore.2 hcon hkeep hres with hserves | ⟨hold, hquick⟩
  · rw [hstate] at hserves
    have hle := hserves.quick hrole hmem
    have hold : ∀ m ∈ w.owed pid, Flagged pid s ∧ m ≤ t.quickCommitIdx := fun m hm =>
      have h := hw pid (List.ne_nil_of_mem hm)
      ⟨h.2.2.1, (h.2.2.2 m hm).trans hle⟩
    have hbound : ∀ m ∈ w.owed pid ++ news, m ≤ t.quickCommitIdx := by
      intro m hm
      rcases List.mem_append.mp hm with h | h
      · exact (hold m h).2
      · rw [hnews] at h
        split at h
        · exact (List.mem_singleton.mp h).le
        · cases h
    refine ⟨hrole, hmem, ?_, fun m hm => hbound m (List.mem_of_mem_filter hm)⟩
    obtain ⟨hin, htold⟩ := List.mem_filter.mp hn
    have huntold : ¬ Tells pid t.quickCommitIdx (occur env x s).out := by
      intro ⟨e, he, htells⟩
      have hany : (occur env x s).out.any (·.tells pid n) = true :=
        List.any_eq_true.mpr ⟨e, he, Effect.tells_mono (hbound n hin) htells⟩
      rw [hany] at htold
      cases htold
    rcases List.mem_append.mp hin with h | h
    · exact (hserves.kept hrole hmem (hold n h).1).resolve_right huntold
    · rw [hnews] at h
      split at h
      · rename_i hadv
        exact (hserves.news hrole hmem hadv.2.2).resolve_right huntold
      · cases h
  · rw [hstate] at hquick
    have hnone : news = [] := if_neg fun h => absurd h.2.2 (hquick ▸ lt_irrefl _)
    rw [hold, hnone] at hn
    cases hn

/-- A run keeps it. -/
theorem holds_run : ∀ {run : List (Env × Occurrence)} {w : Watched}, w.Holds →
    w.Along Constructs run → w.Along KeepsFlag run → (w.run run).Holds
  | [], _, hw, _, _ => hw
  | (env, x) :: _, w, hw, ⟨hcon, hcons⟩, ⟨hkeep, hkeeps⟩ =>
    holds_run (w := w.step (occur env x)) (holds_step hw hcon hkeep) hcons hkeeps

/-- **No urgent commit is lost where no response takes down the flag of a peer that is
busy again and has something owed to it**: along every run of a leader in which request
construction does not throw, whoever is owed a commit index has its flag up. -/
theorem urgent_commits_kept {s : Server} {run : List (Env × Occurrence)}
    (hcon : (Watched.mk s fun _ => []).Along Constructs run)
    (hkeep : (Watched.mk s fun _ => []).Along KeepsFlag run) :
    ((Watched.mk s fun _ => []).run run).NothingLost := by
  have hstart : (Watched.mk s fun _ => []).Holds := fun pid hne => absurd rfl hne
  exact fun pid hne => (holds_run hstart hcon hkeep pid hne).2.2.1

/-! ## A flag that is lost -/

/-- The vote of server 2 in term 1. -/
def grantedVote : RespMsg :=
  { term := 1, type := .requestVoteResponse, src := 2, dst := 1, nextIdx := 1, accepted := true }

/-- Server 2 has taken in the first entry of server 1. -/
def firstAnswer : RespMsg :=
  { term := 1, type := .appendEntriesResponse, src := 2, dst := 1, nextIdx := 2, accepted := true }

/-- Server 1 takes office; the rpc of its request to server 2 completes, and before the
response gets the lock a heartbeat goes out. -/
def reheatedRun : List (Env × Occurrence) :=
  [({}, .other .electionTimeout rfl),
   ({}, .respond grantedVote),
   ({}, .release (some (.peer 2)) .appendEntriesRequest false),
   ({}, .other (.hbTimeout 2) rfl),
   ({}, .respond firstAnswer)]

/-- **The flag is lost**: the response finds server 2 busy with the heartbeat; it commits
the entry, sets the flag for it, and takes the flag down again. -/
theorem urgent_commits_lost : (Watched.mk freshServer fun _ => []).Along Constructs reheatedRun ∧
    ¬ ((Watched.mk freshServer fun _ => []).run reheatedRun).NothingLost := by
  refine ⟨⟨fun h => ?_, fun h => ?_, fun h => ?_, fun h => ?_, fun h => ?_, trivial⟩, fun h => ?_⟩
  · exact absurd h (by decide +kernel)
  · exact absurd h (by decide +kernel)
  · exact absurd h (by decide +kernel)
  · exact absurd h (by decide +kernel)
  · exact absurd h (by decide +kernel)
  · have hflag := h 2 (by decide +kernel)
    unfold Flagged at hflag
    revert hflag
    decide +kernel

/-- Server 1 of three takes office, and server 3 is the first to answer. -/
def firstCommitRun : List (Env × Occurrence) :=
  [({}, .other .electionTimeout rfl),
   ({}, .respond grantedVote),
   ({}, .release (some (.peer 3)) .appendEntriesRequest false),
   ({}, .respond { firstAnswer with src := 3 })]

/-- The flag of server 2, whose request is still out, is up. -/
theorem urgent_commits_kept_first :
    ((Watched.mk (.start 1 {} none {} { servers := [⟨1, [49]⟩, ⟨2, [50]⟩, ⟨3, [51]⟩] }) fun _ => []).run
      firstCommitRun).owed 2 = [1] ∧
    ((Watched.mk (.start 1 {} none {} { servers := [⟨1, [49]⟩, ⟨2, [50]⟩, ⟨3, [51]⟩] }) fun _ => []).run
      firstCommitRun).NothingLost := by
  refine ⟨by decide +kernel, urgent_commits_kept ⟨fun h => ?_, fun h => ?_, fun h => ?_, fun h => ?_, trivial⟩
    ⟨trivial, fun h => ?_, trivial, fun _ h => ?_, trivial⟩⟩
  · exact absurd h (by decide +kernel)
  · exact absurd h (by decide +kernel)
  · exact absurd h (by decide +kernel)
  · exact absurd h (by decide +kernel)
  · exact absurd h (by decide +kernel)
  · exact absurd h (by decide +kernel)

end Cornerstone
