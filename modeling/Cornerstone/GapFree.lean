import Cornerstone.AppendRun
import Cornerstone.CommitRun

/-! # The committing thread and installed snapshots

The inner loop of `commit_in_bg` counts on with its own copy of the commit index,
while an installed snapshot moves the commit index and compacts the log.  A thread
that is in its loop at that moment goes on below the new start of the log, where
`entry_at` throws and the process ends; a thread at the wait reads the commit index
anew and goes on behind the snapshot.
-/

namespace Cornerstone
open Handlers Handler Server

/-- The index the next round of the committing thread asks the log for, and applies. -/
def Server.asks (s : Server) : Option Nat :=
  match s.bg with
  | .waiting => none
  | .committing cur => if hasMore s cur then some (cur + 1) else none

/-- What the committing thread asks for comes right behind the last applied or
installed index, is committed and stored, and has not been compacted. -/
def Sound (last : Nat) (s : Server) : Prop :=
  ∀ idx, s.asks = some idx → idx = last + 1 ∧ s.logStore.startIdx ≤ idx ∧
    idx ≤ min s.quickCommitIdx (s.logStore.nextSlot - 1)

/-- The server is a follower when it comes to apply a snapshot. -/
def Server.followsFor (s : Server) (req : ReqMsg) : Bool :=
  s.state.term < req.term ∨ s.role = .follower ∨
    s.role = .candidate ∧ req.term = s.state.term ∧ s.catchingUp = false

/-- The last block of a snapshot in a request, if it is one that the server does not
decline. -/
def Server.lastBlock (s : Server) (req : ReqMsg) : Option SnapshotSyncReq :=
  if s.exited = true ∨ req.type ≠ .installSnapshotRequest ∨
      s.catchingUp = false ∧ req.term < s.state.term then none
  else
    match req.logEntries with
    | [e] =>
      if e.valType ≠ .snpSyncReq then none
      else (SnapshotSyncReq.deserialize e.buf).filter fun r =>
        r.done ∧ s.state.commitIdx < r.snapshot.lastLogIdx
    | _ => none

/-- The last index of the snapshot that a step installs. -/
def Server.installs (s : Server) (env : Env) : Event → Option Nat
  | .request req =>
    (s.lastBlock req).bind fun r =>
      if env.saveSnapshotData = true ∧ s.followsFor req = true ∧
          s.logStore.startIdx ≤ r.snapshot.lastLogIdx ∧ env.compact = true ∧ env.applySnapshot = true
      then some r.snapshot.lastLogIdx else none
  | _ => none

/-- The last applied or installed index after a step. -/
def Server.lastAfter (s : Server) (env : Env) (ev : Event) (last : Nat) : Nat :=
  match s.installs env ev with
  | some k => k
  | none => if ev = .bgIter then s.asks.getD last else last

/-- In every state of a run what the thread asks for is sound, until the process
ends for another reason. -/
def GapFree (last : Nat) (s : Server) : List (Env × Event) → Prop
  | [] => s.exited = true ∨ Sound last s
  | (env, ev) :: run => (s.exited = true ∨ Sound last s) ∧
      GapFree (s.lastAfter env ev last) (s.next env ev) run

/-- A step that installs a snapshot finds the committing thread at the wait. -/
def InstallsAtRest (s : Server) (env : Env) (ev : Event) : Prop :=
  ∀ k, s.installs env ev = some k → s.bg = .waiting

/-! ## The invariant -/

/-- A snapshot being taken covers nothing above the commit index. -/
def PendingBelow (s : Server) : Prop := ∀ snp, s.snpPending = some snp → snp.lastLogIdx ≤ s.state.commitIdx

/-- The log is compacted up to the commit index at most, and the thread has got as
far as the commit index. -/
structure Sane (s : Server) : Prop where
  start_le : s.logStore.startIdx ≤ s.state.commitIdx + 1
  bg : ∀ cur, s.bg = .committing cur → s.state.commitIdx = cur
  pending : PendingBelow s

theorem Sane.asks_eq {s : Server} (h : Sane s) {idx : Nat} (ha : s.asks = some idx) :
    idx = s.state.commitIdx + 1 ∧ idx ≤ min s.quickCommitIdx (s.logStore.nextSlot - 1) := by
  unfold Server.asks at ha
  cases hbg : s.bg with
  | waiting =>
    rw [hbg] at ha
    cases ha
  | committing cur =>
    rw [hbg] at ha
    simp only [hasMore, Bool.and_eq_true, decide_eq_true_eq] at ha
    split at ha
    · cases ha
      have hc := h.bg cur hbg
      rename_i hm
      exact ⟨by omega, by omega⟩
    · cases ha

/-- In a sane state the thread is sound. -/
theorem Sane.sound {s : Server} (h : Sane s) : Sound s.state.commitIdx s := by
  intro idx ha
  obtain ⟨hidx, hle⟩ := h.asks_eq ha
  exact ⟨hidx, by rw [hidx]; exact h.start_le, hle⟩

variable {s₀ s t : Server} {ev : Event} {o : List Effect}

theorem Bookkeeping.sane_fields (h : Bookkeeping s t) : t.logStore = s.logStore ∧ t.state = s.state ∧
    t.bg = s.bg ∧ t.snpPending = s.snpPending := by
  rw [h.rest]
  exact ⟨rfl, rfl, rfl, rfl⟩

theorem PendingBelow.of_eq {c : Nat} (h : PendingBelow s) (hp : t.snpPending = s.snpPending)
    (hc : t.state.commitIdx = c) (hle : s.state.commitIdx ≤ c) : PendingBelow t := by
  intro snp hsnp
  rw [hc]
  exact (h snp (hp ▸ hsnp)).trans hle

/-- Every segment keeps what is known of a pending snapshot. -/
theorem Segment.pending (h : Segment s₀ ev s o t) (hs : PendingBelow s) : PendingBelow t := by
  cases h with
  | book hb ho =>
    obtain ⟨-, hst, -, hp⟩ := hb.sane_fields
    exact hs.of_eq hp (by rw [hst]) (le_refl _)
  | install he ht hm hl hf hc hn hge hb ho =>
    obtain ⟨-, hst, -, hp⟩ := hb.sane_fields
    exact hs.of_eq hp (by rw [hst]) (by simp)
  | quit hl hb hx ho =>
    obtain ⟨-, hst, -, hp⟩ := hb.sane_fields
    exact hs.of_eq hp (by rw [hst]) (le_refl _)
  | commitConfig he hbg hm hat hc hd hcfg hb ho =>
    obtain ⟨-, hst, -, hp⟩ := hb.sane_fields
    exact hs.of_eq hp (by rw [hst]) (by simp)
  | join he ht hm hv hc => exact hs.of_eq rfl rfl (by simp)
  | commitEntry he hbg hm hat hc => exact hs.of_eq rfl rfl (by simp)
  | compact hl => exact fun snp hsnp => by cases hsnp
  | snapshot hle =>
    intro snp hsnp
    cases hsnp
    exact hle
  | leadConfig => exact hs.of_eq rfl rfl (le_refl _)
  | _ => exact hs

/-- No segment of other events than a round of the thread or an installed snapshot
touches the commit index, the thread in its loop, or what is compacted above. -/
theorem Segment.sane (h : Segment s₀ ev s o t) (hiter : ev ≠ .bgIter)
    (hinst : ∀ req, ev = .request req → req.type ≠ .installSnapshotRequest) {c : Nat}
    (hs : Sane s ∧ s.state.commitIdx = c) :
    (Sane t ∧ t.state.commitIdx = c) ∨ t.exited = true := by
  obtain ⟨hs, hc⟩ := hs
  have hpend := h.pending hs.pending
  have hsame : t.logStore.startIdx = s.logStore.startIdx → t.state.commitIdx = s.state.commitIdx →
      t.bg = s.bg → (Sane t ∧ t.state.commitIdx = c) ∨ t.exited = true := by
    intro hlog hst hbg
    refine .inl ⟨⟨?_, fun cur hcur => ?_, hpend⟩, hst.trans hc⟩
    · rw [hlog, hst]
      exact hs.start_le
    · rw [hst]
      exact hs.bg cur (hbg ▸ hcur)
  cases h with
  | book hb ho =>
    obtain ⟨hlog, hst, hbg, -⟩ := hb.sane_fields
    exact hsame (by rw [hlog]) (by rw [hst]) hbg
  | install he ht => exact absurd ht (hinst _ he)
  | quit hl hb hx ho => exact .inr hx
  | commitConfig he => exact absurd he hiter
  | commitEntry he => exact absurd he hiter
  | join he ht hm hv hc' => exact hsame rfl (by simp) rfl
  | replicate he ht hterm hle hl hf hst hge hok ho =>
    refine hsame ?_ rfl rfl
    simp only [Server.replicate, LogStore.cutAt]
    split <;> rfl
  | applyPack he ht hm hc' hl =>
    refine hsame ?_ rfl rfl
    unfold LogStore.applyPack at hl
    obtain ⟨es, -, hl⟩ := Option.bind_eq_some_iff.mp hl
    split at hl
    · cases hl
    · cases hl
      rfl
  | compact hl =>
    rcases hl with rfl | ⟨snp, hsnp, hle, rfl⟩
    · exact hsame rfl rfl rfl
    · refine .inl ⟨⟨?_, hs.bg, hpend⟩, hc⟩
      exact Nat.succ_le_succ (hs.pending snp hsnp)
  | wake =>
    refine .inl ⟨⟨hs.start_le, fun cur hcur => ?_, hpend⟩, hc⟩
    cases hcur
    rfl
  | sleep => exact .inl ⟨⟨hs.start_le, fun cur hcur => (by cases hcur), hpend⟩, hc⟩
  | _ => exact hsame rfl rfl rfl

/-- What all segments keep, the step keeps. -/
theorem Server.next_keeps {I : Server → Prop} (env : Env)
    (hseg : ∀ t o u, Segment s ev t o u → I t → I u ∨ u.exited = true) (hs : I s) :
    I (s.next env ev) ∨ (s.next env ev).exited = true := by
  rcases Server.next_exits env ev s with hx | hnext
  · exact .inr hx
  · have hkeeps : Keeps I s _ _ := (handle_path env ev s).lift (keeps_law I)
      fun t o u h => ⟨h.exits, hseg t o u h⟩
    rw [hnext]
    exact hkeeps.keeps hs

theorem Sane.next_other (h : Sane s) (env : Env) (hiter : ev ≠ .bgIter)
    (hinst : ∀ req, ev = .request req → req.type ≠ .installSnapshotRequest) :
    Sane (s.next env ev) ∧ (s.next env ev).state.commitIdx = s.state.commitIdx ∨
      (s.next env ev).exited = true :=
  Server.next_keeps env (I := fun t => Sane t ∧ t.state.commitIdx = s.state.commitIdx)
    (fun _ _ _ hseg ht => hseg.sane hiter hinst ht) ⟨h, rfl⟩

/-! ## A round of the thread -/

/-- **A round of the thread** applies what it asks for. -/
theorem Sane.next_bgIter (h : Sane s) (env : Env) (hx : s.exited = false) :
    Sane (s.next env .bgIter) ∧
        (s.next env .bgIter).state.commitIdx = s.asks.getD s.state.commitIdx ∨
      (s.next env .bgIter).exited = true := by
  have hpend : PendingBelow (s.next env .bgIter) ∨ (s.next env .bgIter).exited = true :=
    Server.next_keeps env (fun _ _ _ hseg ht => .inl (hseg.pending ht)) h.pending
  rcases hpend with hpend | hexit
  · obtain ⟨x, hnext⟩ := Server.next_of_live env .bgIter hx
    rw [handle] at hnext
    cases hbg : s.bg with
    | waiting =>
      have hrun : bgIter env s = ⟨.ok (), s, []⟩ := by simp [bgIter, hbg]
      have hasks : s.asks = none := by simp [Server.asks, hbg]
      rw [hrun] at hnext
      rw [hnext, hasks]
      exact .inl ⟨⟨h.start_le, h.bg, h.pending⟩, rfl⟩
    | committing cur =>
      have hcur := h.bg cur hbg
      by_cases hm : hasMore s cur = true
      · have hasks : s.asks = some (cur + 1) := by simp [Server.asks, hbg, hm]
        obtain ⟨-, hle⟩ := h.asks_eq hasks
        obtain ⟨e, hat⟩ := @LogStore.entryAt?_isSome s.logStore (cur + 1)
          (hcur ▸ h.start_le) (by
            simp only [hasMore, Bool.and_eq_true, decide_eq_true_eq] at hm
            omega)
        obtain ⟨o, -, hside, hun⟩ := bgIter_run env hbg hm hat
        by_cases hunread : e.unreadable = true
        · rcases Server.next_exits env .bgIter s with hx' | hsame
          · exact .inr hx'
          · rw [hsame]
            exact .inr (hun hunread)
        · rw [if_neg hunread] at hside
          have hcommit : (s.next env .bgIter).state.commitIdx = cur + 1 := by
            rw [hnext]
            simp only [hside.state, Server.applied, SrvState.setCommitIdx_commitIdx, hcur]
            omega
          refine .inl ⟨⟨?_, fun n hn => ?_, hpend⟩, ?_⟩
          · rw [hcommit, hnext]
            have hstart := h.start_le
            rw [hside.logStore]
            exact show s.logStore.startIdx ≤ cur + 1 + 1 by omega
          · rw [hnext] at hn
            have hn' : BgThread.committing (cur + 1) = .committing n := hside.bg.symm.trans hn
            cases hn'
            exact hcommit
          · rw [hasks]
            exact hcommit
      · have hrun : bgIter env s = ⟨.ok (), { s with bg := .waiting }, [.saveState s.state]⟩ := by
          simp [bgIter, hbg, hm, saveState]
        have hasks : s.asks = none := by simp [Server.asks, hbg, hm]
        rw [hrun] at hnext
        rw [hnext, hasks]
        exact .inl ⟨⟨h.start_le, fun n hn => (by cases hn), h.pending⟩, rfl⟩
  · exact .inr hexit

/-! ## An install_snapshot request -/

/-- The law of handling a snapshot without installing it. -/
structure Inert (s : Server) (_ : List Effect) (t : Server) : Prop where
  exits : s.exited = true → t.exited = true
  same : t.exited = true ∨ t.logStore = s.logStore ∧ t.state.commitIdx = s.state.commitIdx ∧
    t.bg = s.bg ∧ t.snpPending = s.snpPending

theorem inert_law : Law Inert where
  refl s := ⟨id, .inr ⟨rfl, rfl, rfl, rfl⟩⟩
  trans := by
    intro s t u o o' h h'
    refine ⟨fun hx => h'.exits (h.exits hx), ?_⟩
    rcases h'.same with hx | ⟨hlog', hc', hbg', hp'⟩
    · exact .inl hx
    · rcases h.same with hx | ⟨hlog, hc, hbg, hp⟩
      · exact .inl (h'.exits hx)
      · exact .inr ⟨hlog'.trans hlog, hc'.trans hc, hbg'.trans hbg, hp'.trans hp⟩

theorem inert_exit {α : Type} (code : Int) : Obeys Inert s (systemExitAndExit code : Action α) :=
  ⟨fun _ => rfl, .inl rfl⟩

theorem inert_emit (e : Effect) : Inert s [e] s := ⟨id, .inr ⟨rfl, rfl, rfl, rfl⟩⟩

theorem inert_followLeader (b : Bool) : Obeys Inert s (followLeader b) := by
  refine .look_bind (.ite (fun _ => .ite (fun _ => ?_) fun _ => .ite (fun _ => inert_exit _) fun _ => ?_)
    fun _ => ?_)
  · exact ⟨id, .inr ⟨rfl, rfl, rfl, rfl⟩⟩
  · exact .pure inert_law _
  · exact .pure inert_law _

theorem Inert.sane (h : Inert s o t) (hs : Sane s) :
    Sane t ∧ t.state.commitIdx = s.state.commitIdx ∨ t.exited = true := by
  rcases h.same with hx | ⟨hlog, hc, hbg, hp⟩
  · exact .inr hx
  · refine .inl ⟨⟨?_, fun cur hcur => ?_, hs.pending.of_eq hp hc (le_refl _)⟩, hc⟩
    · rw [hlog, hc]
      exact hs.start_le
    · rw [hc]
      exact hs.bg cur (hbg ▸ hcur)

/-- A block that completes no snapshot that could be installed. -/
theorem inert_installSnapshotBlock (env : Env) (req : SnapshotSyncReq)
    (hno : ¬ (env.saveSnapshotData = true ∧ s.role = .follower ∧ req.done = true ∧
      s.logStore.startIdx ≤ req.snapshot.lastLogIdx ∧ env.compact = true ∧ env.applySnapshot = true)) :
    Obeys Inert s (installSnapshotBlock env req) := by
  refine .ite (fun _ => .halt inert_law _) fun hsave => .emit_bind inert_law (inert_emit _) ?_
  refine .ite (fun hdone => .look_bind ?_) fun _ => .pure inert_law _
  refine .ite (fun _ => inert_exit _) fun hrole => .ite (fun _ => .halt inert_law _) fun hge => ?_
  refine .ite (fun hcompact => ?_) fun _ => .pure inert_law _
  have happ : env.applySnapshot = false := by
    by_contra h
    exact hno ⟨by simpa using hsave, by simpa using hrole, hdone, Nat.not_lt.mp hge, hcompact,
      by simpa using h⟩
  have hrun : applySnapshotData env req.snapshot s = ⟨.error .exit,
      { s with logStore := s.logStore.compact req.snapshot.lastLogIdx, exited := true },
      [.systemExit (-1)]⟩ := by
    simp [applySnapshotData, systemExitAndExit, happ]
  unfold Obeys
  rw [hrun]
  exact ⟨fun _ => rfl, .inl rfl⟩

/-- The server once a snapshot up to `k` is installed. -/
structure Installed (k : Nat) (s t : Server) : Prop where
  startIdx : t.logStore.startIdx = k + 1
  commitIdx : t.state.commitIdx = max s.state.commitIdx k
  quick : t.quickCommitIdx = k
  bg : t.bg = s.bg
  pending : t.snpPending = s.snpPending
  exited : t.exited = s.exited

/-- The same, with what becomes of the log and of the role. -/
structure TakesSnapshot (k : Nat) (s t : Server) : Prop extends Installed k s t where
  logStore : t.logStore = s.logStore.compact k
  catchingUp : t.catchingUp = s.catchingUp
  role : t.role = .follower

/-- The law of putting a configuration in force. -/
structure Reshapes (s : Server) (_ : List Effect) (t : Server) : Prop where
  rest : t = { s with peers := t.peers, srvToJoin := t.srvToJoin, config := t.config }

theorem reshapes_law : Law Reshapes where
  refl _ := ⟨rfl⟩
  trans := by
    intro s t u o o' h h'
    have hu := h'.rest
    rw [h.rest] at hu
    exact ⟨hu⟩

theorem reshapes_removeServers (newConfig : ClusterConfig) : ∀ {pids : List Int} {s : Server},
    Obeys Reshapes s (removeServers newConfig pids)
  | [], s => .pure reshapes_law _
  | pid :: pids, s => by
    refine .look_bind (.ite (fun _ => ?_) fun _ => ?_)
    · exact .emit_bind reshapes_law ⟨rfl⟩ (.emit_bind reshapes_law ⟨rfl⟩ (.pure reshapes_law _))
    · have herase : Obeys Reshapes s (erasePeer pid) := obeys_erasePeer reshapes_law (fun _ => ⟨rfl⟩) ⟨rfl⟩
      exact .bind reshapes_law herase fun _ _ => reshapes_removeServers newConfig

theorem reshapes_reconfigure (newConfig : ClusterConfig) :
    Obeys Reshapes s (reconfigure newConfig) := by
  refine .look_bind (.bind reshapes_law ?_ fun _ _ =>
    .bind reshapes_law (reshapes_removeServers _) fun _ _ => ?_)
  · refine .forEach reshapes_law (fun _ => True) trivial fun srv _ s _ => ⟨.look_bind ?_, trivial⟩
    refine .ite (fun _ => ?_) fun _ => ⟨rfl⟩
    cases s.srvToJoin with
    | none => exact ⟨rfl⟩
    | some joining => exact .ite (fun _ => ⟨rfl⟩) fun _ => ⟨rfl⟩
  · exact .ite (fun _ => .pure reshapes_law _) fun _ => ⟨rfl⟩

/-- A block that completes a snapshot installs it. -/
theorem installSnapshotBlock_run (env : Env) (req : SnapshotSyncReq)
    (hyes : env.saveSnapshotData = true ∧ s.role = .follower ∧ req.done = true ∧
      s.logStore.startIdx ≤ req.snapshot.lastLogIdx ∧ env.compact = true ∧ env.applySnapshot = true) :
    Achieves s (installSnapshotBlock env req) fun ok t =>
      ok = true ∧ TakesSnapshot req.snapshot.lastLogIdx s t := by
  obtain ⟨hsave, hrole, hdone, hge, hcompact, happ⟩ := hyes
  set s₁ : Server := { s with logStore := s.logStore.compact req.snapshot.lastLogIdx } with hs₁
  have hre : Achieves s₁ (reconfigure req.snapshot.lastConfig) fun _ t => Reshapes s₁ [] t := by
    obtain ⟨a, ha⟩ := total_reconfigure req.snapshot.lastConfig s₁
    have hrest : Reshapes s₁ _ _ := reshapes_reconfigure req.snapshot.lastConfig
    exact ⟨a, ha, ⟨hrest.rest⟩⟩
  refine .ite (fun h => ?_) fun _ => .emit_bind (.ite (fun _ => .look_bind ?_) fun h => absurd hdone h)
  · rw [hsave] at h
    cases h
  refine .ite (fun h => absurd hrole h) fun _ => .ite (fun h => absurd hge (Nat.not_le.mpr h)) fun _ => ?_
  refine .ite (fun _ => .change_bind (.ite (fun h => ?_) fun _ => .emit_bind ?_)) fun h => absurd hcompact h
  · rw [happ] at h
    cases h
  refine .bind hre fun _ t ht => .look_bind (.emit_bind (.change_bind ?_))
  refine .bind (P := fun _ u => u = _) ⟨(), rfl, rfl⟩ fun _ u hu => .pure ⟨rfl, ?_⟩
  rw [hu, ht.rest]
  exact ⟨⟨rfl, SrvState.setCommitIdx_commitIdx _ _, rfl, rfl, rfl, rfl⟩, rfl, rfl, hrole⟩

/-- When a request has a block that completes a snapshot. -/
theorem lastBlock_eq_some {n : Server} {req : ReqMsg} {r : SnapshotSyncReq} :
    n.lastBlock req = some r ↔
      n.exited = false ∧ req.type = .installSnapshotRequest ∧
        ¬ (n.catchingUp = false ∧ req.term < n.state.term) ∧
        ∃ e, req.logEntries = [e] ∧ e.valType = .snpSyncReq ∧
          SnapshotSyncReq.deserialize e.buf = some r ∧ r.done = true ∧
          n.state.commitIdx < r.snapshot.lastLogIdx := by
  unfold Server.lastBlock
  constructor
  · intro h
    split at h
    · cases h
    · rename_i hno
      simp only [not_or, not_not, Bool.not_eq_true] at hno
      split at h
      · rename_i e hentry
        split at h
        · cases h
        · rename_i htype
          obtain ⟨hd, hr⟩ := Option.filter_eq_some_iff.mp h
          simp only [decide_eq_true_eq] at hr
          exact ⟨hno.1, hno.2.1, hno.2.2, e, hentry, not_not.mp htype, hd, hr.1, hr.2⟩
      · cases h
  · rintro ⟨hx, ht, hdecl, e, hentry, htype, hd, hdone, hlt⟩
    have hno : ¬ (n.exited = true ∨ req.type ≠ .installSnapshotRequest ∨
        n.catchingUp = false ∧ req.term < n.state.term) := by
      rw [hx, ht]
      simpa using hdecl
    rw [if_neg hno, hentry]
    simp [htype, hd, hdone, hlt]

/-- What happens to the role before a snapshot is looked at. -/
theorem followLeader_role {n : Server} (b : Bool) (hres : (followLeader b n).res = .ok ()) :
    (followLeader b n).state.role = .follower ↔ n.role = .follower ∨ n.role = .candidate ∧ b = true := by
  simp only [followLeader, becomeFollower, bind_run, look_run, Outcome.andThen_ok, ite_run, change_run,
    pure_run] at hres ⊢
  cases b with
  | false => simp
  | true =>
    cases hr : n.role with
    | follower => simpa using hr
    | candidate => simp
    | leader => simp [hr, systemExitAndExit] at hres

/-- A request that installs nothing. -/
theorem inert_handleInstallSnapshotReq (env : Env) {req : ReqMsg} {n : Server}
    (ht : req.type = .installSnapshotRequest) (hx : n.exited = false)
    (hno : n.installs env (.request req) = none) : Obeys Inert n (handleInstallSnapshotReq env req) := by
  refine .look_bind (.bind inert_law (inert_followLeader _) fun a ha => .look_bind ?_)
  have hrole := followLeader_role _ ha
  obtain ⟨r, p, j, x, hu⟩ := followLeader_rest (s := n)
    (decide (req.term = n.state.term ∧ n.catchingUp = false))
  rw [hu] at hrole ⊢
  refine .ite (fun _ => .pure inert_law _) fun hdecl => ?_
  split
  · rename_i e hentry
    refine .ite (fun _ => .pure inert_law _) fun htype => ?_
    split
    · exact .halt inert_law _
    · rename_i syncReq hd
      refine .ite (fun _ => .pure inert_law _) fun hlt => ?_
      refine .bind inert_law (.rescue inert_law ?_ (inert_exit _)) fun ok _ =>
        .ite (fun _ => .pure inert_law _) fun _ => .pure inert_law _
      refine inert_installSnapshotBlock env syncReq fun hyes => ?_
      obtain ⟨hsave, hfollow, hdone, hge, hcompact, happ⟩ := hyes
      have hlast : n.lastBlock req = some syncReq := lastBlock_eq_some.mpr
        ⟨hx, ht, hdecl, e, hentry, not_not.mp htype, hd, hdone, Nat.not_le.mp hlt⟩
      have hfollows : n.followsFor req = true := by
        have hor := hrole.mp hfollow
        simp only [Server.followsFor, decide_eq_true_eq]
        simp only [decide_eq_true_eq] at hor
        exact .inr hor
      have hsome : n.installs env (.request req) = some syncReq.snapshot.lastLogIdx := by
        rw [Server.installs, hlast, Option.bind_some, if_pos ⟨hsave, hfollows, hge, hcompact, happ⟩]
      rw [hsome] at hno
      cases hno
  · exact .pure inert_law _

/-- **A request that installs a snapshot.** -/
theorem handleInstallSnapshotReq_installs (env : Env) {req : ReqMsg} {n : Server} {r : SnapshotSyncReq}
    {k : Nat} (hle : req.term ≤ n.state.term) (hlast : n.lastBlock req = some r)
    (hyes : n.installs env (.request req) = some k) :
    Achieves n (handleInstallSnapshotReq env req) fun resp t => TakesSnapshot k n t ∧
      resp.type = .installSnapshotResponse ∧ resp.accepted = true ∧ resp.nextIdx = r.offset + r.data.length := by
  have hk := hyes
  rw [Server.installs, hlast, Option.bind_some] at hk
  obtain ⟨hx, ht, hdecl, e, hentry, htype, hd, hdone, hlt⟩ := lastBlock_eq_some.mp hlast
  split at hk
  · rename_i hall
    obtain ⟨hsave, hfollows, hge, hcompact, happ⟩ := hall
    obtain rfl := Option.some.inj hk
    have hor : n.role = .follower ∨ n.role = .candidate ∧ req.term = n.state.term ∧ n.catchingUp = false := by
      simp only [Server.followsFor, decide_eq_true_eq] at hfollows
      exact hfollows.resolve_left (by omega)
    have hne : n.role ≠ .leader := by
      rcases hor with h | h
      · rw [h]
        decide
      · rw [h.1]
        decide
    set b := decide (req.term = n.state.term ∧ n.catchingUp = false) with hb
    have hrun := followLeader_run (b := b) hne
    obtain ⟨p, j, q, hf, -⟩ := followed_rest (s := n) b
    rw [hf] at hrun
    have hq : q = .follower := by
      have hrole := followLeader_role (n := n) b (by rw [hrun])
      rw [hrun] at hrole
      refine hrole.mpr ?_
      rcases hor with h | h
      · exact .inl h
      · exact .inr ⟨h.1, by rw [hb, decide_eq_true h.2]⟩
    set u : Server := { n with peers := p, srvToJoin := j, role := q } with hu
    refine .look_bind (.bind (P := fun _ t => t = u) ⟨(), by rw [hrun], by rw [hrun]⟩ fun _ t htu => ?_)
    rw [htu]
    refine .look_bind (.ite (fun h => absurd h hdecl) fun _ => ?_)
    have hblock := installSnapshotBlock_run (s := u) env r ⟨hsave, hq, hdone, hge, hcompact, happ⟩
    obtain ⟨ok, hok, hyes, hinst⟩ := hblock
    have hsync : handleSnapshotSyncReq env r u = installSnapshotBlock env r u := by
      rw [handleSnapshotSyncReq, rescue, hok]
    rw [hentry]
    refine .ite (fun h => absurd htype h) fun _ => ?_
    rw [hd]
    refine .ite (fun h => absurd hlt (Nat.not_lt.mpr h)) fun _ => ?_
    refine .bind (P := fun ok t => ok = true ∧ TakesSnapshot r.snapshot.lastLogIdx u t)
      ⟨ok, by rw [hsync]; exact hok, hyes, by rw [hsync]; exact hinst⟩ fun ok t hboth => ?_
    obtain ⟨hok, hinst⟩ := hboth
    refine .ite (fun _ => .pure ⟨?_, rfl, rfl, rfl⟩) fun h => absurd hok h
    exact ⟨⟨hinst.startIdx, hinst.commitIdx, hinst.quick, hinst.bg, hinst.pending, hinst.exited⟩,
      hinst.logStore, hinst.catchingUp, hinst.role⟩
  · cases hk

/-- Noting the term of a request changes nothing about the block in it. -/
theorem lastBlock_noted (req : ReqMsg) : (s.noted req.term).lastBlock req = s.lastBlock req := by
  obtain ⟨-, -, hcommit, hterm, -, hexit⟩ := noted_rest s req.term
  have hlt : req.term < (s.noted req.term).state.term ↔ req.term < s.state.term := by
    rw [hterm]
    omega
  simp only [Server.lastBlock, (noted_kept s req.term).1, hlt, hcommit, hexit]

/-- Nor about what it installs. -/
theorem installs_noted (env : Env) (req : ReqMsg) :
    (s.noted req.term).installs env (.request req) = s.installs env (.request req) := by
  have hrole : (s.noted req.term).followsFor req = s.followsFor req := by
    unfold Server.noted Server.followsFor
    rcases Nat.lt_or_ge s.state.term req.term with hlt | hge
    · simp only [if_pos hlt]
      split <;> simp [hlt, Server.inTerm]
    · simp only [if_neg (Nat.not_lt.mpr hge)]
      split <;> rfl
  have hlog := (noted_rest s req.term).1
  simp only [Server.installs, lastBlock_noted, hrole, hlog]

/-- **A request that installs a snapshot**, from its arrival to the response. -/
theorem processReq_installs (env : Env) {req : ReqMsg} {k : Nat}
    (hyes : s.installs env (.request req) = some k) :
    ∃ r resp t o, s.lastBlock req = some r ∧ processReq env req s = ⟨.ok (), t, o ++ [.reply resp t.state]⟩ ∧
      TakesSnapshot k s t ∧ resp.type = .installSnapshotResponse ∧ resp.accepted = true ∧
      resp.nextIdx = r.offset + r.data.length := by
  obtain ⟨r, hlast, -⟩ := Option.bind_eq_some_iff.mp hyes
  have ht := (lastBlock_eq_some.mp hlast).2.1
  obtain ⟨hlog, hbg, hcommit, hterm, -, hexit⟩ := noted_rest s req.term
  obtain ⟨hcatch, hsnp⟩ := noted_kept s req.term
  have hnote := @noteTerm_run s req (.inr (.inr ht))
  have hanswer : answerReq env req = handleInstallSnapshotReq env req := by
    rw [answerReq, ht]
    simp only [handleExtendedMsg, ht]
  obtain ⟨resp, hres, hinst, htype, hacc, hnext⟩ := handleInstallSnapshotReq_installs env
    (hterm ▸ le_max_right _ _) ((lastBlock_noted req).trans hlast) ((installs_noted env req).trans hyes)
  have hproc := processReq_run (t := (handleInstallSnapshotReq env req (s.noted req.term)).state)
    hnote (by rw [hanswer]; exact Outcome.ext hres rfl rfl)
  rw [← List.append_assoc] at hproc
  refine ⟨r, resp, _, _, hlast, hproc, ?_, htype, hacc, hnext⟩
  exact ⟨⟨hinst.startIdx, hcommit ▸ hinst.commitIdx, hinst.quick, hinst.bg.trans hbg, hinst.pending.trans hsnp,
    hinst.exited.trans hexit⟩, hlog ▸ hinst.logStore, hinst.catchingUp.trans hcatch, hinst.role⟩

/-- **A step that installs a snapshot**, and one that could but does not. -/
theorem Sane.next_install (h : Sane s) (env : Env) {req : ReqMsg}
    (ht : req.type = .installSnapshotRequest) (hx : s.exited = false) :
    (s.installs env (.request req) = none →
      Sane (s.next env (.request req)) ∧
          (s.next env (.request req)).state.commitIdx = s.state.commitIdx ∨
        (s.next env (.request req)).exited = true) ∧
      ∀ k, s.installs env (.request req) = some k → Installed k s (s.next env (.request req)) := by
  constructor
  · intro hno
    obtain ⟨hlog, hbg, hcommit, -, -, hexit⟩ := noted_rest s req.term
    have hsnp := (noted_kept s req.term).2
    have hnote := @noteTerm_run s req (.inr (.inr ht))
    have hanswer : answerReq env req = handleInstallSnapshotReq env req := by
      rw [answerReq, ht]
      simp only [handleExtendedMsg, ht]
    rw [← installs_noted] at hno
    have hinert : Inert (s.noted req.term) _ _ :=
      inert_handleInstallSnapshotReq env ht (hexit.trans hx) hno
    have hproc : Obeys Inert s (processReq env req) := by
      refine .bind inert_law ?_ fun _ _ => ?_
      · unfold Obeys
        rw [hnote]
        exact ⟨fun h => hexit.trans h, .inr ⟨hlog, hcommit, hbg, hsnp⟩⟩
      · rw [hnote]
        refine .bind inert_law ?_ fun _ _ => .look_bind (inert_emit _)
        rw [hanswer]
        exact hinert
    rcases Server.next_exits env (.request req) s with hx' | hnext
    · exact .inr hx'
    · rw [hnext]
      exact Inert.sane hproc h
  · intro k hk
    obtain ⟨r, resp, t, o, -, hproc, hinst, -⟩ := processReq_installs env hk
    rw [Server.next_of_ok hx (by rw [handle, hproc]), handle, hproc]
    exact hinst.toInstalled

/-! ## Runs -/

theorem installs_of_exited (h : s.exited = true) (env : Env) (ev : Event) :
    s.installs env ev = none := by
  cases ev with
  | request req => simp [Server.installs, Server.lastBlock, h]
  | _ => rfl

theorem installs_lt {env : Env} {k : Nat} (h : s.installs env ev = some k) : s.state.commitIdx < k := by
  cases ev with
  | request req =>
    obtain ⟨r, hlast, hk⟩ := Option.bind_eq_some_iff.mp h
    obtain ⟨-, -, -, e, -, -, -, -, hlt⟩ := lastBlock_eq_some.mp hlast
    split at hk
    · rwa [← Option.some.inj hk]
    · cases hk
  | _ => cases h

theorem installs_type {env : Env} {req : ReqMsg} {k : Nat}
    (h : s.installs env (.request req) = some k) : req.type = .installSnapshotRequest := by
  obtain ⟨r, hlast, -⟩ := Option.bind_eq_some_iff.mp h
  exact (lastBlock_eq_some.mp hlast).2.1

/-- **A step that keeps snapshots away from a thread in its loop** leaves a sane
state. -/
theorem Sane.next_sane (h : Sane s) (env : Env) (hx : s.exited = false)
    (hrest : InstallsAtRest s env ev) :
    Sane (s.next env ev) ∧ (s.next env ev).state.commitIdx = s.lastAfter env ev s.state.commitIdx ∨
      (s.next env ev).exited = true := by
  unfold Server.lastAfter
  cases hk : s.installs env ev with
  | some k =>
    cases ev with
    | request req =>
      have hlt := installs_lt hk
      obtain ⟨-, hinst⟩ := h.next_install env (installs_type hk) hx
      have hin := hinst k hk
      have hwait := hrest k hk
      have hcommit : (s.next env (.request req)).state.commitIdx = k := by
        rw [hin.commitIdx, max_eq_right hlt.le]
      refine .inl ⟨⟨?_, fun cur hcur => ?_, h.pending.of_eq hin.pending hcommit hlt.le⟩, hcommit⟩
      · rw [hin.startIdx, hcommit]
      · rw [hin.bg, hwait] at hcur
        cases hcur
    | _ => cases hk
  | none =>
    by_cases hiter : ev = .bgIter
    · subst hiter
      simp only [if_true]
      exact h.next_bgIter env hx
    · simp only [if_neg hiter]
      by_cases hinst : ∃ req, ev = .request req ∧ req.type = .installSnapshotRequest
      · obtain ⟨req, rfl, ht⟩ := hinst
        exact (h.next_install env ht hx).1 hk
      · exact h.next_other env hiter fun req hreq ht => hinst ⟨req, hreq, ht⟩

/-- **A snapshot installed under a thread in its loop** has it ask for a compacted
index. -/
theorem Sane.next_unsound (h : Sane s) (env : Env) (hx : s.exited = false)
    (hno : ¬ InstallsAtRest s env ev) (last : Nat) :
    (s.next env ev).exited = false ∧ ¬ Sound last (s.next env ev) := by
  obtain ⟨k, hk, hbusy⟩ : ∃ k, s.installs env ev = some k ∧ s.bg ≠ .waiting := by
    simpa [InstallsAtRest] using hno
  cases ev with
  | request req =>
    have hlt := installs_lt hk
    obtain ⟨-, hinst⟩ := h.next_install env (installs_type hk) hx
    have hin := hinst k hk
    refine ⟨hin.exited.trans hx, fun hsound => ?_⟩
    cases hbg : s.bg with
    | waiting => exact hbusy hbg
    | committing cur =>
      have hcur := h.bg cur hbg
      have hmore : hasMore (s.next env (.request req)) cur = true := by
        simp only [hasMore, hin.quick, LogStore.nextSlot, hin.startIdx, Bool.and_eq_true,
          decide_eq_true_eq]
        omega
      have hasks : (s.next env (.request req)).asks = some (cur + 1) := by
        rw [Server.asks, hin.bg, hbg]
        exact if_pos hmore
      have hstart := (hsound _ hasks).2.1
      rw [hin.startIdx] at hstart
      omega
  | _ => cases hk

theorem GapFree.head {last : Nat} {run : List (Env × Event)} (h : GapFree last s run) :
    s.exited = true ∨ Sound last s := by
  cases run with
  | nil => exact h
  | cons p run => exact h.1

theorem gapFree_of_exited : ∀ (run : List (Env × Event)) {s : Server} (last : Nat), s.exited = true →
    GapFree last s run ∧ s.Along InstallsAtRest run
  | [], _, _, hx => ⟨.inl hx, trivial⟩
  | (env, ev) :: run, s, last, hx => by
    have hnext : s.next env ev = s := by rw [Server.next, if_pos hx]
    have hrest := gapFree_of_exited run (s.lastAfter env ev last) (s := s.next env ev)
      (by rw [hnext]; exact hx)
    refine ⟨⟨.inl hx, hrest.1⟩, fun k hk => ?_, hrest.2⟩
    rw [installs_of_exited hx] at hk
    cases hk

/-- The same along a run. -/
theorem Sane.gapFree_iff : ∀ {run : List (Env × Event)} {s : Server}, Sane s →
    (GapFree s.state.commitIdx s run ↔ s.Along InstallsAtRest run)
  | [], s, h => iff_of_true (.inr h.sound) trivial
  | (env, ev) :: run, s, h => by
    rcases Bool.eq_false_or_eq_true s.exited with hx | hx
    · exact iff_of_true (gapFree_of_exited _ _ hx).1 (gapFree_of_exited _ 0 hx).2
    · constructor
      · rintro ⟨-, hgo⟩
        have hrest : InstallsAtRest s env ev := by
          by_contra hno
          obtain ⟨hlive, hunsound⟩ := h.next_unsound env hx hno (s.lastAfter env ev s.state.commitIdx)
          rcases hgo.head with hx' | hsound
          · rw [hlive] at hx'
            cases hx'
          · exact hunsound hsound
        refine ⟨hrest, ?_⟩
        rcases h.next_sane env hx hrest with ⟨h', hlast⟩ | hx'
        · rw [← hlast] at hgo
          exact h'.gapFree_iff.mp hgo
        · exact (gapFree_of_exited run 0 hx').2
      · rintro ⟨hrest, hgo⟩
        refine ⟨.inr h.sound, ?_⟩
        rcases h.next_sane env hx hrest with ⟨h', hlast⟩ | hx'
        · rw [← hlast]
          exact h'.gapFree_iff.mpr hgo
        · exact (gapFree_of_exited run _ hx').1

/-- **The committing thread goes on without gaps** along a run, from a state in which
it waits and nothing above the commit index is compacted, exactly if every step that
installs a snapshot finds it at the wait. -/
theorem gap_free_iff {s : Server} (hbg : s.bg = .waiting) (hsnp : s.snpPending = none)
    (hstart : s.logStore.startIdx ≤ s.state.commitIdx + 1) (run : List (Env × Event)) :
    GapFree s.state.commitIdx s run ↔ s.Along InstallsAtRest run := by
  refine Sane.gapFree_iff ⟨hstart, fun cur hcur => ?_, fun snp h => ?_⟩
  · rw [hbg] at hcur
    cases hcur
  · rw [hsnp] at h
    cases h

/-- The request that completes a snapshot of the log up to `k`. -/
def wholeSnapshot (k : Nat) : ReqMsg where
  term := 0
  type := .installSnapshotRequest
  src := 1
  dst := 2
  lastLogTerm := 1
  lastLogIdx := k
  commitIdx := k
  logEntries := [⟨0, (SnapshotSyncReq.mk ⟨k, 1, 1, {}⟩ 0 [] true).serialize, .snpSyncReq⟩]

theorem gap_free_iff_snapshot : GapFree 0 { id := 2 } [({}, .request (wholeSnapshot 5)), ({}, .bgWake)] ↔
    Server.Along InstallsAtRest { id := 2 } [({}, .request (wholeSnapshot 5)), ({}, .bgWake)] :=
  gap_free_iff (s := { id := 2 }) rfl rfl (by decide) _

/-- The thread is about to apply index 1 when a snapshot up to index 5 comes in. -/
theorem gap_free_fails : ¬ ∀ (s : Server), s.bg = .waiting → s.snpPending = none →
    s.logStore.startIdx ≤ s.state.commitIdx + 1 → ∀ run, GapFree s.state.commitIdx s run := by
  intro hall
  let s : Server := {
    id := 2, quickCommitIdx := 2, logStore := { entries := List.replicate 2 ⟨1, [], .appLog⟩ } }
  have h := hall s rfl rfl (by decide) [({}, .bgWake), ({}, .request (wholeSnapshot 5))]
  rcases h.2.2 with hx | hsound
  · revert hx
    decide
  · have hstart := (hsound 1 (by decide)).2.1
    revert hstart
    decide

end Cornerstone
