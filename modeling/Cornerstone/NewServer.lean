import Cornerstone.SnapshotBlocks
import Cornerstone.EntryOrigin

/-! # A new server is put into the configuration

The leader calls `sync_log_to_new_srv` for the responses of the server it adds, with the
index that server goes on from.  It stops when the gap to the commit index, computed as
an `int32`, is small.
-/

namespace Cornerstone
open Handlers Handler Server

variable {s u : Server} {env : Env} {resp : RespMsg}

/-- The responses that bring a joining server further. -/
def RespMsg.forJoining (resp : RespMsg) : Prop :=
  resp.type = .joinClusterResponse ∨ resp.type = .syncLogResponse ∨ resp.type = .installSnapshotResponse

/-- The snapshot whose last block a response acknowledges. -/
def Server.copied (s : Server) (resp : RespMsg) : Option Snapshot :=
  match s.srvToJoin.bind Peer.snpSyncCtx with
  | some ctx => if resp.nextIdx ≥ ctx.snapshot.size then some ctx.snapshot else none
  | none => none

/-- The next index of the log a response shows: none before the log is synced, the
one behind the snapshot once that is copied. -/
def Server.shownIdx (s : Server) (resp : RespMsg) : Nat :=
  match resp.type with
  | .syncLogResponse => resp.nextIdx
  | .installSnapshotResponse => ((s.copied resp).map (·.lastLogIdx + 1)).getD 0
  | _ => 1

/-- The index `sync_log_to_new_srv` is called with. -/
def Server.syncStart (s : Server) (resp : RespMsg) : Nat :=
  match resp.type with
  | .installSnapshotResponse =>
    ((s.copied resp).map (·.lastLogIdx + 1)).getD ((s.srvToJoin.map Peer.nextLogIdx).getD 0)
  | _ => s.shownIdx resp

/-! ## sync_log_to_new_srv -/

/-- Where an entry of the server's own comes up. -/
def Effect.isOriginate : Effect → Bool
  | .originate _ _ _ _ => true
  | _ => false

theorem RequestEffect.no_originate {q : Nat} {e : Effect} (h : RequestEffect s q e) : e.isOriginate = false := by
  cases h <;> rfl

/-- The law of originating no entry. -/
def OriginatesNone (_ : Server) (o : List Effect) (_ : Server) : Prop := ∀ e ∈ o, e.isOriginate = false

theorem originatesNone_law : Law OriginatesNone where
  refl _ := by simp [OriginatesNone]
  trans := by
    intro s t u o o' h h' e he
    rcases List.mem_append.mp he with he | he
    · exact h e he
    · exact h' e he

theorem Sends.originatesNone {t : Server} {o : List Effect} (h : Sends s o t) : OriginatesNone s o t :=
  fun e he => (h.out e he).no_originate

theorem originatesNone_sendExtReq (req : ReqMsg) : Obeys OriginatesNone s (sendExtReq req) :=
  .look_bind fun e he => by
    rw [List.mem_singleton.mp he]
    rfl

/-- `sync_log_to_new_srv` makes up a configuration entry only when the gap is small. -/
theorem syncLogToNewSrv_originates {start : Nat}
    (h : ¬ Obeys OriginatesNone s (syncLogToNewSrv env start)) :
    syncGap s start < s.params.logSyncStopGap ∧ ∃ c, s.confToAdd = some c := by
  by_contra hno
  refine h (.look_bind (.bind originatesNone_law (Sends.originatesNone (reads_derefPeer sends_law _)) fun p _ => ?_))
  rw [derefPeer_state]
  refine .ite (fun hgap => ?_) fun _ => .ite (fun _ => ?_) fun _ => ?_
  · cases hadd : s.confToAdd with
    | none => exact .halt originatesNone_law _
    | some c => exact absurd ⟨hgap, c, hadd⟩ hno
  · exact .bind originatesNone_law (Sends.originatesNone (sends_createSyncSnapshotReq env _ _ _ _)) fun _ _ =>
      originatesNone_sendExtReq _
  · cases s.logStore.pack start (min (syncGap s start) s.params.logSyncBatchSize) with
    | none => exact .halt originatesNone_law _
    | some logPack => exact originatesNone_sendExtReq _

/-- Where the gap is an `int32`, it is what it should be. -/
theorem syncGap_eq {start : Nat} (hlo : -(uintSize / 2 : Int) ≤ s.quickCommitIdx - start)
    (hhi : (s.quickCommitIdx : Int) - start < uintSize / 2) :
    syncGap s start = s.quickCommitIdx - start := by
  have hsub : ∃ k : Int, (ulongSub s.quickCommitIdx start : Int) = s.quickCommitIdx - start + uintSize * k := by
    have hmod := Nat.mod_add_div (s.quickCommitIdx + (ulongSize - start % ulongSize)) ulongSize
    have hstart := Nat.mod_add_div start ulongSize
    have hlt := Nat.mod_lt start (show 0 < ulongSize by decide)
    refine ⟨2 ^ 32 * (1 + start / ulongSize -
      (s.quickCommitIdx + (ulongSize - start % ulongSize)) / ulongSize : Int), ?_⟩
    rw [ulongSub]
    simp only [ulongSize, uintSize] at *
    omega
  obtain ⟨k, hk⟩ := hsub
  rw [syncGap, int32OfUlong, hk, Int.add_mul_bmod_self_left]
  simp only [uintSize] at *
  rw [Int.bmod_eq_of_le] <;> omega

/-! ## handle_ext_resp -/

/-- What `handle_ext_resp` does with a response that brings the new server further: it
drops it, the server stops, or it goes on from the index it calls `sync_log_to_new_srv`
with. -/
inductive JoinOutcome (env : Env) (s : Server) (resp : RespMsg) : Prop
  | dropped (h : handleExtResp env resp s = ⟨.ok (), s, []⟩)
  | stopped (h : handleExtResp env resp s = ⟨.error .exit, { s with exited := true }, [.systemExit (-1)]⟩)
      (hacc : resp.accepted = true)
  | synced (u : Server) (h : handleExtResp env resp s = syncLogToNewSrv env (s.syncStart resp) u)
      (hu : u = { s with srvToJoin := u.srvToJoin }) (hj : s.srvToJoin ≠ none)
      (hacc : resp.type = .syncLogResponse ∨ resp.accepted = true)

theorem handleExtResp_sync (ht : resp.type = .syncLogResponse) : JoinOutcome env s resp := by
  cases hj : s.srvToJoin with
  | none => exact .dropped (by simp [handleExtResp, ht, hj])
  | some joining =>
    refine .synced (s.updateAt .joining fun p => { p.resumeHbSpeed s.params with
        nextLogIdx := resp.nextIdx
        matchedIdx := ulongSub resp.nextIdx 1 }) ?_ rfl (by simp [hj]) (.inl ht)
    simp [handleExtResp, ht, hj, Server.syncStart, Server.shownIdx]

theorem handleExtResp_join (ht : resp.type = .joinClusterResponse) : JoinOutcome env s resp := by
  cases hj : s.srvToJoin with
  | none => exact .dropped (by simp [handleExtResp, ht, hj])
  | some joining =>
    cases hacc : resp.accepted with
    | false => exact .dropped (by simp [handleExtResp, ht, hj, hacc])
    | true =>
      refine .synced s ?_ rfl (by simp [hj]) (.inr hacc)
      simp [handleExtResp, ht, hj, hacc, Server.syncStart, Server.shownIdx]

/-- The snapshot goes on or is done. -/
theorem handleExtSnapshotResp_run {joining : Peer} {ctx : SnapshotSyncCtx} (hj : s.srvToJoin = some joining)
    (hacc : resp.accepted = true) (hctx : joining.snpSyncCtx = some ctx) :
    ∃ u, u = { s with srvToJoin := u.srvToJoin } ∧ handleExtSnapshotResp env resp s =
      syncLogToNewSrv env
        (if resp.nextIdx ≥ ctx.snapshot.size then ctx.snapshot.lastLogIdx + 1 else joining.nextLogIdx) u := by
  have hat : ∀ f : Peer → Peer, (s.updateAt .joining f).peerAt? .joining = some (f joining) := by
    intro f
    simp [updateAt, peerAt?, hj]
  rw [handleExtSnapshotResp, bind_silent (look_run _), hj]
  dsimp only
  rw [if_neg (by simp [hacc]), hctx]
  dsimp only
  by_cases hdone : resp.nextIdx ≥ ctx.snapshot.size
  · refine ⟨s.updateAt .joining fun p => { p with
      snpSyncCtx := none
      nextLogIdx := ctx.snapshot.lastLogIdx + 1
      matchedIdx := ctx.snapshot.lastLogIdx }, rfl, ?_⟩
    rw [if_pos hdone, if_pos hdone, bind_silent (change_run _ _), bind_silent (derefPeer_run (hat _))]
  · refine ⟨s.updateAt .joining fun p => { p with
      snpSyncCtx := some { ctx with offset := resp.nextIdx } }, rfl, ?_⟩
    rw [if_neg hdone, if_neg hdone, bind_silent (change_run _ _), bind_silent (derefPeer_run (hat _))]

theorem handleExtResp_block (ht : resp.type = .installSnapshotResponse) : JoinOutcome env s resp := by
  have hexp : handleExtResp env resp s = handleExtSnapshotResp env resp s := by
    rw [handleExtResp, bind_silent (look_run _), ht]
  cases hj : s.srvToJoin with
  | none => exact .dropped (by simp [hexp, handleExtSnapshotResp, hj])
  | some joining =>
    cases hacc : resp.accepted with
    | false => exact .dropped (by simp [hexp, handleExtSnapshotResp, hj, hacc])
    | true =>
      cases hctx : joining.snpSyncCtx with
      | none => exact .stopped (by simp [hexp, handleExtSnapshotResp, hj, hacc, hctx, systemExitAndExit]) hacc
      | some ctx =>
        obtain ⟨u, hu, hrun⟩ := @handleExtSnapshotResp_run s env _ _ _ hj hacc hctx
        refine .synced u (hexp.trans (hrun.trans ?_)) hu (by simp [hj]) (.inr hacc)
        congr 1
        by_cases hdone : resp.nextIdx ≥ ctx.snapshot.size
        · simp [Server.syncStart, Server.copied, ht, hj, hctx, hdone]
        · simp [Server.syncStart, Server.copied, ht, hj, hctx, hdone]

theorem handleExtResp_forJoining (h : resp.forJoining) : JoinOutcome env s resp := by
  rcases h with h | h | h
  · exact handleExtResp_join h
  · exact handleExtResp_sync h
  · exact handleExtResp_block h

/-! ## Runs -/

/-- What is asked of handling such a response: the leader puts a server into the
configuration only if that server accepted and its log, as far as the response shows it, is
close to the commit index; a refusal changes nothing. -/
structure JoinChecked (env : Env) (s : Server) (resp : RespMsg) : Prop where
  added : ¬ Obeys OriginatesNone s (handleExtResp env resp) →
    resp.accepted = true ∧ ∃ c, s.confToAdd = some c ∧ resp.src = c.id ∧
      (s.quickCommitIdx : Int) - s.shownIdx resp < s.params.logSyncStopGap
  refused : resp.accepted = false → handleExtResp env resp s = ⟨.ok (), s, []⟩

/-- When it is so: no synced log was refused, what is accepted comes from the server to be
added, the gap is an `int32`, and a block in the middle of a snapshot does not end the
join on the word of an earlier response. -/
structure JoinReady (s : Server) (resp : RespMsg) : Prop where
  accepted : resp.type = .syncLogResponse → resp.accepted = true ∨ s.srvToJoin = none
  own : resp.accepted = true → ∀ c ∈ s.confToAdd, resp.src = c.id
  gap_ge : resp.accepted = true → -(uintSize / 2 : Int) ≤ s.quickCommitIdx - s.syncStart resp
  gap_lt : resp.accepted = true → (s.quickCommitIdx : Int) - s.syncStart resp < uintSize / 2
  shown : resp.accepted = true → s.syncStart resp = s.shownIdx resp ∨
    s.params.logSyncStopGap ≤ s.quickCommitIdx - s.syncStart resp

/-- Handling one response. -/
theorem join_checked (h : resp.forJoining) (hready : JoinReady s resp) : JoinChecked env s resp := by
  have hempty : ∀ {x : Outcome Server Effect Stop Unit} {o : List Effect}, handleExtResp env resp s = x →
      x.out = o → (∀ e ∈ o, e.isOriginate = false) → Obeys OriginatesNone s (handleExtResp env resp) := by
    intro x o hx ho hnone
    unfold Obeys OriginatesNone
    rw [hx, ho]
    exact hnone
  cases @handleExtResp_forJoining s env _ h with
  | dropped hrun => exact ⟨fun hno => absurd (hempty hrun rfl (by simp)) hno, fun _ => hrun⟩
  | stopped hrun hacc =>
    refine ⟨fun hno => absurd (hempty hrun rfl ?_) hno, fun hdecl => ?_⟩
    · simp [Effect.isOriginate]
    · rw [hacc] at hdecl
      cases hdecl
  | synced u hrun hu hj hor =>
    have hacc : resp.accepted = true := by
      rcases hor with ht | hacc
      · exact (hready.accepted ht).resolve_right hj
      · exact hacc
    have hquick : u.quickCommitIdx = s.quickCommitIdx := by rw [hu]
    have hparams : u.params = s.params := by rw [hu]
    have hadd : u.confToAdd = s.confToAdd := by rw [hu]
    refine ⟨fun hno => ?_, fun hdecl => ?_⟩
    · have hsync : ¬ Obeys OriginatesNone u (syncLogToNewSrv env (s.syncStart resp)) := by
        unfold Obeys at hno ⊢
        rw [hrun] at hno
        exact hno
      obtain ⟨hgap, c, hc⟩ := syncLogToNewSrv_originates hsync
      rw [syncGap_eq (by rw [hquick]; exact hready.gap_ge hacc) (by rw [hquick]; exact hready.gap_lt hacc),
        hquick, hparams] at hgap
      rw [hadd] at hc
      refine ⟨hacc, c, hc, hready.own hacc c hc, ?_⟩
      rcases hready.shown hacc with heq | hge
      · rwa [← heq]
      · omega
    · rw [hacc] at hdecl
      cases hdecl

/-- What a step of a run does with a response for the new server, if it handles one, in
the state that the rpc result left. -/
def OnJoining (P : Env → Server → RespMsg → Prop) (s : Server) (env : Env) (ev : Event) : Prop :=
  ∀ via reqType resp, ev = .extResp via reqType resp → s.exited = false → resp.forJoining →
    P env (rpcResult via reqType false s).state resp

/-- **In every run whose steps meet the condition a server is put into the configuration
only after it caught up.** -/
theorem joins_checked_of_ready (s : Server) (run : List (Env × Event))
    (h : s.Along (OnJoining fun _ => JoinReady) run) : s.Along (OnJoining JoinChecked) run :=
  h.mono fun _ _ _ hready via reqType resp hev hx hjoin =>
    join_checked hjoin (hready via reqType resp hev hx hjoin)

/-- Server 1, alone, takes office, commits its configuration and is asked to add server 2. -/
def addsTwo : List (Env × Event) :=
  [({}, .electionTimeout), ({}, .bgWake), ({}, .bgIter),
   ({}, .request {
      term := 0, type := .addServerRequest, src := 0, dst := 1
      lastLogTerm := 0, lastLogIdx := 0, commitIdx := 0
      logEntries := [⟨0, SrvConfig.serialize ⟨2, [50]⟩, .clusterServer⟩] })]

/-- It hears that server 2 joins. -/
def twoJoins : List (Env × Event) :=
  [({}, .extResp (some .joining) .joinClusterRequest ⟨1, .joinClusterResponse, 2, 1, 1, true⟩)]

/-- Server 2 is added with nothing to sync. -/
theorem joins_checked_of_ready_invited :
    (loneServer.runFrom addsTwo).Along (OnJoining JoinChecked) twoJoins := by
  refine joins_checked_of_ready _ _ ⟨?_, trivial⟩
  intro via reqType resp hev _ _
  cases hev
  set t := (rpcResult (some .joining) .joinClusterRequest false (loneServer.runFrom addsTwo)).state with ht
  have hadd : t.confToAdd = some ⟨2, [50]⟩ := by decide +kernel
  have hquick : t.quickCommitIdx = 1 := by decide +kernel
  refine ⟨fun hsync => (by cases hsync), fun _ c hc => ?_, fun _ => ?_, fun _ => ?_, fun _ => .inl rfl⟩
  · rw [hadd] at hc
    cases hc
    rfl
  · rw [hquick]
    decide
  · rw [hquick]
    decide

/-- **A refusal completes a join**: the next index of a refused response is 0, which is
close to commit index 1. -/
theorem joins_checked_fails : ¬ (loneServer.runFrom addsTwo).Along (OnJoining JoinChecked)
    [({}, .extResp (some .joining) .syncLogRequest ⟨1, .syncLogResponse, 2, 1, 0, false⟩)] := by
  rintro ⟨h, -⟩
  have hchecked := (h _ _ _ rfl (by decide +kernel) (.inr (.inl rfl))).refused rfl
  have hout := congrArg Outcome.out hchecked
  revert hout
  decide +kernel

end Cornerstone
