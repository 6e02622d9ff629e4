import Cornerstone.AppendRun

/-! # The blocks of a snapshot

`create_sync_snapshot_req` as an exact equation: which snapshot it goes on with, how
large the next block is, and when it stops the server or throws.
-/

namespace Cornerstone
open Handlers Handler Server

variable {s : Server} {env : Env} {r : PeerRef} {p : Peer} {ctx : SnapshotSyncCtx}

/-- The snapshot a request for the peer goes on with, if one can be sent. -/
def Peer.picks (p : Peer) (env : Env) (lastLogIdx : Nat) : Option SnapshotSyncCtx :=
  if needsLastSnapshot p.snpSyncCtx env.lastSnapshot then
    (env.lastSnapshot.filter fun snp => lastLogIdx ≤ snp.lastLogIdx ∧ 1 ≤ snp.size).map ({ snapshot := · })
  else p.snpSyncCtx

/-- The size of the next block, as an `int32`. -/
def Server.blockSize (s : Server) (ctx : SnapshotSyncCtx) : Int :=
  min (snapshotSyncBlockSize s.params) (int32OfUlong (ulongSub ctx.snapshot.size ctx.offset))

/-- The next block. -/
def Server.nextBlock (s : Server) (env : Env) (ctx : SnapshotSyncCtx) : SnapshotSyncReq :=
  let data := (env.readSnapshotData ctx.offset (s.blockSize ctx).toNat).take (s.blockSize ctx).toNat
  ⟨ctx.snapshot, ctx.offset, data, ctx.offset + data.length ≥ ctx.snapshot.size⟩

/-- The size is none that `buffer::alloc` refuses, the state machine reads a block of that
size, and the block fits a buffer once it is encoded. -/
structure BlockReady (env : Env) (s : Server) (ctx : SnapshotSyncCtx) : Prop where
  nonneg : 0 ≤ s.blockSize ctx
  data : (s.blockSize ctx).toNat ≤ (env.readSnapshotData ctx.offset (s.blockSize ctx).toNat).length
  fits : (s.nextBlock env ctx).serialize.length < bufferLimit

/-- The request with the next block. -/
def Server.blockReq (s : Server) (env : Env) (dst : Int) (ctx : SnapshotSyncCtx) (term commitIdx : Nat) :
    ReqMsg where
  term := term
  type := .installSnapshotRequest
  src := s.id
  dst := dst
  lastLogTerm := ctx.snapshot.lastLogTerm
  lastLogIdx := ctx.snapshot.lastLogIdx
  commitIdx := commitIdx
  logEntries := [⟨term, (s.nextBlock env ctx).serialize, .snpSyncReq⟩]

theorem nextBlock_snapshot : (s.nextBlock env ctx).snapshot = ctx.snapshot := by rw [Server.nextBlock]

theorem nextBlock_offset : (s.nextBlock env ctx).offset = ctx.offset := by rw [Server.nextBlock]

theorem nextBlock_done : (s.nextBlock env ctx).done =
    decide (ctx.snapshot.size ≤ ctx.offset + (s.nextBlock env ctx).data.length) := by
  simp only [Server.nextBlock, ge_iff_le]

theorem blockReq_entries {dst : Int} {term commitIdx : Nat} :
    (s.blockReq env dst ctx term commitIdx).logEntries =
      [⟨term, (s.nextBlock env ctx).serialize, .snpSyncReq⟩] := by
  rw [Server.blockReq]

/-- The server once it has made up its mind which snapshot to send. -/
def Server.picked (s : Server) (env : Env) (r : PeerRef) (p : Peer) (ctx : SnapshotSyncCtx) : Server :=
  if needsLastSnapshot p.snpSyncCtx env.lastSnapshot then
    s.updateAt r (·.setSnapshotInSync (some ctx.snapshot))
  else s

theorem derefPeer_run (hp : s.peerAt? r = some p) : derefPeer r s = ⟨.ok p, s, []⟩ := by
  simp [derefPeer, hp]

theorem pickSnapshot_run {lastLogIdx : Nat} (hp : s.peerAt? r = some p)
    (hctx : p.picks env lastLogIdx = some ctx) :
    pickSnapshot env r lastLogIdx s = ⟨.ok ctx, s.picked env r p ctx, []⟩ := by
  unfold Peer.picks at hctx
  simp only [pickSnapshot, bind_run, derefPeer_run hp, Outcome.andThen_ok, List.nil_append, Server.picked]
  by_cases hneeds : needsLastSnapshot p.snpSyncCtx env.lastSnapshot = true
  · simp only [hneeds, if_true] at hctx ⊢
    obtain ⟨snp, hsnp, rfl⟩ := Option.map_eq_some_iff.mp hctx
    obtain ⟨hlast, hok⟩ := Option.filter_eq_some_iff.mp hsnp
    simp only [decide_eq_true_eq] at hok
    simp only [hlast, ite_run, if_neg (Nat.not_lt.mpr hok.1), if_neg (Nat.not_lt.mpr hok.2), bind_run,
      change_run, Outcome.andThen_ok, pure_run, List.nil_append]
  · have hno : needsLastSnapshot p.snpSyncCtx env.lastSnapshot = false := Bool.eq_false_iff.mpr hneeds
    simp only [hno, Bool.false_eq_true, if_false] at hctx ⊢
    rw [hctx]
    rfl

theorem pickSnapshot_exits {lastLogIdx : Nat} (hp : s.peerAt? r = some p)
    (hctx : p.picks env lastLogIdx = none) :
    pickSnapshot env r lastLogIdx s = ⟨.error .exit, { s with exited := true }, [.systemExit (-1)]⟩ := by
  unfold Peer.picks at hctx
  simp only [pickSnapshot, bind_run, derefPeer_run hp, Outcome.andThen_ok, List.nil_append]
  by_cases hneeds : needsLastSnapshot p.snpSyncCtx env.lastSnapshot = true
  · simp only [hneeds, if_true] at hctx ⊢
    cases hlast : env.lastSnapshot with
    | none => simp [systemExitAndExit]
    | some snp =>
      rw [hlast] at hctx
      by_cases hle : lastLogIdx ≤ snp.lastLogIdx
      · have hsize : snp.size < 1 := by simpa [hle] using hctx
        simp [Nat.not_lt.mpr hle, hsize, systemExitAndExit]
      · simp [Nat.lt_of_not_ge hle, systemExitAndExit]
  · have hno : needsLastSnapshot p.snpSyncCtx env.lastSnapshot = false := Bool.eq_false_iff.mpr hneeds
    simp only [hno, Bool.false_eq_true, if_false] at hctx
    rw [hctx] at hno
    cases hno

/-- The peer object is still there, with the snapshot in sync. -/
theorem picked_peerAt? {lastLogIdx : Nat} (hp : s.peerAt? r = some p)
    (hctx : p.picks env lastLogIdx = some ctx) :
    (s.picked env r p ctx).peerAt? r = some { p with snpSyncCtx := some ctx } := by
  unfold Peer.picks at hctx
  unfold Server.picked
  split
  · rename_i hneeds
    rw [if_pos hneeds] at hctx
    obtain ⟨snp, -, rfl⟩ := Option.map_eq_some_iff.mp hctx
    cases r with
    | peer pid => exact findPeer_updatePeer (fun _ => rfl) hp
    | joining =>
      have hj : s.srvToJoin = some p := hp
      simp [updateAt, peerAt?, hj, Peer.setSnapshotInSync]
  · rename_i hneeds
    rw [if_neg hneeds] at hctx
    rw [← hctx]
    exact hp

/-- It is still the same server. -/
theorem picked_rest : (s.picked env r p ctx).params = s.params ∧ (s.picked env r p ctx).id = s.id := by
  unfold Server.picked
  split
  · cases r <;> exact ⟨rfl, rfl⟩
  · exact ⟨rfl, rfl⟩

/-- `create_sync_snapshot_req` once it has picked a snapshot and knows the size. -/
theorem createSyncSnapshotReq_picked {lastLogIdx term commitIdx : Nat} {size : Int}
    (hp : s.peerAt? r = some p) (hctx : p.picks env lastLogIdx = some ctx) (hsize : s.blockSize ctx = size) :
    createSyncSnapshotReq env r lastLogIdx term commitIdx s =
      (if size < 0 then halt .throw
      else if ((env.readSnapshotData ctx.offset size.toNat).take size.toNat).length < size.toNat then
        systemExitAndExit (-1)
      else if bufferLimit ≤ (s.nextBlock env ctx).serialize.length then halt .throw
      else pure (s.blockReq env p.id ctx term commitIdx) : Action ReqMsg) (s.picked env r p ctx) := by
  have hp' := picked_peerAt? hp hctx
  obtain ⟨hparams, hsid⟩ := @picked_rest s env r p ctx
  have hid : ({ p with snpSyncCtx := some ctx } : Peer).id = p.id := rfl
  rw [createSyncSnapshotReq, bind_silent (pickSnapshot_run hp hctx), bind_silent (derefPeer_run hp'),
    bind_silent (look_run _)]
  rw [Server.blockReq, Server.nextBlock, hsize]
  rw [Server.blockSize] at hsize
  dsimp only
  rw [hid, hparams, hsid, hsize]

/-- **`create_sync_snapshot_req`**, when the snapshot can be sent. -/
theorem createSyncSnapshotReq_run {lastLogIdx term commitIdx : Nat} (hp : s.peerAt? r = some p)
    (hctx : p.picks env lastLogIdx = some ctx) (hready : BlockReady env s ctx) :
    createSyncSnapshotReq env r lastLogIdx term commitIdx s =
      ⟨.ok (s.blockReq env p.id ctx term commitIdx), s.picked env r p ctx, []⟩ := by
  obtain ⟨size, hsize⟩ : ∃ size, s.blockSize ctx = size := ⟨_, rfl⟩
  have hneg : ¬ size < 0 := hsize ▸ Int.not_lt.mpr hready.nonneg
  have hdata := hready.data
  rw [hsize] at hdata
  have hlen : ¬ ((env.readSnapshotData ctx.offset size.toNat).take size.toNat).length < size.toNat := by
    rw [List.length_take]
    omega
  rw [createSyncSnapshotReq_picked hp hctx hsize, if_neg hneg, if_neg hlen,
    if_neg (Nat.not_le.mpr hready.fits), pure_run]

/-- When it cannot, `create_sync_snapshot_req` ends without a request. -/
theorem createSyncSnapshotReq_fails {lastLogIdx term commitIdx : Nat} (hp : s.peerAt? r = some p)
    (hno : ¬ ∃ ctx, p.picks env lastLogIdx = some ctx ∧ BlockReady env s ctx) :
    ∃ e t o, createSyncSnapshotReq env r lastLogIdx term commitIdx s = ⟨.error e, t, o⟩ ∧
      ∀ w ∈ o, w = .systemExit (-1) := by
  cases hctx : p.picks env lastLogIdx with
  | none =>
    refine ⟨.exit, { s with exited := true }, [.systemExit (-1)], ?_, fun w hw => List.mem_singleton.mp hw⟩
    rw [createSyncSnapshotReq, bind_run, pickSnapshot_exits hp hctx, Outcome.andThen_error]
  | some ctx =>
    obtain ⟨size, hsize⟩ : ∃ size, s.blockSize ctx = size := ⟨_, rfl⟩
    rw [createSyncSnapshotReq_picked hp hctx hsize]
    by_cases hneg : size < 0
    · rw [if_pos hneg]
      exact ⟨_, _, _, rfl, by simp⟩
    by_cases hshort : ((env.readSnapshotData ctx.offset size.toNat).take size.toNat).length < size.toNat
    · rw [if_neg hneg, if_pos hshort]
      exact ⟨_, _, _, rfl, fun w hw => List.mem_singleton.mp hw⟩
    have hlarge : bufferLimit ≤ (s.nextBlock env ctx).serialize.length := by
      by_contra hfits
      refine hno ⟨ctx, hctx, ?_, ?_, Nat.not_le.mp hfits⟩
      · rw [hsize]
        exact Int.not_lt.mp hneg
      · rw [List.length_take] at hshort
        rw [hsize]
        omega
    rw [if_neg hneg, if_neg hshort, if_pos hlarge]
    exact ⟨_, _, _, rfl, by simp⟩

end Cornerstone
