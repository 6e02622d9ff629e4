import Cornerstone.CompactedLog
import Cornerstone.PeerFlags
import Cornerstone.GapFree

/-! # A snapshot on its way to a peer

The leader's `request_append_entries` sends a block, the follower saves it and answers,
and `handle_install_snapshot_resp` sends the next block or is done.  The offset of a block
is an `ulong`, but what is left of the snapshot is computed as an `int32`.
-/

namespace Cornerstone
open Handlers Handler Server

variable {s t : Server} {env : Env} {pid : Int} {p : Peer} {ctx : SnapshotSyncCtx}

/-! ## What the leader sends -/

theorem findPeer_makeBusy (hp : s.findPeer pid = some p) :
    (s.makeBusy pid).findPeer pid = some { p with busy := true } :=
  findPeer_updatePeer (f := fun p => { p with busy := true }) (fun _ => rfl) hp

/-- The next block depends on the parameters only. -/
theorem nextBlock_congr (h : t.params = s.params) : t.nextBlock env ctx = s.nextBlock env ctx := by
  rw [Server.nextBlock, Server.nextBlock, Server.blockSize, Server.blockSize, h]

theorem BlockReady.congr (hb : BlockReady env s ctx) (h : t.params = s.params) : BlockReady env t ctx := by
  have hsize : t.blockSize ctx = s.blockSize ctx := by rw [Server.blockSize, Server.blockSize, h]
  refine ⟨?_, ?_, ?_⟩
  · rw [hsize]
    exact hb.nonneg
  · rw [hsize]
    exact hb.data
  · rw [nextBlock_congr h]
    exact hb.fits

/-- What a server keeps that only makes up a request for a peer. -/
theorem requestAppendEntriesTo_rest : (requestAppendEntriesTo env pid s).state =
    { s with
      peers := (requestAppendEntriesTo env pid s).state.peers
      srvToJoin := (requestAppendEntriesTo env pid s).state.srvToJoin
      exited := (requestAppendEntriesTo env pid s).state.exited } :=
  Sends.rest (sends_requestAppendEntriesTo env pid)

/-- A peer that lacks compacted entries is sent a block. -/
theorem requestAppendEntriesTo_block (hp : s.findPeer pid = some p) (hidle : p.busy = false)
    (h2 : 2 ≤ p.nextLogIdx) (hlt : p.nextLogIdx < s.logStore.startIdx)
    (hctx : p.picks env (p.nextLogIdx - 1) = some ctx) (hready : BlockReady env s ctx) :
    ∃ t, requestAppendEntriesTo env pid s =
        ⟨.ok true, t, [.send (s.blockReq env pid ctx s.state.term s.quickCommitIdx) s.state]⟩ ∧
      t.findPeer pid = some { p with busy := true, snpSyncCtx := some ctx } := by
  obtain ⟨-, rfl⟩ := findPeer_mem hp
  set b : Peer := { p with busy := true } with hb
  have hbid : b.id = p.id := rfl
  have hbusy : (s.makeBusy p.id).findPeer b.id = some b := findPeer_makeBusy hp
  set u := (s.makeBusy p.id).located b.id with hu
  have hloc : u.peerAt? (.peer b.id) = some b := peerAt?_located hbusy (by omega : 1 ≤ p.nextLogIdx)
  have hbelow : createAppendEntriesReq env p.id (s.makeBusy p.id) =
      createSyncSnapshotReq env (.peer p.id) (p.nextLogIdx - 1) s.state.term s.quickCommitIdx u :=
    createAppendEntriesReq_below (p := b) hbusy h2 hlt
  have hrun : createSyncSnapshotReq env (.peer p.id) (p.nextLogIdx - 1) s.state.term s.quickCommitIdx u =
      ⟨.ok (u.blockReq env p.id ctx s.state.term s.quickCommitIdx), u.picked env (.peer p.id) b ctx, []⟩ :=
    createSyncSnapshotReq_run (p := b) hloc hctx (hready.congr rfl)
  have hreq : u.blockReq env p.id ctx s.state.term s.quickCommitIdx =
      s.blockReq env p.id ctx s.state.term s.quickCommitIdx := by
    rw [Server.blockReq, Server.blockReq, nextBlock_congr (t := u) (s := s) rfl]
    rfl
  have hstate : (u.picked env (.peer p.id) b ctx).state = s.state := by
    unfold Server.picked
    split <;> rfl
  refine ⟨u.picked env (.peer p.id) b ctx, ?_, picked_peerAt? (p := b) hloc hctx⟩
  rw [requestAppendEntriesTo_idle hp hidle, bind_silent (hbelow.trans hrun), hreq]
  simp only [sendReq, bind_run, look_run, emit_run, pure_run, Outcome.andThen_ok, hstate, List.nil_append,
    List.append_nil]

/-- If there is none, nothing is sent. -/
theorem requestAppendEntriesTo_stuck (hp : s.findPeer pid = some p) (hidle : p.busy = false)
    (h2 : 2 ≤ p.nextLogIdx) (hlt : p.nextLogIdx < s.logStore.startIdx)
    (hno : ¬ ∃ ctx, p.picks env (p.nextLogIdx - 1) = some ctx ∧ BlockReady env s ctx) :
    ∃ e, (requestAppendEntriesTo env pid s).res = .error e ∧
      ∀ w ∈ (requestAppendEntriesTo env pid s).out, w = .systemExit (-1) := by
  obtain ⟨-, rfl⟩ := findPeer_mem hp
  set b : Peer := { p with busy := true } with hb
  have hbusy : (s.makeBusy p.id).findPeer b.id = some b := findPeer_makeBusy hp
  set u := (s.makeBusy p.id).located b.id with hu
  have hloc : u.peerAt? (.peer b.id) = some b := peerAt?_located hbusy (by omega : 1 ≤ p.nextLogIdx)
  have hbelow : createAppendEntriesReq env p.id (s.makeBusy p.id) =
      createSyncSnapshotReq env (.peer p.id) (p.nextLogIdx - 1) s.state.term s.quickCommitIdx u :=
    createAppendEntriesReq_below (p := b) hbusy h2 hlt
  obtain ⟨e, t, o, hrun, ho⟩ := @createSyncSnapshotReq_fails _ env _ b (p.nextLogIdx - 1)
    s.state.term s.quickCommitIdx hloc
    fun ⟨ctx, hctx, hready⟩ => hno ⟨ctx, hctx, hready.congr (s := u) (t := s) rfl⟩
  rw [requestAppendEntriesTo_idle hp hidle, bind_run, hbelow.trans hrun, Outcome.andThen_error]
  exact ⟨e, rfl, ho⟩

/-- A peer that lacks none is sent entries. -/
theorem requestAppendEntriesTo_entries {term : Nat} (hp : s.findPeer pid = some p) (hidle : p.busy = false)
    (h1 : 1 ≤ p.nextLogIdx) (hle : p.nextLogIdx ≤ s.logStore.nextSlot) (hge : s.logStore.startIdx ≤ p.nextLogIdx)
    (hterm : termForLog env (p.nextLogIdx - 1) s = ⟨.ok term, s, []⟩) :
    ∃ t, requestAppendEntriesTo env pid s = ⟨.ok true, t, [.send (s.entriesReq p term) s.state]⟩ ∧
      t.findPeer pid = some { p with busy := true } := by
  obtain ⟨-, rfl⟩ := findPeer_mem hp
  set b : Peer := { p with busy := true } with hb
  have hbusy : (s.makeBusy p.id).findPeer b.id = some b := findPeer_makeBusy hp
  have hterm' := termForLog_congr (s := s) (t := s.makeBusy p.id) rfl hterm
  have hrun : createAppendEntriesReq env p.id (s.makeBusy p.id) =
      ⟨.ok (s.entriesReq p term), (s.makeBusy p.id).located p.id, []⟩ :=
    createAppendEntriesReq_above (p := b) hbusy h1 hle hge hterm'
  refine ⟨(s.makeBusy p.id).located p.id, ?_, peerAt?_located (p := b) hbusy h1⟩
  rw [requestAppendEntriesTo_idle hp hidle, bind_silent hrun]
  rfl

/-! ## What the follower does -/

variable {req : ReqMsg} {r : SnapshotSyncReq}

/-- A request that brings a block to a follower that wants it. -/
structure BringsBlock (s : Server) (req : ReqMsg) (r : SnapshotSyncReq) : Prop where
  role : s.role = .follower
  term : s.state.term ≤ req.term
  entries : ∃ e, req.logEntries = [e] ∧ e.valType = .snpSyncReq ∧ SnapshotSyncReq.deserialize e.buf = some r
  above : s.state.commitIdx < r.snapshot.lastLogIdx

/-- The follower saves the block and asks for what is behind it. -/
def Server.blockResp (s : Server) (req : ReqMsg) (r : SnapshotSyncReq) : RespMsg :=
  RespMsg.accept { term := s.state.term, type := .installSnapshotResponse, src := s.id, dst := req.src }
    (r.offset + r.data.length)

theorem handleInstallSnapshotReq_run {u : Server} {o : List Effect} (h : BringsBlock s req r)
    (hrun : installSnapshotBlock env r s = ⟨.ok true, u, o⟩) :
    handleInstallSnapshotReq env req s = ⟨.ok (s.blockResp req r), u, o⟩ := by
  obtain ⟨e, hentries, htype, hd⟩ := h.entries
  have hterm : ¬ (s.catchingUp = false ∧ req.term < s.state.term) := by
    have := h.term
    omega
  have hsync : handleSnapshotSyncReq env r s = ⟨.ok true, u, o⟩ := by
    rw [handleSnapshotSyncReq, rescue, hrun]
  rw [handleInstallSnapshotReq, bind_silent (look_run _), bind_silent (followLeader_follower h.role),
    bind_silent (look_run _), if_neg hterm, hentries]
  dsimp only
  rw [if_neg (not_not.mpr htype), hd]
  dsimp only
  rw [if_neg (Nat.not_le.mpr h.above), bind_run, hsync, Outcome.andThen_ok]
  simp [Server.blockResp]

/-- A block that is not the last changes nothing in the server. -/
theorem handleInstallSnapshotReq_more (h : BringsBlock s req r) (hsave : env.saveSnapshotData = true)
    (hmore : r.done = false) :
    handleInstallSnapshotReq env req s =
      ⟨.ok (s.blockResp req r), s, [.saveSnapshotData r.snapshot r.offset r.data]⟩ := by
  refine handleInstallSnapshotReq_run h ?_
  simp [installSnapshotBlock, hsave, hmore]

/-- The last one installs the snapshot. -/
theorem handleInstallSnapshotReq_last (h : BringsBlock s req r) (hsave : env.saveSnapshotData = true)
    (hcompact : env.compact = true) (happly : env.applySnapshot = true)
    (hstart : s.logStore.startIdx ≤ r.snapshot.lastLogIdx) (hdone : r.done = true) :
    ∃ u o, handleInstallSnapshotReq env req s = ⟨.ok (s.blockResp req r), u, o⟩ := by
  obtain ⟨ok, hok, rfl, -⟩ := installSnapshotBlock_run env r ⟨hsave, h.role, hdone, hstart, hcompact, happly⟩
  exact ⟨_, _, handleInstallSnapshotReq_run h (Outcome.ext hok rfl rfl)⟩

/-! ## What the leader makes of the answer -/

/-- The answer arrives: the rpc result frees the peer before
`handle_install_snapshot_resp` runs. -/
def hearInstall (env : Env) (pid : Int) (resp : RespMsg) : Action Unit := do
  rpcResult (some (.peer pid)) .installSnapshotRequest false
  handleInstallSnapshotResp env resp

/-- The peer as the rpc result leaves it. -/
def Server.freed (s : Server) (pid : Int) : Server :=
  s.updatePeer pid (Peer.rpcResult s.params .installSnapshotRequest false)

theorem findPeer_freed (hp : s.findPeer pid = some p) :
    (s.freed pid).findPeer pid =
      some { p with busy := false, currentHbInterval := s.params.heartBeatInterval } :=
  findPeer_updatePeer (f := Peer.rpcResult s.params .installSnapshotRequest false) (fun _ => rfl) hp

variable {resp : RespMsg}

/-- The leader goes on with the offset the follower asks for. -/
theorem hearInstall_more (hp : s.findPeer pid = some p) (hctx : p.snpSyncCtx = some ctx)
    (hrole : s.role = .leader) (hsrc : resp.src = pid) (hacc : resp.accepted = true)
    (hmore : resp.nextIdx < ctx.snapshot.size) :
    ∃ u p', hearInstall env pid resp s = (requestAppendEntriesTo env pid >>= fun _ => pure ()) u ∧
      u = { s with peers := u.peers } ∧ u.findPeer pid = some p' ∧ p'.busy = false ∧
      p'.nextLogIdx = p.nextLogIdx ∧ p'.snpSyncCtx = some { ctx with offset := resp.nextIdx } := by
  have hfree := findPeer_freed hp
  have hfreed : rpcResult (some (.peer pid)) .installSnapshotRequest false s = ⟨.ok (), s.freed pid, []⟩ := rfl
  have hu := findPeer_updatePeer (f := fun p => { p with snpSyncCtx := some { ctx with offset := resp.nextIdx } })
    (fun _ => rfl) hfree
  refine ⟨_, _, ?_, rfl, hu, rfl, rfl, rfl⟩
  rw [hearInstall, bind_silent hfreed, handleInstallSnapshotResp, bind_silent (look_run _), hsrc, hfree]
  dsimp only
  rw [if_pos hacc, acceptedSnapshot]
  simp only [hctx]
  rw [bind_run, bind_silent (look_run _), if_neg (Nat.not_le.mpr hmore), bind_silent (change_run _ _), pure_run,
    Outcome.andThen_ok, List.nil_append, hsrc, continueWith, bind_silent (look_run _), if_pos ⟨hrole, rfl⟩]

/-- The leader is done with the snapshot. -/
theorem hearInstall_last (hp : s.findPeer pid = some p) (hctx : p.snpSyncCtx = some ctx)
    (hsrc : resp.src = pid) (hacc : resp.accepted = true) (hlast : ctx.snapshot.size ≤ resp.nextIdx) :
    ∃ u p' b, hearInstall env pid resp s = continueWith env pid b u ∧
      u = { s with peers := u.peers } ∧ u.findPeer pid = some p' ∧ p'.busy = false ∧
      p'.nextLogIdx = ctx.snapshot.lastLogIdx + 1 ∧ p'.snpSyncCtx = none := by
  have hfree := findPeer_freed hp
  have hfreed : rpcResult (some (.peer pid)) .installSnapshotRequest false s = ⟨.ok (), s.freed pid, []⟩ := rfl
  have hu := findPeer_updatePeer (f := fun p => { p with
      nextLogIdx := ctx.snapshot.lastLogIdx + 1
      matchedIdx := ctx.snapshot.lastLogIdx
      snpSyncCtx := none
      pendingCommit := false }) (fun _ => rfl) hfree
  refine ⟨_, _, p.pendingCommit || resp.nextIdx < s.logStore.nextSlot, ?_, rfl, hu, rfl, rfl, rfl⟩
  rw [hearInstall, bind_silent hfreed, handleInstallSnapshotResp, bind_silent (look_run _), hsrc, hfree]
  dsimp only
  rw [if_pos hacc, acceptedSnapshot]
  simp only [hctx]
  rw [bind_run, bind_silent (look_run _), if_pos hlast, bind_silent (change_run _ _), pure_run,
    Outcome.andThen_ok, List.nil_append, hsrc]
  rfl

/-! ## Exchanges -/

/-- A leader, a follower, and the install_snapshot request between them. -/
structure Transfer where
  leader : Server
  follower : Server
  inFlight : Option ReqMsg

/-- The install_snapshot request among the effects of a handler. -/
def installSent (o : List Effect) : Option ReqMsg :=
  o.findSome? fun
    | .send req _ => if req.type = .installSnapshotRequest then some req else none
    | _ => none

/-- What a handler of the leader sends is in flight. -/
def Transfer.after {α : Type} (o : Outcome Server Effect Stop α) (follower : Server) : Transfer :=
  ⟨o.state, follower, installSent o.out⟩

/-- The follower handles the request in flight, and the leader its answer. -/
def Transfer.exchange (lenv fenv : Env) (pid : Int) (x : Transfer) : Transfer :=
  match x.inFlight with
  | none => x
  | some req =>
    let o := handleInstallSnapshotReq fenv req x.follower
    match o.res with
    | .ok resp => .after (hearInstall lenv pid resp x.leader) o.state
    | .error _ => { x with follower := o.state, inFlight := none }

/-- The block in flight. -/
def Transfer.block (x : Transfer) : Option SnapshotSyncReq :=
  x.inFlight.bind fun req => req.logEntries.head?.bind fun e => SnapshotSyncReq.deserialize e.buf

theorem Transfer.after_bind_pure (x : Action Bool) (f : Server) :
    Transfer.after ((x >>= fun _ => (pure () : Action Unit)) s) f = Transfer.after (x s) f := by
  rcases bind_cases x (fun _ => (pure () : Action Unit)) s with ⟨e, -, h⟩ | ⟨a, -, h⟩
  · rw [h]
    rfl
  · rw [h, pure_run, List.append_nil]
    rfl

theorem installSent_systemExit {o : List Effect} (h : ∀ w ∈ o, w = .systemExit (-1)) : installSent o = none := by
  refine List.findSome?_eq_none_iff.mpr fun w hw => ?_
  rw [h w hw]

/-- A leader whose last snapshot covers what a peer lacks, and a follower that accepts it:
the snapshot's bytes are `content`, and `block` is how many go into one request. -/
structure Copies (lenv fenv : Env) (pid : Int) (snp : Snapshot) (content : Bytes) (block next : Nat)
    (l f : Server) : Prop where
  valid : snp.Valid
  length : content.length = snp.size
  nonempty : 1 ≤ snp.size
  last : lenv.lastSnapshot = some snp
  reads : ∀ offset size, lenv.readSnapshotData offset size = (content.drop offset).take size
  block_pos : 1 ≤ block
  block_lt : block < uintSize / 2
  block_eq : snapshotSyncBlockSize l.params = block
  role : l.role = .leader
  peer : ∃ p, l.findPeer pid = some p ∧ p.busy = false ∧ p.nextLogIdx = next ∧
    needsLastSnapshot p.snpSyncCtx lenv.lastSnapshot = true
  next_ge : 2 ≤ next
  next_lt : next < l.logStore.startIdx
  start_le : l.logStore.startIdx ≤ snp.lastLogIdx + 1
  last_lt : snp.lastLogIdx < l.logStore.nextSlot
  id_eq : f.id = pid
  follower : f.role = .follower
  term_le : f.state.term ≤ l.state.term
  above : f.state.commitIdx < snp.lastLogIdx
  stored : f.logStore.startIdx ≤ snp.lastLogIdx
  saves : fenv.saveSnapshotData = true
  compacts : fenv.compact = true
  applies : fenv.applySnapshot = true

/-- The leader is about to send the block at an offset. -/
structure Syncing (env : Env) (pid : Int) (snp : Snapshot) (next offset : Nat) (l₀ l : Server) : Prop where
  rest : l = { l₀ with peers := l.peers, srvToJoin := l.srvToJoin, exited := l.exited }
  peer : ∃ p, l.findPeer pid = some p ∧ p.busy = false ∧ p.nextLogIdx = next ∧
    p.picks env (next - 1) = some ⟨snp, offset⟩

/-- It has made up its mind about the request for it. -/
def AtOffset (env : Env) (pid : Int) (snp : Snapshot) (next offset : Nat) (l₀ f : Server) (x : Transfer) : Prop :=
  ∃ l, Syncing env pid snp next offset l₀ l ∧ x = .after (requestAppendEntriesTo env pid l) f

section
variable {lenv fenv : Env} {snp : Snapshot} {content : Bytes} {block next offset : Nat} {l f : Server}
  {x : Transfer}

theorem Copies.start (h : Copies lenv fenv pid snp content block next l f) :
    AtOffset lenv pid snp next 0 l f (.after (requestAppendEntriesTo lenv pid l) f) := by
  obtain ⟨p, hp, hidle, hnext, hneeds⟩ := h.peer
  refine ⟨l, ⟨rfl, p, hp, hidle, hnext, ?_⟩, rfl⟩
  have hle : next ≤ snp.lastLogIdx + 1 := (Nat.le_of_lt h.next_lt).trans h.start_le
  rw [Peer.picks, if_pos hneeds, h.last]
  simp [hle, h.nonempty]

/-- A peer that a snapshot is being copied to goes on with it. -/
theorem picks_of_ctx {n : Nat} (hlast : lenv.lastSnapshot = some snp)
    (hctx : p.snpSyncCtx = some ⟨snp, offset⟩) : p.picks lenv n = some ⟨snp, offset⟩ := by
  rw [Peer.picks, hlast, hctx]
  simp [needsLastSnapshot]

/-- If the block can be read it is in flight. -/
theorem AtOffset.ready (h : Copies lenv fenv pid snp content block next l f)
    (hx : AtOffset lenv pid snp next offset l f x) (hready : BlockReady lenv l ⟨snp, offset⟩) :
    x.follower = f ∧
      x.inFlight = some (l.blockReq lenv pid ⟨snp, offset⟩ l.state.term l.quickCommitIdx) ∧
      x.leader = { l with
        peers := x.leader.peers, srvToJoin := x.leader.srvToJoin, exited := x.leader.exited } ∧
      ∃ p, x.leader.findPeer pid = some p ∧ p.nextLogIdx = next ∧ p.snpSyncCtx = some ⟨snp, offset⟩ := by
  obtain ⟨l', hs, rfl⟩ := hx
  obtain ⟨p, hp, hidle, hnext, hpicks⟩ := hs.peer
  have hrest := hs.rest
  have hparams : l'.params = l.params := by rw [hrest]
  have hlog : l'.logStore = l.logStore := by rw [hrest]
  rw [← hnext] at hpicks
  obtain ⟨u, hrun, hu⟩ := requestAppendEntriesTo_block hp hidle (hnext ▸ h.next_ge)
    (by rw [hnext, hlog]; exact h.next_lt) hpicks (hready.congr hparams)
  have hreq : l'.blockReq lenv pid ⟨snp, offset⟩ l'.state.term l'.quickCommitIdx =
      l.blockReq lenv pid ⟨snp, offset⟩ l.state.term l.quickCommitIdx := by
    rw [Server.blockReq, Server.blockReq, nextBlock_congr hparams, hrest]
  have hstate := @requestAppendEntriesTo_rest l' lenv pid
  rw [hrun] at hstate ⊢
  refine ⟨rfl, ?_, ?_, _, hu, hnext, rfl⟩
  · rw [← hreq]
    rfl
  · change u = _ at hstate
    change u = _
    rw [hrest] at hstate
    exact hstate

/-- If not, nothing is. -/
theorem AtOffset.stuck (h : Copies lenv fenv pid snp content block next l f)
    (hx : AtOffset lenv pid snp next offset l f x) (hno : ¬ BlockReady lenv l ⟨snp, offset⟩) :
    x.inFlight = none := by
  obtain ⟨l', hs, rfl⟩ := hx
  obtain ⟨p, hp, hidle, hnext, hpicks⟩ := hs.peer
  have hrest := hs.rest
  have hparams : l'.params = l.params := by rw [hrest]
  have hlog : l'.logStore = l.logStore := by rw [hrest]
  rw [← hnext] at hpicks
  obtain ⟨e, -, hout⟩ := @requestAppendEntriesTo_stuck _ lenv _ _ hp hidle (hnext ▸ h.next_ge)
    (by rw [hnext, hlog]; exact h.next_lt) fun ⟨ctx, hctx, hready⟩ => by
      rw [hpicks] at hctx
      cases hctx
      exact hno (hready.congr hparams.symm)
  exact installSent_systemExit hout

/-- The follower decodes the block it is sent. -/
theorem nextBlock_decodes (h : Copies lenv fenv pid snp content block next l f) (hoff : offset < ulongSize) :
    SnapshotSyncReq.deserialize (l.nextBlock lenv ⟨snp, offset⟩).serialize =
      some (l.nextBlock lenv ⟨snp, offset⟩) := by
  refine SnapshotSyncReq.deserialize_serialize ?_ ?_
  · rw [nextBlock_snapshot]
    exact h.valid
  · rw [nextBlock_offset]
    exact hoff

/-- What is in flight is the next block. -/
theorem AtOffset.block_eq (h : Copies lenv fenv pid snp content block next l f)
    (hx : AtOffset lenv pid snp next offset l f x) (hready : BlockReady lenv l ⟨snp, offset⟩)
    (hoff : offset < ulongSize) : x.block = some (l.nextBlock lenv ⟨snp, offset⟩) := by
  obtain ⟨-, hflight, -⟩ := hx.ready h hready
  rw [Transfer.block, hflight, Option.bind_some, blockReq_entries, List.head?_cons, Option.bind_some,
    nextBlock_decodes h hoff]

theorem brings_nextBlock (h : Copies lenv fenv pid snp content block next l f) (hoff : offset < ulongSize) :
    BringsBlock f (l.blockReq lenv pid ⟨snp, offset⟩ l.state.term l.quickCommitIdx)
      (l.nextBlock lenv ⟨snp, offset⟩) where
  role := h.follower
  term := h.term_le
  entries := ⟨_, blockReq_entries, rfl, nextBlock_decodes h hoff⟩
  above := by
    rw [nextBlock_snapshot]
    exact h.above

/-- One exchange in the middle of the snapshot: the leader is at the end of the block. -/
theorem AtOffset.exchange (h : Copies lenv fenv pid snp content block next l f)
    (hx : AtOffset lenv pid snp next offset l f x) (hready : BlockReady lenv l ⟨snp, offset⟩)
    (hmore : offset + (l.nextBlock lenv ⟨snp, offset⟩).data.length < snp.size) :
    AtOffset lenv pid snp next (offset + (l.nextBlock lenv ⟨snp, offset⟩).data.length) l f
      (x.exchange lenv fenv pid) := by
  have hoff : offset < ulongSize := by
    have := h.valid.size_lt
    omega
  obtain ⟨hf, hflight, hrest, p, hp, hnext, hctx⟩ := hx.ready h hready
  have hdone : (l.nextBlock lenv ⟨snp, offset⟩).done = false := by
    rw [nextBlock_done]
    exact decide_eq_false (Nat.not_le.mpr hmore)
  have hrun := handleInstallSnapshotReq_more (brings_nextBlock h hoff) h.saves hdone
  have hrole : x.leader.role = .leader := by
    rw [hrest]
    exact h.role
  obtain ⟨u, p', hhear, hu, hp', hidle, hnext', hctx'⟩ := @hearInstall_more _ lenv _ _ _
    (f.blockResp (l.blockReq lenv pid ⟨snp, offset⟩ l.state.term l.quickCommitIdx)
      (l.nextBlock lenv ⟨snp, offset⟩)) hp hctx hrole h.id_eq rfl hmore
  refine ⟨u, ⟨?_, p', hp', hidle, hnext'.trans hnext, picks_of_ctx h.last hctx'⟩, ?_⟩
  · rw [hu, hrest]
  · rw [Transfer.exchange, hflight]
    dsimp only
    rw [hf, hrun]
    dsimp only
    rw [hhear, Transfer.after_bind_pure]

/-- The leader knows the term of the last index of its snapshot. -/
theorem termForLog_last {s : Server} (hlast : lenv.lastSnapshot = some snp)
    (hlt : snp.lastLogIdx < s.logStore.nextSlot) :
    ∃ term, termForLog lenv snp.lastLogIdx s = ⟨.ok term, s, []⟩ := by
  by_cases h0 : snp.lastLogIdx = 0
  · exact ⟨0, by simp [termForLog, h0]⟩
  by_cases hge : s.logStore.startIdx ≤ snp.lastLogIdx
  · obtain ⟨e, he⟩ := LogStore.entryAt?_isSome hge hlt
    exact ⟨e.term, by simp [termForLog, h0, hge, termAt, LogStore.termAt?, he]⟩
  · exact ⟨snp.lastLogTerm, by simp [termForLog, h0, hge, hlast]⟩

/-- The last exchange: the leader is done with the snapshot, and goes on with entries if
there are any to send. -/
theorem AtOffset.exchange_last (h : Copies lenv fenv pid snp content block next l f)
    (hx : AtOffset lenv pid snp next offset l f x) (hready : BlockReady lenv l ⟨snp, offset⟩)
    (hoff : offset < ulongSize) (hlast : snp.size ≤ offset + (l.nextBlock lenv ⟨snp, offset⟩).data.length) :
    (x.exchange lenv fenv pid).inFlight = none ∧
      ∃ p, (x.exchange lenv fenv pid).leader.findPeer pid = some p ∧
        p.nextLogIdx = snp.lastLogIdx + 1 ∧ p.snpSyncCtx = none := by
  obtain ⟨hf, hflight, hrest, p, hp, hnext, hctx⟩ := hx.ready h hready
  have hdone : (l.nextBlock lenv ⟨snp, offset⟩).done = true := by
    rw [nextBlock_done]
    exact decide_eq_true hlast
  have hstored : f.logStore.startIdx ≤ (l.nextBlock lenv ⟨snp, offset⟩).snapshot.lastLogIdx := by
    rw [nextBlock_snapshot]
    exact h.stored
  obtain ⟨v, o, hrun⟩ := handleInstallSnapshotReq_last (brings_nextBlock h hoff) h.saves h.compacts h.applies
    hstored hdone
  obtain ⟨u, p', b, hhear, hu, hp', hidle, hnext', hctx'⟩ := @hearInstall_last _ lenv _ _ _
    (f.blockResp (l.blockReq lenv pid ⟨snp, offset⟩ l.state.term l.quickCommitIdx)
      (l.nextBlock lenv ⟨snp, offset⟩)) hp hctx h.id_eq rfl hlast
  have hex : x.exchange lenv fenv pid = .after (continueWith lenv pid b u) v := by
    rw [Transfer.exchange, hflight]
    dsimp only
    rw [hf, hrun]
    dsimp only
    rw [hhear]
  have hrole : u.role = .leader := by
    rw [hu, hrest]
    exact h.role
  have hlog : u.logStore = l.logStore := by rw [hu, hrest]
  rw [hex, continueWith, bind_silent (look_run _)]
  cases b with
  | false =>
    rw [if_neg (by simp)]
    exact ⟨rfl, p', hp', hnext', hctx'⟩
  | true =>
    obtain ⟨term, hterm⟩ := termForLog_last (s := u) h.last (by rw [hlog]; exact h.last_lt)
    have hback : p'.nextLogIdx - 1 = snp.lastLogIdx := by
      rw [hnext', Nat.add_sub_cancel]
    obtain ⟨w, hsend, hw⟩ := requestAppendEntriesTo_entries hp' hidle (by rw [hnext']; omega)
      (by rw [hnext', hlog]; exact h.last_lt) (by rw [hnext', hlog]; exact h.start_le)
      (by rw [hback]; exact hterm)
    rw [if_pos ⟨hrole, rfl⟩, Transfer.after_bind_pure, hsend]
    exact ⟨rfl, _, hw, hnext', hctx'⟩

/-! ## The whole snapshot -/

theorem int32OfUlong_neg {n : Nat} (h : uintSize / 2 ≤ n) (h' : n < uintSize) : int32OfUlong n < 0 := by
  rw [int32OfUlong, Int.bmod_def]
  simp only [uintSize] at *
  omega

/-- As long as what is left is an `int32` the block has the size it should have. -/
theorem Copies.blockSize_eq (h : Copies lenv fenv pid snp content block next l f) (hle : offset ≤ snp.size)
    (hsmall : snp.size - offset < uintSize / 2) :
    l.blockSize ⟨snp, offset⟩ = (min block (snp.size - offset) : Nat) := by
  rw [Server.blockSize, h.block_eq, ulongSub_of_le hle h.valid.size_lt, int32OfUlong_of_lt hsmall]
  omega

/-- If it is just above, the size is negative. -/
theorem Copies.blockSize_neg (h : Copies lenv fenv pid snp content block next l f) (hle : offset ≤ snp.size)
    (hlarge : uintSize / 2 ≤ snp.size - offset) (hlt : snp.size - offset < uintSize) :
    l.blockSize ⟨snp, offset⟩ < 0 := by
  have hneg := int32OfUlong_neg hlarge hlt
  rw [Server.blockSize, ulongSub_of_le hle h.valid.size_lt]
  exact lt_of_le_of_lt (min_le_right _ _) hneg

theorem Copies.data_eq (h : Copies lenv fenv pid snp content block next l f) (hle : offset ≤ snp.size)
    (hsize : l.blockSize ⟨snp, offset⟩ = (min block (snp.size - offset) : Nat)) :
    (l.nextBlock lenv ⟨snp, offset⟩).data = (content.drop offset).take block := by
  have hlen : (content.drop offset).length = snp.size - offset := by
    rw [List.length_drop, h.length]
  rw [Server.nextBlock, hsize]
  dsimp only
  rw [Int.toNat_natCast, h.reads, List.take_take, Nat.min_self, List.take_eq_take_iff, hlen]
  omega

theorem Copies.length_data (h : Copies lenv fenv pid snp content block next l f) :
    ((content.drop offset).take block).length = min block (snp.size - offset) := by
  rw [List.length_take, List.length_drop, h.length]

theorem SnapshotSyncReq.length_serialize (r : SnapshotSyncReq) :
    r.serialize.length = r.snapshot.serialize.length + 9 + r.data.length := by
  simp only [SnapshotSyncReq.serialize, List.length_append, List.length_cons, LittleEndian.leBytes_length]
  omega

theorem Copies.ready (h : Copies lenv fenv pid snp content block next l f) (hle : offset ≤ snp.size)
    (hsmall : snp.size < uintSize / 2) (hfits : snp.serialize.length + 9 + min block snp.size < bufferLimit) :
    BlockReady lenv l ⟨snp, offset⟩ := by
  have hsize := h.blockSize_eq hle (by omega)
  refine ⟨?_, ?_, ?_⟩
  · rw [hsize]
    exact Int.natCast_nonneg _
  · rw [hsize, Int.toNat_natCast, h.reads, List.length_take, List.length_drop, h.length]
    change min block (snp.size - offset) ≤ min (min block (snp.size - offset)) (snp.size - offset)
    omega
  · rw [SnapshotSyncReq.length_serialize, nextBlock_snapshot, h.data_eq hle hsize, h.length_data]
    change snp.serialize.length + 9 + min block (snp.size - offset) < bufferLimit
    omega

/-- What the claim asks of a run of exchanges: the blocks cover the snapshot in order, the
last one alone is marked as done, and then the peer is at the end of the snapshot. -/
structure TransferCovers (lenv fenv : Env) (pid : Int) (snp : Snapshot) (content : Bytes) (block : Nat)
    (x : Transfer) : Prop where
  blocks : ∀ i, i * block < snp.size → ((Transfer.exchange lenv fenv pid)^[i] x).block =
    some ⟨snp, i * block, (content.drop (i * block)).take block, snp.size ≤ (i + 1) * block⟩
  ends : ((Transfer.exchange lenv fenv pid)^[(snp.size + block - 1) / block] x).inFlight = none
  done : ∃ p, ((Transfer.exchange lenv fenv pid)^[(snp.size + block - 1) / block] x).leader.findPeer pid = some p ∧
    p.nextLogIdx = snp.lastLogIdx + 1 ∧ p.snpSyncCtx = none

/-- Each exchange moves the leader by a whole block, as long as blocks are sent. -/
theorem Copies.reaches (h : Copies lenv fenv pid snp content block next l f)
    (hx : AtOffset lenv pid snp next 0 l f x)
    (hsends : ∀ i, i * block < snp.size →
      AtOffset lenv pid snp next (i * block) l f ((Transfer.exchange lenv fenv pid)^[i] x) →
      BlockReady lenv l ⟨snp, i * block⟩ ∧
        (l.nextBlock lenv ⟨snp, i * block⟩).data = (content.drop (i * block)).take block) :
    ∀ i, i * block < snp.size →
      AtOffset lenv pid snp next (i * block) l f ((Transfer.exchange lenv fenv pid)^[i] x)
  | 0, _ => by
    rw [Nat.zero_mul]
    exact hx
  | i + 1, hi => by
    have hmul : (i + 1) * block = i * block + block := Nat.succ_mul i block
    have ih := h.reaches hx hsends i (by omega)
    obtain ⟨hready, hdata⟩ := hsends i (by omega) ih
    have hlen : (l.nextBlock lenv ⟨snp, i * block⟩).data.length = block := by
      rw [hdata, h.length_data]
      omega
    have hnext := ih.exchange h hready (by rw [hlen]; omega)
    rw [hlen, ← hmul, ← Function.iterate_succ_apply' (Transfer.exchange lenv fenv pid)] at hnext
    exact hnext

/-- **A snapshot is transferred block by block** exactly if its size is an `int32` and the
encoding of its first block fits a buffer. -/
theorem transfer_covers_iff (h : Copies lenv fenv pid snp content block next l f) :
    TransferCovers lenv fenv pid snp content block (.after (requestAppendEntriesTo lenv pid l) f) ↔
      snp.size < uintSize / 2 ∧ snp.serialize.length + 9 + min block snp.size < bufferLimit := by
  have hpos := h.block_pos
  have hne := h.nonempty
  have hulong := h.valid.size_lt
  constructor
  · intro hc
    -- every block of the run is there, so the leader gets to every offset
    have hsends : ∀ i, i * block < snp.size →
        AtOffset lenv pid snp next (i * block) l f
          ((Transfer.exchange lenv fenv pid)^[i] (.after (requestAppendEntriesTo lenv pid l) f)) →
        BlockReady lenv l ⟨snp, i * block⟩ ∧
          (l.nextBlock lenv ⟨snp, i * block⟩).data = (content.drop (i * block)).take block := by
      intro i hi hat
      have hblock := hc.blocks i hi
      by_cases hready : BlockReady lenv l ⟨snp, i * block⟩
      · rw [hat.block_eq h hready (by omega)] at hblock
        exact ⟨hready, congrArg SnapshotSyncReq.data (Option.some.inj hblock)⟩
      · rw [Transfer.block, hat.stuck h hready] at hblock
        cases hblock
    have hall : ∀ i, i * block < snp.size → BlockReady lenv l ⟨snp, i * block⟩ :=
      fun i hi => (hsends i hi (h.reaches h.start hsends i hi)).1
    constructor
    · by_contra hlarge
      have hlt := h.block_lt
      -- the last offset with at least 2^31 bytes left
      obtain ⟨i, hi⟩ : ∃ i, i = (snp.size - uintSize / 2) / block := ⟨_, rfl⟩
      have hle : i * block ≤ snp.size - uintSize / 2 := by
        rw [hi]
        exact Nat.div_mul_le_self _ _
      have hge : snp.size - uintSize / 2 < i * block + block := by
        rw [← Nat.succ_mul, hi]
        exact Nat.lt_mul_of_div_lt (Nat.lt_succ_self _) hpos
      simp only [uintSize] at hlarge hle hge hlt
      have hneg := @Copies.blockSize_neg _ _ _ _ _ _ _ (i * block) _ _ h (by omega) (by simp only [uintSize]; omega)
        (by simp only [uintSize]; omega)
      have hnonneg := (hall i (by omega)).nonneg
      omega
    · have hfits := (hall 0 (by omega)).fits
      have hdata := (hsends 0 (by omega) (h.reaches h.start hsends 0 (by omega))).2
      rw [SnapshotSyncReq.length_serialize, nextBlock_snapshot, hdata, h.length_data, Nat.zero_mul] at hfits
      exact hfits
  · rintro ⟨hsmall, hfits⟩
    have hready : ∀ i, i * block < snp.size → BlockReady lenv l ⟨snp, i * block⟩ :=
      fun i hi => h.ready (Nat.le_of_lt hi) hsmall hfits
    have hdata : ∀ i, i * block < snp.size →
        (l.nextBlock lenv ⟨snp, i * block⟩).data = (content.drop (i * block)).take block :=
      fun i hi => h.data_eq (Nat.le_of_lt hi) (h.blockSize_eq (Nat.le_of_lt hi) (by omega))
    have hat := h.reaches h.start fun i hi _ => ⟨hready i hi, hdata i hi⟩
    have hlast : ∃ i, (snp.size + block - 1) / block = i + 1 ∧ i * block < snp.size ∧
        snp.size ≤ i * block + block := by
      have hdiv := Nat.div_mul_le_self (snp.size + block - 1) block
      have hgt := Nat.lt_div_mul_add hpos (a := snp.size + block - 1)
      have hone : 1 ≤ (snp.size + block - 1) / block := Nat.div_pos (by omega) hpos
      refine ⟨(snp.size + block - 1) / block - 1, by omega, ?_, ?_⟩
      · rw [Nat.sub_mul]
        omega
      · rw [Nat.sub_mul]
        omega
    obtain ⟨i, hn, hi, hend⟩ := hlast
    have hexit := (hat i hi).exchange_last h (hready i hi) (by omega) (by
      rw [hdata i hi, h.length_data]
      omega)
    rw [← Function.iterate_succ_apply' (Transfer.exchange lenv fenv pid), Nat.succ_eq_add_one, ← hn] at hexit
    refine ⟨fun j hj => ?_, hexit.1, hexit.2⟩
    have hmul : (j + 1) * block = j * block + block := Nat.succ_mul j block
    rw [(hat j hj).block_eq h (hready j hj) (by omega), Option.some.injEq]
    refine SnapshotSyncReq.ext nextBlock_snapshot nextBlock_offset (hdata j hj) ?_
    rw [nextBlock_done, hdata j hj, h.length_data]
    change decide (snp.size ≤ j * block + min block (snp.size - j * block)) = decide (snp.size ≤ (j + 1) * block)
    rw [decide_eq_decide, hmul]
    omega

end

/-- A snapshot of some size that ends at index 5. -/
def sizedSnapshot (size : Nat) : Snapshot := ⟨5, 3, size, {}⟩

/-- A state machine that holds it, all zeros. -/
def sizedEnv (size : Nat) : Env where
  lastSnapshot := some (sizedSnapshot size)
  readSnapshotData offset n := ((List.replicate size 0).drop offset).take n

/-- A leader that sends two bytes at a time. -/
def smallBlocks : Server := { compactedLeader 3 with params := { snapshotBlockSize := 2 } }

theorem copies_sized {size : Nat} (h1 : 1 ≤ size) (hlt : size < ulongSize) :
    Copies (sizedEnv size) {} 2 (sizedSnapshot size) (List.replicate size 0) 2 3 smallBlocks { id := 2 } where
  valid := ⟨(by decide : 5 < ulongSize), (by decide : 3 < ulongSize), hlt,
    (by decide : 0 < ulongSize), (by decide : 0 < ulongSize), (by decide : 2 * 0 < uintSize), fun _ h => nomatch h⟩
  length := List.length_replicate
  nonempty := h1
  last := rfl
  reads _ _ := rfl
  block_pos := by decide
  block_lt := by decide
  block_eq := rfl
  role := rfl
  peer := ⟨peerNext 3, rfl, rfl, rfl, rfl⟩
  next_ge := by decide
  next_lt := by decide
  start_le := (by decide : 6 ≤ 5 + 1)
  last_lt := (by decide : 5 < 9)
  id_eq := rfl
  follower := rfl
  term_le := by decide
  above := (by decide : 0 < 5)
  stored := (by decide : 1 ≤ 5)
  saves := rfl
  compacts := rfl
  applies := rfl

/-- A snapshot of three bytes, in two blocks. -/
theorem transfer_covers_iff_three :
    TransferCovers (sizedEnv 3) {} 2 (sizedSnapshot 3) (List.replicate 3 0) 2
        (.after (requestAppendEntriesTo (sizedEnv 3) 2 smallBlocks) { id := 2 }) ↔
      (sizedSnapshot 3).size < uintSize / 2 ∧
        (sizedSnapshot 3).serialize.length + 9 + min 2 (sizedSnapshot 3).size < bufferLimit :=
  transfer_covers_iff (copies_sized (by decide) (by decide))

/-- Of a snapshot of 2^31 bytes not even the first block is sent. -/
theorem transfer_covers_fails :
    ¬ ∀ (lenv fenv : Env) (pid : Int) (snp : Snapshot) (content : Bytes) (block next : Nat) (l f : Server),
      Copies lenv fenv pid snp content block next l f →
        TransferCovers lenv fenv pid snp content block (.after (requestAppendEntriesTo lenv pid l) f) := by
  intro hall
  have hcopies : Copies _ _ _ _ _ _ _ _ _ := @copies_sized (2 ^ 31) (by decide) (by decide)
  have hsize := ((transfer_covers_iff hcopies).mp (hall _ _ _ _ _ _ _ _ _ hcopies)).1
  exact absurd hsize (by decide)

end Cornerstone
