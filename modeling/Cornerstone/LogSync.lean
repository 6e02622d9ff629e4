import Cornerstone.AppendRun
import Cornerstone.LeaderLog
import Cornerstone.LogPack
import Cornerstone.NewServer

/-! # Syncing the log to a new server

What `handle_log_sync_req` makes of a pack, and what `sync_log_to_new_srv` does for the answer
to one: it sends the next pack, from the index the answer gives, or, once what is left up to
the commit index is less than `log_sync_stop_gap_`, appends the configuration with the new
server.
-/

namespace Cornerstone
open Handlers Handler Server

variable {s t : Server} {env : Env} {resp : RespMsg} {k n : Nat}

/-! ## Packs -/

/-- A log that `pack` can take `batch` entries out of: the entries are those of the C++
types, and neither a pack nor an offset grows too large. -/
structure LogStore.Packable (l : LogStore) (batch : Int) : Prop where
  storable : ∀ e ∈ l.entries, e.Storable
  count : l.entries.length < bufferLimit
  size : (l.entries.map LogEntry.serialize).flatten.length < ulongSize
  fits : ∀ k n : Nat, (n : Int) ≤ batch →
    8 + 8 * n + (((l.entries.map LogEntry.serialize).drop k).take n).flatten.length < bufferLimit

theorem flatten_slice_le {α : Type} (xss : List (List α)) (k n : Nat) :
    (xss.take k).flatten.length + ((xss.drop k).take n).flatten.length ≤ xss.flatten.length := by
  have hsplit : xss.flatten = (xss.take k).flatten ++ (((xss.drop k).take n).flatten ++ ((xss.drop k).drop n).flatten) := by
    rw [← List.flatten_append, List.take_append_drop, ← List.flatten_append, List.take_append_drop]
  rw [hsplit, List.length_append, List.length_append]
  omega

/-- A request that puts `es` behind the first `k` entries of the new server's log. -/
structure ReqMsg.Carries (req : ReqMsg) (k : Nat) (es : List LogEntry) : Prop where
  type : req.type = .syncLogRequest
  lastLogIdx : req.lastLogIdx = k
  pack : ∃ e, req.logEntries = [e] ∧ e.valType = .logPack ∧ ∀ l : LogStore, l.startIdx = 1 →
    k ≤ l.entries.length → l.applyPack (k + 1) e.buf = some { l with entries := l.entries.take k ++ es }

/-- What is packed here is unpacked there. -/
theorem LogStore.Packable.pack_carries {l : LogStore} {batch : Int} (h : l.Packable batch) (hstart : l.startIdx = 1)
    (hk : k < l.entries.length) (hn : (n : Int) ≤ batch) :
    ∃ bytes, l.pack (k + 1) n = some bytes ∧ ∀ l' : LogStore, l'.startIdx = 1 → k ≤ l'.entries.length →
      l'.applyPack (k + 1) bytes = some { l' with entries := l'.entries.take k ++ (l.entries.drop k).take n } := by
  set all := l.entries.map LogEntry.serialize with hall
  have hfits := h.fits k n hn
  rw [← hall] at hfits
  have hpack := LogStore.pack_run (n := n) hk h.count.le (by omega)
  rw [hstart, Nat.add_comm] at hpack
  refine ⟨_, hpack, fun l' hstart' hk' => ?_⟩
  have hdec : Decodes ((all.drop k).take n) ((l.entries.drop k).take n) :=
    ((Decodes.serialize h.storable).drop k).take n
  have hlen : ((all.drop k).take n).length ≤ n := List.length_take_le _ _
  have hpos : (all.take k).flatten.length + ((all.drop k).take n).flatten.length < ulongSize :=
    (flatten_slice_le all k n).trans_lt h.size
  have hat : l'.startIdx ≤ k + 1 ∧ k + 1 ≤ l'.nextSlot := ⟨by omega, by rw [LogStore.nextSlot]; omega⟩
  have happly := LogStore.applyPack_run hdec (by omega) (by omega) hpos hat
  rw [happly, hstart', Nat.add_sub_cancel]

/-! ## sync_log_to_new_srv -/

/-- The request with a pack. -/
def Server.packReq (s : Server) (dst : Int) (startIdx : Nat) (logPack : Bytes) : ReqMsg where
  term := s.state.term
  type := .syncLogRequest
  src := s.id
  dst := dst
  lastLogTerm := 0
  lastLogIdx := ulongSub startIdx 1
  commitIdx := s.quickCommitIdx
  logEntries := [⟨s.state.term, logPack, .logPack⟩]

theorem syncLogToNewSrv_sends {p : Peer} {bytes : Bytes} (hj : s.srvToJoin = some p) (hstart : s.logStore.startIdx = 1)
    (hgap : s.params.logSyncStopGap ≤ syncGap s n)
    (hpack : s.logStore.pack n (min (syncGap s n) s.params.logSyncBatchSize) = some bytes) :
    syncLogToNewSrv env n s = ⟨.ok (), s, [.sendExt (s.packReq p.id n bytes) s.state]⟩ := by
  have hderef : derefPeer .joining s = ⟨.ok p, s, []⟩ := derefPeer_run hj
  have hbelow : ¬ (n > 0 ∧ n < s.logStore.startIdx) := by omega
  rw [syncLogToNewSrv, bind_silent (look_run _), bind_silent hderef, if_neg (not_lt.mpr hgap), if_neg hbelow, hpack]
  rfl

/-- The leader once it has appended the configuration with the new server. -/
def Server.added (s : Server) (c : SrvConfig) : Server :=
  { s with
    logStore := s.logStore.append (s.nextConfig (s.config.servers ++ [c]))
    configChanging := true }

theorem syncLogToNewSrv_adds {p : Peer} {c : SrvConfig} (hj : s.srvToJoin = some p) (hc : s.confToAdd = some c)
    (hgap : syncGap s n < s.params.logSyncStopGap) :
    syncLogToNewSrv env n s =
      ⟨(requestAppendEntries env (s.added c)).res, (requestAppendEntries env (s.added c)).state,
        .originate s.role s.state.term s.logStore.nextSlot (s.nextConfig (s.config.servers ++ [c])) ::
          (requestAppendEntries env (s.added c)).out⟩ := by
  have hderef : derefPeer .joining s = ⟨.ok p, s, []⟩ := derefPeer_run hj
  rw [syncLogToNewSrv, bind_silent (look_run _), bind_silent hderef, if_pos hgap, hc]
  rfl

/-! ## Requests to peers are not for the new server -/

/-- The log pack among the effects of a handler. -/
def packSent (o : List Effect) : Option ReqMsg :=
  o.findSome? fun
    | .sendExt req _ => some req
    | _ => none

/-- The law of sending nothing to the new server. -/
def NoPack (_ : Server) (o : List Effect) (_ : Server) : Prop := packSent o = none

theorem noPack_law : Law NoPack where
  refl _ := rfl
  trans := by
    intro s t u o o' h h'
    unfold NoPack packSent at *
    rw [List.findSome?_append, h, h']
    rfl

theorem noPack_exits : Exits NoPack := fun _ _ => rfl

theorem noPack_createSyncSnapshotReq (env : Env) (r : PeerRef) (n t c : Nat) :
    Obeys NoPack s (createSyncSnapshotReq env r n t c) := by
  refine .bind noPack_law (.bind noPack_law (reads_derefPeer noPack_law r) fun p _ => ?_) fun ctx _ => ?_
  · split
    · exact .pure noPack_law _
    · exact reads_exit noPack_exits _
    · refine .ite (fun _ => reads_exit noPack_exits _) fun _ => .ite (fun _ => reads_exit noPack_exits _) fun _ => ?_
      exact .change_bind noPack_law rfl (.pure noPack_law _)
  · refine .bind noPack_law (reads_derefPeer noPack_law r) fun p _ => .look_bind ?_
    exact .ite (fun _ => .halt noPack_law _) fun _ => .ite (fun _ => reads_exit noPack_exits _) fun _ =>
      .ite (fun _ => .halt noPack_law _) fun _ => .pure noPack_law _

theorem noPack_createAppendEntriesReq (env : Env) (pid : Int) :
    Obeys NoPack s (createAppendEntriesReq env pid) := by
  refine .look_bind (.change_bind noPack_law rfl ?_)
  refine .bind noPack_law (reads_derefPeer noPack_law _) fun p _ => .ite (fun _ => reads_exit noPack_exits _) fun _ =>
    .ite (fun _ => noPack_createSyncSnapshotReq env _ _ _ _) fun _ => ?_
  refine .bind noPack_law (reads_termForLog noPack_law noPack_exits env _) fun t _ => ?_
  exact .ite (fun _ => .halt noPack_law _) fun _ => .pure noPack_law _

theorem noPack_requestAppendEntriesTo (env : Env) (pid : Int) :
    Obeys NoPack s (requestAppendEntriesTo env pid) := by
  refine .look_bind ?_
  split
  · exact .pure noPack_law _
  · refine .ite (fun _ => .pure noPack_law _) fun _ => .change_bind noPack_law rfl ?_
    refine .bind noPack_law (noPack_createAppendEntriesReq env pid) fun req _ => ?_
    exact .bind noPack_law (.look_bind rfl) fun _ _ => .pure noPack_law _

theorem noPack_commit (env : Env) (idx : Nat) : Obeys NoPack s (commit env idx) := by
  refine .look_bind (.ite (fun _ => .change_bind noPack_law rfl (.ite (fun _ => ?_) fun _ => .pure noPack_law _))
    fun _ => .pure noPack_law _)
  refine .forEach noPack_law (fun _ => True) trivial fun pid _ s _ => ⟨?_, trivial⟩
  refine .bind noPack_law (noPack_requestAppendEntriesTo env pid) fun sent _ => ?_
  exact .ite (fun _ => .pure noPack_law _) fun _ => rfl

theorem noPack_requestAppendEntries (env : Env) : Obeys NoPack s (requestAppendEntries env) := by
  refine .look_bind (.ite (fun _ => noPack_commit env _) fun _ => ?_)
  refine .forEach noPack_law (fun _ => True) trivial fun pid _ s _ => ⟨?_, trivial⟩
  exact .bind noPack_law (noPack_requestAppendEntriesTo env pid) fun _ _ => .pure noPack_law _

/-! ## The new server -/

/-- A server that is being brought into a cluster, with a log that was never compacted. -/
structure Server.BroughtIn (s : Server) : Prop where
  live : s.exited = false
  catchingUp : s.catchingUp = true
  role : s.role ≠ .leader
  startIdx : s.logStore.startIdx = 1

/-- It has put `es` behind the first `k` entries of its log, and takes them for committed. -/
def Server.unpacked (s : Server) (k : Nat) (es : List LogEntry) : Server :=
  Server.committed { s with logStore := { s.logStore with entries := s.logStore.entries.take k ++ es } }
    (k + es.length)

/-- Its answer. -/
def Server.syncResp (s : Server) (req : ReqMsg) (nextIdx : Nat) : RespMsg :=
  RespMsg.accept { term := s.state.term, type := .syncLogResponse, src := s.id, dst := req.src } nextIdx

theorem Server.BroughtIn.unpacks {req : ReqMsg} {es : List LogEntry} (h : s.BroughtIn) (hreq : req.Carries k es)
    (hk : k ≤ s.logStore.entries.length) (env : Env) :
    s.next env (.request req) = s.unpacked k es ∧
      s.effects env (.request req) = [.reply (s.syncResp req (k + es.length + 1)) (s.unpacked k es).state] := by
  obtain ⟨e, hentries, htype, hpack⟩ := hreq.pack
  set l : LogStore := { s.logStore with entries := s.logStore.entries.take k ++ es } with hl
  have hslot : l.nextSlot = k + es.length + 1 := by
    rw [LogStore.nextSlot, hl]
    dsimp only
    rw [h.startIdx, List.length_append, List.length_take]
    omega
  have hnote : noteTerm req s = ⟨.ok (), s, []⟩ := by
    rw [noteTerm, hreq.type]
    rfl
  have hcommit : commit env (l.nextSlot - 1) { s with logStore := l } = ⟨.ok (), s.unpacked k es, []⟩ := by
    rw [hslot, Nat.add_sub_cancel]
    exact commit_run env _ h.role
  have hanswer : answerReq env req s = ⟨.ok (s.syncResp req (k + es.length + 1)), s.unpacked k es, []⟩ := by
    have hkind : answerReq env req = handleLogSyncReq env req := by
      rw [answerReq, handleExtendedMsg, hreq.type]
    have hlast : (s.unpacked k es).logStore.nextSlot = k + es.length + 1 := hslot
    rw [hkind, handleLogSyncReq, bind_silent (look_run _), hentries]
    dsimp only
    rw [if_neg (not_not.mpr htype), if_neg (by rw [h.catchingUp]; decide), hreq.lastLogIdx, hpack _ h.startIdx hk]
    dsimp only
    rw [bind_silent (change_run _ _), bind_silent hcommit, bind_silent (look_run _), hlast]
    rfl
  have hrun : handle env (.request req) s = _ := processReq_run hnote hanswer
  refine ⟨?_, ?_⟩
  · rw [Server.next_of_ok h.live (by rw [hrun])]
    exact congrArg Outcome.state hrun
  · rw [Server.effects, if_neg (by rw [h.live]; decide)]
    exact congrArg Outcome.out hrun

/-! ## The leader -/

/-- A leader that adds a server and was never compacted. -/
structure Server.Adding (s : Server) : Prop where
  office : s.InOffice
  live : s.exited = false
  startIdx : s.logStore.startIdx = 1
  joining : s.srvToJoin.isSome
  conf : s.confToAdd.isSome
  committed : s.quickCommitIdx < s.logStore.nextSlot
  batch : 1 ≤ s.params.logSyncBatchSize
  packable : s.logStore.Packable s.params.logSyncBatchSize

namespace Server.Adding

theorem nextSlot_eq (h : s.Adding) : s.logStore.nextSlot = 1 + s.logStore.entries.length := by
  rw [LogStore.nextSlot, h.startIdx]

theorem withJoining (h : s.Adding) (p : Peer) : Adding { s with srvToJoin := some p } :=
  ⟨⟨h.office.role, h.office.settled⟩, h.live, h.startIdx, rfl, h.conf, h.committed, h.batch, h.packable⟩

/-- The gap is what is left behind the next index. -/
theorem gap_eq (h : s.Adding) (hn : n ≤ s.logStore.nextSlot) : syncGap s n = s.quickCommitIdx - n := by
  have hcount := h.packable.count
  have hquick := h.committed
  rw [h.nextSlot_eq] at hquick hn
  have hlimit : (bufferLimit : Int) = uintSize / 2 := by decide
  exact syncGap_eq (by omega) (by omega)

end Server.Adding

/-- How many entries go into the next pack. -/
def Server.batchAt (s : Server) (n : Nat) : Nat := min (s.quickCommitIdx - n) s.params.logSyncBatchSize.toNat

/-- The entries of the next pack. -/
def Server.sliceAt (s : Server) (n : Nat) : List LogEntry := (s.logStore.entries.drop (n - 1)).take (s.batchAt n)

namespace Server.Adding

/-- **The sync goes on** while the gap is not small and not negative. -/
theorem syncs (h : s.Adding) (env : Env) (h1 : 1 ≤ n) (hn : n ≤ s.quickCommitIdx)
    (hgap : s.params.logSyncStopGap ≤ s.quickCommitIdx - n) :
    ∃ req, req.Carries (n - 1) (s.sliceAt n) ∧
      syncLogToNewSrv env n s = ⟨.ok (), s, [.sendExt req s.state]⟩ := by
  have hquick := h.committed
  have hslot := h.nextSlot_eq
  have hcount := h.packable.count
  have hbatch := h.batch
  have hgapEq := h.gap_eq (hn.trans hquick.le)
  have hcnt : min (syncGap s n) s.params.logSyncBatchSize = (s.batchAt n : Int) := by
    rw [hgapEq, Server.batchAt]
    omega
  have hle : (s.batchAt n : Int) ≤ s.params.logSyncBatchSize := by
    rw [← hcnt]
    exact min_le_right _ _
  obtain ⟨p, hj⟩ := Option.isSome_iff_exists.mp h.joining
  obtain ⟨bytes, hpack, hunpack⟩ := h.packable.pack_carries (k := n - 1) h.startIdx (by omega) hle
  rw [Nat.sub_add_cancel h1] at hpack
  refine ⟨s.packReq p.id n bytes, ⟨rfl, ?_, _, rfl, rfl, hunpack⟩, ?_⟩
  · have hlimit : 1 + bufferLimit < ulongSize := by decide
    exact ulongSub_of_le h1 (by omega)
  · exact syncLogToNewSrv_sends hj h.startIdx (by rw [hgapEq]; exact hgap) (by rw [hcnt]; exact hpack)

/-- **The sync is over** when the gap is small. -/
theorem adds (h : s.Adding) (env : Env) (hn : n ≤ s.logStore.nextSlot)
    (hgap : s.quickCommitIdx - n < s.params.logSyncStopGap) :
    ∃ c o, s.confToAdd = some c ∧ (syncLogToNewSrv env n s).out =
        .originate .leader s.state.term s.logStore.nextSlot (s.nextConfig (s.config.servers ++ [c])) :: o ∧
      (∀ e ∈ o, e.isOriginate = false) ∧ packSent o = none ∧
      (syncLogToNewSrv env n s).state.logStore = s.logStore.append (s.nextConfig (s.config.servers ++ [c])) := by
  obtain ⟨p, hj⟩ := Option.isSome_iff_exists.mp h.joining
  obtain ⟨c, hc⟩ := Option.isSome_iff_exists.mp h.conf
  have hquiet : Quiet (s.added c) _ _ := quiet_requestAppendEntries env
  have hpack : NoPack (s.added c) _ _ := noPack_requestAppendEntries env
  rw [syncLogToNewSrv_adds hj hc (by rw [h.gap_eq hn]; exact hgap), h.office.role]
  exact ⟨c, _, hc, rfl, fun e he => (hquiet.out e he).no_originate, hpack, hquiet.logStore_eq⟩

end Server.Adding

/-- An answer reaches the leader: what the rpc result leaves goes on with the sync. -/
theorem handle_extResp_sync {p : Peer} (hj : s.srvToJoin = some p) (ht : resp.type = .syncLogResponse)
    (env : Env) (reqType : MsgType) :
    ∃ p', handle env (.extResp (some .joining) reqType resp) s =
      syncLogToNewSrv env resp.nextIdx { s with srvToJoin := some p' } := by
  refine ⟨{ (Peer.rpcResult s.params reqType false p).resumeHbSpeed s.params with
    nextLogIdx := resp.nextIdx
    matchedIdx := ulongSub resp.nextIdx 1 }, ?_⟩
  simp [handle, rpcResult, updateAt, handleExtResp, ht, hj]

/-- The leader sends the next pack, and nothing else happens. -/
def SendsPack (s : Server) (n : Nat) (o : List Effect) (t : Server) : Prop :=
  (∃ p, t = { s with srvToJoin := some p }) ∧
    ∃ req, req.Carries (n - 1) (s.sliceAt n) ∧ o = [.sendExt req s.state]

/-- The leader puts the new server into the configuration. -/
def AddsServer (s : Server) (o : List Effect) (t : Server) : Prop :=
  ∃ c rest, s.confToAdd = some c ∧
    o = .originate .leader s.state.term s.logStore.nextSlot (s.nextConfig (s.config.servers ++ [c])) :: rest ∧
    (∀ e ∈ rest, e.isOriginate = false) ∧ packSent rest = none ∧
    t.logStore = s.logStore.append (s.nextConfig (s.config.servers ++ [c]))

theorem Server.Adding.hears {ev : Event} {p : Peer} (h : s.Adding)
    (hev : handle env ev s = syncLogToNewSrv env n { s with srvToJoin := some p }) (h1 : 1 ≤ n)
    (hn : n ≤ s.logStore.nextSlot) (hpos : n ≤ s.quickCommitIdx ∨ 0 ≤ s.params.logSyncStopGap) :
    s.params.logSyncStopGap ≤ s.quickCommitIdx - n ∧ SendsPack s n (s.effects env ev) (s.next env ev) ∨
      s.quickCommitIdx - n < s.params.logSyncStopGap ∧ AddsServer s (s.effects env ev) (s.next env ev) := by
  have heff : s.effects env ev = (handle env ev s).out := by
    rw [Server.effects, if_neg (by rw [h.live]; decide)]
  rcases le_or_gt s.params.logSyncStopGap (s.quickCommitIdx - n) with hgap | hgap
  · left
    obtain ⟨req, hreq, hrun⟩ := (h.withJoining p).syncs env h1 (show n ≤ s.quickCommitIdx by omega) hgap
    rw [hrun] at hev
    refine ⟨hgap, ⟨p, ?_⟩, req, hreq, ?_⟩
    · rw [Server.next_of_ok h.live (by rw [hev])]
      exact congrArg Outcome.state hev
    · rw [heff, hev]
  · right
    obtain ⟨c, o, hc, hout, hrest, hpack, hlog⟩ := (h.withJoining p).adds env hn hgap
    rw [← hev] at hout hlog
    obtain ⟨x, hnext⟩ := Server.next_of_live env ev h.live
    refine ⟨hgap, c, o, hc, heff.trans hout, hrest, hpack, ?_⟩
    rw [hnext]
    exact hlog

end Cornerstone
