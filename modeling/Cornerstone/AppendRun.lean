import Cornerstone.AppendEntries
import Cornerstone.Requests

/-! # append_entries between two servers that were never compacted

`handle_append_entries` at a server that is no leader, and
`create_append_entries_req` at one that is, as exact equations: without a
compaction nothing in them can stop early.
-/

namespace Cornerstone
open Handlers Handler Server Splice

variable {s : Server}

/-! ## The follower -/

/-- The server once it has followed a leader, if that is the one of its own term. -/
def Server.followed (s : Server) (ofOwnTerm : Bool) : Server :=
  if ofOwnTerm = true ∧ s.role = .candidate then
    { s with peers := s.peers.map (·.enableHb false), srvToJoin := none, role := .follower }
  else s

theorem followLeader_run {b : Bool} (h : s.role ≠ .leader) :
    followLeader b s = ⟨.ok (), s.followed b, []⟩ := by
  simp only [followLeader, becomeFollower, bind_run, look_run, Outcome.andThen_ok, ite_run, change_run,
    List.nil_append, if_neg h, pure_run, Server.followed]
  by_cases hb : b = true
  · by_cases hc : s.role = .candidate
    · simp [hb, hc]
    · simp [hb, hc]
  · simp [hb]

theorem followed_rest (b : Bool) : ∃ p j r, s.followed b =
    { s with peers := p, srvToJoin := j, role := r } ∧ (s.role ≠ .leader → r ≠ .leader) := by
  unfold Server.followed
  split
  · exact ⟨_, _, _, rfl, fun _ => by decide⟩
  · exact ⟨_, _, _, rfl, id⟩

/-- On a log that was never compacted `term_for_log` answers below its end. -/
theorem termForLog_run (env : Env) {idx : Nat} (h1 : s.logStore.startIdx = 1)
    (hlt : idx < s.logStore.nextSlot) :
    termForLog env idx s = ⟨.ok (termAtEnd s.logStore.entries idx), s, []⟩ := by
  cases idx with
  | zero => simp [termForLog, termAtEnd_zero]
  | succ n =>
    have hne : ¬ n + 1 = 0 := by omega
    have hge : n + 1 ≥ s.logStore.startIdx := by omega
    have hlen : n < s.logStore.entries.length := by
      rw [LogStore.nextSlot, h1] at hlt
      omega
    have hget : s.logStore.entries[n]? = some s.logStore.entries[n] := List.getElem?_eq_getElem hlen
    have hterm : s.logStore.termAt? (n + 1) = some (termAtEnd s.logStore.entries (n + 1)) := by
      rw [LogStore.termAt?, LogStore.entryAt?_of_mem (by omega), h1, Nat.add_sub_cancel, hget,
        termAtEnd_succ hget]
      rfl
    simp only [termForLog, termAt, bind_run, look_run, Outcome.andThen_ok, ite_run, if_neg hne,
      if_pos hge, hterm, pure_run, List.nil_append]

/-- The log has the entry a request starts behind. -/
def LogStore.hasPrev (l : LogStore) (req : ReqMsg) : Bool :=
  req.lastLogIdx = 0 ∨
    req.lastLogIdx < l.nextSlot ∧ req.lastLogTerm = termAtEnd l.entries req.lastLogIdx

theorem appendLogOkay_run (env : Env) (req : ReqMsg) (h1 : s.logStore.startIdx = 1) :
    appendLogOkay env req s = ⟨.ok (s.logStore.hasPrev req), s, []⟩ := by
  by_cases h0 : req.lastLogIdx = 0
  · simp [appendLogOkay, LogStore.hasPrev, h0]
  · by_cases hlt : req.lastLogIdx < s.logStore.nextSlot
    · simp [appendLogOkay, LogStore.hasPrev, h0, hlt, termForLog_run env h1 hlt]
    · simp [appendLogOkay, LogStore.hasPrev, h0, hlt]

/-- The server with its commit index moved forward to `idx`. -/
def Server.committed (s : Server) (idx : Nat) : Server :=
  { s with quickCommitIdx := max s.quickCommitIdx idx }

/-- `commit` at a server that does not lead only moves the commit index. -/
theorem commit_run (env : Env) (idx : Nat) (h : s.role ≠ .leader) :
    commit env idx s = ⟨.ok (), s.committed idx, []⟩ := by
  simp only [commit, bind_run, look_run, Outcome.andThen_ok, ite_run, change_run, List.nil_append,
    if_neg h, pure_run, Server.committed]
  split
  · rename_i hlt
    rw [max_eq_right (show s.quickCommitIdx ≤ idx from hlt.le)]
  · rename_i hge
    rw [max_eq_left (by omega)]

/-- The answer to an append_entries request, before it is accepted. -/
def Server.appendResp (s : Server) (req : ReqMsg) : RespMsg :=
  { term := s.state.term
    type := .appendEntriesResponse
    src := s.id
    dst := req.src
    nextIdx := s.logStore.nextSlot }

/-- The server that has taken in the entries of a request. -/
def Server.appended (s : Server) (req : ReqMsg) : Server :=
  Server.committed { s.replicate req.lastLogIdx req.logEntries with leader := req.src } req.commitIdx

/-- **`handle_append_entries`** at a server that does not lead and was never
compacted: it declines, or takes in the entries. -/
theorem handleAppendEntries_run (env : Env) (req : ReqMsg) (h1 : s.logStore.startIdx = 1)
    (hr : s.role ≠ .leader) :
    handleAppendEntries env req s =
      if req.term < s.state.term ∨ s.logStore.hasPrev req = false then
        ⟨.ok (s.appendResp req), s.followed (req.term = s.state.term), []⟩
      else
        ⟨.ok ((s.appendResp req).accept (req.lastLogIdx + req.logEntries.length + 1)),
          (s.followed (req.term = s.state.term)).appended req,
          s.replicateEffects req.lastLogIdx req.logEntries⟩ := by
  obtain ⟨p, j, r, hf, hrole⟩ := followed_rest (s := s) (decide (req.term = s.state.term))
  have hfollow := followLeader_run (b := decide (req.term = s.state.term)) hr
  rw [hf] at hfollow ⊢
  set f : Server := { s with peers := p, srvToJoin := j, role := r } with hfdef
  have hokay : appendLogOkay env req f = ⟨.ok (s.logStore.hasPrev req), f, []⟩ :=
    appendLogOkay_run env req h1
  have hwrite : writeEntries req.lastLogIdx req.logEntries f = _ :=
    writeEntries_run req.logEntries (show f.logStore.startIdx ≤ req.lastLogIdx + 1 by
      rw [show f.logStore.startIdx = 1 from h1]
      omega)
  have hcommit := commit_run (s := { f.replicate req.lastLogIdx req.logEntries with leader := req.src })
    env req.commitIdx (hrole hr)
  simp only [handleAppendEntries, bind_run, look_run, Outcome.andThen_ok, hfollow, List.nil_append,
    hokay, ite_run, pure_run]
  split
  · rfl
  · simp only [bind_run, hwrite, hcommit, Outcome.andThen_ok, change_run, pure_run,
      List.append_nil]
    rfl

/-! ## The leader -/

/-- What becomes of the peers of a server that makes requests: a next index that
was never set becomes the end of the log. -/
structure Tended (s t : Server) : Prop where
  rest : t = { s with peers := t.peers, quickCommitIdx := t.quickCommitIdx }
  ids : t.peerIds = s.peerIds
  peers : ∀ q ∈ t.peers, ∃ p ∈ s.peers, q.config = p.config ∧ q.matchedIdx = p.matchedIdx ∧
    (q.nextLogIdx = p.nextLogIdx ∨ p.nextLogIdx = 0 ∧ q.nextLogIdx = s.logStore.nextSlot)

namespace Tended
variable {t u : Server}

theorem refl (s : Server) : Tended s s :=
  ⟨rfl, rfl, fun q hq => ⟨q, hq, rfl, rfl, .inl rfl⟩⟩

theorem logStore_eq (h : Tended s t) : t.logStore = s.logStore := by rw [h.rest]
theorem state_eq (h : Tended s t) : t.state = s.state := by rw [h.rest]
theorem params_eq (h : Tended s t) : t.params = s.params := by rw [h.rest]
theorem role_eq (h : Tended s t) : t.role = s.role := by rw [h.rest]

theorem trans (h : Tended s t) (h' : Tended t u) : Tended s u := by
  refine ⟨?_, h'.ids.trans h.ids, fun r hr => ?_⟩
  · have hu := h'.rest
    rw [h.rest] at hu
    exact hu
  · obtain ⟨q, hq, hqc, hqm, hqn⟩ := h'.peers r hr
    obtain ⟨p, hp, hpc, hpm, hpn⟩ := h.peers q hq
    refine ⟨p, hp, hqc.trans hpc, hqm.trans hpm, ?_⟩
    rw [h.logStore_eq] at hqn
    omega

/-- Changing peers, each as `Tended` allows. -/
theorem updatePeer (pid : Int) {f : Peer → Peer}
    (hf : ∀ p, (f p).config = p.config ∧ (f p).matchedIdx = p.matchedIdx ∧
      ((f p).nextLogIdx = p.nextLogIdx ∨ p.nextLogIdx = 0 ∧ (f p).nextLogIdx = s.logStore.nextSlot)) :
    Tended s (s.updatePeer pid f) := by
  refine ⟨rfl, ?_, fun q hq => ?_⟩
  · simp only [Server.peerIds, Server.updatePeer, List.map_map]
    refine List.map_congr_left fun p _ => ?_
    simp only [Function.comp_apply]
    split
    · exact congrArg SrvConfig.id (hf p).1
    · rfl
  · obtain ⟨p, hp, rfl⟩ := List.mem_map.mp hq
    refine ⟨p, hp, ?_⟩
    split
    · exact hf p
    · exact ⟨rfl, rfl, .inl rfl⟩

end Tended

/-- A server that was never compacted and believes no peer to be beyond its own
log. -/
structure Server.Ready (s : Server) : Prop where
  startIdx : s.logStore.startIdx = 1
  next_le : ∀ p ∈ s.peers, p.nextLogIdx ≤ s.logStore.nextSlot

theorem Tended.ready {s t : Server} (h : Tended s t) (hs : s.Ready) : t.Ready := by
  refine ⟨h.logStore_eq ▸ hs.startIdx, fun q hq => ?_⟩
  obtain ⟨p, hp, -, -, hn⟩ := h.peers q hq
  have hle := hs.next_le p hp
  rw [h.logStore_eq]
  omega

theorem findPeer_mem {pid : Int} {p : Peer} (h : s.findPeer pid = some p) : p ∈ s.peers ∧ p.id = pid :=
  ⟨List.mem_of_find?_eq_some h, by simpa using List.find?_some h⟩

/-- Where a peer is believed to be, the end of the log if nothing is known. -/
def Server.nextOf (s : Server) (p : Peer) : Nat :=
  if p.nextLogIdx = 0 then s.logStore.nextSlot else p.nextLogIdx

/-- The append_entries request for a peer that is believed to be at `n`. -/
def Server.appendReq (s : Server) (dst : Int) (n : Nat) : ReqMsg where
  term := s.state.term
  type := .appendEntriesRequest
  src := s.id
  dst := dst
  lastLogTerm := termAtEnd s.logStore.entries (n - 1)
  lastLogIdx := n - 1
  commitIdx := s.quickCommitIdx
  logEntries := s.logStore.logEntries (n - 1 + 1) (endIdx s (n - 1))

/-- The server once the next index of a peer is set. -/
def Server.located (s : Server) (pid : Int) : Server :=
  s.updatePeer pid fun p =>
    if p.nextLogIdx = 0 then { p with nextLogIdx := s.logStore.nextSlot } else p

theorem tended_located (pid : Int) : Tended s (s.located pid) := by
  refine Tended.updatePeer pid fun p => ?_
  split
  · exact ⟨rfl, rfl, .inr ⟨‹_›, rfl⟩⟩
  · exact ⟨rfl, rfl, .inl rfl⟩

theorem findPeer_updatePeer {pid : Int} {p : Peer} {f : Peer → Peer}
    (hf : ∀ p, (f p).id = p.id) (h : s.findPeer pid = some p) :
    (s.updatePeer pid f).findPeer pid = some (f p) := by
  have hpred : (fun q : Peer => decide (q.id = pid)) ∘ (fun q => if q.id = pid then f q else q) =
      fun q => decide (q.id = pid) := by
    funext q
    by_cases hq : q.id = pid
    · simp [hq, hf]
    · simp [hq]
  have hid := (findPeer_mem h).2
  rw [Server.findPeer] at h
  rw [Server.findPeer, Server.updatePeer, List.find?_map, hpred, h, Option.map_some, if_pos hid]

theorem findPeer_updatePeer_ne {pid q : Int} {f : Peer → Peer} (hf : ∀ p, (f p).id = p.id) (hne : q ≠ pid) :
    (s.updatePeer pid f).findPeer q = s.findPeer q := by
  simp only [Server.findPeer, Server.updatePeer, List.find?_map]
  have hpred : (fun p : Peer => decide (p.id = q)) ∘ (fun p => if p.id = pid then f p else p) =
      fun p => decide (p.id = q) := by
    funext p
    simp only [Function.comp_apply]
    split <;> simp [hf]
  rw [hpred]
  cases hfind : s.peers.find? (fun p => decide (p.id = q)) with
  | none => rfl
  | some p =>
    have hid : p.id = q := by simpa using List.find?_some hfind
    rw [Option.map_some, if_neg (hid ▸ hne)]

/-- **`create_append_entries_req`** at a server that is ready: the entries that
follow the place the peer is believed to be at. -/
theorem createAppendEntriesReq_run (env : Env) {pid : Int} {p : Peer} (hs : s.Ready)
    (hp : s.findPeer pid = some p) :
    createAppendEntriesReq env pid s = ⟨.ok (s.appendReq pid (s.nextOf p)), s.located pid, []⟩ := by
  obtain ⟨hmem, hid⟩ := findPeer_mem hp
  have hslot : s.logStore.nextSlot = 1 + s.logStore.entries.length := by
    rw [LogStore.nextSlot, hs.startIdx]
  have hle := hs.next_le p hmem
  set p' : Peer := if p.nextLogIdx = 0 then { p with nextLogIdx := s.logStore.nextSlot } else p
    with hp'
  have hnext : p'.nextLogIdx = s.nextOf p := by
    rw [hp', Server.nextOf]
    split <;> rfl
  have hid' : p'.id = pid := by
    rw [hp']
    split <;> exact hid
  have hfind : (s.located pid).peerAt? (.peer pid) = some p' :=
    findPeer_updatePeer (fun q => by split <;> rfl) hp
  have hbound : s.nextOf p ≤ s.logStore.nextSlot := by
    rw [Server.nextOf]
    split <;> omega
  have hlt : ¬ s.nextOf p - 1 ≥ s.logStore.nextSlot := by omega
  have hnone : ¬ (s.nextOf p - 1 > 0 ∧ s.nextOf p - 1 < s.logStore.startIdx - 1) := by
    rw [hs.startIdx]
    omega
  have hin : ¬ (s.nextOf p - 1 + 1 < s.logStore.nextSlot ∧
      s.nextOf p - 1 + 1 < s.logStore.startIdx) := by
    rw [hs.startIdx]
    omega
  have hterm := @termForLog_run (s.located pid) env (s.nextOf p - 1) hs.startIdx
    (Nat.lt_of_not_ge hlt)
  have hloc : (change (·.updatePeer pid fun p =>
      if p.nextLogIdx = 0 then { p with nextLogIdx := s.logStore.nextSlot } else p) : Action Unit) s =
      ⟨.ok (), s.located pid, []⟩ := rfl
  simp only [createAppendEntriesReq, derefPeer, bind_run, look_run, hloc, Outcome.andThen_ok,
    List.nil_append, hfind, pure_run, ite_run, hnext, if_neg hlt, if_neg hnone, hterm, if_neg hin,
    hid']
  rfl

/-- A request to one peer goes out, or the peer is busy. -/
theorem requestAppendEntriesTo_tends (env : Env) (pid : Int) (hs : s.Ready) :
    Achieves s (requestAppendEntriesTo env pid) fun _ t => Tended s t := by
  refine .look_bind ?_
  cases hp : s.findPeer pid with
  | none => exact .pure (.refl s)
  | some p =>
    refine .ite (fun _ => .pure (.refl s)) fun _ => .change_bind ?_
    have hbusy : Tended s (s.updatePeer pid fun p => { p with busy := true }) :=
      Tended.updatePeer pid fun p => ⟨rfl, rfl, .inl rfl⟩
    have hrun := createAppendEntriesReq_run env (hbusy.ready hs)
      (findPeer_updatePeer (f := fun p => { p with busy := true }) (fun _ => rfl) hp)
    refine .bind (P := fun _ t => Tended s t) ⟨_, by rw [hrun], ?_⟩ fun req t ht => ?_
    · rw [hrun]
      exact hbusy.trans (tended_located pid)
    · exact ⟨true, rfl, ht⟩

/-- `commit` at a server that is ready. -/
theorem commit_tends (env : Env) (idx : Nat) (hs : s.Ready) :
    Achieves s (commit env idx) fun _ t => Tended s t := by
  refine .look_bind (.ite (fun _ => .change_bind (.ite (fun _ => ?_) fun _ => ?_)) fun _ => ?_)
  · have hq : Tended s { s with quickCommitIdx := idx } :=
      ⟨rfl, rfl, fun q hq => ⟨q, hq, rfl, rfl, .inl rfl⟩⟩
    refine .forEach hq fun pid _ u hu => ?_
    refine .bind (requestAppendEntriesTo_tends env pid (hu.ready hs)) fun sent v hv => ?_
    refine .ite (fun _ => .pure (hu.trans hv)) fun _ => ⟨(), rfl, ?_⟩
    exact (hu.trans hv).trans (Tended.updatePeer pid fun p => ⟨rfl, rfl, .inl rfl⟩)
  · exact .pure ⟨rfl, rfl, fun q hq => ⟨q, hq, rfl, rfl, .inl rfl⟩⟩
  · exact .pure (.refl s)

theorem stillLags_tends (resp : RespMsg) :
    Achieves s (stillLags resp) fun _ t => Tended s t :=
  .look_bind (.change_bind (.pure (Tended.updatePeer _ fun _ => ⟨rfl, rfl, .inl rfl⟩)))

theorem continueWith_tends (env : Env) (pid : Int) (b : Bool) (hs : s.Ready) :
    Achieves s (continueWith env pid b) fun _ t => Tended s t := by
  refine .look_bind (.ite (fun _ => ?_) fun _ => .pure (.refl s))
  exact .bind (requestAppendEntriesTo_tends env pid hs) fun _ _ ht => .pure ht

end Cornerstone
