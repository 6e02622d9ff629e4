import Cornerstone.Majority
import Cornerstone.Requests

/-! # The leader's commit rule

What one append_entries response does to `quick_commit_idx_`, and when that is
what the commit rule of the algorithm asks for: the server is leader, and the
entry at the new index is from its current term.  `handle_append_entries_resp`
looks at neither.
-/

namespace Cornerstone
open Handlers Handler Server

/-! ## What a response does -/

/-- The server once `peers_` knows that the log of `pid` matches up to `m`. -/
def Server.setMatched (s : Server) (pid : Int) (m : Nat) : Server :=
  s.updatePeer pid fun p => { p with matchedIdx := m }

/-- A matched index as seen by what requests keep of a peer. -/
theorem Server.updatePeer_kept_matched {f : Peer → Peer} {m : Nat}
    (hf : ∀ p, (f p).kept = (p.config, m)) (s : Server) (pid : Int) :
    (s.updatePeer pid f).peers.map Peer.kept =
      (s.peers.map Peer.kept).map fun c => if c.1.id = pid then (c.1, m) else c := by
  simp only [Server.updatePeer, List.map_map]
  refine List.map_congr_left fun p _ => ?_
  by_cases hp : p.config.id = pid
  · simpa [Peer.id, Peer.kept, hp] using hf p
  · simp [Peer.id, Peer.kept, hp]

theorem quiet_setMatched {s s' : Server} {o : List Effect} (h : Sends s o s') {pid : Int} {m : Nat}
    {f : Peer → Peer} (hf : ∀ p, (f p).kept = (p.config, m)) :
    Quiet (s.setMatched pid m) [] (s'.updatePeer pid f) := by
  refine ⟨?_, ?_, h.joining, h.quick_eq.ge, h.exits, by simp⟩
  · have hrest := h.rest
    rw [hrest]
    rfl
  · rw [Server.updatePeer_kept_matched hf, Server.setMatched,
      Server.updatePeer_kept_matched (fun _ => rfl), h.peers]

/-- The server as a response of `src` leaves its matched indexes. -/
def Server.answered (s : Server) (resp : RespMsg) : Server :=
  if resp.accepted then s.setMatched resp.src (ulongSub resp.nextIdx 1) else s

/-- The index that a response has the server commit. -/
def Server.responseIdx (s : Server) (resp : RespMsg) : Nat :=
  majorityIdx (s.logStore.nextSlot - 1) ((s.answered resp).peers.map Peer.matchedIdx)

theorem findPeer_isSome {s : Server} {pid : Int} :
    (s.findPeer pid).isSome ↔ pid ∈ s.peerIds := by
  simp [Server.findPeer, Server.peerIds]

theorem Server.updatePeer_of_not_mem {s : Server} {pid : Int} (h : pid ∉ s.peerIds)
    (f : Peer → Peer) : s.updatePeer pid f = s := by
  have hmap : (s.peers.map fun p => if p.id = pid then f p else p) = s.peers := by
    refine (List.map_congr_left fun p hp => if_neg fun hid => h ?_).trans (List.map_id _)
    exact List.mem_map.mpr ⟨p, hp, hid⟩
  rw [Server.updatePeer, hmap]

/-- What `handle_append_entries_resp` does to a server, run after some sending. -/
structure Answers (s : Server) (resp : RespMsg) (o : List Effect) (t : Server) : Prop where
  quiet : Quiet (s.answered resp) o t
  quick : t.quickCommitIdx =
    if resp.accepted = true ∧ resp.src ∈ s.peerIds then max s.quickCommitIdx (s.responseIdx resp)
    else s.quickCommitIdx

theorem Answers.sends {s t u : Server} {resp : RespMsg} {o o' : List Effect}
    (h : Answers s resp o t) (h' : Sends t o' u) : Answers s resp (o ++ o') u :=
  ⟨quiet_law.trans h.quiet h'.quiet, h'.quick_eq.trans h.quick⟩

theorem answers_acceptedAppend {s s' : Server} {o : List Effect} (h : Sends s o s') (env : Env)
    {resp : RespMsg} (hacc : resp.accepted = true) (hmem : resp.src ∈ s.peerIds) :
    Answers s resp (acceptedAppend env resp s').out (acceptedAppend env resp s').state := by
  have hans : s.answered resp = s.setMatched resp.src (ulongSub resp.nextIdx 1) := by
    rw [Server.answered, if_pos hacc]
  set t := s.setMatched resp.src (ulongSub resp.nextIdx 1) with ht
  set t' := s'.updatePeer resp.src fun p => { p with
    nextLogIdx := resp.nextIdx, matchedIdx := ulongSub resp.nextIdx 1 } with ht'
  have hset : Quiet t [] t' := quiet_setMatched h fun _ => rfl
  have hquick : t'.quickCommitIdx = s.quickCommitIdx := h.quick_eq
  have hidx : majorityIdx (t'.logStore.nextSlot - 1) (t'.peers.map Peer.matchedIdx) =
      s.responseIdx resp := by
    rw [hset.logStore_eq, hset.matched_eq, Server.responseIdx, hans]
    rfl
  have hrun : acceptedAppend env resp s' =
      (commit env (s.responseIdx resp) >>= fun _ => stillLags resp) t' := by
    simp only [acceptedAppend, bind_run, change_run, look_run, Outcome.andThen_ok, List.nil_append]
    rw [← hidx]
  have hsends := commit_bind_sends (s := t') env (s.responseIdx resp)
    (k := fun _ => stillLags resp) fun u => sends_stillLags resp
  rw [← hrun] at hsends
  refine ⟨?_, ?_⟩
  · rw [hans]
    refine quiet_law.trans hset (quiet_law.trans ?_ hsends.quiet)
    exact ⟨rfl, rfl, rfl, le_max_left _ _, id, by simp⟩
  · rw [if_pos ⟨hacc, hmem⟩, hsends.quick_eq, hquick]

/-- **What an append_entries response does**: it sets the matched index of its
peer if it was accepted, and moves the commit index to where the matched indexes
then allow. -/
theorem answers_handleAppendEntriesResp {s s' : Server} {o : List Effect} (h : Sends s o s')
    (env : Env) (resp : RespMsg) :
    Answers s resp (handleAppendEntriesResp env resp s').out
      (handleAppendEntriesResp env resp s').state := by
  have hids : s'.peerIds = s.peerIds := h.quiet.peerIds_eq
  have hs : Sends s [] s' := ⟨h.rest, h.peers, h.joining, h.exits, by simp⟩
  simp only [handleAppendEntriesResp, bind_run, look_run, Outcome.andThen_ok, List.nil_append]
  cases hp : s'.findPeer resp.src with
  | none =>
    have hmem : resp.src ∉ s.peerIds := by
      rw [← hids, ← findPeer_isSome, hp]
      simp
    have hans : s.answered resp = s := by
      rw [Server.answered]
      split
      · exact Server.updatePeer_of_not_mem hmem _
      · rfl
    refine ⟨?_, ?_⟩
    · rw [hans]
      exact hs.quiet
    · rw [if_neg fun hc => hmem hc.2]
      exact hs.quick_eq
  | some p =>
    have hmem : resp.src ∈ s.peerIds := by
      rw [← hids, ← findPeer_isSome, hp]
      rfl
    by_cases hacc : resp.accepted = true
    · simp only [hacc, if_true]
      have ha := answers_acceptedAppend h env hacc hmem
      rcases bind_cases (acceptedAppend env resp) (continueWith env resp.src) s' with
        ⟨e, -, hb⟩ | ⟨b, -, hb⟩
      · rw [hb]
        exact ha
      · rw [hb]
        exact ha.sends (sends_continueWith env resp.src b)
    · simp only [if_neg hacc]
      have hd : Sends s' _ _ := Obeys.bind sends_law (sends_declinedAppend resp p) fun b _ =>
        sends_continueWith env resp.src b
      have hsd := sends_law.trans hs hd
      refine ⟨?_, ?_⟩
      · rw [Server.answered, if_neg hacc]
        exact hsd.quiet
      · rw [if_neg fun hc => hacc hc.1]
        exact hsd.quick_eq

/-- The same for the whole of `handle_peer_resp`, when the term is not new. -/
theorem answers_peerResp {s : Server} (env : Env) (via : Option PeerRef) (reqType : MsgType)
    {resp : RespMsg} (htype : resp.type = .appendEntriesResponse)
    (hterm : resp.term ≤ s.state.term) :
    Answers s resp (handle env (.peerResp via reqType resp) s).out
      (handle env (.peerResp via reqType resp) s).state := by
  have hrpc := sends_rpcResult (s := s) via reqType false
  have hterm' : resp.term ≤ (rpcResult via reqType false s).state.state.term := by
    rw [(Sends.quiet hrpc).state_eq]
    exact hterm
  have hpeer : handlePeerResp env resp (rpcResult via reqType false s).state =
      handleAppendEntriesResp env resp (rpcResult via reqType false s).state := by
    simp only [handlePeerResp, bind_run, updateTerm_of_le hterm', Outcome.andThen_ok, htype]
    rfl
  have hout : (rpcResult via reqType false s).out = [] := by cases via <;> rfl
  have hok : (rpcResult via reqType false s).res = .ok () := by cases via <;> rfl
  have ha := answers_handleAppendEntriesResp hrpc env resp
  have hrun : handle env (.peerResp via reqType resp) s =
      handleAppendEntriesResp env resp (rpcResult via reqType false s).state := by
    simp only [handle, bind_run, Outcome.andThen, hok, hout, hpeer, List.nil_append]
  rw [hrun]
  exact ha

/-! ## The commit rule -/

/-- An append_entries response that `handle_peer_resp` processes while its term is
not above the server's. -/
def isAppendResp (s : Server) : Event → Option RespMsg
  | .peerResp _ _ resp =>
    if resp.type = .appendEntriesResponse ∧ resp.term ≤ s.state.term ∧ s.exited = false then
      some resp
    else none
  | _ => none

/-- The server is leader and has an entry of its current term at this index. -/
def Server.leadsAt (s : Server) (idx : Nat) : Prop :=
  s.role = .leader ∧ s.logStore.termAt? idx = some s.state.term

/-- The leader commit rule, for one step: a response leaves `quick_commit_idx_`
alone or raises it to an index where the server leads. -/
def RaisesByRule (s : Server) (env : Env) (ev : Event) : Prop :=
  ∀ resp, isAppendResp s ev = some resp →
    (s.next env ev).quickCommitIdx = s.quickCommitIdx ∨
      s.leadsAt (s.next env ev).quickCommitIdx

/-- How far each server's log is known to match once a response counts: the
server's own last index, and the matched index of each peer. -/
def Server.replicas (s : Server) (resp : RespMsg) : List Nat :=
  (s.logStore.nextSlot - 1) :: s.peers.map fun p =>
    if p.id = resp.src then ulongSub resp.nextIdx 1 else p.matchedIdx

/-- The condition under which the code keeps the rule: where an accepted response
of a known peer completes a majority behind the commit index, the server leads at
the highest index the majority reaches. -/
def CompletesInTerm (s : Server) (_ : Env) (ev : Event) : Prop :=
  ∀ resp, isAppendResp s ev = some resp → resp.accepted = true → resp.src ∈ s.peerIds →
    ∀ n, s.quickCommitIdx < n → Majority (s.replicas resp) (n ≤ ·) →
      (∀ m, Majority (s.replicas resp) (m ≤ ·) → m ≤ n) → s.leadsAt n

theorem replicas_eq {s : Server} {resp : RespMsg} (hacc : resp.accepted = true) :
    s.replicas resp =
      (s.logStore.nextSlot - 1) :: (s.answered resp).peers.map Peer.matchedIdx := by
  rw [Server.replicas, Server.answered, if_pos hacc, Server.setMatched, Server.updatePeer,
    List.map_map]
  congr 1
  refine List.map_congr_left fun p _ => ?_
  simp only [Function.comp_apply]
  split <;> rfl

/-- The code's index is the highest one that a majority reaches. -/
theorem le_responseIdx_iff {s : Server} {resp : RespMsg} (hacc : resp.accepted = true) (n : Nat) :
    n ≤ s.responseIdx resp ↔ Majority (s.replicas resp) (n ≤ ·) := by
  rw [Server.responseIdx, majorityIdx, Majority, replicas_eq hacc,
    Majority.le_getD_insertionSort_iff (by simp; omega)]
  simp

theorem isAppendResp_eq {s : Server} {ev : Event} {resp : RespMsg}
    (h : isAppendResp s ev = some resp) :
    ∃ via reqType, ev = .peerResp via reqType resp ∧ resp.type = .appendEntriesResponse ∧
      resp.term ≤ s.state.term ∧ s.exited = false := by
  cases ev with
  | peerResp via reqType r =>
    rw [isAppendResp] at h
    split at h
    · cases h
      exact ⟨via, reqType, rfl, ‹_›⟩
    · cases h
  | _ => cases h

/-- The commit index a processed response leaves. -/
theorem next_quick {s : Server} {env : Env} {ev : Event} {resp : RespMsg}
    (h : isAppendResp s ev = some resp) :
    (s.next env ev).quickCommitIdx =
      if resp.accepted = true ∧ resp.src ∈ s.peerIds then
        max s.quickCommitIdx (s.responseIdx resp)
      else s.quickCommitIdx := by
  obtain ⟨via, reqType, rfl, htype, hterm, hlive⟩ := isAppendResp_eq h
  obtain ⟨x, hx⟩ := Server.next_of_live env (.peerResp via reqType resp) hlive
  rw [hx]
  exact (answers_peerResp env via reqType htype hterm).quick

/-- One step keeps the rule exactly if it meets the condition. -/
theorem raisesByRule_iff (s : Server) (env : Env) (ev : Event) :
    RaisesByRule s env ev ↔ CompletesInTerm s env ev := by
  refine forall_congr' fun resp => forall_congr' fun h => ?_
  rw [next_quick h]
  by_cases hc : resp.accepted = true ∧ resp.src ∈ s.peerIds
  · rw [if_pos hc]
    obtain ⟨hacc, hmem⟩ := hc
    constructor
    · -- the highest index of a majority above the commit index is the new one
      intro hrule _ _ n hn hmaj hmax
      have hle : s.responseIdx resp ≤ n :=
        hmax _ ((le_responseIdx_iff hacc _).mp le_rfl)
      have heq : s.responseIdx resp = n := le_antisymm hle ((le_responseIdx_iff hacc n).mpr hmaj)
      rw [heq, max_eq_right hn.le] at hrule
      exact hrule.resolve_left hn.ne'
    · intro hcond
      rcases le_or_gt (s.responseIdx resp) s.quickCommitIdx with hle | hlt
      · exact .inl (max_eq_left hle)
      · rw [max_eq_right hlt.le]
        refine .inr (hcond hacc hmem _ hlt ((le_responseIdx_iff hacc _).mp le_rfl) fun m hm => ?_)
        exact (le_responseIdx_iff hacc m).mpr hm
  · rw [if_neg hc]
    constructor
    · intro _ hacc hmem
      exact absurd ⟨hacc, hmem⟩ hc
    · intro _
      exact .inl rfl

/-- **The commit rule holds along a run exactly if every response of the run that
completes a majority does so at an index where the server leads.** -/
theorem raises_by_rule_iff (id : Int) (params : RaftParams) (state : Option SrvState)
    (logStore : LogStore) (config : ClusterConfig) (run : List (Env × Event)) :
    (Server.start id params state logStore config).Along RaisesByRule run ↔
      (Server.start id params state logStore config).Along CompletesInTerm run :=
  Server.Along.iff raisesByRule_iff run _

/-- A server of a cluster of two, just started. -/
def freshServer : Server :=
  .start 1 {} none {} { servers := [⟨1, [49]⟩, ⟨2, [50]⟩] }

/-- The answer of server 2 to the first request of server 1 as a leader. -/
def lateResp : RespMsg :=
  { term := 1, type := .appendEntriesResponse, src := 2, dst := 1, nextIdx := 2, accepted := true }

/-- Server 1 wins the election of term 1, then hears of term 2; only then the
answer to its first request arrives. -/
def deposedRun : List (Env × Event) :=
  [({}, .electionTimeout),
   ({}, .peerResp (some (.peer 2)) .requestVoteRequest
      { term := 1, type := .requestVoteResponse, src := 2, dst := 1, nextIdx := 1, accepted := true }),
   ({}, .request {
      term := 2, type := .requestVoteRequest, src := 2, dst := 1
      lastLogTerm := 0, lastLogIdx := 0, commitIdx := 0 }),
   ({}, .peerResp (some (.peer 2)) .appendEntriesRequest lateResp)]

/-- **A follower raises its commit index**: on the late answer server 1, a
follower by now, commits the entry of its own past term. -/
theorem raises_by_rule_fails : ¬ freshServer.Along RaisesByRule deposedRun := by
  intro h
  have hlast := h.2.2.2.1 lateResp (by decide +kernel)
  unfold Server.leadsAt at hlast
  revert hlast
  decide +kernel

end Cornerstone
