import Cornerstone.Leadership
import Cornerstone.UrgentCommit
import Mathlib.Data.Finset.Card
import Mathlib.Data.Finset.Lattice.Basic

/-! # Quorums

A commit goes by the matched indexes in descending order, an election by a count of
votes, and the two are computed by different expressions.  The index committed is the
highest one that more than half of the cluster has, and whoever is elected was voted
for by one of the servers that have it.
-/

namespace Cornerstone
open Handlers Handler Server

variable {s : Server}

/-- The servers of the cluster, as one of them knows it. -/
def Server.cluster (s : Server) : List Int := s.id :: s.peerIds

/-- The last index of the server's own log, and the matched index of each peer. -/
def Server.lastIdxs (s : Server) : List Nat :=
  (s.logStore.nextSlot - 1) :: s.peers.map Peer.matchedIdx

/-- How far the log of a server of the cluster is known to go. -/
def Server.lastIdxOf (s : Server) (x : Int) : Nat :=
  if x = s.id then s.logStore.nextSlot - 1 else ((s.findPeer x).map Peer.matchedIdx).getD 0

/-- More than half of the cluster, all of them with the log up to `n`. -/
structure Server.Witnesses (s : Server) (n : Nat) (W : Finset Int) : Prop where
  sub : W ⊆ s.cluster.toFinset
  most : s.cluster.length < 2 * W.card
  has : ∀ x ∈ W, n ≤ s.lastIdxOf x

theorem Server.length_cluster (s : Server) : s.cluster.length = s.peers.length + 1 := by
  simp [Server.cluster, Server.peerIds]

theorem findPeer_of_mem {p : Peer} (h : s.peerIds.Nodup) (hp : p ∈ s.peers) : s.findPeer p.id = some p := by
  refine List.find?_eq_some_iff_append.mpr ⟨by simp, ?_⟩
  obtain ⟨l, r, hl⟩ := List.append_of_mem hp
  refine ⟨l, r, hl, fun q hq => ?_⟩
  rw [Server.peerIds, hl, List.map_append, List.map_cons] at h
  have hdisj := (List.nodup_append.mp h).2.2 q.id (List.mem_map_of_mem hq) p.id List.mem_cons_self
  simpa using hdisj

/-- Server by server, the cluster has these last indexes. -/
theorem lastIdxs_eq (h : s.cluster.Nodup) : s.lastIdxs = s.cluster.map s.lastIdxOf := by
  obtain ⟨hself, hids⟩ := List.nodup_cons.mp h
  have hpeers : s.peers.map Peer.matchedIdx = s.peerIds.map s.lastIdxOf := by
    rw [Server.peerIds, List.map_map]
    refine List.map_congr_left fun p hp => ?_
    have hne : p.id ≠ s.id := fun heq => hself (heq ▸ List.mem_map_of_mem hp)
    rw [Function.comp_apply, Server.lastIdxOf, if_neg hne, findPeer_of_mem hids hp]
    rfl
  have hown : s.lastIdxOf s.id = s.logStore.nextSlot - 1 := if_pos rfl
  rw [Server.lastIdxs, Server.cluster, List.map_cons, hown, hpeers]

/-- The cluster has an index by majority exactly if there are servers to witness it. -/
theorem majority_iff_witnesses (h : s.cluster.Nodup) (n : Nat) :
    Majority s.lastIdxs (n ≤ ·) ↔ ∃ W, s.Witnesses n W := by
  have hcount : s.lastIdxs.countP (n ≤ ·) = (s.cluster.filter (n ≤ s.lastIdxOf ·)).length := by
    rw [lastIdxs_eq h, List.countP_map, List.countP_eq_length_filter]
    rfl
  have hlen : s.lastIdxs.length = s.cluster.length := by
    rw [lastIdxs_eq h, List.length_map]
  have hcard : (s.cluster.filter (n ≤ s.lastIdxOf ·)).toFinset.card = s.lastIdxs.countP (n ≤ ·) := by
    rw [hcount, List.toFinset_card_of_nodup (h.filter _)]
  constructor
  · intro hmaj
    refine ⟨(s.cluster.filter (n ≤ s.lastIdxOf ·)).toFinset, ?_, ?_, ?_⟩
    · intro x hx
      rw [List.mem_toFinset] at hx ⊢
      exact List.mem_of_mem_filter hx
    · unfold Majority at hmaj
      omega
    · intro x hx
      simpa using List.of_mem_filter (List.mem_toFinset.mp hx)
  · rintro ⟨W, hsub, hmost, hhas⟩
    have hle : W.card ≤ (s.cluster.filter (n ≤ s.lastIdxOf ·)).toFinset.card := by
      refine Finset.card_le_card fun x hx => ?_
      have hmem := List.mem_toFinset.mp (hsub hx)
      exact List.mem_toFinset.mpr (List.mem_filter.mpr ⟨hmem, by simpa using hhas x hx⟩)
    unfold Majority
    omega

/-! ## The index committed -/

/-- An accepted response of a peer is noted, and its handler calls `commit` with the
majority index. -/
theorem handleAppendEntriesResp_commits (env : Env) {resp : RespMsg} (hmem : resp.src ∈ s.peerIds)
    (hacc : resp.accepted = true) :
    handleAppendEntriesResp env resp s =
      (do
        commit env (s.responseIdx resp)
        let needToCatchup ← stillLags resp
        continueWith env resp.src needToCatchup) (s.noteAnswer resp) := by
  obtain ⟨p, hp⟩ := Option.isSome_iff_exists.mp (findPeer_isSome.mpr hmem)
  have hrun : handleAppendEntriesResp env resp s =
      (acceptedAppend env resp >>= continueWith env resp.src) s := by
    simp [handleAppendEntriesResp, hp, hacc]
  rw [hrun, bind_run, acceptedAppend_run env hacc, ← bind_run, Handler.bind_bind]

theorem lastIdxs_noteAnswer (s : Server) (resp : RespMsg) :
    (s.noteAnswer resp).lastIdxs = s.replicas resp := by
  rw [Server.lastIdxs, Server.replicas, Server.noteAnswer, Server.updatePeer, List.map_map]
  congr 1
  refine List.map_congr_left fun p _ => ?_
  rw [Function.comp_apply]
  split <;> rfl

/-- The index is the highest one that more than half of the cluster has. -/
theorem isGreatest_responseIdx {resp : RespMsg} (hacc : resp.accepted = true) :
    IsGreatest {n | Majority (s.noteAnswer resp).lastIdxs (n ≤ ·)} (s.responseIdx resp) := by
  rw [lastIdxs_noteAnswer]
  constructor
  · exact (le_responseIdx_iff hacc _).mp le_rfl
  · intro n hn
    exact (le_responseIdx_iff hacc n).mpr hn

/-! ## The votes that elect -/

/-- `become_leader` is called with these votes granted: by `request_vote`, which counts
the server's own, or by `handle_voting_resp`. -/
def Server.WinsWith (s : Server) (votes : Nat) : Prop :=
  ∃ env term, .becomeLeader term votes ∈ (requestVote env s).out ∨
    ∃ resp, .becomeLeader term votes ∈ (handleVotingResp env resp s).out

/-- The votes noted at the start of `become_leader` are the ones granted. -/
theorem votes_of_becomeLeader {env : Env} {term votes : Nat}
    (h : .becomeLeader term votes ∈ (becomeLeader env s).out) : votes = s.votesGranted := by
  rw [becomeLeader_run] at h
  rcases List.mem_append.mp h with h | h
  · rw [Server.electedEffects] at h
    rcases List.mem_cons.mp h with h | h
    · cases h
      rfl
    · split at h
      · cases List.mem_singleton.mp h
      · exact absurd h List.not_mem_nil
  · cases (quiet_requestAppendEntries env).out _ h

/-- More than half of the cluster has to vote for a server before it takes office. -/
theorem lt_of_winsWith {votes : Nat} (h : s.WinsWith votes) : (s.peers.length + 1) / 2 < votes := by
  obtain ⟨env, term, h | ⟨resp, h⟩⟩ := h
  · simp only [requestVote, saveState, bind_run, look_run, emit_run, change_run, ite_run,
      Outcome.andThen_ok, List.nil_append] at h
    split at h
    · have hv := votes_of_becomeLeader ((List.mem_cons.mp h).resolve_left (by simp))
      rw [hv]
      assumption
    · -- the requests for votes say nothing of an office
      have hout := (List.mem_cons.mp h).resolve_left (by simp)
      rcases (canvasses_requestVotes env _).out _ hout with ⟨req, he, -⟩ | ⟨code, he⟩
      · cases he
      · cases he
  · by_cases hdone : s.electionCompleted = true
    · rw [handleVotingResp_done env resp hdone] at h
      exact absurd h List.not_mem_nil
    · rw [handleVotingResp_run env resp (by simpa using hdone)] at h
      have hpeers : (s.counted resp.accepted).peers = s.peers := by rw [counted_rest]
      rw [hpeers] at h
      split at h
      · rw [votes_of_becomeLeader (s := { s.counted resp.accepted with electionCompleted := true }) h]
        assumption
      · exact absurd h List.not_mem_nil

/-- Two sets of more than half of the cluster meet. -/
theorem Server.Witnesses.inter {n : Nat} {V W : Finset Int} (hW : s.Witnesses n W)
    (hsub : V ⊆ s.cluster.toFinset) (hV : (s.peers.length + 1) / 2 < V.card) : ∃ x ∈ V, x ∈ W := by
  by_contra hnone
  have hdisj : Disjoint V W := by
    rw [Finset.disjoint_left]
    intro x hxV hxW
    exact hnone ⟨x, hxV, hxW⟩
  have hunion := Finset.card_le_card (Finset.union_subset hsub hW.sub)
  rw [Finset.card_union_of_disjoint hdisj] at hunion
  have hle : s.cluster.toFinset.card ≤ s.cluster.length := List.toFinset_card_le _
  have hmost := hW.most
  have hlen := s.length_cluster
  omega

/-- **Quorum arithmetic**: an accepted response has the highest index committed that more
than half of the cluster has, and any servers numerous enough to elect a leader of the
cluster include one of those that witness such an index. -/
theorem quorum_arithmetic (env : Env) (s : Server) :
    (∀ resp, resp.src ∈ s.peerIds → resp.accepted = true →
      ∃ n, handleAppendEntriesResp env resp s =
          (do
            commit env n
            let needToCatchup ← stillLags resp
            continueWith env resp.src needToCatchup) (s.noteAnswer resp) ∧
        IsGreatest {m | Majority (s.noteAnswer resp).lastIdxs (m ≤ ·)} n) ∧
    ∀ c : Server, c.cluster.Perm s.cluster → ∀ votes, c.WinsWith votes →
      ∀ V ⊆ c.cluster.toFinset, votes ≤ V.card →
        ∀ n W, s.Witnesses n W → ∃ x ∈ V, x ∈ W := by
  constructor
  · intro resp hmem hacc
    exact ⟨s.responseIdx resp, handleAppendEntriesResp_commits env hmem hacc,
      isGreatest_responseIdx hacc⟩
  · intro c hperm votes hwins V hV hvotes n W hW
    have hsub : V ⊆ s.cluster.toFinset := by
      rwa [← List.toFinset_eq_of_perm _ _ hperm]
    have hlen : c.peers.length = s.peers.length := by
      have h := hperm.length_eq
      rwa [c.length_cluster, s.length_cluster, Nat.add_right_cancel_iff] at h
    refine hW.inter hsub (lt_of_lt_of_le ?_ hvotes)
    rw [← hlen]
    exact lt_of_winsWith hwins

/-- A server of a cluster of three, with matched indexes for its peers in order. -/
def oneOfThree (id : Int) (matched : List Nat) : Server :=
  let s := Server.start id {} none { entries := [⟨1, [], .appLog⟩, ⟨1, [], .appLog⟩] }
    { servers := [⟨1, [49]⟩, ⟨2, [50]⟩, ⟨3, [51]⟩] }
  { s with peers := s.peers.zipWith (fun p m => { p with matchedIdx := m }) matched }

/-- Server 1 and server 3 have index 2, and server 2 is elected by 2 and 3. -/
theorem quorum_arithmetic_three : ∃ x ∈ ({2, 3} : Finset Int), x ∈ ({1, 3} : Finset Int) := by
  refine (quorum_arithmetic {} (oneOfThree 1 [0, 2])).2 ((oneOfThree 2 [0, 0]).campaign) (by decide)
    2 ⟨{}, 1, .inr ⟨grantedVote, ?_⟩⟩ {2, 3} (by decide) (by decide) 2 {1, 3} ⟨?_, ?_, ?_⟩
  · decide +kernel
  · decide
  · decide
  · decide

end Cornerstone
