import Cornerstone.LogMatching

/-! # What a leader knows of the logs of its peers

A leader takes the log of a peer for matched up to the index of the last entry that the
peer has accepted.  The matched index lives in the peer object, which outlasts the time of
the server in office, and what it says is about the term in which it was set.  It stays
true as long as the peer listens to this leader: a leader of a later term may take away
from the peer's log what an earlier one, who does not know of it yet, still counts.
-/

namespace Cornerstone
open Handlers Handler Server

/-! ## What is claimed -/

/-- Up to where server `i` takes the log of peer `p` for matched, it has entries of the same
terms as its own. -/
def MatchesUpTo (c : Cluster) (i : Int) (p : Peer) : Prop :=
  ∀ idx, 0 < idx → idx ≤ p.matchedIdx → ∃ e e', (c.servers i).logStore.entryAt? idx = some e ∧
    (c.servers p.id).logStore.entryAt? idx = some e' ∧ e'.term = e.term

/-- What leaders take for matched is. -/
def MatchedSound (c : Cluster) : Prop :=
  ∀ i ∈ c.ids, (c.servers i).role = .leader → ∀ p ∈ (c.servers i).peers, MatchesUpTo c i p

/-- What leaders take for matched is, at peers that do not know of a later term. -/
def MatchedSoundInTerm (c : Cluster) : Prop :=
  ∀ i ∈ c.ids, (c.servers i).role = .leader → ∀ p ∈ (c.servers i).peers,
    (c.servers p.id).state.term ≤ (c.servers i).state.term → MatchesUpTo c i p

/-- The condition under which an event leaves matched indexes telling: votes are counted
while nothing is matched yet, and no accepted response is from an earlier term. -/
def CountsSafely (s : Server) : Event → Prop
  | .peerResp _ _ resp =>
    (resp.type = .requestVoteResponse → s.electionCompleted = false → ∀ p ∈ s.peers, p.matchedIdx = 0) ∧
    (resp.type = .appendEntriesResponse → resp.accepted = true → s.state.term ≤ resp.term)
  | _ => True

instance decidableCountsSafely (s : Server) : (ev : Event) → Decidable (CountsSafely s ev)
  | .peerResp _ _ resp => inferInstanceAs (Decidable ((resp.type = .requestVoteResponse →
      s.electionCompleted = false → ∀ p ∈ s.peers, p.matchedIdx = 0) ∧
      (resp.type = .appendEntriesResponse → resp.accepted = true → s.state.term ≤ resp.term)))
  | .request _ | .peerErr _ _ | .extResp _ _ _ | .extErr _ _ | .extRetry _ | .electionTimeout | .hbTimeout _
  | .bgWake | .bgIter | .snapshotCompleted _ => inferInstanceAs (Decidable True)

/-! ## Matched and taken in -/

/-- What leaders take for matched has been taken in. -/
def Credited (c : Cluster) (a : Consensus.State Int LogEntry) : Prop :=
  ∀ i ∈ c.ids, (c.servers i).role = .leader → ∀ q m, (q, m) ∈ (c.servers i).share.matched →
    m ≤ a.acked q (c.servers i).state.term

theorem ulongSub_one_le (n : Nat) (h : 0 < n) : ulongSub n 1 ≤ n - 1 := by
  have hsum : n + (ulongSize - 1 % ulongSize) = n - 1 + ulongSize := by
    have hsize : 1 % ulongSize = 1 := by decide
    have hpos : 1 ≤ ulongSize := by decide
    rw [hsize]
    omega
  rw [ulongSub, hsum, Nat.add_mod_right]
  exact Nat.mod_le _ _

/-- What a server takes for matched after a response. -/
theorem mem_matched_answered {s : Server} {resp : RespMsg} {q : Int} {m : Nat}
    (h : (q, m) ∈ (s.answered resp).share.matched) :
    (q, m) ∈ s.share.matched ∨ resp.accepted = true ∧ q = resp.src ∧ m = ulongSub resp.nextIdx 1 := by
  unfold Server.answered at h
  split at h
  · rename_i hacc
    simp only [Server.share, Server.setMatched, Server.updatePeer, List.map_map, List.mem_map,
      Function.comp_apply] at h
    obtain ⟨p, hp, heq⟩ := h
    split at heq
    · rename_i hsrc
      obtain ⟨hid, hmatched⟩ := Prod.mk.inj heq
      rw [Peer.id] at hid hsrc
      exact .inr ⟨hacc, hid.symm.trans hsrc, hmatched.symm⟩
    · exact .inl (List.mem_map.mpr ⟨p, hp, heq⟩)
  · exact .inl h

namespace Mirrors
variable {Fair : Prop} {c : Cluster} {a a' : Consensus.State Int LogEntry} {env : Env} {act : Act} {i : Int}
  {ev : Event}

/-- An accepted response to a request for entries says what has been taken in. -/
theorem takenIn (h : Mirrors Fair c a) (ht : Turn c env act i ev) {via : Option PeerRef} {reqType : MsgType}
    {resp : RespMsg} (he : ev = .peerResp via reqType resp) (htype : resp.type = .appendEntriesResponse)
    (hacc : resp.accepted = true) : ∃ req, Told a req ∧ req.src = i ∧ TakenIn a req resp := by
  subst he
  cases h.holds.comes ht.event with
  | answer hreq hans hs => exact ⟨_, hreq, hs, hans.2 htype hacc⟩

/-- **An act keeps what leaders take for matched taken in.** -/
theorem credited_next (h : Mirrors Fair c a) (hc : Credited c a) (ht : Turn c env act i ev)
    (hsafe : CountsSafely (c.servers i) ev) (hext : Consensus.Extends a a') : Credited (c.next env act) a' := by
  intro j hj hrole q m hm
  rw [Cluster.ids_next] at hj
  have hold : (c.servers j).role = .leader → (q, m) ∈ (c.servers j).share.matched →
      m ≤ a'.acked q (c.servers j).state.term := fun hr hm => (hc j hj hr q m hm).trans (hext.acked _ _)
  by_cases hji : j = i
  · subst hji
    rw [Cluster.servers_next_self ht.event ht.mem] at hrole hm ⊢
    have hshares := ht.shares
    generalize (c.servers j).next env ev = t at hshares hrole hm ⊢
    generalize (c.servers j).effects env ev = o at hshares
    have hleads : t.share.leads = true := decide_eq_true hrole
    -- who still leads, and of whose peers nothing is known that was not before
    have hsame : t.share.term = (c.servers j).share.term → t.share.leads = (c.servers j).share.leads →
        t.share.matched = (c.servers j).share.matched → m ≤ a'.acked q t.state.term := by
      intro hterm hl hmatched
      rw [show t.state.term = (c.servers j).state.term from hterm]
      rw [hmatched] at hm
      exact hold (of_decide_eq_true (hl.symm.trans hleads)) hm
    have hhears : ∀ {n : Nat} {v : Int}, t.share = { (c.servers j).share.hears n with votedFor := v } →
        m ≤ a'.acked q t.state.term := by
      intro n v hshare
      by_cases hlt : (c.servers j).state.term < n
      · rw [share_hears_of_lt hlt] at hshare
        rw [hshare] at hleads
        cases hleads
      · rw [share_hears_of_le (Nat.not_lt.mp hlt)] at hshare
        exact hsame (by rw [hshare]) (by rw [hshare]) (by rw [hshare])
    cases hshares with
    | hears n hshare ho => exact hhears (n := n) hshare
    | closes hshare ho => exact hsame (by rw [hshare]) (by rw [hshare]) (by rw [hshare])
    | accepts he htype hle hfollows hprev hshare hrtype hsrc hrterm hidx ho =>
      rw [hshare] at hleads
      exact absurd (hfollows.symm.trans hleads) Bool.false_ne_true
    | grants he htype hle hokay hv hshare hrtype hrterm hdst ho => exact hhears hshare
    | stands he hr hshare ho =>
      rw [hshare] at hleads
      cases hleads
    | leads hr hes hshare ho ho' =>
      rw [hshare] at hm
      rcases hr with ⟨rfl, hopen, via, reqType, resp, he, htype⟩ | ⟨rfl, he, hr, hnone⟩
      · rw [he] at hsafe
        obtain ⟨p, hp, heq⟩ := List.mem_map.mp hm
        cases heq
        rw [hsafe.1 htype hopen p hp]
        exact Nat.zero_le _
      · obtain ⟨p, hp, -⟩ := List.mem_map.mp hm
        have hmem : p.id ∈ (c.servers j).peerIds := List.mem_map_of_mem hp
        rw [hnone] at hmem
        cases hmem
    | serves he htype hr hshare ho =>
      rw [hshare] at hm
      rw [show t.state.term = (c.servers j).state.term from congrArg Share.term hshare]
      exact hold hr hm
    | @answers via reqType resp _ _ he htype hle hshare ho =>
      have hterm : t.state.term = (c.servers j).state.term := by
        rw [share_answered] at hshare
        exact congrArg Share.term hshare
      have hr : (c.servers j).role = .leader := by
        rw [share_answered] at hshare
        rw [hshare] at hleads
        exact of_decide_eq_true hleads
      rw [hshare] at hm
      rw [hterm]
      rcases mem_matched_answered hm with hm | ⟨hacc, hq, hmatched⟩
      · exact hold hr hm
      · obtain ⟨req, -, -, htaken⟩ := h.takenIn ht he htype hacc
        rw [he] at hsafe
        have hnow : req.term = (c.servers j).state.term :=
          htaken.term.symm.trans (Nat.le_antisymm hle (hsafe.2 htype hacc))
        have hle' := ulongSub_one_le _ htaken.nextIdx_pos
        have hacked := htaken.acked
        rw [← htaken.src, ← hq, hnow] at hacked
        rw [← hmatched] at hle'
        exact le_trans (by omega) (hext.acked _ _)
  · rw [Cluster.servers_next_of_ne ht.event ht.mem hji] at hrole hm ⊢
    exact hold hrole hm

/-- Where a peer has taken in what a leader takes for matched, its log has the same entries. -/
theorem matchedSound (h : Mirrors Fair c a) (hc : Credited c a) : MatchedSoundInTerm c := by
  intro i hi hrole p hp hle idx hpos hidx
  have hmember := h.holds.servers i hi
  have hpeer : p.id ∈ c.ids := ((hmember.mem p.id).mp (List.mem_map_of_mem hp)).1
  have h1 := hmember.startIdx
  have h1' := (h.holds.servers p.id hpeer).startIdx
  have hacked := hc i hi hrole p.id p.matchedIdx (List.mem_map.mpr ⟨p, hp, rfl⟩)
  set T := (c.servers i).state.term with hT
  -- the peer is in the term of the leader
  have hled := (h.sound.acking.led p.id T (by omega)).1
  have hterm : a.term p.id = T := by
    rw [h.term] at hled ⊢
    omega
  have hkept := h.sound.acking.kept p.id
  rw [hterm] at hkept
  have hrecord : a.record T = a.log i := (h.record_of_leader hrole).2.trans (h.log i).symm
  have hlen := h.sound.acking.le p.id T
  have hlt : idx - 1 < (a.record T).length := by omega
  have hget : (a.record T)[idx - 1]? = some (a.record T)[idx - 1] := List.getElem?_eq_getElem hlt
  have hget' : (a.log p.id)[idx - 1]? = some (a.record T)[idx - 1] := by
    obtain ⟨rest, hrest⟩ := hkept
    rw [← hrest, List.getElem?_append_left (by rw [List.length_take]; omega), List.getElem?_take, if_pos (by omega),
      hget]
  refine ⟨(a.record T)[idx - 1], (a.record T)[idx - 1], ?_, ?_, rfl⟩
  · rw [LogStore.entryAt?_of_mem (by omega), h1, ← h.log i, ← hrecord]
    exact hget
  · rw [LogStore.entryAt?_of_mem (by omega), h1', ← h.log p.id]
    exact hget'

end Mirrors

/-! ## Every run -/

/-- A turn of logs is one of elections. -/
theorem Mirrors.Turn.polled {c : Cluster} {env : Env} {act : Act} {i : Int} {ev : Event}
    (ht : Mirrors.Turn c env act i ev) (h : Polled c) (hsafe : ElectsSafely (c.servers i) ev) :
    Polled.Turn c env act i ev :=
  ⟨ht.event, ht.mem, ht.polls, h.votesSafely ht.event hsafe, hsafe⟩

/-- An act that leaves elections, the terms of entries and matched indexes in order. -/
def CountsOrderly (c : Cluster) (act : Act) : Prop :=
  MatchesOrderly c act ∧ c.On ElectsSafely act ∧ c.On CountsSafely act

instance (c : Cluster) (act : Act) : Decidable (CountsOrderly c act) :=
  inferInstanceAs (Decidable (_ ∧ _))

/-- What holds between acts. -/
def Counted (c : Cluster) : Prop := Polled c ∧ ∃ a, Mirrors False c a ∧ Credited c a

theorem counted_start (params : Int → RaftParams) (config : ClusterConfig) : Counted (.start params config) := by
  refine ⟨polled_start params config, _, .start params config, fun i _ hr => ?_⟩
  cases hr

theorem counted_next {c : Cluster} {env : Env} {act : Act} (h : Counted c) (hact : CountsOrderly c act) :
    Counted (c.next env act) := by
  by_cases hnobody : ∀ i ev, c.event? act = some (i, ev) → i ∉ c.ids
  · rw [Cluster.next_of_none env hnobody]
    exact h
  · push Not at hnobody
    obtain ⟨i, ev, he, hid⟩ := hnobody
    obtain ⟨hp, a, hm, hc⟩ := h
    obtain ⟨⟨hstamp, hkeep⟩, helect, hcount⟩ := hact
    have ht : Mirrors.Turn c env act i ev := hm.turn he hid (hstamp i ev he hid) (hkeep i ev he hid)
    have hp' := hp.next (ht.polled hp (helect i ev he hid))
    obtain ⟨a', hm', -, hext⟩ := hm.next ht hp'.safe.one_leader False.elim
    exact ⟨hp', a', hm', hm.credited_next hc ht (hcount i ev he hid) hext⟩

/-- **In every run in which elections, the terms of entries and matched indexes stay in
order, what a leader takes for matched is, at every peer that does not know of a later
term.** -/
theorem matched_sound_in_term (params : Int → RaftParams) (config : ClusterConfig) (acts : List (Env × Act))
    (h : (Cluster.start params config).Along CountsOrderly acts) :
    MatchedSoundInTerm ((Cluster.start params config).run acts) := by
  obtain ⟨-, a, hm, hc⟩ := h.invariant (fun _ _ _ hI hact => counted_next hI hact) (counted_start params config)
  exact hm.matchedSound hc

/-- Server 1 is elected and server 2 takes in its first entry. -/
def matchedRun : List (Env × Act) :=
  [({}, .timeout 1), ({}, .deliver 0), ({}, .answer 0 0), ({}, .deliver 2), ({}, .answer 2 0)]

theorem matched_sound_in_term_three : MatchedSoundInTerm (freshCluster.run matchedRun) :=
  matched_sound_in_term _ _ _ (by decide +kernel)

/-- A cluster of five servers as it is first started. -/
def freshFive : Cluster :=
  .start (fun _ => {}) { servers := [⟨1, [49]⟩, ⟨2, [50]⟩, ⟨3, [51]⟩, ⟨4, [52]⟩, ⟨5, [53]⟩] }

/-- Server 1 is elected in term 1, and server 2 takes in its first entry and says so.  Server
3 is elected in term 2 with the votes of servers 4 and 5, and server 2 takes in its first
entry instead, before server 1 hears of any of this. -/
def overtakenRun : List (Env × Act) :=
  [({}, .timeout 1), ({}, .deliver 0), ({}, .deliver 1), ({}, .answer 0 0), ({}, .answer 1 0),
    ({}, .deliver 4), ({}, .answer 4 0), ({}, .timeout 3), ({}, .deliver 10), ({}, .deliver 11),
    ({}, .answer 10 0), ({}, .answer 11 0), ({}, .deliver 13)]

/-- **A leader that does not know of a later one counts what is gone**, although everything
is in order. -/
theorem matched_sound_fails :
    freshFive.Along CountsOrderly overtakenRun ∧ ¬ MatchedSound (freshFive.run overtakenRun) := by
  refine ⟨by decide +kernel, fun h => ?_⟩
  have hpeer : ∃ p ∈ ((freshFive.run overtakenRun).servers 1).peers, p.id = 2 ∧ p.matchedIdx = 1 := by
    decide +kernel
  obtain ⟨p, hp, hid, hmatched⟩ := hpeer
  have hmatch := h 1 (by decide +kernel) (by decide +kernel) p hp
  obtain ⟨e, e', he, he', hterm⟩ := hmatch 1 Nat.one_pos hmatched.ge
  rw [hid] at he'
  have hne : (((freshFive.run overtakenRun).servers 1).logStore.entryAt? 1).map LogEntry.term ≠
      (((freshFive.run overtakenRun).servers 2).logStore.entryAt? 1).map LogEntry.term := by decide +kernel
  rw [he, he', Option.map_some, Option.map_some, hterm] at hne
  exact hne rfl

end Cornerstone
