import Cornerstone.SnapshotBlocks

/-! # Servers with a compacted log

Behind a snapshot the log starts at the index after the last one of the snapshot, and
the term of that last index is known from the snapshot only.  `last_entry`,
`term_for_log`, `entry_at` and the conditions of `create_append_entries_req` each have
their own view of that boundary.
-/

namespace Cornerstone
open Handlers Handler Server

/-- The log starts right behind the last snapshot, if it was ever compacted. -/
structure BehindSnapshot (env : Env) (l : LogStore) : Prop where
  one_le : 1 ≤ l.startIdx
  snapshot : 1 < l.startIdx → ∃ snp, env.lastSnapshot = some snp ∧ snp.lastLogIdx + 1 = l.startIdx

/-- The term of the last index of the last snapshot. -/
def Env.snapshotTerm (env : Env) : Nat := (env.lastSnapshot.map Snapshot.lastLogTerm).getD 0

/-- The term at an index, as far down as the last index of the snapshot. -/
def LogStore.termUpTo (l : LogStore) (env : Env) (idx : Nat) : Nat :=
  if idx = 0 then 0
  else if l.startIdx ≤ idx then (l.termAt? idx).getD 0
  else env.snapshotTerm

variable {s : Server} {env : Env}

/-! ## term_for_log -/

/-- From the end of the snapshot to the end of the log `term_for_log` answers. -/
theorem termForLog_upTo {idx : Nat} (h : BehindSnapshot env s.logStore)
    (hge : s.logStore.startIdx ≤ idx + 1) (hlt : idx < s.logStore.nextSlot) :
    termForLog env idx s = ⟨.ok (s.logStore.termUpTo env idx), s, []⟩ := by
  by_cases h0 : idx = 0
  · simp [termForLog, LogStore.termUpTo, h0]
  · by_cases hin : s.logStore.startIdx ≤ idx
    · obtain ⟨e, he⟩ := LogStore.entryAt?_isSome hin hlt
      simp [termForLog, LogStore.termUpTo, h0, hin, termAt, LogStore.termAt?, he]
    · obtain ⟨snp, hsnp, hlast⟩ := h.snapshot (by omega)
      have hidx : idx = snp.lastLogIdx := by omega
      have hout : ¬ snp.lastLogIdx ≥ s.logStore.startIdx := by omega
      have hpos : ¬ snp.lastLogIdx = 0 := by omega
      simp [termForLog, LogStore.termUpTo, Env.snapshotTerm, hpos, hsnp, hidx, hout]

/-- The server votes only for candidates whose last term and index are at least those it
would send itself. -/
def VotesUpToDate (env : Env) (s : Server) : Prop :=
  ∀ req resp, (handleVoteReq req s).res = .ok resp → resp.accepted = true →
    ∃ term, (termForLog env (s.logStore.nextSlot - 1) s).res = .ok term ∧
      (term < req.lastLogTerm ∨ term = req.lastLogTerm ∧ s.logStore.nextSlot - 1 ≤ req.lastLogIdx)

/-- A vote is an accepted response. -/
theorem handleVoteReq_accepted (req : ReqMsg) :
    (∃ resp, (handleVoteReq req s).res = .ok resp ∧ resp.accepted = true) ↔ s.grants req = true := by
  by_cases hg : s.grants req = true
  · simp [handleVoteReq, hg, saveState, RespMsg.accept]
  · simp [handleVoteReq, hg]

/-- The last entry of a store that holds one tells the term of the end of the log. -/
theorem lastTerm_eq (h1 : 1 ≤ s.logStore.startIdx) (hne : s.logStore.entries ≠ []) :
    s.logStore.lastTerm = s.logStore.termUpTo env (s.logStore.nextSlot - 1) := by
  have hpos : 0 < s.logStore.entries.length := List.length_pos_iff.mpr hne
  have hnext : s.logStore.nextSlot - 1 = s.logStore.startIdx + (s.logStore.entries.length - 1) := by
    rw [LogStore.nextSlot]
    omega
  rw [hnext, LogStore.termUpTo, if_neg (by omega), if_pos (by omega), LogStore.termAt?,
    LogStore.entryAt?_of_mem (by omega), Nat.add_sub_cancel_left, LogStore.lastTerm, List.getLast?_eq_getElem?]

/-- **A server votes only for candidates that are up to date**, whatever the request,
exactly if its store holds an entry, or nothing was compacted; the dummy entry of an
emptied store has term 0, not the term of the snapshot. -/
theorem votes_up_to_date_iff (h : BehindSnapshot env s.logStore) :
    VotesUpToDate env s ↔
      s.logStore.entries ≠ [] ∨ s.logStore.startIdx = 1 ∨ env.snapshotTerm = 0 := by
  have h1 := h.one_le
  have hnext : s.logStore.nextSlot = s.logStore.startIdx + s.logStore.entries.length := rfl
  have hrun : termForLog env (s.logStore.nextSlot - 1) s = _ := termForLog_upTo h (by omega) (by omega)
  constructor
  · intro hall
    by_contra hno
    obtain ⟨hnil, hstart, hterm⟩ : s.logStore.entries = [] ∧ s.logStore.startIdx ≠ 1 ∧ env.snapshotTerm ≠ 0 := by
      simpa using hno
    -- a candidate that says its log ends there with an entry of term 0
    let req : ReqMsg := {
      term := s.state.term
      type := .requestVoteRequest
      src := s.state.votedFor
      dst := s.id
      lastLogTerm := 0
      lastLogIdx := s.logStore.nextSlot - 1
      commitIdx := 0 }
    have hlast : s.logStore.lastTerm = 0 := by simp [LogStore.lastTerm, hnil]
    have hgrant : s.grants req = true := by simp [Server.grants, Server.voteLogOkay, req, hlast]
    obtain ⟨resp, hres, hacc⟩ := (handleVoteReq_accepted req).mpr hgrant
    obtain ⟨term, hterm', hle⟩ := hall req resp hres hacc
    have hend : s.logStore.nextSlot - 1 = s.logStore.startIdx - 1 := by
      rw [LogStore.nextSlot, hnil]
      rfl
    rw [hrun, hend, LogStore.termUpTo, if_neg (by omega), if_neg (by omega)] at hterm'
    cases hterm'
    change env.snapshotTerm < 0 ∨ env.snapshotTerm = 0 ∧ _ at hle
    omega
  · intro hwhen req resp hres hacc
    refine ⟨_, by rw [hrun], ?_⟩
    have hgrant := (handleVoteReq_accepted req).mp ⟨resp, hres, hacc⟩
    have hokay : s.voteLogOkay req = true := by
      simp only [Server.grants, decide_eq_true_eq] at hgrant
      exact hgrant.2.1
    have hlast : s.logStore.lastTerm = s.logStore.termUpTo env (s.logStore.nextSlot - 1) := by
      by_cases hne : s.logStore.entries = []
      · have hend : s.logStore.nextSlot - 1 = s.logStore.startIdx - 1 := by
          rw [LogStore.nextSlot, hne]
          rfl
        rw [hend, LogStore.termUpTo, LogStore.lastTerm, hne]
        rcases hwhen with hne' | hstart | hterm
        · exact absurd hne hne'
        · rw [if_pos (by omega)]
          rfl
        · rw [if_neg (by omega : ¬ s.logStore.startIdx ≤ s.logStore.startIdx - 1), hterm, ite_self]
          rfl
      · exact lastTerm_eq h1 hne
    simp only [Server.voteLogOkay, gt_iff_lt, hlast, decide_eq_true_eq] at hokay
    rcases hokay with hlt | ⟨heq, hle⟩
    · exact .inl hlt
    · exact .inr ⟨heq.symm, hle⟩

/-- A log of three entries behind a snapshot up to index 5. -/
theorem votes_up_to_date_iff_stored :
    VotesUpToDate { lastSnapshot := some ⟨5, 3, 1, {}⟩ }
        { id := 2, logStore := ⟨6, List.replicate 3 ⟨3, [], .appLog⟩⟩ } ↔
      List.replicate 3 (⟨3, [], .appLog⟩ : LogEntry) ≠ [] ∨ 6 = 1 ∨
        Env.snapshotTerm { lastSnapshot := some ⟨5, 3, 1, {}⟩ } = 0 :=
  votes_up_to_date_iff (s := { id := 2, logStore := ⟨6, List.replicate 3 ⟨3, [], .appLog⟩⟩ })
    ⟨by decide, fun _ => ⟨_, rfl, rfl⟩⟩

/-- A server whose whole log went into a snapshot of term 3 votes for a candidate with one
entry of term 1. -/
theorem votes_up_to_date_fails :
    ¬ ∀ (env : Env) (s : Server), BehindSnapshot env s.logStore → VotesUpToDate env s := by
  intro hall
  have h := hall { lastSnapshot := some ⟨5, 3, 1, {}⟩ } { id := 2, state := ⟨4, 5, -1⟩, logStore := ⟨6, []⟩ }
    ⟨by decide, fun _ => ⟨_, rfl, rfl⟩⟩
  obtain ⟨term, hterm, hle⟩ := h ⟨4, .requestVoteRequest, 1, 2, 1, 1, 0, []⟩ _ rfl rfl
  have hthree : (3 : Nat) = term := Except.ok.inj hterm
  change term < 1 ∨ term = 1 ∧ 5 ≤ 1 at hle
  omega

/-! ## append_entries requests -/

variable {req : ReqMsg}

theorem followLeader_follower {b : Bool} (hr : s.role = .follower) : followLeader b s = ⟨.ok (), s, []⟩ := by
  simp [followLeader, hr]

variable {p : Peer}

theorem peerAt?_located (hp : s.findPeer p.id = some p) (h1 : 1 ≤ p.nextLogIdx) :
    (s.located p.id).peerAt? (.peer p.id) = some p := by
  have hloc := findPeer_updatePeer (s := s) (f := fun p =>
    if p.nextLogIdx = 0 then { p with nextLogIdx := s.logStore.nextSlot } else p) (fun q => by split <;> rfl) hp
  rw [if_neg (by omega)] at hloc
  exact hloc

theorem change_located (pid : Int) : (change (·.updatePeer pid fun p =>
    if p.nextLogIdx = 0 then { p with nextLogIdx := s.logStore.nextSlot } else p) : Action Unit) s =
      ⟨.ok (), s.located pid, []⟩ := rfl

/-- Below the end of the snapshot a request for the peer is a block of a snapshot. -/
theorem createAppendEntriesReq_below (hp : s.findPeer p.id = some p) (hne : 2 ≤ p.nextLogIdx)
    (hlt : p.nextLogIdx < s.logStore.startIdx) :
    createAppendEntriesReq env p.id s =
      createSyncSnapshotReq env (.peer p.id) (p.nextLogIdx - 1) s.state.term s.quickCommitIdx
        (s.located p.id) := by
  have hloc := peerAt?_located hp (by omega)
  have hlow : ¬ p.nextLogIdx - 1 ≥ s.logStore.nextSlot := by
    rw [LogStore.nextSlot]
    omega
  have hbelow : p.nextLogIdx - 1 > 0 ∧ p.nextLogIdx - 1 < s.logStore.startIdx - 1 := by omega
  rw [createAppendEntriesReq, bind_silent (look_run _), bind_silent (change_located _),
    bind_silent (derefPeer_run hloc), if_neg hlow, if_pos hbelow]

/-- The request with entries for a peer, as `create_append_entries_req` makes it up. -/
def Server.entriesReq (s : Server) (p : Peer) (lastLogTerm : Nat) : ReqMsg where
  term := s.state.term
  type := .appendEntriesRequest
  src := s.id
  dst := p.id
  lastLogTerm := lastLogTerm
  lastLogIdx := p.nextLogIdx - 1
  commitIdx := s.quickCommitIdx
  logEntries := s.logStore.logEntries p.nextLogIdx (endIdx s (p.nextLogIdx - 1))

theorem termForLog_congr {t : Server} {idx term : Nat} (hlog : t.logStore = s.logStore)
    (h : termForLog env idx s = ⟨.ok term, s, []⟩) : termForLog env idx t = ⟨.ok term, t, []⟩ := by
  have hres := congrArg Outcome.res h
  simp only [termForLog, termAt, bind_run, look_run, Outcome.andThen_ok, ite_run, hlog, List.nil_append] at hres ⊢
  by_cases h0 : idx = 0
  · simpa [h0] using hres
  by_cases hge : idx ≥ s.logStore.startIdx
  · cases hat : s.logStore.termAt? idx with
    | none => simp [h0, hge, hat] at hres
    | some term' => simpa [h0, hge, hat] using hres
  · cases hsnp : env.lastSnapshot with
    | none => simp [h0, hge, hsnp, systemExitAndExit] at hres
    | some snp =>
      by_cases hidx : idx = snp.lastLogIdx
      · have hne : ¬ snp.lastLogIdx = 0 := hidx ▸ h0
        have hout : ¬ s.logStore.startIdx ≤ snp.lastLogIdx := hidx ▸ hge
        simpa [hsnp, hidx, hne, hout] using hres
      · simp [h0, hge, hsnp, hidx, systemExitAndExit] at hres

/-- From the end of the snapshot on it is a request with entries. -/
theorem createAppendEntriesReq_above {term : Nat} (hp : s.findPeer p.id = some p) (h1 : 1 ≤ p.nextLogIdx)
    (hle : p.nextLogIdx ≤ s.logStore.nextSlot) (hge : s.logStore.startIdx ≤ p.nextLogIdx)
    (hterm : termForLog env (p.nextLogIdx - 1) s = ⟨.ok term, s, []⟩) :
    createAppendEntriesReq env p.id s = ⟨.ok (s.entriesReq p term), s.located p.id, []⟩ := by
  have hloc := peerAt?_located hp h1
  have hlow : ¬ p.nextLogIdx - 1 ≥ s.logStore.nextSlot := by omega
  have hnot : ¬ (p.nextLogIdx - 1 > 0 ∧ p.nextLogIdx - 1 < s.logStore.startIdx - 1) := by omega
  have hnext : p.nextLogIdx - 1 + 1 = p.nextLogIdx := by omega
  have hin : ¬ (p.nextLogIdx < s.logStore.nextSlot ∧ p.nextLogIdx < s.logStore.startIdx) := by omega
  have hterm' := termForLog_congr (s := s) (t := s.located p.id) rfl hterm
  rw [createAppendEntriesReq, bind_silent (look_run _), bind_silent (change_located _),
    bind_silent (derefPeer_run hloc), if_neg hlow, if_neg hnot, bind_silent hterm', hnext, if_neg hin, pure_run,
    Server.entriesReq]

/-- A peer at some next index. -/
def peerNext (n : Nat) : Peer := { config := ⟨2, []⟩, currentHbInterval := 0, nextLogIdx := n }

/-- A leader with that peer and a log of three entries behind a snapshot up to index 5. -/
def compactedLeader (n : Nat) : Server where
  id := 1
  role := .leader
  peers := [peerNext n]
  logStore := ⟨6, List.replicate 3 ⟨3, [], .appLog⟩⟩

end Cornerstone
