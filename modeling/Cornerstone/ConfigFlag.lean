import Cornerstone.Paths

/-! # What `config_changing_` says

The constructor sets `config_changing_` if a configuration entry stands above
the commit index.  From then on the flag is kept up to date by hand, at every
place that changes the log or the commit index.
-/

namespace Cornerstone
open Handlers Handler Server Splice

/-! ## Configurations above the commit index -/

namespace LogStore
variable {l : LogStore} {c n : Nat}

/-- The log below an index. -/
def upTo (l : LogStore) (idx : Nat) : LogStore :=
  { l with entries := l.entries.take (idx - l.startIdx) }

/-- Said with indexes. -/
theorem pendingConf_iff : l.pendingConf c = true ↔
    ∃ idx e, c < idx ∧ l.entryAt? idx = some e ∧ e.valType = .conf := by
  rw [pendingConf, List.any_eq_true]
  constructor
  · rintro ⟨e, he, hconf⟩
    obtain ⟨j, hj⟩ := List.getElem?_of_mem he
    rw [List.getElem?_drop] at hj
    refine ⟨l.startIdx + (c + 1 - l.startIdx + j), e, by omega, ?_, by
      simpa [LogEntry.isConf] using hconf⟩
    rw [entryAt?_of_mem (by omega), ← hj]
    congr 1
    omega
  · rintro ⟨idx, e, hlt, hat, hconf⟩
    refine ⟨e, ?_, by simpa [LogEntry.isConf] using hconf⟩
    rw [entryAt?] at hat
    split at hat
    · cases hat
    · refine List.mem_of_getElem? (i := idx - l.startIdx - (c + 1 - l.startIdx)) ?_
      rw [List.getElem?_drop, ← hat]
      congr 1
      omega

theorem pendingConf_concat (start : Nat) (xs ys : List LogEntry) :
    (LogStore.mk start (xs ++ ys)).pendingConf c =
      ((LogStore.mk start xs).pendingConf c ||
        (ys.drop (c + 1 - (start + xs.length))).any LogEntry.isConf) := by
  rw [pendingConf, pendingConf, List.drop_append, List.any_append, Nat.sub_sub]

theorem pendingConf_append (e : LogEntry) :
    (l.append e).pendingConf c =
      (l.pendingConf c || (e.isConf && decide (c < l.nextSlot))) := by
  rw [append, pendingConf_concat]
  show (l.pendingConf c || _) = _
  congr 1
  by_cases hc : c < l.nextSlot
  · rw [show c + 1 - (l.startIdx + l.entries.length) = 0 by rw [nextSlot] at hc; omega]
    simp [hc]
  · rw [List.drop_eq_nil_of_le (by rw [nextSlot] at hc; simp; omega)]
    simp [hc]

/-- Passing one entry. -/
theorem pendingConf_succ {e : LogEntry} (h : l.entryAt? (c + 1) = some e) :
    l.pendingConf c = (e.isConf || l.pendingConf (c + 1)) := by
  by_cases hstart : c + 1 < l.startIdx
  · rw [entryAt?, if_pos hstart] at h
    cases h
  rw [entryAt?, if_neg hstart] at h
  obtain ⟨hlt, rfl⟩ := List.getElem?_eq_some_iff.mp h
  rw [pendingConf, pendingConf, List.drop_eq_getElem_cons hlt, List.any_cons,
    show c + 1 + 1 - l.startIdx = c + 1 - l.startIdx + 1 by omega]

/-- Dropping what is committed. -/
theorem pendingConf_compact (hge : l.startIdx ≤ n) (hn : n ≤ c) :
    (l.compact n).pendingConf c = l.pendingConf c := by
  rw [pendingConf, pendingConf, compact, List.drop_drop]
  congr 2
  show n + 1 - l.startIdx + (c + 1 - (n + 1)) = c + 1 - l.startIdx
  omega

end LogStore

/-- The condition under which the entries `fresh` may come to stand at `idx` with
the flag telling the truth: no configuration comes to stand at or below the
commit index, and the code, which looks at the first entry it replaces and at
the entries behind it, sees what matters.  A configuration among the other
replaced entries, or in place of the first one, goes unseen. -/
def WritesSafely (l : LogStore) (c idx : Nat) (fresh : List LogEntry) : Prop :=
  (fresh.any LogEntry.isConf = true → c < idx) ∧
    match l.entries.drop (idx - l.startIdx), fresh with
    | _, [] => True
    | [], _ => True
    | old :: _, e :: appended =>
      appended.any LogEntry.isConf = true ∨
        (l.pendingConf c && !old.isConf) = ((l.upTo idx).pendingConf c || e.isConf)

/-- What is pending once `fresh` stands at `idx`. -/
theorem LogStore.pendingConf_cutAt {l : LogStore} {c idx : Nat} {fresh : List LogEntry}
    (hge : l.startIdx ≤ idx) (hle : idx ≤ l.nextSlot) (hne : fresh ≠ [])
    (h : fresh.any LogEntry.isConf = true → c < idx) :
    (l.cutAt idx fresh).pendingConf c =
      ((l.upTo idx).pendingConf c || fresh.any LogEntry.isConf) := by
  rw [LogStore.cutAt, if_neg hne, LogStore.pendingConf_concat]
  show ((l.upTo idx).pendingConf c || _) = _
  congr 1
  have hlen : l.startIdx + (l.entries.take (idx - l.startIdx)).length = idx := by
    rw [LogStore.nextSlot] at hle
    rw [List.length_take]
    omega
  rw [hlen]
  cases hany : fresh.any LogEntry.isConf with
  | true => rw [show c + 1 - idx = 0 by have := h hany; omega, List.drop_zero, hany]
  | false =>
    rw [List.any_eq_false] at hany ⊢
    exact fun e he => hany e (List.mem_of_mem_drop he)

/-- **The flag survives safe writes.** -/
theorem flagAfter_eq {l : LogStore} {c idx : Nat} {fresh : List LogEntry}
    (hge : l.startIdx ≤ idx) (hle : idx ≤ l.nextSlot) (h : WritesSafely l c idx fresh) :
    flagAfter (l.pendingConf c) (l.entries.drop (idx - l.startIdx)) fresh =
      (l.cutAt idx fresh).pendingConf c := by
  obtain ⟨hc, hfirst⟩ := h
  cases fresh with
  | nil => simp [flagAfter, LogStore.cutAt]
  | cons e appended =>
    rw [LogStore.pendingConf_cutAt hge hle (by simp) hc]
    cases hstale : l.entries.drop (idx - l.startIdx) with
    | nil =>
      have hall : l.upTo idx = l := by
        rw [LogStore.upTo, List.take_of_length_le (List.drop_eq_nil_iff.mp hstale)]
      rw [flagAfter, hall]
      simp
    | cons old stale =>
      rw [hstale] at hfirst
      rw [flagAfter, List.any_cons, ← Bool.or_assoc]
      rcases hfirst with hany | hseen
      · rw [hany, Bool.or_true, Bool.or_true]
      · rw [hseen]

/-! ## The law of a handler -/

/-- The flag tells the truth, the committing thread is not ahead of the commit
index, and no snapshot in the making is. -/
structure FlagTrue (s : Server) : Prop where
  start_pos : 0 < s.logStore.startIdx
  truth : s.configChanging = s.logStore.pendingConf s.state.commitIdx
  behind : ∀ cur, s.bg = .committing cur → cur ≤ s.state.commitIdx
  covered : ∀ snp, s.snpPending = some snp → snp.lastLogIdx ≤ s.state.commitIdx

/-- An event may bring the server to append a configuration of its own. -/
def MayConfigure (s : Server) (ev : Event) : Prop :=
  MayLead s ev ∧ s.config.logIdx = 0 ∨ ∃ servers, ChangesTo s ev servers

/-- The condition under which an event leaves the flag telling the truth. -/
structure FlagSafely (s : Server) (ev : Event) : Prop where
  /-- A log behind the commit index gets no configuration of the server's own. -/
  own : MayConfigure s ev → s.configChanging = true ∨ s.state.commitIdx < s.logStore.nextSlot
  /-- No client sends configurations. -/
  client : ∀ req, ev = .request req → req.type = .clientRequest → s.role = .leader →
    s.configChanging = true ∨ ∀ e ∈ req.logEntries, e.valType ≠ .conf
  /-- A leader's entries are written safely. -/
  replicate : ∀ req, ev = .request req → req.type = .appendEntriesRequest →
    s.state.term ≤ req.term → LogOkay s.logStore req →
    let k := overlap LogEntry.term (s.logStore.tail req.lastLogIdx) req.logEntries
    WritesSafely s.logStore s.state.commitIdx (req.lastLogIdx + 1 + k) (req.logEntries.drop k)
  /-- A log pack neither brings the first pending configuration nor drops the
  last one. -/
  pack : ∀ req e l, ev = .request req → req.type = .syncLogRequest → s.catchingUp = true →
    req.logEntries = [e] → s.logStore.applyPack (req.lastLogIdx + 1) e.buf = some l →
    l.pendingConf s.state.commitIdx = s.logStore.pendingConf s.state.commitIdx
  /-- A snapshot does not cover the last pending configuration. -/
  install : ∀ req n, ev = .request req → req.type = .installSnapshotRequest →
    CompletesSnapshot req n → s.state.commitIdx < n → s.logStore.startIdx ≤ n →
    s.logStore.pendingConf n = s.logStore.pendingConf s.state.commitIdx
  /-- A server fails to join only while no configuration is pending. -/
  giveUp : ∀ via req, ev = .extErr via req →
    req.type = .syncLogRequest ∨ req.type = .joinClusterRequest → s.failsFinally via req = true →
    s.logStore.pendingConf s.state.commitIdx = false
  /-- A configuration is committed only while no other one is pending. -/
  commit : ∀ cur e, ev = .bgIter → s.bg = .committing cur → hasMore s cur = true →
    s.logStore.entryAt? (cur + 1) = some e → e.valType = .conf →
    s.logStore.pendingConf (max s.state.commitIdx (cur + 1)) = false

theorem FlagTrue.of_bookkeeping {s t : Server} (h : FlagTrue s) (hb : Bookkeeping s t) :
    FlagTrue t := by
  rw [hb.rest]
  exact ⟨h.start_pos, h.truth, h.behind, h.covered⟩

/-- A configuration of the server's own goes with setting the flag. -/
theorem FlagTrue.configure {s : Server} (hs : FlagTrue s) {e : LogEntry} (he : e.isConf = true)
    (h : s.configChanging = true ∨ s.state.commitIdx < s.logStore.nextSlot) :
    (s.logStore.append e).pendingConf s.state.commitIdx = true := by
  rw [LogStore.pendingConf_append, he]
  rcases h with h | h
  · rw [← hs.truth, h, Bool.true_or]
  · rw [decide_eq_true h, Bool.true_and, Bool.or_true]

/-- Raising the commit index leaves the committing thread and the snapshots
behind it. -/
theorem FlagTrue.raise {s t : Server} (hs : FlagTrue s) (hpos : 0 < t.logStore.startIdx)
    (htruth : t.configChanging = t.logStore.pendingConf t.state.commitIdx)
    (hle : s.state.commitIdx ≤ t.state.commitIdx) (hbg : ∀ cur, t.bg = .committing cur →
      cur ≤ t.state.commitIdx ∨ s.bg = .committing cur)
    (hsnp : t.snpPending = s.snpPending) : FlagTrue t := by
  refine ⟨hpos, htruth, fun cur hcur => ?_, fun snp h => ?_⟩
  · rcases hbg cur hcur with h | h
    · exact h
    · exact (hs.behind cur h).trans hle
  · exact (hs.covered snp (hsnp ▸ h)).trans hle

/-- The entries of another server are written. -/
theorem FlagTrue.replicate {s : Server} {prev : Nat} {es : List LogEntry} (hs : FlagTrue s)
    (hge : s.logStore.startIdx ≤ prev + 1) (hend : prev + 1 ≤ s.logStore.nextSlot)
    (h : WritesSafely s.logStore s.state.commitIdx
      (prev + 1 + overlap LogEntry.term (s.logStore.tail prev) es)
      (es.drop (overlap LogEntry.term (s.logStore.tail prev) es))) :
    FlagTrue (s.replicate prev es) := by
  have hk : overlap LogEntry.term (s.logStore.tail prev) es ≤ _ := overlap_le_left _ _
  rw [LogStore.tail, List.length_drop, ← LogStore.tail] at hk
  have hslot : s.logStore.startIdx + s.logStore.entries.length = s.logStore.nextSlot := rfl
  have hstale : (s.logStore.tail prev).drop (overlap LogEntry.term (s.logStore.tail prev) es) =
      s.logStore.entries.drop
        (prev + 1 + overlap LogEntry.term (s.logStore.tail prev) es - s.logStore.startIdx) := by
    rw [LogStore.tail, List.drop_drop]
    congr 1
    omega
  refine ⟨?_, ?_, hs.behind, hs.covered⟩
  · rw [Server.replicate, LogStore.cutAt]
    split <;> exact hs.start_pos
  · show flagAfter s.configChanging _ _ = (s.logStore.cutAt _ _).pendingConf s.state.commitIdx
    rw [hs.truth, hstale]
    exact flagAfter_eq (by omega) (by omega) h

/-- The commit index moves on to the entry after the thread's own, or stays. -/
theorem FlagTrue.commit {s : Server} {cur : Nat} {e : LogEntry} (hs : FlagTrue s)
    (hbg : s.bg = .committing cur) (hat : s.logStore.entryAt? (cur + 1) = some e)
    (hc : e.valType ≠ .conf) :
    s.configChanging = s.logStore.pendingConf (s.state.setCommitIdx (cur + 1)).commitIdx := by
  have hle := hs.behind cur hbg
  rw [SrvState.setCommitIdx_commitIdx, hs.truth]
  rcases Nat.lt_or_ge cur s.state.commitIdx with hlt | hge
  · rw [max_eq_left (by omega)]
  · obtain rfl : cur = s.state.commitIdx := Nat.le_antisymm hle hge
    rw [max_eq_right (by omega), LogStore.pendingConf_succ hat, LogEntry.isConf,
      decide_eq_false hc, Bool.false_or]

/-- **Every segment of a safe event leaves the flag telling the truth**, or the
process ends. -/
theorem Segment.flagTrue {s₀ s t : Server} {ev : Event} {o : List Effect}
    (hsafe : FlagSafely s₀ ev) (h : Segment s₀ ev s o t) (hs : FlagTrue s) :
    FlagTrue t ∨ t.exited = true := by
  cases h with
  | book hb ho => exact .inl (hs.of_bookkeeping hb)
  | reply hr => exact .inl hs
  | save => exact .inl hs
  | leadConfig hm hr hz hc hl hf hst =>
    have hown := hsafe.own (.inl ⟨hm, hc ▸ hz⟩)
    rw [← hl, ← hf, ← hst] at hown
    refine .inl ⟨hs.start_pos, ?_, hs.behind, hs.covered⟩
    exact (hs.configure (e := s.firstConfigEntry) rfl hown).symm
  | @changeConfig _ servers hb hc =>
    have hown := hsafe.own (.inr ⟨servers, hc⟩)
    refine .inl ⟨hs.start_pos, ?_, hs.behind, hs.covered⟩
    refine (hs.configure (e := s.nextConfig servers) rfl ?_).symm
    rw [hb.rest]
    exact hown
  | @client _ req e he ht hr hst hr₀ hf hm =>
    refine .inl ⟨hs.start_pos, ?_, hs.behind, hs.covered⟩
    show s.configChanging = (s.logStore.append e).pendingConf s.state.commitIdx
    rw [LogStore.pendingConf_append, ← hs.truth]
    rcases hsafe.client req he ht hr₀ with htrue | hno
    · rw [hf, htrue, Bool.true_or]
    · rw [LogEntry.isConf, decide_eq_false (hno e hm), Bool.false_and, Bool.or_false]
  | @replicate _ req _ he ht hterm hle hl hf hst hge hok ho =>
    have hwrites := hsafe.replicate req he ht (hterm ▸ hle) (hl ▸ hok)
    rw [← hl, ← hst] at hwrites
    have hpos := hs.start_pos
    have hend : req.lastLogIdx + 1 ≤ s.logStore.nextSlot := by
      rcases hok with h0 | ⟨hlt, -⟩
      · rw [LogStore.nextSlot]
        omega
      · omega
    exact .inl (hs.replicate hge hend hwrites)
  | applyPack he ht hm hc hl =>
    refine .inl ⟨LogStore.applyPack_startIdx hl ▸ hs.start_pos, ?_, hs.behind, hs.covered⟩
    exact hs.truth.trans (hsafe.pack _ _ _ he ht hc hm hl).symm
  | join he ht hm hv hc =>
    simp only [SrvState.setCommitIdx_zero]
    exact .inl ⟨hs.start_pos, hs.truth, hs.behind, hs.covered⟩
  | @install _ _ req n _ _ he ht hm hl hf hst hn hge hb ho =>
    have hcommit : (s.state.setCommitIdx n).commitIdx = n := by
      rw [SrvState.setCommitIdx_commitIdx, max_eq_right hn.le]
    refine .inl (FlagTrue.of_bookkeeping ?_ hb)
    refine hs.raise (Nat.succ_pos n) ?_ ?_ ?_ rfl
    · show s.configChanging = (s.logStore.compact n).pendingConf _
      rw [hcommit, LogStore.pendingConf_compact hge (le_refl n), hs.truth, hst, hl]
      exact (hsafe.install req n he ht hm (hst ▸ hn) (hl ▸ hge)).symm
    · exact hn.le.trans hcommit.ge
    · exact fun cur hcur => .inr hcur
  | quit hl hb hx ho => exact .inr hx
  | giveUp hb he ht h =>
    refine .inl ⟨hs.start_pos, ?_, hs.behind, hs.covered⟩
    rw [hb.rest]
    exact (hsafe.giveUp _ _ he ht h).symm
  | commitEntry he hbg hm hat hc =>
    refine .inl (hs.raise hs.start_pos (hs.commit hbg hat hc) ?_ ?_ rfl)
    · rw [SrvState.setCommitIdx_commitIdx]
      exact le_max_left _ _
    · intro cur' hcur
      cases hcur
      rw [SrvState.setCommitIdx_commitIdx]
      exact .inl (le_max_right _ _)
  | commitConfig he hbg hm hat hc hd hcfg hb ho =>
    refine .inl (FlagTrue.of_bookkeeping ?_ hb)
    refine hs.raise hs.start_pos ?_ ?_ ?_ rfl
    · show false = s₀.logStore.pendingConf _
      rw [SrvState.setCommitIdx_commitIdx]
      exact (hsafe.commit _ _ he hbg hm hat hc).symm
    · rw [SrvState.setCommitIdx_commitIdx]
      exact le_max_left _ _
    · intro cur' hcur
      cases hcur
      rw [SrvState.setCommitIdx_commitIdx]
      exact .inl (le_max_right _ _)
  | snapshot h =>
    refine .inl ⟨hs.start_pos, hs.truth, hs.behind, fun snp' hsnp => ?_⟩
    cases hsnp
    exact h
  | compact hl =>
    rcases hl with rfl | ⟨snp, hsnp, hge, rfl⟩
    · exact .inl ⟨hs.start_pos, hs.truth, hs.behind, fun snp hsnp => by cases hsnp⟩
    · refine .inl ⟨Nat.succ_pos _, ?_, hs.behind, fun snp hsnp => by cases hsnp⟩
      exact hs.truth.trans (LogStore.pendingConf_compact hge (hs.covered snp hsnp)).symm
  | wake =>
    refine .inl ⟨hs.start_pos, hs.truth, fun cur hcur => ?_, hs.covered⟩
    cases hcur
    exact le_refl _
  | sleep => exact .inl ⟨hs.start_pos, hs.truth, fun cur hcur => (by cases hcur), hs.covered⟩
  | stepDown => exact .inl ⟨hs.start_pos, hs.truth, hs.behind, hs.covered⟩
  | newTerm hlt => exact .inl ⟨hs.start_pos, hs.truth, hs.behind, hs.covered⟩
  | grant => exact .inl ⟨hs.start_pos, hs.truth, hs.behind, hs.covered⟩
  | campaign => exact .inl ⟨hs.start_pos, hs.truth, hs.behind, hs.covered⟩
  | electionDone => exact .inl ⟨hs.start_pos, hs.truth, hs.behind, hs.covered⟩
  | lead => exact .inl ⟨hs.start_pos, hs.truth, hs.behind, hs.covered⟩
  | joinConfig => exact .inl ⟨hs.start_pos, hs.truth, hs.behind, hs.covered⟩

/-! ## Runs of one server -/

/-- `config_changing_` says whether a configuration stands above the commit
index; a process that has ended says nothing. -/
def FlagTells (s : Server) : Prop :=
  s.exited = true ∨ (s.configChanging = true ↔
    ∃ idx e, s.state.commitIdx < idx ∧ s.logStore.entryAt? idx = some e ∧ e.valType = .conf)

theorem flagTrue_start (id : Int) (params : RaftParams) (state : Option SrvState)
    {logStore : LogStore} (config : ClusterConfig) (hpos : 0 < logStore.startIdx) :
    FlagTrue (start id params state logStore config) :=
  ⟨hpos, rfl, fun _ h => (by cases h), fun _ h => (by cases h)⟩

/-- **In every run whose steps are safe the flag tells the truth**, from
whatever log and commit index the server is started. -/
theorem flag_tells_of_safe (id : Int) (params : RaftParams) (state : Option SrvState)
    (logStore : LogStore) (config : ClusterConfig) (hpos : 0 < logStore.startIdx)
    (run : List (Env × Event))
    (hsafe : (start id params state logStore config).Along (fun s _ ev => FlagSafely s ev) run) :
    FlagTells ((start id params state logStore config).runFrom run) := by
  have hinv := keeps_of_segments (I := FlagTrue) (P := FlagSafely)
    (fun _ _ _ _ _ h hseg => hseg.flagTrue h) (flagTrue_start id params state config hpos) hsafe
  rcases hinv with h | hx
  · exact .inr (h.truth ▸ LogStore.pendingConf_iff)
  · exact .inl hx

/-- The configuration of a cluster of three. -/
def threeServers : ClusterConfig := { logIdx := 1, servers := [⟨1, [49]⟩, ⟨2, [50]⟩, ⟨3, [51]⟩] }

/-- Server 2 of the cluster, started again when the first configuration is
committed. -/
def restarted : Server :=
  start 2 {} (some { term := 1, commitIdx := 1 })
    { entries := [⟨1, threeServers.serialize, .conf⟩] } threeServers

/-- The leader of a term sends what comes after the first entry. -/
def sendsEntries (leader : Int) (term : Nat) (es : List LogEntry) : Env × Event :=
  ({}, .request {
    term := term, type := .appendEntriesRequest, src := leader, dst := 2
    lastLogTerm := 1, lastLogIdx := 1, commitIdx := 1, logEntries := es })

/-- A configuration reaches a follower. -/
theorem flag_tells_of_safe_append :
    FlagTells (restarted.runFrom [sendsEntries 1 1 [⟨1, [7], .appLog⟩,
      ⟨1, threeServers.serialize, .conf⟩]]) := by
  refine flag_tells_of_safe 2 {} _ _ threeServers (by decide) _ ⟨?_, trivial⟩
  constructor
  · rintro (⟨hlead | ⟨hev, -⟩, -⟩ | ⟨servers, hc⟩)
    · cases hlead
    · cases hev
    · cases hc
  · intro req he ht
    cases he
    cases ht
  · intro req he ht hle hok
    cases he
    exact ⟨fun _ => by decide, trivial⟩
  · intro req e l he ht
    cases he
    cases ht
  · intro req n he ht
    cases he
    cases ht
  · intro via req he
    cases he
  · intro cur e he
    cases he

/-- **A configuration overwritten behind another entry leaves the flag set**:
`handle_append_entries` looks only at the entries it replaces one by one, and
the first of them drops all behind it. -/
theorem flag_tells_fails :
    ¬ FlagTells (restarted.runFrom [
      sendsEntries 1 1 [⟨1, [7], .appLog⟩, ⟨1, threeServers.serialize, .conf⟩],
      sendsEntries 3 2 [⟨2, [8], .appLog⟩]]) := by
  set s := restarted.runFrom [
    sendsEntries 1 1 [⟨1, [7], .appLog⟩, ⟨1, threeServers.serialize, .conf⟩],
    sendsEntries 3 2 [⟨2, [8], .appLog⟩]] with hs
  rintro (hx | hflag)
  · have hlive : s.exited = false := by decide +kernel
    rw [hlive] at hx
    cases hx
  · have hset : s.configChanging = true := by decide +kernel
    have hnone : s.logStore.pendingConf s.state.commitIdx = false := by decide +kernel
    rw [← LogStore.pendingConf_iff, hset, hnone] at hflag
    exact absurd (hflag.mp rfl) (by decide)

end Cornerstone
