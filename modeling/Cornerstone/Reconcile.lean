import Cornerstone.AppendRun

/-! # How a follower's log comes to agree with a request

What an accepted append_entries request does to a log that was never compacted: what is
kept, what is replaced, and that the same request again changes nothing.
-/

namespace Cornerstone
open Handlers Handler Server Splice

/-- What an accepted request makes of a log. -/
structure Reconciled (before after : LogStore) (req : ReqMsg) (resp : RespMsg) : Prop where
  kept : after.entries.take req.lastLogIdx = before.entries.take req.lastLogIdx
  log : Agrees LogEntry.term (before.entries.drop req.lastLogIdx) req.logEntries ∧
      after.entries = before.entries ++ req.logEntries.drop (before.entries.length - req.lastLogIdx) ∨
    ∃ j, FirstConflict LogEntry.term (before.entries.drop req.lastLogIdx) req.logEntries j ∧
      after.entries = before.entries.take (req.lastLogIdx + j) ++ req.logEntries.drop j
  terms : ∀ j e, req.logEntries[j]? = some e → after.termAt? (req.lastLogIdx + 1 + j) = some e.term
  nextIdx : resp.nextIdx = req.lastLogIdx + req.logEntries.length + 1
  nextSlot : resp.nextIdx ≤ after.nextSlot

variable {s : Server} {req : ReqMsg} {resp : RespMsg}

/-- The log behind the place a request starts from, once its entries are taken in. -/
theorem replicate_entries_first (h1 : s.logStore.startIdx = 1) :
    (s.replicate req.lastLogIdx req.logEntries).logStore.entries =
      s.logStore.entries.take req.lastLogIdx ++
        splice LogEntry.term (s.logStore.entries.drop req.lastLogIdx) req.logEntries := by
  have h := @replicate_entries s req.lastLogIdx req.logEntries (by omega)
  rw [LogStore.tail, h1, Nat.add_sub_cancel] at h
  exact h

/-- A request is accepted only if the log reaches its place. -/
theorem hasPrev_le (h1 : s.logStore.startIdx = 1) (h : s.logStore.hasPrev req = true) :
    req.lastLogIdx ≤ s.logStore.entries.length := by
  simp only [LogStore.hasPrev, LogStore.nextSlot, h1, decide_eq_true_eq] at h
  omega

/-- Taking in the entries of a request. -/
theorem replicate_reconciled (h1 : s.logStore.startIdx = 1) (hle : req.lastLogIdx ≤ s.logStore.entries.length)
    (hnext : resp.nextIdx = req.lastLogIdx + req.logEntries.length + 1) :
    Reconciled s.logStore (s.replicate req.lastLogIdx req.logEntries).logStore req resp := by
  have hentries := @replicate_entries_first s req h1
  have hstart : (s.replicate req.lastLogIdx req.logEntries).logStore.startIdx = 1 :=
    (replicate_startIdx _ _).trans h1
  have hlen : (s.logStore.entries.take req.lastLogIdx).length = req.lastLogIdx := by
    rw [List.length_take]
    omega
  have hterms : ∀ j e, req.logEntries[j]? = some e →
      ((s.replicate req.lastLogIdx req.logEntries).logStore.entries[req.lastLogIdx + j]?).map LogEntry.term =
        some e.term := by
    intro j e he
    rw [hentries, List.getElem?_append_right (by omega), hlen, Nat.add_sub_cancel_left]
    exact splice_keys _ _ j e he
  refine ⟨?_, ?_, fun j e he => ?_, hnext, ?_⟩
  · rw [hentries, List.take_append_of_le_length (by omega), List.take_take, Nat.min_self]
  · rcases @splice_cases _ _ _ LogEntry.term (s.logStore.entries.drop req.lastLogIdx) req.logEntries with
      ⟨hagree, heq⟩ | ⟨j, hfirst, heq⟩
    · refine .inl ⟨hagree, ?_⟩
      rw [hentries, heq, ← List.append_assoc, List.take_append_drop, List.length_drop]
    · refine .inr ⟨j, hfirst, ?_⟩
      rw [hentries, heq, ← List.append_assoc, ← List.take_add]
  · rw [LogStore.termAt?, LogStore.entryAt?_of_mem (by omega), hstart,
      show req.lastLogIdx + 1 + j - 1 = req.lastLogIdx + j from by omega]
    exact hterms j e he
  · rw [hnext, LogStore.nextSlot, hstart]
    by_cases hes : req.logEntries = []
    · rw [hentries, hes, List.length_append, hlen, List.length_nil]
      omega
    · have hpos := List.length_pos_iff.mpr hes
      have hlast := hterms (req.logEntries.length - 1) _ (List.getElem?_eq_getElem (by omega))
      obtain ⟨e, he, -⟩ := Option.map_eq_some_iff.mp hlast
      have hlt := (List.getElem?_eq_some_iff.mp he).1
      omega

/-- The same entries again find themselves in the log. -/
theorem replicate_again (h1 : s.logStore.startIdx = 1) (hle : req.lastLogIdx ≤ s.logStore.entries.length)
    {t : Server} (ht : t.logStore = (s.replicate req.lastLogIdx req.logEntries).logStore) :
    (t.replicate req.lastLogIdx req.logEntries).logStore = t.logStore := by
  have hstart : t.logStore.startIdx = 1 := by
    rw [ht, replicate_startIdx, h1]
  have hlen : (s.logStore.entries.take req.lastLogIdx).length = req.lastLogIdx := by
    rw [List.length_take]
    omega
  have htail : t.logStore.tail req.lastLogIdx =
      splice LogEntry.term (s.logStore.entries.drop req.lastLogIdx) req.logEntries := by
    rw [LogStore.tail, hstart, Nat.add_sub_cancel, ht, replicate_entries_first h1, List.drop_append_of_le_length
      (by omega), List.drop_eq_nil_of_le (by omega), List.nil_append]
  simp only [Server.replicate, htail, overlap_splice, List.drop_length, LogStore.cutAt, if_true]

/-- It also finds its place in the log again. -/
theorem hasPrev_again (h1 : s.logStore.startIdx = 1) (h : s.logStore.hasPrev req = true)
    {t : Server} (ht : t.logStore = (s.replicate req.lastLogIdx req.logEntries).logStore) :
    t.logStore.hasPrev req = true := by
  have hle := hasPrev_le h1 h
  have hstart : t.logStore.startIdx = 1 := by
    rw [ht, replicate_startIdx, h1]
  have hentries : t.logStore.entries = _ := (congrArg LogStore.entries ht).trans (replicate_entries_first h1)
  have hlen : (s.logStore.entries.take req.lastLogIdx).length = req.lastLogIdx := by
    rw [List.length_take]
    omega
  have hterm : termAtEnd t.logStore.entries req.lastLogIdx = termAtEnd s.logStore.entries req.lastLogIdx := by
    rw [termAtEnd, termAtEnd, hentries, List.take_append_of_le_length (by omega), List.take_take, Nat.min_self]
  have hslot : req.lastLogIdx < t.logStore.nextSlot := by
    rw [LogStore.nextSlot, hstart, hentries, List.length_append, hlen]
    omega
  simp only [LogStore.hasPrev, decide_eq_true_eq, hterm] at h ⊢
  omega

/-- **An accepted append_entries request reconciles the log**: it keeps what is below its
place, adds only what is missing or replaces everything from the first conflict on, and
finds nothing to do when it comes again. -/
theorem append_reconciles (env env' : Env) (h1 : s.logStore.startIdx = 1) (hr : s.role ≠ .leader)
    (hres : (handleAppendEntries env req s).res = .ok resp) (hacc : resp.accepted = true) :
    Reconciled s.logStore (handleAppendEntries env req s).state.logStore req resp ∧
      (handleAppendEntries env' req (handleAppendEntries env req s).state).res = .ok resp ∧
      (handleAppendEntries env' req (handleAppendEntries env req s).state).state.logStore =
        (handleAppendEntries env req s).state.logStore := by
  obtain ⟨p, j, r, hf, hrole⟩ := followed_rest (s := s) (decide (req.term = s.state.term))
  have hrun := handleAppendEntries_run env req h1 hr
  rw [hf] at hrun
  by_cases hdecl : req.term < s.state.term ∨ s.logStore.hasPrev req = false
  · rw [hrun, if_pos hdecl] at hres
    cases hres
    cases hacc
  obtain ⟨hterm, hprev⟩ : s.state.term ≤ req.term ∧ s.logStore.hasPrev req = true := by
    simpa using hdecl
  rw [if_neg hdecl] at hrun
  set t := (handleAppendEntries env req s).state with ht
  have hlog : t.logStore = (s.replicate req.lastLogIdx req.logEntries).logStore := by
    rw [ht, hrun]
    rfl
  have hstate : t.state = s.state ∧ t.id = s.id ∧ t.role = r := by
    rw [ht, hrun]
    exact ⟨rfl, rfl, rfl⟩
  have hle := hasPrev_le h1 hprev
  have hresp : resp = (s.appendResp req).accept (req.lastLogIdx + req.logEntries.length + 1) := by
    rw [hrun] at hres
    exact (Except.ok.inj hres).symm
  have hagain := handleAppendEntries_run (s := t) env' req (by rw [hlog, replicate_startIdx, h1])
    (hstate.2.2 ▸ hrole hr)
  rw [if_neg (by simp [hstate.1, hterm, hasPrev_again h1 hprev hlog])] at hagain
  refine ⟨?_, ?_, ?_⟩
  · rw [hlog]
    exact replicate_reconciled h1 hle (hresp ▸ rfl)
  · rw [hagain, hresp]
    simp only [Server.appendResp, RespMsg.accept, hstate.1, hstate.2.1]
  · obtain ⟨p', j', r', hf', -⟩ := followed_rest (s := t) (decide (req.term = t.state.term))
    rw [hagain, hf']
    exact replicate_again h1 hle (t := { t with peers := p', srvToJoin := j', role := r' }) hlog

/-- A follower whose second entry is of an older term than the request's. -/
theorem append_reconciles_conflict :
    let s : Server := { id := 2, logStore := ⟨1, [⟨1, [], .appLog⟩, ⟨1, [], .appLog⟩, ⟨1, [], .appLog⟩]⟩ }
    let req : ReqMsg := ⟨2, .appendEntriesRequest, 1, 2, 1, 1, 0, [⟨2, [], .appLog⟩]⟩
    let resp : RespMsg := ⟨0, .appendEntriesResponse, 2, 1, 3, true⟩
    Reconciled s.logStore (handleAppendEntries {} req s).state.logStore req resp ∧
      (handleAppendEntries {} req (handleAppendEntries {} req s).state).res = .ok resp ∧
      (handleAppendEntries {} req (handleAppendEntries {} req s).state).state.logStore =
        (handleAppendEntries {} req s).state.logStore :=
  append_reconciles {} {} rfl (by decide) rfl rfl

end Cornerstone
