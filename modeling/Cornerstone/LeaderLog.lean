import Cornerstone.EntryOrigin
import Cornerstone.FlagFrame

/-! # A leader only appends

Whatever reaches a server in office, and its committing thread and timers, leave the entries
of its log where they are.  New ones go to the end, and old ones may be compacted away at
the beginning.  An append_entries request of a new term does cut the log of a server that
was in office, but in the same step it puts the server out of office.
-/

namespace Cornerstone
open Handlers Handler Server

/-- `l'` has what `l` has at the same indexes, but for a beginning that is compacted, and
ends no earlier. -/
structure LogStore.Grows (l l' : LogStore) : Prop where
  startIdx : l.startIdx ≤ l'.startIdx
  nextSlot : l.nextSlot ≤ l'.nextSlot
  entries : ∀ idx, l'.startIdx ≤ idx → idx < l.nextSlot → l'.entryAt? idx = l.entryAt? idx

namespace LogStore.Grows
variable {l l' l'' : LogStore}

theorem refl (l : LogStore) : l.Grows l := ⟨le_rfl, le_rfl, fun _ _ _ => rfl⟩

theorem trans (h : l.Grows l') (h' : l'.Grows l'') : l.Grows l'' where
  startIdx := h.startIdx.trans h'.startIdx
  nextSlot := h.nextSlot.trans h'.nextSlot
  entries idx hge hlt :=
    (h'.entries idx hge (hlt.trans_le h.nextSlot)).trans (h.entries idx (h'.startIdx.trans hge) hlt)

theorem append (e : LogEntry) : l.Grows (l.append e) where
  startIdx := le_rfl
  nextSlot := by
    rw [append_nextSlot]
    exact Nat.le_succ _
  entries idx hge hlt := by
    have hge' : l.startIdx ≤ idx := hge
    rw [LogStore.nextSlot] at hlt
    rw [entryAt?_of_mem hge, entryAt?_of_mem hge', append_entries, append_startIdx,
      List.getElem?_append_left (by omega)]

theorem compact {n : Nat} (hge : l.startIdx ≤ n) : l.Grows (l.compact n) where
  startIdx := hge.trans (Nat.le_succ n)
  nextSlot := le_nextSlot_compact hge
  entries idx hge' _ := by
    have hidx : n + 1 ≤ idx := hge'
    rw [entryAt?_of_mem hge', entryAt?_of_mem (by omega)]
    simp only [LogStore.compact, List.getElem?_drop]
    congr 1
    omega

/-- The log of a store that grew, where neither was compacted. -/
theorem prefix_entries (h : l.Grows l') (hstart : l.startIdx = l'.startIdx) : l.entries <+: l'.entries := by
  rw [List.prefix_iff_getElem?]
  intro n hn
  have hlt : l.startIdx + n < l.nextSlot := by
    unfold LogStore.nextSlot
    omega
  have hat := h.entries (l.startIdx + n) (by omega) hlt
  rw [entryAt?_of_mem (by omega), entryAt?_of_mem (by omega), ← hstart, Nat.add_sub_cancel_left] at hat
  rw [hat]
  exact List.getElem?_eq_getElem hn

end LogStore.Grows

variable {s s₀ t : Server} {ev : Event} {o : List Effect}

/-- The law of a log that only grows. -/
def GrowsLog (s : Server) (_ : List Effect) (t : Server) : Prop := s.logStore.Grows t.logStore

theorem growsLog_law : Law GrowsLog := ⟨fun s => .refl s.logStore, fun h h' => h.trans h'⟩

theorem growsLog_of_eq (h : t.logStore = s.logStore) : GrowsLog s o t := by
  unfold GrowsLog
  rw [h]
  exact .refl _

theorem Quiet.growsLog (h : Quiet s o t) : GrowsLog s o t := growsLog_of_eq h.logStore_eq

theorem Bookkeeping.growsLog (h : Bookkeeping s t) : GrowsLog s o t := by
  apply growsLog_of_eq
  rw [h.rest]

/-- Entries are dropped for another server's entries only: those of an append_entries
request, or of a log pack that brings a server into the cluster. -/
theorem Segment.growsLog (h : Segment s₀ ev s o t)
    (happ : ∀ req, ev = .request req → req.type ≠ .appendEntriesRequest) (hc : s₀.catchingUp = false) :
    GrowsLog s o t := by
  cases h with
  | book hb ho => exact hb.growsLog
  | reply h => exact .refl _
  | save => exact .refl _
  | stepDown => exact .refl _
  | newTerm h => exact .refl _
  | grant he ht h hv => exact .refl _
  | campaign he h => exact .refl _
  | electionDone => exact .refl _
  | lead h => exact .refl _
  | leadConfig h hr hz hc' hl hf hs => exact .append _
  | changeConfig hb h => exact .append _
  | client he ht hr hs hr₀ hf hm => exact .append _
  | replicate he ht h hle hl hf hs hge hok ho => exact absurd ht (happ _ he)
  | applyPack he ht hm hc' hl =>
    rw [hc] at hc'
    cases hc'
  | join he ht hm hv hc' => exact .refl _
  | joinConfig he ht c => exact .refl _
  | install he ht hm hl hf hs hn hge hb ho =>
    refine growsLog_law.trans (o := []) ?_ hb.growsLog
    exact .compact hge
  | quit hl hb hx ho =>
    refine growsLog_law.trans (o := []) ?_ hb.growsLog
    rcases hl with rfl | ⟨n, hge, rfl⟩
    · exact .refl _
    · exact .compact hge
  | giveUp hb he ht h => exact .refl _
  | commitEntry he hbg hm hat hc' => exact .refl _
  | commitConfig he hbg hm hat hc' hd hcfg hb ho =>
    apply growsLog_of_eq
    rw [hb.rest]
  | snapshot h => exact .refl _
  | compact hl =>
    rcases hl with rfl | ⟨snp, hsnp, hge, rfl⟩
    · exact .refl _
    · exact .compact hge
  | wake => exact .refl _
  | sleep => exact .refl _

/-! ## append_entries requests -/

/-- A leader takes in no entries of its own term or an earlier one. -/
theorem growsLog_handleAppendEntries (env : Env) {req : ReqMsg} (hr : s.role = .leader)
    (hle : req.term ≤ s.state.term) : Obeys GrowsLog s (handleAppendEntries env req) := by
  by_cases ht : req.term = s.state.term
  · have hrun : followLeader (decide (req.term = s.state.term)) s = systemExitAndExit (-1) s := by
      simp [followLeader, ht, hr]
    refine .look_bind (.bind growsLog_law ?_ fun a ha => ?_)
    · unfold Obeys
      rw [hrun]
      exact .refl _
    · rw [hrun] at ha
      cases ha
  · have hrun : followLeader (decide (req.term = s.state.term)) s = ⟨.ok (), s, []⟩ := by
      simp [followLeader, ht]
    refine .look_bind (.bind growsLog_law ?_ fun a ha => ?_)
    · unfold Obeys
      rw [hrun]
      exact .refl _
    · rw [hrun]
      refine .look_bind (.bind growsLog_law (Quiet.growsLog (Sends.quiet (sends_appendLogOkay env req))) ?_)
      intro okay _
      apply Obeys.ite
      · intro _
        exact .pure growsLog_law _
      · intro h
        exact absurd (.inl (show req.term < s.state.term by omega)) h

/-- A request of a new term puts a leader out of office before it cuts its log. -/
theorem processReq_growsLog (env : Env) {req : ReqMsg} (ht : req.type = .appendEntriesRequest)
    (hr : s.role = .leader) :
    Obeys GrowsLog s (processReq env req) ∨ (processReq env req s).state.role ≠ .leader := by
  have hnote := noteTerm_run (s := s) (.inl ht)
  have hanswer : answerReq env req = handleAppendEntries env req := by rw [answerReq, ht]
  rcases Nat.lt_or_ge s.state.term req.term with hlt | hge
  · right
    have hrole : (s.noted req.term).role ≠ .leader := by
      simp only [Server.noted, if_pos hlt]
      split <;> exact show SrvRole.follower ≠ .leader by decide
    have hrest : Obeys StaysOut (s.noted req.term) (answerReq env req >>= reply) := by
      rw [hanswer]
      exact .bind staysOut_law (staysOut_handleAppendEntries env req) fun _ _ => .look_bind fun h => h
    unfold processReq
    rw [bind_run, hnote, Outcome.andThen_ok]
    exact hrest hrole
  · left
    refine .bind growsLog_law ?_ fun _ _ => ?_
    · unfold Obeys
      rw [hnote]
      exact growsLog_of_eq (noted_noted s req).logStore
    · have hrole : (noteTerm req s).state.role = .leader := by
        rw [hnote]
        simp only [Server.noted, if_neg (Nat.not_lt.mpr hge)]
        split <;> exact hr
      have hle : req.term ≤ (noteTerm req s).state.state.term := by
        rw [hnote]
        exact (noted_noted s req).term
      rw [hanswer]
      exact .bind growsLog_law (growsLog_handleAppendEntries env hrole hle) fun _ _ => .look_bind (.refl _)

/-! ## Runs -/

/-- A server that leads and is not being brought into another cluster. -/
structure Server.InOffice (s : Server) : Prop where
  role : s.role = .leader
  settled : s.catchingUp = false

/-- **A step from office to office** leaves the log as it was, or longer. -/
theorem Server.InOffice.next_growsLog (h : s.InOffice) (env : Env) (ev : Event) (h' : (s.next env ev).InOffice) :
    s.logStore.Grows (s.next env ev).logStore := by
  rcases Server.next_cases env ev s with ⟨-, heq⟩ | ⟨x, heq⟩
  · rw [heq]
    exact .refl _
  · have hrole : (handle env ev s).state.role = .leader := by
      have := h'.role
      rwa [heq] at this
    rw [heq]
    change GrowsLog s (handle env ev s).out (handle env ev s).state
    by_cases happ : ∃ req, ev = .request req ∧ req.type = .appendEntriesRequest
    · obtain ⟨req, rfl, ht⟩ := happ
      rcases processReq_growsLog env ht h.role with hgrows | hout
      · exact hgrows
      · exact absurd hrole hout
    · apply (handle_path env ev s).lift growsLog_law
      intro u o v hseg
      exact hseg.growsLog (fun req he ht => happ ⟨req, he, ht⟩) h.settled

/-- In office before a step and after it. -/
def StaysInOffice (s : Server) (env : Env) (ev : Event) : Prop := s.InOffice ∧ (s.next env ev).InOffice

/-- **A leader only appends**: along every run that leaves a server in office, whatever
happens in it, the entries of its log stay where they are, but for a compacted beginning. -/
theorem leader_only_appends (s : Server) (run : List (Env × Event)) (h : s.Along StaysInOffice run) :
    s.logStore.Grows (s.runFrom run).logStore := by
  induction run generalizing s with
  | nil => exact .refl _
  | cons step run ih =>
    obtain ⟨⟨hs, hnext⟩, hrest⟩ := h
    exact (hs.next_growsLog step.1 step.2 hnext).trans (ih _ hrest)

/-- Server 1, alone, in office. -/
def loneLeader : Server := loneServer.next {} .electionTimeout

instance decidableInOffice (s : Server) : Decidable s.InOffice :=
  decidable_of_iff (s.role = .leader ∧ s.catchingUp = false) ⟨fun h => ⟨h.1, h.2⟩, fun h => ⟨h.role, h.settled⟩⟩

theorem leader_only_appends_lone : loneLeader.logStore.Grows
    (loneLeader.runFrom [clientSays 1, ({}, .bgWake), ({}, .bgIter)]).logStore :=
  leader_only_appends _ _
    ⟨⟨by decide +kernel, by decide +kernel⟩, ⟨by decide +kernel, by decide +kernel⟩,
      ⟨by decide +kernel, by decide +kernel⟩, trivial⟩

end Cornerstone
