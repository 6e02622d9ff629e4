import Cornerstone.AppendRun
import Cornerstone.CommitRun

/-! # pre_commit, commit and rollback

The state machine hears of an app_log entry when it enters the log (`pre_commit`),
and again when it is committed or gives way to another (`rollback`).  The entries it
has heard of once only should be the ones in the log above the commit index.

`write_at` drops the whole log behind the index it writes, while the loop of
`handle_append_entries` that calls it rolls back the entry at that index only, and
calls `pre_commit` only for entries that it appends.
-/

namespace Cornerstone
open Handlers Handler Server Splice

/-- The app_log entries of a log that starts at `idx`, with their indexes. -/
def appLogs : Nat → List LogEntry → List (Nat × LogEntry)
  | _, [] => []
  | idx, e :: es => (if e.valType = .appLog then [(idx, e)] else []) ++ appLogs (idx + 1) es

/-- The app_log entries of the log above the commit index. -/
def Server.uncommitted (s : Server) : List (Nat × LogEntry) :=
  (appLogs s.logStore.startIdx s.logStore.entries).filter (s.state.commitIdx < ·.1)

/-- The app_log entries pre-committed and neither committed nor rolled back, after
one more effect. -/
def settle (open' : List (Nat × LogEntry)) : Effect → List (Nat × LogEntry)
  | .preCommit idx e => if e.valType = .appLog then open' ++ [(idx, e)] else open'
  | .commit idx e | .rollback idx e => open'.erase (idx, e)
  | _ => open'

/-- The same after more effects. -/
def outstanding (open' : List (Nat × LogEntry)) (o : List Effect) : List (Nat × LogEntry) :=
  o.foldl settle open'

/-- The app_log entries pre-committed in a history. -/
def preCommitted (o : List Effect) : List (Nat × LogEntry) :=
  o.filterMap fun
    | .preCommit idx e => if e.valType = .appLog then some (idx, e) else none
    | _ => none

/-- The entries rolled back in a history. -/
def rolledBack (o : List Effect) : List (Nat × LogEntry) :=
  o.filterMap fun
    | .rollback idx e => some (idx, e)
    | _ => none

/-! ## What a request does to the log -/

namespace Server
variable (s : Server) (req : ReqMsg)

/-- The server takes in the entries of the request. -/
def accepts : Bool :=
  s.exited = false ∧ s.state.term ≤ req.term ∧ s.logStore.hasPrev req = true

/-- How many of the entries the log already has. -/
def agreed : Nat := overlap LogEntry.term (s.logStore.tail req.lastLogIdx) req.logEntries

/-- Where the first entry goes that the log does not have. -/
def writeIdx : Nat := req.lastLogIdx + 1 + s.agreed req

/-- The entries of the request that enter the log. -/
def entering : List LogEntry := if s.accepts req then req.logEntries.drop (s.agreed req) else []

/-- The entries of the log that give way to them: the one they conflict with and all
behind it. -/
def superseded : List LogEntry :=
  if s.entering req = [] then [] else (s.logStore.tail req.lastLogIdx).drop (s.agreed req)

end Server

/-- The callbacks of one step are paired with what it does to the log. -/
def PairedStep (s : Server) (env : Env) : Event → Prop
  | .request req =>
    rolledBack (s.effects env (.request req)) = appLogs (s.writeIdx req) (s.superseded req) ∧
      preCommitted (s.effects env (.request req)) = appLogs (s.writeIdx req) (s.entering req)
  | ev => rolledBack (s.effects env ev) = [] ∧ preCommitted (s.effects env ev) = []

/-- Along a run, the outstanding entries are the uncommitted ones of the log in every
state, and the callbacks of every step are paired with the log. -/
def PairedRun (open' : List (Nat × LogEntry)) (s : Server) : List (Env × Event) → Prop
  | [] => open'.Perm s.uncommitted
  | (env, ev) :: run => open'.Perm s.uncommitted ∧ PairedStep s env ev ∧
      PairedRun (outstanding open' (s.effects env ev)) (s.next env ev) run

/-- When a request keeps the callbacks paired: of the entries that give way only the
first may be an app_log entry, the entry that takes its place is none, and no app_log
entry goes to or below the commit index. -/
def KeepsPaired (s : Server) (_ : Env) : Event → Prop
  | .request req =>
    (∀ e ∈ (s.superseded req).drop 1, e.valType ≠ .appLog) ∧
      (s.superseded req ≠ [] → ∀ e ∈ (s.entering req).take 1, e.valType ≠ .appLog) ∧
      ∀ x ∈ appLogs (s.writeIdx req) (s.entering req), s.state.commitIdx < x.1
  | _ => True

/-- The steps of a follower that replicates a log. -/
def Event.replicates : Event → Bool
  | .request req => req.type = .appendEntriesRequest
  | .bgWake | .bgIter => true
  | _ => false

/-! ## app_log entries by index -/

theorem appLogs_append : ∀ (idx : Nat) (es es' : List LogEntry),
    appLogs idx (es ++ es') = appLogs idx es ++ appLogs (idx + es.length) es'
  | _, [], _ => rfl
  | idx, e :: es, es' => by
    rw [List.cons_append, appLogs, appLogs, appLogs_append, List.append_assoc, List.length_cons,
      show idx + 1 + es.length = idx + (es.length + 1) by omega]

theorem appLogs_mem : ∀ {idx : Nat} {es : List LogEntry} {x : Nat × LogEntry}, x ∈ appLogs idx es →
    idx ≤ x.1 ∧ x.1 < idx + es.length ∧ x.2 ∈ es ∧ x.2.valType = .appLog
  | idx, [], x, h => by cases h
  | idx, e :: es, x, h => by
    rcases List.mem_append.mp h with h | h
    · split at h
      · obtain rfl := List.mem_singleton.mp h
        exact ⟨le_refl _, by simp, List.mem_cons_self, ‹_›⟩
      · cases h
    · obtain ⟨h1, h2, h3, h4⟩ := appLogs_mem h
      refine ⟨by omega, ?_, List.mem_cons_of_mem _ h3, h4⟩
      rw [List.length_cons]
      omega

theorem appLogs_eq_nil : ∀ {idx : Nat} {es : List LogEntry},
    appLogs idx es = [] ↔ ∀ e ∈ es, e.valType ≠ .appLog
  | idx, [] => by simp [appLogs]
  | idx, e :: es => by simp [appLogs, @appLogs_eq_nil _ es]

/-! ## Histories -/

theorem outstanding_append (m : List (Nat × LogEntry)) (o o' : List Effect) :
    outstanding m (o ++ o') = outstanding (outstanding m o) o' := List.foldl_append

/-- What stands aside changes nothing. -/
theorem outstanding_aside {o : List Effect} (h : ∀ e ∈ o, e.aside = true) (m : List (Nat × LogEntry)) :
    outstanding m o = m ∧ rolledBack o = [] ∧ preCommitted o = [] := by
  induction o with
  | nil => exact ⟨rfl, rfl, rfl⟩
  | cons e o ih =>
    obtain ⟨hm, hr, hp⟩ := ih fun e' he' => h e' (List.mem_cons_of_mem _ he')
    have he := h e List.mem_cons_self
    cases e <;> first | exact ⟨hm, hr, hp⟩ | cases he

theorem outstanding_preCommitsOf : ∀ (idx : Nat) (es : List LogEntry) (m : List (Nat × LogEntry)),
    outstanding m (preCommitsOf idx es) = m ++ appLogs idx es ∧ rolledBack (preCommitsOf idx es) = [] ∧
      preCommitted (preCommitsOf idx es) = appLogs idx es
  | _, [], m => ⟨(List.append_nil m).symm, rfl, rfl⟩
  | idx, e :: es, m => by
    obtain ⟨hm, hr, hp⟩ := outstanding_preCommitsOf (idx + 1) es
      (if e.valType = .appLog then m ++ [(idx, e)] else m)
    by_cases happ : e.valType = .appLog
    · simp only [happ, if_true] at hm
      refine ⟨?_, ?_, ?_⟩
      · simpa [preCommitsOf, happ, outstanding, settle, appLogs] using hm
      · simpa [preCommitsOf, happ, rolledBack] using hr
      · simpa [preCommitsOf, happ, preCommitted, appLogs] using hp
    · simp only [happ, if_false] at hm
      by_cases hconf : e.valType = .conf
      · simpa [preCommitsOf, happ, hconf, appLogs] using ⟨hm, hr, hp⟩
      · refine ⟨?_, ?_, ?_⟩
        · simpa [preCommitsOf, happ, hconf, outstanding, settle, appLogs] using hm
        · simpa [preCommitsOf, happ, hconf, rolledBack] using hr
        · simpa [preCommitsOf, happ, hconf, preCommitted, appLogs] using hp

theorem outstanding_rollbackOf (idx : Nat) (e : LogEntry) (m : List (Nat × LogEntry)) :
    outstanding m (rollbackOf idx e) = (if e.valType = .appLog then m.erase (idx, e) else m) ∧
      rolledBack (rollbackOf idx e) = appLogs idx [e] ∧ preCommitted (rollbackOf idx e) = [] := by
  by_cases happ : e.valType = .appLog
  · simp [rollbackOf, happ, outstanding, settle, rolledBack, appLogs, preCommitted]
  · simp [rollbackOf, happ, outstanding, rolledBack, appLogs, preCommitted]

theorem rolledBack_append (o o' : List Effect) :
    rolledBack (o ++ o') = rolledBack o ++ rolledBack o' := List.filterMap_append

theorem preCommitted_append (o o' : List Effect) :
    preCommitted (o ++ o') = preCommitted o ++ preCommitted o' := List.filterMap_append

/-- What the loops roll back and pre-commit when `fresh` comes to stand at `idx`,
where `stale` was. -/
theorem writeEffects_callbacks {l : LogStore} {idx : Nat} {stale fresh : List LogEntry}
    (hend : stale = [] → l.nextSlot = idx) (hne : fresh ≠ []) (m : List (Nat × LogEntry)) :
    rolledBack (writeEffects l idx stale fresh) = appLogs idx (stale.take 1) ∧
      preCommitted (writeEffects l idx stale fresh) =
        (if stale = [] then appLogs idx fresh else appLogs (idx + 1) (fresh.drop 1)) ∧
      outstanding m (writeEffects l idx stale fresh) = (appLogs idx (stale.take 1)).foldl List.erase m ++
        (if stale = [] then appLogs idx fresh else appLogs (idx + 1) (fresh.drop 1)) := by
  cases fresh with
  | nil => exact absurd rfl hne
  | cons e appended =>
    cases stale with
    | nil =>
      obtain ⟨hm, hr, hp⟩ := outstanding_preCommitsOf l.nextSlot (e :: appended) m
      have hw : writeEffects l idx [] (e :: appended) = preCommitsOf l.nextSlot (e :: appended) := rfl
      rw [hw, if_pos rfl, ← hend rfl]
      exact ⟨hr, hp, hm⟩
    | cons old stale =>
      obtain ⟨hm, hr, hp⟩ := outstanding_rollbackOf idx old m
      obtain ⟨hm', hr', hp'⟩ := outstanding_preCommitsOf (idx + 1) appended
        (outstanding m (rollbackOf idx old))
      rw [if_neg (List.cons_ne_nil _ _), writeEffects, rolledBack_append, preCommitted_append,
        outstanding_append, hm', hr, hp, hr', hp', hm]
      refine ⟨by simp, rfl, ?_⟩
      by_cases happ : old.valType = .appLog
      · simp [happ, appLogs]
      · simp [happ, appLogs]

/-- Once the callbacks of a write are paired with it, the outstanding entries are
the kept ones and all that enter. -/
theorem outstanding_write {l : LogStore} {idx : Nat} {stale fresh : List LogEntry} {c : Nat}
    {m kept : List (Nat × LogEntry)} (hend : stale = [] → l.nextSlot = idx) (hne : fresh ≠ [])
    (hm : m.Perm (kept ++ (appLogs idx stale).filter (c < ·.1))) (hkept : ∀ x ∈ kept, x.1 < idx)
    (hr : rolledBack (writeEffects l idx stale fresh) = appLogs idx stale)
    (hp : preCommitted (writeEffects l idx stale fresh) = appLogs idx fresh) :
    (outstanding m (writeEffects l idx stale fresh)).Perm (kept ++ appLogs idx fresh) := by
  obtain ⟨hr', hp', hout⟩ := writeEffects_callbacks hend hne m
  rw [hout, ← hp', hp]
  refine List.Perm.append_right _ ?_
  rw [hr] at hr'
  rw [← hr']
  cases stale with
  | nil => simpa [appLogs] using hm
  | cons old stale =>
    have htail : appLogs (idx + 1) stale = [] := by
      have hsplit : appLogs idx (old :: stale) = appLogs idx [old] ++ appLogs (idx + 1) stale :=
        appLogs_append idx [old] stale
      rw [hsplit, List.take_succ_cons, List.take_zero] at hr'
      exact List.append_right_eq_self.mp hr'
    by_cases happ : old.valType = .appLog
    · simp only [appLogs, happ, htail, if_true, List.append_nil, List.foldl_cons, List.foldl_nil] at hm ⊢
      by_cases hc : c < idx
      · simp only [List.filter_cons, hc, decide_true, if_true, List.filter_nil] at hm
        have herase := hm.erase (idx, old)
        have hnot : (idx, old) ∉ kept := fun h => absurd (hkept _ h) (lt_irrefl _)
        rwa [List.erase_append_right _ hnot, List.erase_cons_head, List.append_nil] at herase
      · simp only [List.filter_cons, hc, decide_false, Bool.false_eq_true, if_false, List.filter_nil,
          List.append_nil] at hm
        have hnot : (idx, old) ∉ m := fun h => absurd (hkept _ (hm.mem_iff.mp h)) (lt_irrefl _)
        rwa [List.erase_of_not_mem hnot]
    · simpa [appLogs, happ, htail] using hm

/-- The callbacks of a write are paired with it unless more than one app_log entry
gives way, or one comes in the place of another entry. -/
theorem writeEffects_paired_iff {l : LogStore} {idx : Nat} {stale fresh : List LogEntry}
    (hend : stale = [] → l.nextSlot = idx) (hne : fresh ≠ []) :
    rolledBack (writeEffects l idx stale fresh) = appLogs idx stale ∧
        preCommitted (writeEffects l idx stale fresh) = appLogs idx fresh ↔
      (∀ e ∈ stale.drop 1, e.valType ≠ .appLog) ∧
        (stale ≠ [] → ∀ e ∈ fresh.take 1, e.valType ≠ .appLog) := by
  obtain ⟨hr, hp, -⟩ := writeEffects_callbacks hend hne []
  rw [hr, hp]
  refine and_congr ?_ ?_
  · cases stale with
    | nil => simp [appLogs]
    | cons old stale =>
      have hsplit : appLogs idx (old :: stale) = appLogs idx [old] ++ appLogs (idx + 1) stale :=
        appLogs_append idx [old] stale
      rw [hsplit, List.take_succ_cons, List.take_zero, eq_comm, List.append_right_eq_self, List.drop_one,
        List.tail_cons]
      exact appLogs_eq_nil
  · by_cases hs : stale = []
    · simp [hs]
    · cases fresh with
      | nil => exact absurd rfl hne
      | cons e appended =>
        have hsplit : appLogs idx (e :: appended) = appLogs idx [e] ++ appLogs (idx + 1) appended :=
          appLogs_append idx [e] appended
        rw [if_neg hs, hsplit, List.drop_one, List.tail_cons, eq_comm, List.append_left_eq_self]
        simp only [hs, ne_eq, not_false_eq_true, true_implies, List.take_succ_cons, List.take_zero]
        exact appLogs_eq_nil

/-! ## One step -/

/-- What a follower keeps to while it replicates a log. -/
structure Replica (s : Server) : Prop where
  startIdx : s.logStore.startIdx = 1
  role : s.role ≠ .leader
  bg : ∀ cur, s.bg = .committing cur → s.state.commitIdx = cur

theorem hasPrev_congr {l l' : LogStore} (h : l = l') (req : ReqMsg) :
    l.hasPrev req = l'.hasPrev req := by rw [h]

/-- **An append_entries request at a follower**: it writes the entries the log does
not have, if it accepts, and answers. -/
theorem appendReq_step (env : Env) {s : Server} {req : ReqMsg} (h : Replica s)
    (ht : req.type = .appendEntriesRequest) (hx : s.exited = false) :
    ∃ o o', s.effects env (.request req) =
        o ++ ((if s.accepts req then s.replicateEffects req.lastLogIdx req.logEntries else []) ++ o') ∧
      (∀ e ∈ o, e.aside = true) ∧ (∀ e ∈ o', e.aside = true) ∧ Replica (s.next env (.request req)) ∧
      (s.next env (.request req)).state.commitIdx = s.state.commitIdx ∧
      (s.next env (.request req)).logStore.entries =
        if s.accepts req then (s.replicate req.lastLogIdx req.logEntries).logStore.entries
        else s.logStore.entries := by
  obtain ⟨hlog, hbg, hcommit, hterm, hrole, hexit⟩ := noted_rest s req.term
  have hnote := @noteTerm_run s req (.inl ht)
  have hrun := handleAppendEntries_run env req (hlog ▸ h.startIdx) (hrole h.role)
  obtain ⟨p, j, r, hf, hr⟩ := followed_rest (s := s.noted req.term)
    (decide (req.term = (s.noted req.term).state.term))
  have hacc : (req.term < (s.noted req.term).state.term ∨
      (s.noted req.term).logStore.hasPrev req = false) ↔ ¬ s.accepts req = true := by
    rw [hterm, hasPrev_congr hlog]
    simp only [Server.accepts, hx, true_and, decide_eq_true_eq]
    cases s.logStore.hasPrev req with
    | true =>
      simp only [Bool.true_eq_false, or_false, and_true]
      omega
    | false => simp
  have hlive : s.effects env (.request req) = (processReq env req s).out := by
    rw [Server.effects, hx]
    rfl
  have hanswer : answerReq env req = handleAppendEntries env req := by
    rw [answerReq, ht]
  have hrep : (s.noted req.term).replicateEffects req.lastLogIdx req.logEntries =
      s.replicateEffects req.lastLogIdx req.logEntries := by
    simp only [Server.replicateEffects, hlog]
  have haside : ∀ e ∈ (if s.state.term < req.term then
      [Effect.saveState (s.inTerm req.term).state] else []), e.aside = true := by
    intro e he
    split at he
    · obtain rfl := List.mem_singleton.mp he
      rfl
    · cases he
  rw [hf] at hrun
  set n : Server := s.noted req.term with hn
  set f : Server := { n with peers := p, srvToJoin := j, role := r } with hfdef
  by_cases hyes : s.accepts req = true
  · rw [if_neg fun hor => hacc.mp hor hyes] at hrun
    have hproc := processReq_run hnote (hanswer ▸ hrun)
    have hnext := @Server.next_of_ok s env (.request req) hx (by rw [handle, hproc])
    rw [handle, hproc] at hnext
    rw [hlive, hproc, hnext, if_pos hyes, if_pos hyes, ← hrep]
    refine ⟨_, _, rfl, haside, ?_, ⟨?_, hr (hrole h.role), fun cur hcur => ?_⟩, hcommit, ?_⟩
    · simp [Effect.aside]
    · have hcut : (f.replicate req.lastLogIdx req.logEntries).logStore.startIdx =
          f.logStore.startIdx := by
        simp only [Server.replicate, LogStore.cutAt]
        split <;> rfl
      exact hcut.trans (hlog ▸ h.startIdx)
    · exact hcommit.trans (h.bg cur (hbg ▸ hcur))
    · have hsame : (f.replicate req.lastLogIdx req.logEntries).logStore =
          (s.replicate req.lastLogIdx req.logEntries).logStore := by
        simp only [Server.replicate]
        rw [show f.logStore = s.logStore from hlog]
      exact congrArg LogStore.entries hsame
  · rw [if_pos (hacc.mpr hyes)] at hrun
    have hproc := processReq_run hnote (hanswer ▸ hrun)
    have hnext := @Server.next_of_ok s env (.request req) hx (by rw [handle, hproc])
    rw [handle, hproc] at hnext
    rw [hlive, hproc, hnext, if_neg hyes, if_neg hyes]
    refine ⟨_, _, rfl, haside, ?_, ⟨hlog ▸ h.startIdx, hr (hrole h.role), fun cur hcur => ?_⟩,
      hcommit, congrArg LogStore.entries hlog⟩
    · simp [Effect.aside]
    · exact hcommit.trans (h.bg cur (hbg ▸ hcur))

/-- The callbacks of a request are those of its write. -/
theorem replicateEffects_eq {s : Server} {req : ReqMsg} (h : s.accepts req = true) :
    s.replicateEffects req.lastLogIdx req.logEntries =
      writeEffects s.logStore (s.writeIdx req) (s.superseded req) (s.entering req) := by
  rw [Server.superseded, Server.entering, if_pos h]
  split
  · rename_i hnil
    rw [Server.replicateEffects]
    simp only [Server.agreed] at hnil
    simp only [hnil, Server.agreed, writeEffects]
  · rfl

/-- A log that takes in a request keeps what is before the first new entry. -/
theorem replicate_split {s : Server} {req : ReqMsg} (h : Replica s) (hacc : s.accepts req = true)
    (hne : s.entering req ≠ []) :
    ∃ kept, kept.length + 1 = s.writeIdx req ∧
      s.logStore.entries = kept ++ s.superseded req ∧
      (s.replicate req.lastLogIdx req.logEntries).logStore.entries = kept ++ s.entering req := by
  have hprev : s.logStore.hasPrev req = true := by
    simp only [Server.accepts, decide_eq_true_eq] at hacc
    exact hacc.2.2
  have hle : req.lastLogIdx ≤ s.logStore.entries.length := by
    simp only [LogStore.hasPrev, LogStore.nextSlot, h.startIdx, decide_eq_true_eq] at hprev
    omega
  have hk : s.agreed req ≤ (s.logStore.tail req.lastLogIdx).length := overlap_le_left _ _
  have htail : s.logStore.tail req.lastLogIdx = s.logStore.entries.drop req.lastLogIdx := by
    rw [LogStore.tail, h.startIdx, Nat.add_sub_cancel]
  rw [htail, List.length_drop] at hk
  have hfresh : s.entering req = req.logEntries.drop (s.agreed req) := by
    rw [Server.entering, if_pos hacc]
  refine ⟨s.logStore.entries.take (req.lastLogIdx + s.agreed req), ?_, ?_, ?_⟩
  · rw [List.length_take, Server.writeIdx]
    omega
  · rw [Server.superseded, if_neg hne, htail, List.drop_drop, List.take_append_drop]
  · rw [hfresh] at hne ⊢
    have hcut : s.writeIdx req - s.logStore.startIdx = req.lastLogIdx + s.agreed req := by
      rw [Server.writeIdx, h.startIdx]
      omega
    have hlog : (s.replicate req.lastLogIdx req.logEntries).logStore =
        s.logStore.cutAt (s.writeIdx req) (req.logEntries.drop (s.agreed req)) := rfl
    rw [hlog, LogStore.cutAt, if_neg hne, hcut]

/-- **One request**: from paired callbacks to paired callbacks, exactly if
`KeepsPaired` says so. -/
theorem request_paired_iff (env : Env) {s : Server} {req : ReqMsg} {m : List (Nat × LogEntry)}
    (h : Replica s) (ht : req.type = .appendEntriesRequest) (hm : m.Perm s.uncommitted) :
    PairedStep s env (.request req) ∧
        (outstanding m (s.effects env (.request req))).Perm (s.next env (.request req)).uncommitted ↔
      KeepsPaired s env (.request req) := by
  have hidle : ∀ {o : List Effect}, (∀ e ∈ o, e.aside = true) → s.entering req = [] →
      s.effects env (.request req) = o →
      (s.next env (.request req)).uncommitted = s.uncommitted →
      (PairedStep s env (.request req) ∧
        (outstanding m (s.effects env (.request req))).Perm (s.next env (.request req)).uncommitted ↔
      KeepsPaired s env (.request req)) := by
    intro o ho hnil hout hsame
    obtain ⟨hm', hr, hp⟩ := outstanding_aside ho m
    have hstale : s.superseded req = [] := by rw [Server.superseded, if_pos hnil]
    simp only [PairedStep, KeepsPaired, hout, hm', hr, hp, hsame, hm, hnil, hstale, appLogs]
    simp
  rcases Bool.eq_false_or_eq_true s.exited with hx | hx
  · have hno : s.accepts req = false := by simp [Server.accepts, hx]
    refine hidle (o := []) (by simp) ?_ ?_ ?_
    · rw [Server.entering, hno, if_neg Bool.false_ne_true]
    · rw [Server.effects, if_pos hx]
    · rw [Server.next, if_pos hx]
  obtain ⟨o, o', hout, ho, ho', h', hcommit, hlog⟩ := appendReq_step env h ht hx
  have hrest : ∀ e ∈ o ++ ([] ++ o'), e.aside = true := by
    intro e he
    rcases List.mem_append.mp he with he | he
    · exact ho e he
    · exact ho' e he
  by_cases hacc : s.accepts req = true
  · rw [if_pos hacc] at hout hlog
    by_cases hne : s.entering req = []
    · have hnone : s.replicateEffects req.lastLogIdx req.logEntries = [] := by
        rw [replicateEffects_eq hacc, hne]
        cases s.superseded req <;> rfl
      have hkeep : (s.replicate req.lastLogIdx req.logEntries).logStore.entries =
          s.logStore.entries := by
        rw [Server.entering, if_pos hacc] at hne
        have hcut : (s.replicate req.lastLogIdx req.logEntries).logStore =
            s.logStore.cutAt (s.writeIdx req) (req.logEntries.drop (s.agreed req)) := rfl
        rw [hcut, LogStore.cutAt, if_pos hne]
      rw [hnone] at hout
      refine hidle hrest hne hout ?_
      rw [Server.uncommitted, hlog, hkeep, hcommit, h'.startIdx, Server.uncommitted, h.startIdx]
    · -- the entries from `writeIdx` on are exchanged
      obtain ⟨kept, hlen, hold, hnew⟩ := replicate_split h hacc hne
      rw [replicateEffects_eq hacc] at hout
      rw [hnew] at hlog
      set idx := s.writeIdx req with hidx
      set stale := s.superseded req with hstale
      set fresh := s.entering req with hfresh
      set c := s.state.commitIdx with hc
      have hend : stale = [] → s.logStore.nextSlot = idx := by
        intro hnil
        rw [LogStore.nextSlot, hold, hnil, List.append_nil, h.startIdx]
        omega
      have hidx' : 1 + kept.length = idx := by omega
      have hbefore : s.uncommitted = (appLogs 1 kept).filter (c < ·.1) ++
          (appLogs idx stale).filter (c < ·.1) := by
        rw [Server.uncommitted, h.startIdx, hold, appLogs_append, hidx', List.filter_append]
      have hafter : (s.next env (.request req)).uncommitted = (appLogs 1 kept).filter (c < ·.1) ++
          (appLogs idx fresh).filter (c < ·.1) := by
        rw [Server.uncommitted, h'.startIdx, hlog, hcommit, appLogs_append, hidx', List.filter_append]
      have hkept : ∀ x ∈ (appLogs 1 kept).filter (c < ·.1), x.1 < idx := by
        intro x hx
        have hmem := appLogs_mem (List.mem_of_mem_filter hx)
        omega
      obtain ⟨hom, hor, hop⟩ := outstanding_aside ho m
      obtain ⟨-, hor', hop'⟩ := outstanding_aside ho' m
      have hrb : rolledBack (s.effects env (.request req)) =
          rolledBack (writeEffects s.logStore idx stale fresh) := by
        rw [hout, rolledBack_append, rolledBack_append, hor, hor', List.nil_append, List.append_nil]
      have hpc : preCommitted (s.effects env (.request req)) =
          preCommitted (writeEffects s.logStore idx stale fresh) := by
        rw [hout, preCommitted_append, preCommitted_append, hop, hop', List.nil_append, List.append_nil]
      have hos : outstanding m (s.effects env (.request req)) =
          outstanding m (writeEffects s.logStore idx stale fresh) := by
        rw [hout, outstanding_append, hom, outstanding_append, (outstanding_aside ho' _).1]
      have hiff := @writeEffects_paired_iff _ _ _ fresh hend hne
      simp only [PairedStep, KeepsPaired, ← hidx, ← hstale, ← hfresh, ← hc, hrb, hpc, hos, hafter]
      rw [← and_assoc (a := ∀ e ∈ List.drop 1 stale, _), ← hiff]
      refine and_congr_right fun hpair => ?_
      have hperm := outstanding_write hend hne (hbefore ▸ hm) hkept hpair.1 hpair.2
      constructor
      · intro hnext x hx
        have hfilter := (List.perm_append_left_iff _).mp (hperm.symm.trans hnext)
        have hmem := List.mem_filter.mp (hfilter.mem_iff.mp hx)
        simpa using hmem.2
      · intro hall
        have hfilter : (appLogs idx fresh).filter (c < ·.1) = appLogs idx fresh :=
          List.filter_eq_self.mpr fun x hx => by simpa using hall x hx
        rw [hfilter]
        exact hperm
  · rw [if_neg hacc] at hout hlog
    refine hidle hrest ?_ hout ?_
    · rw [Server.entering, if_neg hacc]
    · rw [Server.uncommitted, hlog, hcommit, h'.startIdx, Server.uncommitted, h.startIdx]

/-- An entry above the commit index is the first uncommitted one if it comes next. -/
theorem uncommitted_applied {s t : Server} {cur : Nat} {e : LogEntry} (h1 : s.logStore.startIdx = 1)
    (hc : s.state.commitIdx = cur) (hat : s.logStore.entryAt? (cur + 1) = some e)
    (hlog : t.logStore = s.logStore) (hc' : t.state.commitIdx = cur + 1) :
    s.uncommitted = appLogs (cur + 1) [e] ++ t.uncommitted := by
  rw [LogStore.entryAt?_of_mem (by omega), h1, Nat.add_sub_cancel] at hat
  have hlt : cur < s.logStore.entries.length := (List.getElem?_eq_some_iff.mp hat).1
  have hsplit : s.logStore.entries =
      s.logStore.entries.take cur ++ ([e] ++ s.logStore.entries.drop (cur + 1)) := by
    have hdrop := List.drop_eq_getElem_cons hlt
    rw [(List.getElem?_eq_some_iff.mp hat).2] at hdrop
    rw [List.singleton_append, ← hdrop, List.take_append_drop]
  have hlen : 1 + (s.logStore.entries.take cur).length = cur + 1 := by
    rw [List.length_take]
    omega
  have hbelow : ∀ n, cur ≤ n → (appLogs 1 (s.logStore.entries.take cur)).filter (n < ·.1) = [] := by
    intro n hn
    refine List.filter_eq_nil_iff.mpr fun x hx => ?_
    have hmem := appLogs_mem hx
    rw [decide_eq_true_eq]
    omega
  have hone : ∀ x ∈ appLogs (cur + 1) [e], x.1 = cur + 1 := by
    intro x hx
    have hmem := appLogs_mem hx
    simp only [List.length_singleton] at hmem
    omega
  have habove : ∀ n, n ≤ cur + 1 → (appLogs (cur + 2) (s.logStore.entries.drop (cur + 1))).filter
      (n < ·.1) = appLogs (cur + 2) (s.logStore.entries.drop (cur + 1)) := by
    intro n hn
    refine List.filter_eq_self.mpr fun x hx => ?_
    have hmem := appLogs_mem hx
    rw [decide_eq_true_eq]
    omega
  have hone₁ : (appLogs (cur + 1) [e]).filter (cur < ·.1) = appLogs (cur + 1) [e] :=
    List.filter_eq_self.mpr fun x hx => by
      rw [hone x hx, decide_eq_true_eq]
      omega
  have hone₂ : (appLogs (cur + 1) [e]).filter (cur + 1 < ·.1) = [] :=
    List.filter_eq_nil_iff.mpr fun x hx => by
      rw [hone x hx, decide_eq_true_eq]
      omega
  rw [Server.uncommitted, Server.uncommitted, hlog, hc, hc', h1, hsplit, appLogs_append, appLogs_append,
    hlen, List.length_singleton, List.filter_append, List.filter_append, List.filter_append,
    List.filter_append, hbelow cur (le_refl _), hbelow (cur + 1) (by omega), hone₁, hone₂,
    habove cur (by omega), habove (cur + 1) (le_refl _)]
  rfl

/-- Committing an entry settles it. -/
theorem outstanding_commitOf (idx : Nat) (e : LogEntry) (m : List (Nat × LogEntry)) :
    outstanding m (commitOf idx e) = (appLogs idx [e]).foldl List.erase m ∧
      rolledBack (commitOf idx e) = [] ∧ preCommitted (commitOf idx e) = [] := by
  by_cases happ : e.valType = .appLog
  · simp [commitOf, happ, outstanding, settle, rolledBack, appLogs, preCommitted]
  · simp [commitOf, happ, outstanding, rolledBack, appLogs, preCommitted]

/-- **A round of the committing thread** keeps the callbacks paired. -/
theorem bgIter_paired (env : Env) {s : Server} {m : List (Nat × LogEntry)} (h : Replica s)
    (hm : m.Perm s.uncommitted) :
    rolledBack (bgIter env s).out = [] ∧ preCommitted (bgIter env s).out = [] ∧
      (outstanding m (bgIter env s).out).Perm (bgIter env s).state.uncommitted ∧
      Replica (bgIter env s).state := by
  cases hbg : s.bg with
  | waiting =>
    have hrun : bgIter env s = ⟨.ok (), s, []⟩ := by
      simp [bgIter, hbg]
    rw [hrun]
    exact ⟨rfl, rfl, hm, h⟩
  | committing cur =>
    have hcur := h.bg cur hbg
    by_cases hmore : hasMore s cur = true
    · have hlt : cur + 1 < s.logStore.nextSlot := by
        simp only [hasMore, Bool.and_eq_true, decide_eq_true_eq] at hmore
        omega
      obtain ⟨e, hat⟩ := LogStore.entryAt?_isSome (by rw [h.startIdx]; omega) hlt
      obtain ⟨o, hout, hside, -⟩ := bgIter_run env hbg hmore hat
      obtain ⟨hm', hr, hp⟩ := outstanding_commitOf (cur + 1) e m
      obtain ⟨hm'', hr', hp'⟩ := outstanding_aside hside.out (outstanding m (commitOf (cur + 1) e))
      rw [hout, rolledBack_append, preCommitted_append, outstanding_append, hm'', hr, hr', hp, hp', hm']
      refine ⟨rfl, rfl, ?_⟩
      by_cases hun : e.unreadable = true
      · rw [if_pos hun] at hside
        have hconf : e.valType = .conf := by
          simp only [LogEntry.unreadable, LogEntry.isConf, Bool.and_eq_true, decide_eq_true_eq] at hun
          exact hun.1
        have hsame : (bgIter env s).state.uncommitted = s.uncommitted := by
          rw [Server.uncommitted, hside.logStore, hside.state, Server.uncommitted]
        refine ⟨?_, hside.logStore ▸ h.startIdx, hside.role ▸ h.role, fun n hn => ?_⟩
        · rw [hsame]
          simpa [appLogs, hconf] using hm
        · rw [hside.state]
          exact h.bg n (hside.bg.symm.trans hn)
      · rw [if_neg hun] at hside
        have hcommit : (bgIter env s).state.state.commitIdx = cur + 1 := by
          rw [hside.state, Server.applied, SrvState.setCommitIdx_commitIdx, hcur]
          omega
        have hsplit := uncommitted_applied (t := (bgIter env s).state) h.startIdx hcur hat hside.logStore
          hcommit
        refine ⟨?_, hside.logStore ▸ h.startIdx, hside.role ▸ h.role, fun n hn => ?_⟩
        · rw [hsplit] at hm
          by_cases happ : e.valType = .appLog
          · simp only [appLogs, happ, if_true, List.append_nil, List.foldl_cons, List.foldl_nil,
              List.singleton_append] at hm ⊢
            have herase := hm.erase (cur + 1, e)
            rwa [List.erase_cons_head] at herase
          · simpa [appLogs, happ] using hm
        · rw [hside.bg] at hn
          cases hn
          exact hcommit
    · have hrun : bgIter env s = ⟨.ok (), { s with bg := .waiting }, [.saveState s.state]⟩ := by
        simp [bgIter, hbg, hmore, saveState]
      rw [hrun]
      exact ⟨rfl, rfl, hm, h.startIdx, h.role, fun n hn => by cases hn⟩

theorem bgWake_paired {s : Server} {m : List (Nat × LogEntry)} (h : Replica s)
    (hm : m.Perm s.uncommitted) :
    (bgWake s).out = [] ∧ m.Perm (bgWake s).state.uncommitted ∧ Replica (bgWake s).state := by
  by_cases hgo : s.bg = .waiting ∧ hasMore s s.state.commitIdx = true
  · have hrun : bgWake s = ⟨.ok (), { s with bg := .committing s.state.commitIdx }, []⟩ := by
      simp [bgWake, hgo]
    rw [hrun]
    refine ⟨rfl, hm, h.startIdx, h.role, fun n hn => ?_⟩
    cases hn
    rfl
  · have hrun : bgWake s = ⟨.ok (), s, []⟩ := by
      simp only [bgWake, bind_run, look_run, Outcome.andThen_ok, ite_run, if_neg hgo, pure_run,
        List.nil_append]
    rw [hrun]
    exact ⟨rfl, hm, h⟩

/-! ## Runs -/

theorem Replica.exit {s : Server} (h : Replica s) (x : Bool) : Replica { s with exited := x } :=
  ⟨h.startIdx, h.role, h.bg⟩

/-- **One step of a replica**: from paired callbacks to paired callbacks, exactly if
`KeepsPaired` says so. -/
theorem step_paired_iff (env : Env) {ev : Event} {s : Server} {m : List (Nat × LogEntry)}
    (h : Replica s) (hev : ev.replicates = true) (hm : m.Perm s.uncommitted) :
    Replica (s.next env ev) ∧ (PairedStep s env ev ∧
      (outstanding m (s.effects env ev)).Perm (s.next env ev).uncommitted ↔ KeepsPaired s env ev) := by
  rcases Bool.eq_false_or_eq_true s.exited with hx | hx
  · have hnext : s.next env ev = s := by rw [Server.next, if_pos hx]
    have hout : s.effects env ev = [] := by rw [Server.effects, if_pos hx]
    refine ⟨by rw [hnext]; exact h, ?_⟩
    cases ev with
    | request req => exact request_paired_iff env h (by simpa [Event.replicates] using hev) hm
    | bgWake => exact iff_of_true ⟨⟨by rw [hout]; rfl, by rw [hout]; rfl⟩, by rw [hout, hnext]; exact hm⟩ trivial
    | bgIter => exact iff_of_true ⟨⟨by rw [hout]; rfl, by rw [hout]; rfl⟩, by rw [hout, hnext]; exact hm⟩ trivial
    | _ => cases hev
  · obtain ⟨x, hnext⟩ := Server.next_of_live env ev hx
    have hout : s.effects env ev = (handle env ev s).out := by
      rw [Server.effects, hx]
      rfl
    cases ev with
    | request req =>
      have ht : req.type = .appendEntriesRequest := by simpa [Event.replicates] using hev
      obtain ⟨-, -, -, -, -, h', -⟩ := appendReq_step env h ht hx
      exact ⟨h', request_paired_iff env h ht hm⟩
    | bgWake =>
      obtain ⟨hnone, hperm, h'⟩ := bgWake_paired h hm
      rw [hnext]
      refine ⟨h'.exit x, iff_of_true ⟨⟨?_, ?_⟩, ?_⟩ trivial⟩
      · rw [hout, handle, hnone]
        rfl
      · rw [hout, handle, hnone]
        rfl
      · rw [hout, handle, hnone]
        exact hperm
    | bgIter =>
      obtain ⟨hr, hp, hperm, h'⟩ := bgIter_paired env h hm
      rw [hnext]
      refine ⟨h'.exit x, iff_of_true ⟨⟨?_, ?_⟩, ?_⟩ trivial⟩
      · rw [hout]
        exact hr
      · rw [hout]
        exact hp
      · rw [hout]
        exact hperm
    | _ => cases hev

/-- The same along a run. -/
theorem Replica.paired_iff : ∀ {run : List (Env × Event)} {s : Server} {m : List (Nat × LogEntry)},
    Replica s → (∀ p ∈ run, p.2.replicates = true) → m.Perm s.uncommitted →
      (PairedRun m s run ↔ s.Along KeepsPaired run)
  | [], _, _, _, _, hm => iff_of_true hm trivial
  | (env, ev) :: run, s, m, h, hrun, hm => by
    obtain ⟨h', hstep⟩ := step_paired_iff env h (hrun _ List.mem_cons_self) hm
    have hrest := fun hm' => @paired_iff run _ (outstanding m (s.effects env ev)) h'
      (fun p hp => hrun p (List.mem_cons_of_mem _ hp)) hm'
    constructor
    · rintro ⟨-, hpair, hgo⟩
      have hm' : (outstanding m (s.effects env ev)).Perm (s.next env ev).uncommitted := by
        cases run with
        | nil => exact hgo
        | cons p run => exact hgo.1
      exact ⟨hstep.mp ⟨hpair, hm'⟩, (hrest hm').mp hgo⟩
    · rintro ⟨hkeep, hgo⟩
      obtain ⟨hpair, hm'⟩ := hstep.mpr hkeep
      exact ⟨hm, hpair, (hrest hm').mpr hgo⟩

/-- A follower with an empty log, its committing thread at the wait. -/
structure EmptyFollower (s : Server) : Prop where
  role : s.role = .follower
  logStore : s.logStore = {}
  bg : s.bg = .waiting

/-- **Callbacks and log are paired** along a run of a follower that starts with an
empty log, exactly if every request meets `KeepsPaired`. -/
theorem callbacks_paired_iff {s : Server} {run : List (Env × Event)} (h : EmptyFollower s)
    (hrun : ∀ p ∈ run, p.2.replicates = true) : PairedRun [] s run ↔ s.Along KeepsPaired run := by
  have hs : Replica s := by
    refine ⟨by rw [h.logStore], by rw [h.role]; decide, fun cur hcur => ?_⟩
    rw [h.bg] at hcur
    cases hcur
  refine hs.paired_iff hrun ?_
  rw [Server.uncommitted, h.logStore]
  exact .nil

/-- An append_entries request behind the empty log. -/
def firstEntries (term : Nat) (es : List LogEntry) : ReqMsg where
  term := term
  type := .appendEntriesRequest
  src := 1
  dst := 2
  lastLogTerm := 0
  lastLogIdx := 0
  commitIdx := 0
  logEntries := es

theorem callbacks_paired_iff_one :
    PairedRun [] { id := 2 }
        [({}, .request (firstEntries 1 [⟨1, [1], .appLog⟩])), ({}, .bgWake), ({}, .bgIter)] ↔
      Server.Along KeepsPaired { id := 2 }
        [({}, .request (firstEntries 1 [⟨1, [1], .appLog⟩])), ({}, .bgWake), ({}, .bgIter)] :=
  callbacks_paired_iff ⟨rfl, rfl, rfl⟩ (by decide)

/-- Two entries of a first term give way to one of a second: the first is rolled
back, the second is not, and the new entry is not pre-committed. -/
theorem callbacks_paired_fails : ¬ ∀ (s : Server) (run : List (Env × Event)), EmptyFollower s →
    (∀ p ∈ run, p.2.replicates = true) → PairedRun [] s run := by
  intro hall
  have h := hall { id := 2 }
    [({}, .request (firstEntries 1 [⟨1, [1], .appLog⟩, ⟨1, [2], .appLog⟩])),
      ({}, .request (firstEntries 2 [⟨2, [3], .appLog⟩]))] ⟨rfl, rfl, rfl⟩ (by decide)
  have hpair : PairedStep (Server.next {} (.request (firstEntries 1
      [⟨1, [1], .appLog⟩, ⟨1, [2], .appLog⟩])) { id := 2 }) {}
      (.request (firstEntries 2 [⟨2, [3], .appLog⟩])) := h.2.2.2.1
  exact absurd hpair.1 (by decide)

end Cornerstone
