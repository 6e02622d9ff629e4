import Cornerstone.ServerRun
import Cornerstone.Splice

/-! # The three loops of `handle_append_entries`

Skip, overwrite, append: together they splice the entries of a request into the
log behind the index the request starts from.  After the first overwrite nothing
of the old log is left behind it, so at most one entry is ever rolled back and at
most one old entry is looked at for its type.
-/

namespace Cornerstone
open Handlers Handler Server Splice

variable {s : Server}

theorem entryAt_run {idx : Nat} {e : LogEntry} (h : s.logStore.entryAt? idx = some e) :
    entryAt idx s = ⟨.ok e, s, []⟩ := by
  simp only [entryAt, bind_run, look_run, Outcome.andThen_ok, h, pure_run, List.nil_append]

namespace LogStore
variable {l : LogStore} {idx : Nat}

theorem nextSlot_le_of_drop (h : l.startIdx ≤ idx) (hd : l.entries.drop (idx - l.startIdx) = []) :
    l.nextSlot ≤ idx := by
  have := List.drop_eq_nil_iff.mp hd
  rw [nextSlot]
  omega

theorem entryAt?_of_drop {e : LogEntry} {es : List LogEntry} (h : l.startIdx ≤ idx)
    (hd : l.entries.drop (idx - l.startIdx) = e :: es) :
    l.entryAt? idx = some e ∧ idx < l.nextSlot ∧
      l.entries.drop (idx + 1 - l.startIdx) = es := by
  have hget : l.entries[idx - l.startIdx]? = some e := by
    rw [← List.head?_drop, hd]
    rfl
  refine ⟨?_, ?_, ?_⟩
  · rw [entryAt?_of_mem h, hget]
  · have := (List.getElem?_eq_some_iff.mp hget).1
    rw [nextSlot]
    omega
  · rw [show idx + 1 - l.startIdx = (idx - l.startIdx) + 1 by omega, ← List.drop_drop, hd]
    rfl

end LogStore

/-- The first loop goes as far as the log and the entries agree. -/
theorem skipOverlapped_run : ∀ {idx : Nat} {es : List LogEntry}, s.logStore.startIdx ≤ idx →
    skipOverlapped idx es s =
      ⟨.ok (idx + overlap LogEntry.term (s.logStore.entries.drop (idx - s.logStore.startIdx)) es,
        es.drop (overlap LogEntry.term
          (s.logStore.entries.drop (idx - s.logStore.startIdx)) es)), s, []⟩
  | idx, [], _ => by simp [skipOverlapped]
  | idx, e :: es, h => by
    cases hd : s.logStore.entries.drop (idx - s.logStore.startIdx) with
    | nil =>
      have hge := LogStore.nextSlot_le_of_drop h hd
      simp [skipOverlapped, Nat.not_lt.mpr hge]
    | cons e' es' =>
      obtain ⟨hat, hlt, hd'⟩ := LogStore.entryAt?_of_drop h hd
      have ih := @skipOverlapped_run (idx + 1) es (by omega)
      rw [hd'] at ih
      by_cases hk : e'.term = e.term
      · rw [overlap_cons_of_eq hk]
        simp only [skipOverlapped, bind_run, look_run, Outcome.andThen_ok, ite_run, if_pos hlt,
          entryAt_run hat, if_pos hk, ih, List.nil_append, List.drop_succ_cons]
        rw [Nat.add_right_comm, Nat.add_assoc]
      · rw [overlap_cons_of_ne hk]
        simp only [skipOverlapped, bind_run, look_run, Outcome.andThen_ok, ite_run, if_pos hlt,
          entryAt_run hat, if_neg hk, pure_run, List.nil_append, Nat.add_zero, List.drop_zero]

/-- What rolling back an entry shows. -/
def rollbackOf (idx : Nat) (e : LogEntry) : List Effect :=
  if e.valType = .appLog then [.rollback idx e] else []

/-- The second loop past the end of the log does nothing. -/
theorem overwriteEntries_run_end {idx : Nat} (es : List LogEntry) (h : s.logStore.nextSlot ≤ idx) :
    overwriteEntries idx es s = ⟨.ok es, s, []⟩ := by
  cases es with
  | nil => rfl
  | cons e es =>
    simp only [overwriteEntries, bind_run, look_run, Outcome.andThen_ok, ite_run,
      if_neg (Nat.not_lt.mpr h), pure_run, List.nil_append]

/-- The second loop inside the log overwrites one entry. -/
theorem overwriteEntries_run {idx : Nat} {e old : LogEntry} (es : List LogEntry)
    (h : s.logStore.startIdx ≤ idx) (hold : s.logStore.entryAt? idx = some old) :
    overwriteEntries idx (e :: es) s =
      ⟨.ok es, { s with
          logStore := s.logStore.writeAt idx e
          configChanging := s.configChanging && !old.isConf }, rollbackOf idx old⟩ := by
  have hlt : idx < s.logStore.nextSlot := by
    rw [LogStore.entryAt?_of_mem h] at hold
    have := (List.getElem?_eq_some_iff.mp hold).1
    rw [LogStore.nextSlot]
    omega
  have hend : (s.logStore.writeAt idx e).nextSlot ≤ idx + 1 :=
    (LogStore.writeAt_nextSlot e h hlt.le).le
  simp only [overwriteEntries, bind_run, look_run, Outcome.andThen_ok, ite_run, if_pos hlt,
    entryAt_run hold, List.nil_append]
  by_cases happ : old.valType = .appLog
  · simp [happ, rollbackOf, LogEntry.isConf, overwriteEntries_run_end, hend]
  · by_cases hconf : old.valType = .conf
    · simp [hconf, rollbackOf, LogEntry.isConf, overwriteEntries_run_end, hend]
    · simp [happ, hconf, rollbackOf, LogEntry.isConf, overwriteEntries_run_end, hend]

/-- What appending the entries of a request shows. -/
def preCommitsOf : Nat → List LogEntry → List Effect
  | _, [] => []
  | idx, e :: es => (if e.valType = .conf then [] else [.preCommit idx e]) ++ preCommitsOf (idx + 1) es

/-- The third loop appends everything. -/
theorem appendNewEntries_run : ∀ {es : List LogEntry} {s : Server},
    appendNewEntries es s =
      ⟨.ok (), { s with
          logStore := { s.logStore with entries := s.logStore.entries ++ es }
          configChanging := s.configChanging || es.any LogEntry.isConf },
        preCommitsOf s.logStore.nextSlot es⟩
  | [], s => by simp [appendNewEntries, preCommitsOf]
  | e :: es, s => by
    have hslot : (s.logStore.append e).nextSlot = s.logStore.nextSlot + 1 :=
      LogStore.append_nextSlot e
    simp only [appendNewEntries, bind_run, look_run, Outcome.andThen_ok, ite_run, change_run,
      emit_run, List.nil_append]
    by_cases hconf : e.valType = .conf
    · simp [hconf, preCommitsOf, appendNewEntries_run, LogEntry.isConf, hslot]
    · simp [hconf, preCommitsOf, appendNewEntries_run, LogEntry.isConf, hslot]

/-! ## The loops together -/

/-- The part of the log behind index `prev`. -/
def LogStore.tail (l : LogStore) (prev : Nat) : List LogEntry :=
  l.entries.drop (prev + 1 - l.startIdx)

/-- What becomes of `config_changing_` when the entries `fresh` come to stand
where the entries `stale` were. -/
def flagAfter (flag : Bool) : List LogEntry → List LogEntry → Bool
  | _, [] => flag
  | [], fresh => flag || fresh.any LogEntry.isConf
  | old :: _, _ :: appended => (flag && !old.isConf) || appended.any LogEntry.isConf

/-- What the last two loops show when the entries `fresh` come to stand at `idx`,
where the entries `stale` were. -/
def writeEffects (l : LogStore) (idx : Nat) : List LogEntry → List LogEntry → List Effect
  | _, [] => []
  | [], fresh => preCommitsOf l.nextSlot fresh
  | old :: _, _ :: appended => rollbackOf idx old ++ preCommitsOf (idx + 1) appended

theorem mem_preCommitsOf : ∀ {idx : Nat} {es : List LogEntry} {w : Effect}, w ∈ preCommitsOf idx es →
    ∃ n e, w = .preCommit n e
  | _, [], _, hw => by cases hw
  | _, _ :: _, w, hw => by
    rcases List.mem_append.mp hw with hw | hw
    · split at hw
      · cases hw
      · exact ⟨_, _, List.mem_singleton.mp hw⟩
    · exact mem_preCommitsOf hw

/-- Writing entries shows nothing but pre-commits and rollbacks. -/
theorem mem_writeEffects {l : LogStore} {idx : Nat} {stale fresh : List LogEntry} {w : Effect}
    (hw : w ∈ writeEffects l idx stale fresh) : ∃ n e, w = .preCommit n e ∨ w = .rollback n e := by
  have hpre : ∀ {n : Nat} {es : List LogEntry}, w ∈ preCommitsOf n es →
      ∃ n e, w = .preCommit n e ∨ w = .rollback n e := fun h => by
    obtain ⟨n, e, rfl⟩ := mem_preCommitsOf h
    exact ⟨n, e, .inl rfl⟩
  cases fresh with
  | nil => cases hw
  | cons e appended =>
    cases stale with
    | nil => exact hpre hw
    | cons old stale =>
      rcases List.mem_append.mp hw with hw | hw
      · unfold rollbackOf at hw
        split at hw
        · exact ⟨_, _, .inr (List.mem_singleton.mp hw)⟩
        · cases hw
      · exact hpre hw

/-- The log with the entries `fresh` at `idx` and nothing behind them, or as it
was if there are none. -/
def LogStore.cutAt (l : LogStore) (idx : Nat) (fresh : List LogEntry) : LogStore :=
  if fresh = [] then l else { l with entries := l.entries.take (idx - l.startIdx) ++ fresh }

@[simp] theorem LogStore.cutAt_startIdx (l : LogStore) (idx : Nat) (fresh : List LogEntry) :
    (l.cutAt idx fresh).startIdx = l.startIdx := by
  unfold LogStore.cutAt
  split <;> rfl

/-- The last two loops, with the old entries from `idx` on named. -/
theorem writeFresh_run {idx : Nat} {stale : List LogEntry} (fresh : List LogEntry) (h : s.logStore.startIdx ≤ idx)
    (hstale : s.logStore.entries.drop (idx - s.logStore.startIdx) = stale) :
    (overwriteEntries idx fresh >>= appendNewEntries) s =
      ⟨.ok (), { s with
          logStore := s.logStore.cutAt idx fresh
          configChanging := flagAfter s.configChanging stale fresh },
        writeEffects s.logStore idx stale fresh⟩ := by
  cases fresh with
  | nil => simp [overwriteEntries, appendNewEntries, flagAfter, writeEffects, LogStore.cutAt]
  | cons e appended =>
    cases stale with
    | nil =>
      have hend := LogStore.nextSlot_le_of_drop h hstale
      have htake := List.take_of_length_le (List.drop_eq_nil_iff.mp hstale)
      simp [overwriteEntries_run_end _ hend, appendNewEntries_run, flagAfter, writeEffects,
        LogStore.cutAt, htake]
    | cons old stale =>
      obtain ⟨hat, hlt, -⟩ := LogStore.entryAt?_of_drop h hstale
      have hslot := LogStore.writeAt_nextSlot e h hlt.le
      rw [LogStore.writeAt] at hslot
      simp [overwriteEntries_run appended h hat, appendNewEntries_run, flagAfter, writeEffects,
        LogStore.cutAt, LogStore.writeAt, hslot]

/-- The server after the entries `es` of a request that starts behind `prev`. -/
def Server.replicate (s : Server) (prev : Nat) (es : List LogEntry) : Server :=
  let k := overlap LogEntry.term (s.logStore.tail prev) es
  { s with
    logStore := s.logStore.cutAt (prev + 1 + k) (es.drop k)
    configChanging := flagAfter s.configChanging ((s.logStore.tail prev).drop k) (es.drop k) }

theorem replicate_startIdx (prev : Nat) (es : List LogEntry) :
    (s.replicate prev es).logStore.startIdx = s.logStore.startIdx :=
  LogStore.cutAt_startIdx _ _ _

/-- What is seen of that. -/
def Server.replicateEffects (s : Server) (prev : Nat) (es : List LogEntry) : List Effect :=
  let k := overlap LogEntry.term (s.logStore.tail prev) es
  writeEffects s.logStore (prev + 1 + k) ((s.logStore.tail prev).drop k) (es.drop k)

/-- The loops do what `replicate` says. -/
theorem writeEntries_run {prev : Nat} (es : List LogEntry) (h : s.logStore.startIdx ≤ prev + 1) :
    writeEntries prev es s =
      ⟨.ok (), s.replicate prev es, s.replicateEffects prev es⟩ := by
  have hdrop : s.logStore.entries.drop (prev + 1 +
      overlap LogEntry.term (s.logStore.tail prev) es - s.logStore.startIdx) =
      (s.logStore.tail prev).drop (overlap LogEntry.term (s.logStore.tail prev) es) := by
    rw [LogStore.tail, List.drop_drop]
    congr 1
    omega
  have hrun := writeFresh_run (es.drop (overlap LogEntry.term (s.logStore.tail prev) es))
    (by omega) hdrop
  simp only [writeEntries, bind_run, skipOverlapped_run h, Outcome.andThen_ok, List.nil_append]
  exact hrun

/-- **The loops of `handle_append_entries` splice**: on the log they take in the
entries of the request, keeping the longest part that agrees with them. -/
theorem replicate_entries {prev : Nat} (es : List LogEntry) (h : s.logStore.startIdx ≤ prev + 1) :
    (s.replicate prev es).logStore.entries =
      s.logStore.entries.take (prev + 1 - s.logStore.startIdx) ++
        splice LogEntry.term (s.logStore.tail prev) es := by
  have hsplit := List.take_append_drop (prev + 1 - s.logStore.startIdx) s.logStore.entries
  simp only [Server.replicate, LogStore.cutAt, splice]
  generalize overlap LogEntry.term (s.logStore.tail prev) es = k
  split
  · exact hsplit.symm
  · rw [← List.append_assoc, LogStore.tail, show prev + 1 + k - s.logStore.startIdx =
      (prev + 1 - s.logStore.startIdx) + k by omega, List.take_add]

/-- Below the first stored index the loops do nothing or throw. -/
theorem writeEntries_below {prev : Nat} (es : List LogEntry) (h : prev + 1 < s.logStore.startIdx) :
    (writeEntries prev es s).state = s ∧ (writeEntries prev es s).out = [] := by
  cases es with
  | nil => exact ⟨rfl, rfl⟩
  | cons e es =>
    have hlt : prev + 1 < s.logStore.nextSlot := by
      rw [LogStore.nextSlot]
      omega
    have hnone : s.logStore.entryAt? (prev + 1) = none := by
      rw [LogStore.entryAt?, if_pos h]
    simp [writeEntries, skipOverlapped, hlt, entryAt, hnone, h]

end Cornerstone
