import Cornerstone.Paths

/-! # A round of the committing thread

What one iteration of `commit_in_bg` leaves: one entry is applied and the commit
index moves by one.  Everything else that may come with it, a configuration coming
into force or a snapshot being taken, leaves the log, the commit indexes and the
thread alone.
-/

namespace Cornerstone
open Handlers Handler Server

/-- Effects other than the calls of the state machine for single entries. -/
def Effect.aside : Effect → Bool
  | .preCommit _ _ | .commit _ _ | .rollback _ _ => false
  | _ => true

/-- The law of doing nothing to the log, the commit indexes and the thread. -/
structure Aside (s : Server) (o : List Effect) (t : Server) : Prop where
  logStore : t.logStore = s.logStore
  state : t.state = s.state
  quick : t.quickCommitIdx = s.quickCommitIdx
  bg : t.bg = s.bg
  role : t.role = s.role
  out : ∀ e ∈ o, e.aside = true

theorem aside_law : Law Aside where
  refl _ := ⟨rfl, rfl, rfl, rfl, rfl, by simp⟩
  trans := by
    intro s t u o o' h h'
    refine ⟨h'.logStore.trans h.logStore, h'.state.trans h.state, h'.quick.trans h.quick,
      h'.bg.trans h.bg, h'.role.trans h.role, fun e he => ?_⟩
    rcases List.mem_append.mp he with he | he
    · exact h.out e he
    · exact h'.out e he

theorem Sends.aside {s t : Server} {o : List Effect} (h : Sends s o t) : Aside s o t := by
  refine ⟨h.quiet.logStore_eq, h.quiet.state_eq, h.quick_eq, h.quiet.bg_eq, h.quiet.role_eq,
    fun e he => ?_⟩
  cases h.out e he <;> rfl

variable {s t : Server}

theorem aside_emit {e : Effect} (h : e.aside = true) : Aside s [e] s :=
  ⟨rfl, rfl, rfl, rfl, rfl, by simpa using h⟩

/-! ## Configurations -/

theorem aside_addServer (srv : SrvConfig) : Obeys Aside s (addServer srv) := by
  refine .look_bind (.ite (fun _ => ?_) fun _ => ⟨rfl, rfl, rfl, rfl, rfl, by simp⟩)
  cases s.srvToJoin with
  | none => exact ⟨rfl, rfl, rfl, rfl, rfl, by simp⟩
  | some joining =>
    exact .ite (fun _ => ⟨rfl, rfl, rfl, rfl, rfl, by simp⟩) fun _ => ⟨rfl, rfl, rfl, rfl, rfl, by simp⟩

theorem aside_removeServers (newConfig : ClusterConfig) : ∀ {pids : List Int} {s : Server},
    Obeys Aside s (removeServers newConfig pids)
  | [], s => .pure aside_law _
  | pid :: pids, s => by
    refine .look_bind (.ite (fun _ => ?_) fun _ => ?_)
    · exact .emit_bind aside_law (aside_emit rfl) (.emit_bind aside_law (aside_emit rfl)
        (.pure aside_law _))
    · have herase : Obeys Aside s (erasePeer pid) := obeys_erasePeer aside_law (fun _ => aside_emit rfl)
        ⟨rfl, rfl, rfl, rfl, rfl, by simp⟩
      exact .bind aside_law herase fun _ _ => aside_removeServers newConfig

theorem aside_reconfigure (newConfig : ClusterConfig) : Obeys Aside s (reconfigure newConfig) := by
  refine .look_bind (.bind aside_law ?_ fun _ _ => .bind aside_law (aside_removeServers _) fun _ _ => ?_)
  · exact .forEach aside_law (fun _ => True) trivial fun srv _ s _ => ⟨aside_addServer srv, trivial⟩
  · exact .ite (fun _ => .pure aside_law _) fun _ => ⟨rfl, rfl, rfl, rfl, rfl, by simp⟩

theorem aside_reconfigureIfNewer (newConf : ClusterConfig) :
    Obeys Aside s (reconfigureIfNewer newConf) :=
  .look_bind (.ite (fun _ => aside_reconfigure newConf) fun _ => .pure aside_law _)

theorem aside_commitConfig (e : LogEntry) : Obeys Aside s (commitConfig e) := by
  unfold commitConfig
  cases ClusterConfig.deserialize e.buf with
  | none => exact .halt aside_law _
  | some p =>
    refine .emit_bind aside_law (aside_emit rfl) (.change_bind aside_law ⟨rfl, rfl, rfl, rfl, rfl, by simp⟩ ?_)
    refine .bind aside_law (aside_reconfigureIfNewer _) fun _ _ => ?_
    refine ⟨?_, ?_, ?_, ?_, ?_, by simp⟩ <;>
      (simp only [change_run, Server.caughtUp]; split <;> rfl)

/-- A configuration that can be read is passed. -/
theorem commitConfig_ok {e : LogEntry} (h : (ClusterConfig.deserialize e.buf).isSome) :
    (commitConfig e s).res = .ok () := by
  obtain ⟨⟨newConf, rest⟩, hd⟩ := Option.isSome_iff_exists.mp h
  obtain ⟨o, t, c, hrun, -⟩ := commitConfig_run (s := s) hd
  rw [hrun]

/-! ## Snapshots -/

theorem aside_exits : Exits Aside := fun _ _ => ⟨rfl, rfl, rfl, rfl, rfl, by simp [Effect.aside]⟩

theorem aside_takeSnapshot (env : Env) (committedIdx : Nat) :
    Obeys Aside s (takeSnapshot env committedIdx) := by
  refine .look_bind (.bind aside_law (reads_confInForce aside_law env _) fun _ _ =>
    .bind aside_law (reads_confOrSnapshot aside_law aside_exits env _ _) fun _ _ =>
    .bind aside_law (reads_termAt aside_law _) fun _ _ => ?_)
  exact .change_bind aside_law ⟨rfl, rfl, rfl, rfl, rfl, by simp⟩ (aside_emit rfl)

theorem aside_snapshotAndCompact (env : Env) (committedIdx : Nat) :
    Obeys Aside s (snapshotAndCompact env committedIdx) := by
  refine .look_bind (.ite (fun _ => ?_) fun _ => .pure aside_law _)
  refine .change_bind aside_law ⟨rfl, rfl, rfl, rfl, rfl, by simp⟩ (.ite (fun _ => ?_) fun _ => ?_)
  · exact ⟨rfl, rfl, rfl, rfl, rfl, by simp⟩
  · exact .rescue aside_law (aside_takeSnapshot env _) ⟨rfl, rfl, rfl, rfl, rfl, by simp⟩

/-! ## One entry -/

/-- What committing an entry shows. -/
def commitOf (idx : Nat) (e : LogEntry) : List Effect :=
  if e.valType = .appLog then [.commit idx e] else []

/-- A configuration entry that cannot be read. -/
def LogEntry.unreadable (e : LogEntry) : Bool :=
  e.isConf && (ClusterConfig.deserialize e.buf).isNone

/-- The server with the entry at `idx` applied. -/
def Server.applied (s : Server) (idx : Nat) : Server :=
  { s with state := s.state.setCommitIdx idx, bg := .committing idx }

/-- **A round of the committing thread**: the entry is applied, but for one that
cannot be read, which ends the process. -/
theorem bgIter_run (env : Env) {cur : Nat} {e : LogEntry} (hbg : s.bg = .committing cur)
    (hm : hasMore s cur = true) (hat : s.logStore.entryAt? (cur + 1) = some e) :
    ∃ o, (bgIter env s).out = commitOf (cur + 1) e ++ o ∧
      Aside (if e.unreadable then { s with exited := true } else s.applied (cur + 1)) o
        (bgIter env s).state ∧
      (e.unreadable = true → (bgIter env s).state.exited = true) := by
  have hrun : bgIter env s =
      (commitEntry env (cur + 1)).rescue Stop.caught (systemExitAndExit (-1)) s := by
    simp only [bgIter, bind_run, look_run, Outcome.andThen_ok, hbg, ite_run, if_pos hm,
      List.nil_append]
  rw [hrun]
  by_cases hun : e.unreadable = true
  · obtain ⟨hconf, hnone⟩ : e.valType = .conf ∧ ClusterConfig.deserialize e.buf = none := by
      simpa [LogEntry.unreadable, LogEntry.isConf] using hun
    have hthrow : commitEntry env (cur + 1) s = ⟨.error .throw, s, []⟩ := by
      simp [commitEntry, entryAt_run hat, applyEntry, hconf, commitConfig, hnone]
    refine ⟨[.systemExit (-1)], ?_, ?_, fun _ => ?_⟩
    · simp [rescue, hthrow, Stop.caught, systemExitAndExit, commitOf, hconf]
    · rw [if_pos hun]
      simp only [rescue, hthrow, Stop.caught, systemExitAndExit]
      exact aside_emit rfl
    · simp [rescue, hthrow, Stop.caught, systemExitAndExit]
  · -- the entry is applied before anything else can stop the round
    have happly : ∃ o t, applyEntry (cur + 1) e s = ⟨.ok (), t, commitOf (cur + 1) e ++ o⟩ ∧
        Aside s o t := by
      by_cases happ : e.valType = .appLog
      · exact ⟨[], s, by simp [applyEntry, happ, commitOf], aside_law.refl s⟩
      · by_cases hconf : e.valType = .conf
        · have hsome : (ClusterConfig.deserialize e.buf).isSome := by
            rw [Option.isSome_iff_ne_none]
            intro hnone
            exact hun (by simp [LogEntry.unreadable, LogEntry.isConf, hconf, hnone])
          refine ⟨_, _, ?_, aside_commitConfig (s := s) e⟩
          simp only [applyEntry, hconf, reduceCtorEq, if_false, if_true, commitOf, List.nil_append]
          exact Outcome.ext (commitConfig_ok hsome) rfl rfl
        · exact ⟨[], s, by simp [applyEntry, happ, hconf, commitOf], aside_law.refl s⟩
    obtain ⟨o, t, happly, hside⟩ := happly
    have hentry : commitEntry env (cur + 1) s =
        ⟨(snapshotAndCompact env (cur + 1) (t.applied (cur + 1))).res,
          (snapshotAndCompact env (cur + 1) (t.applied (cur + 1))).state,
          commitOf (cur + 1) e ++ o ++
            (snapshotAndCompact env (cur + 1) (t.applied (cur + 1))).out⟩ := by
      simp only [commitEntry, bind_run, entryAt_run hat, Outcome.andThen_ok, happly, change_run,
        List.nil_append, Server.applied]
    have hsnap : Aside (t.applied (cur + 1)) _ _ := aside_snapshotAndCompact env (cur + 1)
    have happlied : Aside (s.applied (cur + 1)) o (t.applied (cur + 1)) :=
      ⟨hside.logStore, by simp only [Server.applied, hside.state], hside.quick, rfl, hside.role, hside.out⟩
    have hall := aside_law.trans happlied hsnap
    have hexit : Obeys Aside (commitEntry env (cur + 1) s).state (systemExitAndExit (-1) : Action Unit) :=
      reads_exit aside_exits (-1)
    unfold Obeys at hexit
    rw [if_neg hun]
    rcases rescue_cases (commitEntry env (cur + 1)) (systemExitAndExit (-1)) Stop.caught s with h | h
    · rw [h, hentry]
      exact ⟨_, List.append_assoc _ _ _, hall, fun h => absurd h hun⟩
    · rw [h]
      rw [hentry] at hexit ⊢
      refine ⟨_, ?_, aside_law.trans hall hexit, fun h => absurd h hun⟩
      simp only [List.append_assoc]

end Cornerstone
