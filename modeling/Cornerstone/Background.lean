import Cornerstone.Membership

/-! # The committing thread and snapshots

`commit_in_bg` as the steps of a thread: it wakes, then goes through its inner
loop one entry a step.  `create_snapshot` runs in the state machine, and its
completion is a step of its own.
-/

namespace Cornerstone
open Handlers Handler Server

/-- The walk of `snapshot_and_compact` from a configuration back to the one in
force at `committedIdx`.  `deserialize` reads from where the buffer's cursor
stands.  A walk longer than the log comes back to an entry it has seen. -/
def confInForce (env : Env) (committedIdx : Nat) : Nat → ClusterConfig → Action ClusterConfig
  | 0, _ => halt .hang
  | fuel + 1, conf => do
    let s ← look
    if conf.logIdx > committedIdx ∧ conf.prevLogIdx ≥ s.logStore.startIdx then do
      let confLog ← entryAt conf.prevLogIdx
      match ClusterConfig.deserialize (confLog.buf.drop (env.bufPos conf.prevLogIdx)) with
      | none => halt .throw
      | some (conf, _) => confInForce env committedIdx fuel conf
    else
      pure conf

/-- The checks after the walk: the configuration may lie below the log, in the last
snapshot. -/
def confOrSnapshot (env : Env) (committedIdx : Nat) (conf : ClusterConfig) :
    Action ClusterConfig := do
  let s ← look
  if conf.logIdx > committedIdx ∧ conf.prevLogIdx > 0 ∧
      conf.prevLogIdx < s.logStore.startIdx then
    match env.lastSnapshot with
    | none => systemExitAndExit (-1)
    | some snp => pure snp.lastConfig
  else if conf.logIdx > committedIdx ∧ conf.prevLogIdx = 0 then
    systemExitAndExit (-1)
  else
    pure conf

/-- The part of `snapshot_and_compact` that makes up a snapshot and hands it to
the state machine. -/
def takeSnapshot (env : Env) (committedIdx : Nat) : Action Unit := do
  let s ← look
  let conf ← confInForce env committedIdx (s.logStore.entries.length + 1) s.config
  let conf ← confOrSnapshot env committedIdx conf
  let idxToCompact := committedIdx - 1
  let logTermToCompact ← termAt idxToCompact
  let newSnapshot : Snapshot := ⟨idxToCompact, logTermToCompact, 0, conf⟩
  change fun s => { s with snpPending := some newSnapshot }
  emit (.createSnapshot newSnapshot)

/-- `snapshot_and_compact`. -/
def snapshotAndCompact (env : Env) (committedIdx : Nat) : Action Unit := do
  let s ← look
  let distance := s.params.snapshotDistance
  if distance > 0 ∧ ulongSub committedIdx s.logStore.startIdx > distance.toNat ∧
      s.snpInProgress = false then do
    change fun s => { s with snpInProgress := true }
    let recent := env.lastSnapshot.any fun snp =>
      ulongSub committedIdx snp.lastLogIdx < distance.toNat
    if recent then
      change fun s => { s with snpInProgress := false }
    else
      (takeSnapshot env committedIdx).rescue Stop.caught
        (change fun s => { s with snpInProgress := false })
  else
    pure ()

/-- `on_snapshot_completed`, with the result of the state machine. -/
def onSnapshotCompleted (env : Env) (result : Bool) : Action Unit := do
  let s ← look
  match s.snpPending with
  | none => pure ()
  | some snp =>
    if result = true ∧ snp.lastLogIdx < s.logStore.startIdx then do
      change fun s => { s with snpPending := none }
      halt .throw
    else
      change fun s => { s with
        snpPending := none
        snpInProgress := false
        logStore :=
          if result = true ∧ env.compact = true then s.logStore.compact snp.lastLogIdx
          else s.logStore }

/-- `reconfigure`, if the configuration is newer than the one in force. -/
def reconfigureIfNewer (newConf : ClusterConfig) : Action Unit := do
  let s ← look
  if s.config.logIdx < newConf.logIdx then reconfigure newConf else pure ()

/-- A joining server is one of the members once a configuration with it is
committed. -/
def Server.caughtUp (s : Server) (newConf : ClusterConfig) : Server :=
  if s.catchingUp ∧ (newConf.getServer s.id).isSome then { s with catchingUp := false } else s

/-- What `commit_in_bg` does with a configuration entry. -/
def commitConfig (e : LogEntry) : Action Unit := do
  match ClusterConfig.deserialize e.buf with
  | none => halt .throw
  | some (newConf, _) => do
    emit (.saveConfig newConf)
    change fun s => { s with configChanging := false }
    reconfigureIfNewer newConf
    change (·.caughtUp newConf)

/-- What `commit_in_bg` does with an entry, by its type. -/
def applyEntry (idx : Nat) (e : LogEntry) : Action Unit :=
  if e.valType = .appLog then
    emit (.commit idx e)
  else if e.valType = .conf then
    commitConfig e
  else
    pure ()

/-- One round of the inner loop of `commit_in_bg`. -/
def commitEntry (env : Env) (idx : Nat) : Action Unit := do
  let e ← entryAt idx
  applyEntry idx e
  change fun s => { s with state := s.state.setCommitIdx idx, bg := .committing idx }
  snapshotAndCompact env idx

/-- Whether `commit_in_bg` has an entry to commit after `cur`. -/
def hasMore (s : Server) (cur : Nat) : Bool :=
  cur < s.quickCommitIdx && cur < s.logStore.nextSlot - 1

/-- The committing thread looks whether it has something to do. -/
def bgWake : Action Unit := do
  let s ← look
  if s.bg = .waiting ∧ hasMore s s.state.commitIdx = true then
    change fun s => { s with bg := .committing s.state.commitIdx }
  else
    pure ()

/-- The committing thread goes once around its inner loop, or leaves it. -/
def bgIter (env : Env) : Action Unit := do
  let s ← look
  match s.bg with
  | .waiting => pure ()
  | .committing cur =>
    if hasMore s cur then
      (commitEntry env (cur + 1)).rescue Stop.caught (systemExitAndExit (-1))
    else do
      saveState
      change fun s => { s with bg := .waiting }

end Cornerstone
