import Cornerstone.ServerRun

/-! # The configuration of a snapshot

`snapshot_and_compact` walks from the configuration in force back along
`prev_log_idx`, through the log and at its start over to the last snapshot.  What the
walk comes to is compared with the configuration a snapshot up to its last index ought
to have: the newest of the chain that is not behind that index.

The chain is kept as a list, newest first.
-/

namespace Cornerstone
open LittleEndian Handlers Handler Server

/-! ## Chains of configurations -/

/-- Each configuration names the one before it, and the first names none. -/
def Linked : List ClusterConfig → Prop
  | [] => True
  | [c] => c.prevLogIdx = 0
  | c :: c' :: rest => c.prevLogIdx = c'.logIdx ∧ c'.logIdx < c.logIdx ∧ Linked (c' :: rest)

/-- The configuration in force at an index. -/
def newestUpTo (n : Nat) (confs : List ClusterConfig) : Option ClusterConfig := confs.find? (·.logIdx ≤ n)

/-- The configuration entries of a log form a chain: those that are stored are at their
index, and if some are compacted there is a snapshot that goes to the start of the log,
with the configuration in force at its end. -/
structure ConfChain (env : Env) (l : LogStore) (confs : List ClusterConfig) : Prop where
  start_pos : 0 < l.startIdx
  linked : Linked confs
  positive : ∀ c ∈ confs, 0 < c.logIdx
  valid : ∀ c ∈ confs, c.Valid
  stored : ∀ c ∈ confs, l.startIdx ≤ c.logIdx →
    ∃ e, l.entryAt? c.logIdx = some e ∧ e.valType = .conf ∧ e.buf = c.serialize
  complete : ∀ idx e, l.entryAt? idx = some e → e.valType = .conf → ∃ c ∈ confs, c.logIdx = idx
  compacted : ∀ c ∈ confs, c.logIdx < l.startIdx → ∃ snp, env.lastSnapshot = some snp ∧
    l.startIdx ≤ snp.lastLogIdx + 1 ∧ newestUpTo snp.lastLogIdx confs = some snp.lastConfig

variable {env : Env} {s : Server} {confs newer older : List ClusterConfig} {c c' : ClusterConfig} {k n : Nat}

theorem Linked.tail (h : Linked (c :: confs)) : Linked confs := by
  cases confs with
  | nil => trivial
  | cons c' rest => exact h.2.2

theorem Linked.lt (h : Linked (c :: confs)) : ∀ x ∈ confs, x.logIdx < c.logIdx := by
  induction confs generalizing c with
  | nil => exact fun _ hx => absurd hx List.not_mem_nil
  | cons c' rest ih =>
    obtain ⟨-, hlt, hrest⟩ := h
    intro x hx
    rcases List.mem_cons.mp hx with rfl | hx
    · exact hlt
    · exact (ih hrest x hx).trans hlt

theorem Linked.prev_lt (h : Linked (c :: confs)) (hpos : 0 < c.logIdx) : c.prevLogIdx < c.logIdx := by
  cases confs with
  | nil =>
    have hfirst : c.prevLogIdx = 0 := h
    omega
  | cons c' rest => exact h.1 ▸ h.2.1

theorem Linked.of_append (h : Linked (newer ++ confs)) : Linked confs := by
  induction newer with
  | nil => exact h
  | cons c rest ih => exact ih (Linked.tail h)

theorem Linked.lt_of_append (h : Linked (newer ++ c :: older)) : ∀ x ∈ newer, c.logIdx < x.logIdx := by
  induction newer with
  | nil => exact fun _ hx => absurd hx List.not_mem_nil
  | cons d rest ih =>
    intro x hx
    rcases List.mem_cons.mp hx with rfl | hx
    · exact Linked.lt h c (List.mem_append_right _ List.mem_cons_self)
    · exact ih (Linked.tail h) x hx

theorem newestUpTo_cons (c : ClusterConfig) (confs : List ClusterConfig) :
    newestUpTo n (c :: confs) = if c.logIdx ≤ n then some c else newestUpTo n confs := by
  rw [newestUpTo, List.find?_cons]
  by_cases h : c.logIdx ≤ n
  · simp [h]
  · simp [h, newestUpTo]

/-- Behind everything newer, the list starts where it is not behind the index. -/
theorem newestUpTo_append (h : ∀ x ∈ newer, n < x.logIdx) : newestUpTo n (newer ++ confs) = newestUpTo n confs := by
  have hnone : newer.find? (fun x => decide (x.logIdx ≤ n)) = none :=
    List.find?_eq_none.mpr fun x hx => by simpa using h x hx
  rw [newestUpTo, List.find?_append, hnone, Option.none_or, newestUpTo]

/-- In front of the configuration in force all are newer than the index. -/
theorem Linked.lt_of_newest (h : Linked (newer ++ c :: older)) (hnew : newestUpTo n (newer ++ c :: older) = some c) :
    ∀ x ∈ newer, n < x.logIdx := by
  intro x hx
  by_contra hle
  obtain ⟨y, hy⟩ : ∃ y, newer.find? (fun x => decide (x.logIdx ≤ n)) = some y :=
    Option.isSome_iff_exists.mp (List.find?_isSome.mpr ⟨x, hx, by simpa using hle⟩)
  rw [newestUpTo, List.find?_append, hy, Option.some_or] at hnew
  cases hnew
  exact absurd (h.lt_of_append c (List.mem_of_find?_eq_some hy)) (lt_irrefl _)

/-- Of two neighbours the older is in force until the newer one is. -/
theorem newestUpTo_neighbour (h : Linked (newer ++ c :: c' :: older)) (hn : c'.logIdx ≤ n) :
    newestUpTo n (newer ++ c :: c' :: older) = some c' ↔ n < c.logIdx := by
  constructor
  · intro hnew
    have hsplit : newer ++ c :: c' :: older = (newer ++ [c]) ++ c' :: older := by simp
    rw [hsplit] at h hnew
    exact h.lt_of_newest hnew c (List.mem_append_right _ List.mem_cons_self)
  · intro hlt
    have hall : ∀ x ∈ newer, n < x.logIdx := fun x hx => hlt.trans (h.lt_of_append x hx)
    rw [newestUpTo_append hall, newestUpTo_cons, if_neg (not_le.mpr hlt), newestUpTo_cons, if_pos hn]

/-! ## The walk -/

/-- What the walk comes to from the first of these configurations, if it finds the buffers
it reads at their start. -/
def walkBack (env : Env) (k start : Nat) : List ClusterConfig → Option ClusterConfig
  | [] => none
  | c :: older =>
    if k < c.logIdx ∧ start ≤ c.prevLogIdx then
      if env.bufPos c.prevLogIdx = 0 then walkBack env k start older else none
    else some c

/-- The cursor of a buffer that holds a configuration is where the last read has left it:
it has not been read, or it has been read to its end. -/
def ReadThrough (env : Env) (confs : List ClusterConfig) : Prop :=
  ∀ c ∈ confs, env.bufPos c.logIdx = 0 ∨ env.bufPos c.logIdx = c.serialize.length

theorem serialize_length_pos (c : ClusterConfig) : 0 < c.serialize.length := by
  rw [ClusterConfig.serialize, List.length_append, leBytes_length]
  omega

theorem deserialize_nil : ClusterConfig.deserialize [] = none := by decide

/-- A stored configuration is read back from the start of its buffer. -/
theorem readConf_run {l : LogStore} (h : ConfChain env l confs) (hlog : s.logStore = l) (hc : c ∈ confs)
    (hge : l.startIdx ≤ c.logIdx) : ∃ e, entryAt c.logIdx s = ⟨.ok e, s, []⟩ ∧ e.buf = c.serialize := by
  obtain ⟨e, he, -, hbuf⟩ := h.stored c hc hge
  refine ⟨e, ?_, hbuf⟩
  simp [entryAt, hlog, he]

/-- One round of the walk. -/
theorem confInForce_step {fuel : Nat} (h : ConfChain env s.logStore confs) (hc : c' ∈ confs)
    (hprev : c.prevLogIdx = c'.logIdx) (hgo : k < c.logIdx ∧ s.logStore.startIdx ≤ c.prevLogIdx) :
    confInForce env k (fuel + 1) c s =
      match ClusterConfig.deserialize (c'.serialize.drop (env.bufPos c'.logIdx)) with
      | none => ⟨.error .throw, s, []⟩
      | some (conf, _) => confInForce env k fuel conf s := by
  obtain ⟨e, hread, hbuf⟩ := readConf_run (s := s) h rfl hc (hprev ▸ hgo.2)
  rw [hprev] at hgo
  rw [confInForce, bind_silent (look_run _), hprev, if_pos hgo, bind_silent hread, hbuf]
  cases hd : ClusterConfig.deserialize (c'.serialize.drop (env.bufPos c'.logIdx)) with
  | none => rfl
  | some p => rfl

/-- **The walk ends**: each round goes to an index that is stored and smaller. -/
theorem confInForce_run (h : ConfChain env s.logStore confs) : ∀ {older : List ClusterConfig} {c : ClusterConfig}
    {fuel : Nat}, Linked (c :: older) → (∀ x ∈ c :: older, x ∈ confs) → 0 < fuel →
      (s.logStore.startIdx ≤ c.prevLogIdx → c.prevLogIdx - s.logStore.startIdx + 2 ≤ fuel) →
        (∀ conf, walkBack env k s.logStore.startIdx (c :: older) = some conf →
          confInForce env k fuel c s = ⟨.ok conf, s, []⟩) ∧
        (ReadThrough env confs → walkBack env k s.logStore.startIdx (c :: older) = none →
          confInForce env k fuel c s = ⟨.error .throw, s, []⟩)
  | older, c, 0, _, _, hpos, _ => absurd hpos (lt_irrefl _)
  | older, c, fuel + 1, hlink, hmem, _, hfuel => by
    rw [walkBack]
    by_cases hgo : k < c.logIdx ∧ s.logStore.startIdx ≤ c.prevLogIdx
    · have hstart := h.start_pos
      cases older with
      | nil =>
        have hfirst : c.prevLogIdx = 0 := hlink
        omega
      | cons c' older =>
        obtain ⟨hprev, hlt, hrest⟩ := hlink
        have hc' : c' ∈ confs := hmem c' (List.mem_cons_of_mem _ List.mem_cons_self)
        rw [if_pos hgo, confInForce_step h hc' hprev hgo, hprev]
        by_cases hzero : env.bufPos c'.logIdx = 0
        · have hd : ClusterConfig.deserialize (c'.serialize.drop (env.bufPos c'.logIdx)) = some (c', []) := by
            rw [hzero, List.drop_zero]
            simpa using ClusterConfig.deserialize_serialize (h.valid c' hc') []
          rw [if_pos hzero, hd]
          have hbound := hfuel hgo.2
          refine confInForce_run h hrest (fun x hx => hmem x (List.mem_cons_of_mem _ hx)) (by omega) fun hge => ?_
          have hback := hrest.prev_lt (h.positive c' hc')
          omega
        · rw [if_neg hzero]
          refine ⟨fun _ hsome => (by cases hsome), fun hread _ => ?_⟩
          have hend := (hread c' hc').resolve_left hzero
          rw [hend, List.drop_length, deserialize_nil]
    · rw [if_neg hgo]
      refine ⟨fun conf hconf => ?_, fun _ hnone => (by cases hnone)⟩
      cases hconf
      rw [confInForce, bind_silent (look_run _), if_neg hgo, pure_run]

/-- The configuration that goes into the snapshot, after the checks behind the walk. -/
def Server.embedded (env : Env) (s : Server) (k : Nat) (confs : List ClusterConfig) : Option ClusterConfig :=
  (walkBack env k s.logStore.startIdx confs).bind fun conf =>
    if k < conf.logIdx ∧ 0 < conf.prevLogIdx ∧ conf.prevLogIdx < s.logStore.startIdx then
      env.lastSnapshot.map Snapshot.lastConfig
    else if k < conf.logIdx ∧ conf.prevLogIdx = 0 then none
    else some conf

/-- A run of `snapshot_and_compact` that takes a snapshot, with the configuration in
force at its last index. -/
def EmbedsInForce (confs : List ClusterConfig) (r : Outcome Server Effect Stop Unit) : Prop :=
  r.res = .ok () ∧ ∃ snp, r.out = [.createSnapshot snp] ∧ newestUpTo snp.lastLogIdx confs = some snp.lastConfig

/-- `snapshot_and_compact` decides to take a snapshot. -/
structure Decides (env : Env) (s : Server) (k : Nat) : Prop where
  distance_pos : 0 < s.params.snapshotDistance
  far : s.params.snapshotDistance.toNat < ulongSub k s.logStore.startIdx
  idle : s.snpInProgress = false
  old : env.lastSnapshot.any (fun snp => ulongSub k snp.lastLogIdx < s.params.snapshotDistance.toNat) = false

theorem ulongSub_self (a : Nat) : ulongSub a a = 0 := by
  have hlt : a % ulongSize < ulongSize := Nat.mod_lt _ (by decide)
  have hsum : a + (ulongSize - a % ulongSize) = ulongSize * (a / ulongSize) + ulongSize := by
    have := Nat.div_add_mod a ulongSize
    omega
  rw [ulongSub, hsum, Nat.add_mod_right, Nat.mul_mod_right]

/-- A committed index at which a snapshot is taken is behind the start of the log. -/
theorem Decides.start_lt (h : Decides env s k) (hk : s.logStore.startIdx ≤ k) : s.logStore.startIdx < k := by
  rcases Nat.eq_or_lt_of_le hk with heq | hlt
  · have hfar := h.far
    rw [heq, ulongSub_self] at hfar
    omega
  · exact hlt

theorem snapshotAndCompact_decides (h : Decides env s k) :
    snapshotAndCompact env k s = ((takeSnapshot env k).rescue Stop.caught
      (change fun s => { s with snpInProgress := false }) : Action Unit) { s with snpInProgress := true } := by
  have hgo : s.params.snapshotDistance > 0 ∧ ulongSub k s.logStore.startIdx > s.params.snapshotDistance.toNat ∧
      s.snpInProgress = false := ⟨h.distance_pos, h.far, h.idle⟩
  have hchange : (change fun s : Server => { s with snpInProgress := true } : Action Unit) s =
      ⟨.ok (), { s with snpInProgress := true }, []⟩ := rfl
  rw [snapshotAndCompact, bind_silent (look_run _), if_pos hgo, bind_silent hchange]
  rw [if_neg]
  rw [h.old]
  exact Bool.false_ne_true

theorem termAt_stored (hlo : s.logStore.startIdx ≤ n) (hhi : n < s.logStore.nextSlot) :
    ∃ term, termAt n s = ⟨.ok term, s, []⟩ := by
  have hin : n - s.logStore.startIdx < s.logStore.entries.length := by
    rw [LogStore.nextSlot] at hhi
    omega
  exact ⟨(s.logStore.entries.get ⟨_, hin⟩).term, by
    simp [termAt, LogStore.termAt?, LogStore.entryAt?, Nat.not_lt.mpr hlo, hin]⟩

theorem entryAt?_lt {l : LogStore} {e : LogEntry} (h : l.entryAt? n = some e) : n < l.nextSlot := by
  unfold LogStore.entryAt? at h
  split at h
  · cases h
  · obtain ⟨hin, -⟩ := List.getElem?_eq_some_iff.mp h
    rw [LogStore.nextSlot]
    omega

/-- The walk from the configuration in force has fuel enough. -/
theorem confInForce_config (h : ConfChain env s.logStore confs) (hlink : Linked (s.config :: older))
    (hmem : ∀ x ∈ s.config :: older, x ∈ confs) :
    (∀ conf, walkBack env k s.logStore.startIdx (s.config :: older) = some conf →
      confInForce env k (s.logStore.entries.length + 1) s.config s = ⟨.ok conf, s, []⟩) ∧
    (ReadThrough env confs → walkBack env k s.logStore.startIdx (s.config :: older) = none →
      confInForce env k (s.logStore.entries.length + 1) s.config s = ⟨.error .throw, s, []⟩) := by
  refine confInForce_run h hlink hmem (by omega) fun hge => ?_
  cases older with
  | nil =>
    have hfirst : s.config.prevLogIdx = 0 := hlink
    have hstart := h.start_pos
    omega
  | cons c' rest =>
    have hc' : c' ∈ confs := hmem c' (List.mem_cons_of_mem _ List.mem_cons_self)
    obtain ⟨e, he, -⟩ := h.stored c' hc' (hlink.1 ▸ hge)
    have hlt := entryAt?_lt he
    rw [LogStore.nextSlot, ← hlink.1] at hlt
    omega

/-- `create_snapshot` is called with the configuration that is to be embedded, and not at
all if there is none. -/
theorem takeSnapshot_run (h : ConfChain env s.logStore confs) (hlink : Linked (s.config :: older))
    (hmem : ∀ x ∈ s.config :: older, x ∈ confs) (hlo : s.logStore.startIdx ≤ k - 1) (hhi : k - 1 < s.logStore.nextSlot) :
    (∀ conf, s.embedded env k (s.config :: older) = some conf →
      ∃ term t, takeSnapshot env k s = ⟨.ok (), t, [.createSnapshot ⟨k - 1, term, 0, conf⟩]⟩) ∧
    (ReadThrough env confs → s.embedded env k (s.config :: older) = none →
      ∃ e, (takeSnapshot env k s).res = .error e ∧ e ≠ .hang ∧
        ∀ w ∈ (takeSnapshot env k s).out, w = .systemExit (-1)) := by
  obtain ⟨hgood, hbad⟩ := confInForce_config (k := k) h hlink hmem
  obtain ⟨term, hterm⟩ := termAt_stored hlo hhi
  have hend : ∀ conf, (do
      let logTermToCompact ← termAt (k - 1)
      let newSnapshot : Snapshot := ⟨k - 1, logTermToCompact, 0, conf⟩
      change fun s => { s with snpPending := some newSnapshot }
      emit (.createSnapshot newSnapshot) : Action Unit) s =
        ⟨.ok (), { s with snpPending := some ⟨k - 1, term, 0, conf⟩ }, [.createSnapshot ⟨k - 1, term, 0, conf⟩]⟩ := by
    intro conf
    rw [bind_silent hterm]
    rfl
  cases hwalk : walkBack env k s.logStore.startIdx (s.config :: older) with
  | none =>
    refine ⟨fun conf hconf => ?_, fun hread _ => ⟨.throw, ?_⟩⟩
    · rw [Server.embedded, hwalk] at hconf
      cases hconf
    · rw [takeSnapshot, bind_silent (look_run _), bind_run, hbad hread hwalk, Outcome.andThen_error]
      exact ⟨rfl, by decide, fun w hw => absurd hw List.not_mem_nil⟩
  | some conf =>
    have hrun : takeSnapshot env k s = (confOrSnapshot env k conf >>= fun conf => do
        let logTermToCompact ← termAt (k - 1)
        let newSnapshot : Snapshot := ⟨k - 1, logTermToCompact, 0, conf⟩
        change fun s => { s with snpPending := some newSnapshot }
        emit (.createSnapshot newSnapshot) : Action Unit) s := by
      rw [takeSnapshot, bind_silent (look_run _), bind_silent (hgood conf hwalk)]
    rw [hrun, Server.embedded, hwalk, Option.bind_some, bind_run, confOrSnapshot, bind_silent (look_run _)]
    by_cases hbelow : k < conf.logIdx ∧ 0 < conf.prevLogIdx ∧ conf.prevLogIdx < s.logStore.startIdx
    · rw [if_pos hbelow, if_pos hbelow]
      cases hsnp : env.lastSnapshot with
      | none =>
        exact ⟨fun _ hconf => (by cases hconf), fun _ _ => ⟨.exit, rfl, by decide, fun w hw => List.mem_singleton.mp hw⟩⟩
      | some snp =>
        refine ⟨fun conf hconf => ?_, fun _ hnone => (by cases hnone)⟩
        cases hconf
        dsimp only
        rw [pure_run, Outcome.andThen_ok, hend]
        exact ⟨term, _, rfl⟩
    · rw [if_neg hbelow, if_neg hbelow]
      by_cases hfirst : k < conf.logIdx ∧ conf.prevLogIdx = 0
      · rw [if_pos hfirst, if_pos hfirst]
        exact ⟨fun _ hconf => (by cases hconf), fun _ _ => ⟨.exit, rfl, by decide, fun w hw => List.mem_singleton.mp hw⟩⟩
      · rw [if_neg hfirst, if_neg hfirst]
        refine ⟨fun conf hconf => ?_, fun _ hnone => (by cases hnone)⟩
        cases hconf
        rw [pure_run, Outcome.andThen_ok, hend]
        exact ⟨term, _, rfl⟩

/-! ## When the configuration is the right one -/

/-- What has to be true of the configurations the walk may look at. -/
structure WalksRight (env : Env) (s : Server) (k : Nat) (confs : List ClusterConfig) : Prop where
  before : ∃ c ∈ confs, c.logIdx ≤ k - 1
  apart : ∀ c ∈ confs, c.logIdx ≠ k
  fresh : ∀ c ∈ confs, k < c.logIdx → s.logStore.startIdx ≤ c.prevLogIdx → env.bufPos c.prevLogIdx = 0
  older : ∀ c ∈ confs, k < c.logIdx → 0 < c.prevLogIdx → c.prevLogIdx < s.logStore.startIdx →
    ∀ snp, env.lastSnapshot = some snp → snp.lastLogIdx < c.logIdx

theorem embedded_stop (hle : c.logIdx ≤ k) : s.embedded env k (c :: older) = some c := by
  have hno : ¬ (k < c.logIdx ∧ s.logStore.startIdx ≤ c.prevLogIdx) := fun h => absurd h.1 (not_lt.mpr hle)
  rw [Server.embedded, walkBack, if_neg hno, Option.bind_some, if_neg fun h => absurd h.1 (not_lt.mpr hle),
    if_neg fun h => absurd h.1 (not_lt.mpr hle)]

theorem embedded_back (hgo : k < c.logIdx ∧ s.logStore.startIdx ≤ c.prevLogIdx) :
    s.embedded env k (c :: older) = if env.bufPos c.prevLogIdx = 0 then s.embedded env k older else none := by
  rw [Server.embedded, walkBack, if_pos hgo]
  split
  · rfl
  · rfl

theorem embedded_below (hlt : k < c.logIdx) (hprev : c.prevLogIdx < s.logStore.startIdx) :
    s.embedded env k (c :: older) = if 0 < c.prevLogIdx then env.lastSnapshot.map Snapshot.lastConfig else none := by
  have hno : ¬ (k < c.logIdx ∧ s.logStore.startIdx ≤ c.prevLogIdx) := fun h => absurd h.2 (not_le.mpr hprev)
  rw [Server.embedded, walkBack, if_neg hno, Option.bind_some]
  by_cases hpos : 0 < c.prevLogIdx
  · rw [if_pos ⟨hlt, hpos, hprev⟩, if_pos hpos]
  · have hzero : c.prevLogIdx = 0 := Nat.eq_zero_of_not_pos hpos
    rw [if_neg fun h => hpos h.2.1, if_pos ⟨hlt, hzero⟩, if_neg hpos]

/-- A configuration behind the index is passed by. -/
theorem walksRight_back (hlt : k < c.logIdx) (hge : s.logStore.startIdx ≤ c.prevLogIdx) :
    WalksRight env s k (c :: older) ↔ env.bufPos c.prevLogIdx = 0 ∧ WalksRight env s k older := by
  constructor
  · intro hright
    obtain ⟨x, hx, hxle⟩ := hright.before
    refine ⟨hright.fresh c List.mem_cons_self hlt hge, ⟨x, ?_, hxle⟩,
      fun x hx => hright.apart x (List.mem_cons_of_mem _ hx), fun x hx => hright.fresh x (List.mem_cons_of_mem _ hx),
      fun x hx => hright.older x (List.mem_cons_of_mem _ hx)⟩
    rcases List.mem_cons.mp hx with rfl | hx
    · omega
    · exact hx
  · rintro ⟨hzero, hright⟩
    obtain ⟨x, hx, hxle⟩ := hright.before
    refine ⟨⟨x, List.mem_cons_of_mem _ hx, hxle⟩, fun x hx => ?_, fun x hx => ?_, fun x hx => ?_⟩
    · rcases List.mem_cons.mp hx with rfl | hx
      · omega
      · exact hright.apart x hx
    · rcases List.mem_cons.mp hx with rfl | hx
      · exact fun _ _ => hzero
      · exact hright.fresh x hx
    · rcases List.mem_cons.mp hx with rfl | hx
      · exact fun _ _ hlt' => absurd hlt' (not_lt.mpr hge)
      · exact hright.older x hx

/-- The first that is not behind it is the one, unless it is at the index. -/
theorem walksRight_stop (hlink : Linked (c :: older)) (hle : c.logIdx ≤ k) :
    WalksRight env s k (c :: older) ↔ c.logIdx ≤ k - 1 ∧ c.logIdx ≠ k := by
  have hothers : ∀ x ∈ c :: older, x.logIdx ≤ c.logIdx := by
    intro x hx
    rcases List.mem_cons.mp hx with rfl | hx
    · exact le_rfl
    · exact (hlink.lt x hx).le
  constructor
  · intro hright
    have hne := hright.apart c List.mem_cons_self
    omega
  · rintro ⟨hle', hne⟩
    refine ⟨⟨c, List.mem_cons_self, hle'⟩, fun x hx => ?_, fun x hx hxlt => ?_, fun x hx hxlt => ?_⟩
    · have := hothers x hx
      omega
    · exact absurd (hothers x hx) (by omega)
    · exact absurd (hothers x hx) (by omega)

/-- One that has been compacted is found in a snapshot that ends before the next. -/
theorem walksRight_below {snp : Snapshot} (hlink : Linked (c :: c' :: older)) (hpos : 0 < c'.logIdx) (hlt : k < c.logIdx)
    (hprev : c.prevLogIdx < s.logStore.startIdx) (hlo : s.logStore.startIdx ≤ k - 1) (hsnp : env.lastSnapshot = some snp) :
    WalksRight env s k (c :: c' :: older) ↔ snp.lastLogIdx < c.logIdx := by
  have heq : c.prevLogIdx = c'.logIdx := hlink.1
  have hothers : ∀ x ∈ c' :: older, x.logIdx < k := by
    intro x hx
    rcases List.mem_cons.mp hx with rfl | hx
    · omega
    · have := hlink.tail.lt x hx
      omega
  constructor
  · exact fun hright => hright.older c List.mem_cons_self hlt (by omega) hprev snp hsnp
  · intro hbehind
    refine ⟨⟨c', by simp, by omega⟩, fun x hx => ?_, fun x hx hxlt hxge => ?_, fun x hx hxlt _ _ snp' hsnp' => ?_⟩
    · rcases List.mem_cons.mp hx with rfl | hx
      · omega
      · exact (hothers x hx).ne
    · rcases List.mem_cons.mp hx with rfl | hx
      · omega
      · exact absurd (hothers x hx) (by omega)
    · rcases List.mem_cons.mp hx with rfl | hx
      · cases hsnp.symm.trans hsnp'
        exact hbehind
      · exact absurd (hothers x hx) (by omega)

/-- The walk finds the configuration that was in force, of those it starts from. -/
theorem embedded_iff (h : ConfChain env s.logStore confs) (hlo : s.logStore.startIdx ≤ k - 1) :
    ∀ {older newer : List ClusterConfig} {c : ClusterConfig}, confs = newer ++ c :: older →
      ((∃ conf, s.embedded env k (c :: older) = some conf ∧ newestUpTo (k - 1) (c :: older) = some conf) ↔
        WalksRight env s k (c :: older))
  | older, newer, c, hsplit => by
    have hstart := h.start_pos
    have hlink : Linked (c :: older) := Linked.of_append (hsplit ▸ h.linked)
    have hmem : ∀ x ∈ c :: older, x ∈ confs := fun x hx => hsplit ▸ List.mem_append_right _ hx
    rcases Nat.lt_or_ge k c.logIdx with hlt | hle
    · have hskip : newestUpTo (k - 1) (c :: older) = newestUpTo (k - 1) older := by
        rw [newestUpTo_cons, if_neg (by omega)]
      cases older with
      | nil =>
        -- there is no predecessor
        have hfirst : c.prevLogIdx = 0 := hlink
        rw [embedded_below hlt (by omega), if_neg (by omega)]
        constructor
        · rintro ⟨_, hnone, -⟩
          cases hnone
        · intro hright
          obtain ⟨x, hx, hxle⟩ := hright.before
          cases List.mem_singleton.mp hx
          omega
      | cons c' rest =>
        have hc' : c' ∈ confs := hmem c' (List.mem_cons_of_mem _ List.mem_cons_self)
        have hpos := h.positive c' hc'
        have heq : c.prevLogIdx = c'.logIdx := hlink.1
        rcases Nat.lt_or_ge c.prevLogIdx s.logStore.startIdx with hprev | hge
        · obtain ⟨snp, hsnp, hreach, hlast⟩ := h.compacted c' hc' (heq ▸ hprev)
          have hneighbour := newestUpTo_neighbour (n := snp.lastLogIdx) (hsplit ▸ h.linked) (by omega)
          rw [← hsplit, hlast] at hneighbour
          have hnew : newestUpTo (k - 1) (c' :: rest) = some c' := by rw [newestUpTo_cons, if_pos (by omega)]
          rw [walksRight_below hlink hpos hlt hprev hlo hsnp, ← hneighbour, embedded_below hlt hprev, hskip,
            if_pos (by omega), hsnp, Option.map_some, hnew]
          constructor
          · rintro ⟨conf, hconf, hc⟩
            exact hconf.trans hc.symm
          · exact fun heq => ⟨c', heq, rfl⟩
        · have hsplit' : confs = (newer ++ [c]) ++ c' :: rest := by simp [hsplit]
          have hrec := embedded_iff h hlo hsplit'
          rw [walksRight_back hlt hge, embedded_back ⟨hlt, hge⟩, hskip, ← hrec]
          by_cases hzero : env.bufPos c.prevLogIdx = 0
          · simp [hzero]
          · simp [hzero]
    · rw [walksRight_stop hlink hle, embedded_stop hle, newestUpTo_cons]
      constructor
      · rintro ⟨conf, hconf, hnew⟩
        cases hconf
        have hlt : c.logIdx ≤ k - 1 := by
          split at hnew
          · assumption
          · exact absurd (hlink.lt c (List.mem_of_find?_eq_some hnew)) (lt_irrefl _)
        exact ⟨hlt, by omega⟩
      · rintro ⟨hlt, -⟩
        exact ⟨c, rfl, if_pos hlt⟩

/-! ## The snapshot -/

/-- When `snapshot_and_compact` comes upon the configuration in force: `before` there is
one; `current` the server has it or a newer one; `apart` none is at the committed index
itself; `fresh` what the walk reads has not been read; `older` the last snapshot ends
before the configuration that refers to it. -/
structure FindsInForce (env : Env) (s : Server) (k : Nat) (confs : List ClusterConfig) : Prop where
  before : ∃ c ∈ confs, c.logIdx ≤ k - 1
  current : ∀ c ∈ confs, c.logIdx ≤ k - 1 → c.logIdx ≤ s.config.logIdx
  apart : ∀ c ∈ confs, c.logIdx ≤ s.config.logIdx → c.logIdx ≠ k
  fresh : ∀ c ∈ confs, c.logIdx ≤ s.config.logIdx → k < c.logIdx → s.logStore.startIdx ≤ c.prevLogIdx →
    env.bufPos c.prevLogIdx = 0
  older : ∀ c ∈ confs, c.logIdx ≤ s.config.logIdx → k < c.logIdx → 0 < c.prevLogIdx →
    c.prevLogIdx < s.logStore.startIdx → ∀ snp, env.lastSnapshot = some snp → snp.lastLogIdx < c.logIdx

/-- The configurations the walk may look at are those that are not newer than `config_`. -/
theorem findsInForce_iff (hlink : Linked (newer ++ s.config :: older)) :
    FindsInForce env s k (newer ++ s.config :: older) ↔
      (∀ x ∈ newer, k - 1 < x.logIdx) ∧ WalksRight env s k (s.config :: older) := by
  have hnewer := hlink.lt_of_append
  have holder : ∀ x ∈ s.config :: older, x.logIdx ≤ s.config.logIdx := by
    intro x hx
    rcases List.mem_cons.mp hx with rfl | hx
    · exact le_rfl
    · exact (hlink.of_append.lt x hx).le
  have hthose : ∀ x ∈ newer ++ s.config :: older, x.logIdx ≤ s.config.logIdx → x ∈ s.config :: older := fun x hx hle =>
    (List.mem_append.mp hx).resolve_left fun hx => absurd (hnewer x hx) (not_lt.mpr hle)
  constructor
  · intro hfinds
    have hin : ∀ x ∈ s.config :: older, x ∈ newer ++ s.config :: older := fun x hx => List.mem_append_right _ hx
    obtain ⟨c, hc, hle⟩ := hfinds.before
    refine ⟨fun x hx => ?_, ⟨c, hthose c hc (hfinds.current c hc hle), hle⟩,
      fun x hx => hfinds.apart x (hin x hx) (holder x hx), fun x hx => hfinds.fresh x (hin x hx) (holder x hx),
      fun x hx => hfinds.older x (hin x hx) (holder x hx)⟩
    by_contra hnot
    have hcur := hfinds.current x (List.mem_append_left _ hx) (not_lt.mp hnot)
    exact absurd (hnewer x hx) (not_lt.mpr hcur)
  · rintro ⟨hlater, hright⟩
    obtain ⟨c, hc, hle⟩ := hright.before
    refine ⟨⟨c, List.mem_append_right _ hc, hle⟩, fun x hx hxle => ?_, fun x hx hcur => hright.apart x (hthose x hx hcur),
      fun x hx hcur => hright.fresh x (hthose x hx hcur), fun x hx hcur => hright.older x (hthose x hx hcur)⟩
    rcases List.mem_append.mp hx with hx | hx
    · exact absurd (hlater x hx) (not_lt.mpr hxle)
    · exact holder x hx

/-- What is embedded is the configuration in force of the whole chain. -/
theorem embedded_inForce_iff (h : ConfChain env s.logStore (newer ++ s.config :: older))
    (hlo : s.logStore.startIdx ≤ k - 1) :
    (∃ conf, s.embedded env k (s.config :: older) = some conf ∧
        newestUpTo (k - 1) (newer ++ s.config :: older) = some conf) ↔
      FindsInForce env s k (newer ++ s.config :: older) := by
  rw [findsInForce_iff h.linked, ← embedded_iff h hlo rfl]
  constructor
  · rintro ⟨conf, hconf, hnew⟩
    have hlater : ∀ x ∈ newer, k - 1 < x.logIdx := by
      rcases Nat.lt_or_ge k s.config.logIdx with hlt | hle
      · intro x hx
        have := h.linked.lt_of_append x hx
        omega
      · rw [embedded_stop hle] at hconf
        cases hconf
        exact h.linked.lt_of_newest hnew
    exact ⟨hlater, conf, hconf, newestUpTo_append hlater ▸ hnew⟩
  · rintro ⟨hlater, conf, hconf, hnew⟩
    exact ⟨conf, hconf, (newestUpTo_append hlater).trans hnew⟩

/-- The snapshot is taken with what is embedded. -/
theorem embedsInForce_iff (hd : Decides env s k) (h : ConfChain env s.logStore confs)
    (hlink : Linked (s.config :: older)) (hmem : ∀ x ∈ s.config :: older, x ∈ confs)
    (hlo : s.logStore.startIdx ≤ k) (hhi : k < s.logStore.nextSlot) :
    (∀ conf, s.embedded env k (s.config :: older) = some conf →
      (snapshotAndCompact env k s).res = .ok () ∧
        (EmbedsInForce confs (snapshotAndCompact env k s) ↔ newestUpTo (k - 1) confs = some conf)) ∧
    (ReadThrough env confs → s.embedded env k (s.config :: older) = none →
      ¬ EmbedsInForce confs (snapshotAndCompact env k s) ∧ (snapshotAndCompact env k s).res ≠ .error .hang) := by
  have hstart := hd.start_lt hlo
  have hrun : s.logStore.startIdx ≤ k - 1 ∧ k - 1 < s.logStore.nextSlot := by omega
  let t : Server := { s with snpInProgress := true }
  obtain ⟨hgood, hbad⟩ := takeSnapshot_run (s := t) (k := k) h hlink hmem hrun.1 hrun.2
  rw [snapshotAndCompact_decides hd]
  constructor
  · intro conf hconf
    obtain ⟨term, u, hu⟩ := hgood conf hconf
    have hres : ((takeSnapshot env k).rescue Stop.caught (change fun s => { s with snpInProgress := false })) t =
        takeSnapshot env k t := by
      rw [rescue, hu]
    rw [hres, hu]
    refine ⟨rfl, ?_⟩
    constructor
    · rintro ⟨-, snp, hout, hnew⟩
      cases hout
      exact hnew
    · exact fun hnew => ⟨rfl, _, rfl, hnew⟩
  · intro hread hnone
    obtain ⟨e, hres, hne, hout⟩ := hbad hread hnone
    rcases rescue_cases (takeSnapshot env k) (change fun s => { s with snpInProgress := false }) Stop.caught t
      with hrun | hrun
    · rw [hrun]
      refine ⟨fun hemb => ?_, fun hhang => hne (Except.error.inj (hres.symm.trans hhang))⟩
      cases hres.symm.trans hemb.1
    · rw [hrun]
      constructor
      · rintro ⟨-, snp, hsnp, -⟩
        dsimp only [change_run] at hsnp
        rw [List.append_nil] at hsnp
        cases hout (.createSnapshot snp) (hsnp ▸ List.mem_singleton_self _)
      · simp

/-- **A snapshot has the configuration in force at its last index** when the walk can
find it: it looks for one that is not behind the committed index, which the snapshot
stops short of, and it needs each buffer it reads to be unread.  The walk ends. -/
theorem snapshot_conf_in_force (h : ConfChain env s.logStore confs) (hconf : s.config ∈ confs) (hd : Decides env s k)
    (hlo : s.logStore.startIdx ≤ k) (hhi : k < s.logStore.nextSlot) :
    (FindsInForce env s k confs → EmbedsInForce confs (snapshotAndCompact env k s)) ∧
    (ReadThrough env confs → (EmbedsInForce confs (snapshotAndCompact env k s) ↔ FindsInForce env s k confs) ∧
      (snapshotAndCompact env k s).res ≠ .error .hang) := by
  obtain ⟨newer, older, rfl⟩ := List.append_of_mem hconf
  have hstart := hd.start_lt hlo
  obtain ⟨hsome, hnone⟩ := embedsInForce_iff hd h h.linked.of_append (fun x hx => List.mem_append_right _ hx) hlo hhi
  have hfinds : FindsInForce env s k (newer ++ s.config :: older) →
      EmbedsInForce (newer ++ s.config :: older) (snapshotAndCompact env k s) := by
    intro hfinds
    obtain ⟨conf, hemb, hnew⟩ := (embedded_inForce_iff h (by omega)).mpr hfinds
    exact (hsome conf hemb).2.mpr hnew
  refine ⟨hfinds, fun hread => ?_⟩
  cases hemb : s.embedded env k (s.config :: older) with
  | none =>
    obtain ⟨hnot, hends⟩ := hnone hread hemb
    exact ⟨⟨fun hin => absurd hin hnot, hfinds⟩, hends⟩
  | some conf =>
    obtain ⟨hok, hiff⟩ := hsome conf hemb
    refine ⟨⟨fun hin => (embedded_inForce_iff h (by omega)).mp ⟨conf, hemb, hiff.mp hin⟩, hfinds⟩, ?_⟩
    simp [hok]

/-- Server 1 with four entries in its log, of which the first and the last are
configurations. -/
def fourEntries : Server :=
  let first : ClusterConfig := ⟨1, 0, []⟩
  let last : ClusterConfig := ⟨4, 1, []⟩
  { start 1 { snapshotDistance := 1 } none {} {} with
    config := last
    logStore := ⟨1, [⟨1, first.serialize, .conf⟩, ⟨1, [], .appLog⟩, ⟨1, [], .appLog⟩, ⟨1, last.serialize, .conf⟩]⟩ }

theorem confChain_fourEntries : ConfChain {} fourEntries.logStore [⟨4, 1, []⟩, ⟨1, 0, []⟩] where
  start_pos := by decide
  linked := ⟨rfl, by decide, rfl⟩
  positive := by decide
  valid := by
    intro c hc
    simp only [List.mem_cons, List.not_mem_nil, or_false] at hc
    rcases hc with rfl | rfl
    · exact ⟨by decide, by decide, by decide, fun _ hsrv => absurd hsrv List.not_mem_nil⟩
    · exact ⟨by decide, by decide, by decide, fun _ hsrv => absurd hsrv List.not_mem_nil⟩
  stored := by
    intro c hc _
    simp only [List.mem_cons, List.not_mem_nil, or_false] at hc
    rcases hc with rfl | rfl
    · exact ⟨_, rfl, rfl, rfl⟩
    · exact ⟨_, rfl, rfl, rfl⟩
  complete := by
    intro idx e he hconf
    have hlt := entryAt?_lt he
    have hidx : idx < 5 := hlt
    match idx, hidx with
    | 0, _ => cases he
    | 1, _ => exact ⟨_, List.mem_cons_of_mem _ (List.mem_singleton_self _), rfl⟩
    | 2, _ =>
      cases he
      cases hconf
    | 3, _ =>
      cases he
      cases hconf
    | 4, _ => exact ⟨_, List.mem_cons_self, rfl⟩
  compacted := by
    intro c hc hlt
    simp only [List.mem_cons, List.not_mem_nil, or_false] at hc
    rcases hc with rfl | rfl
    · exact absurd hlt (by decide)
    · exact absurd hlt (by decide)

/-- With entry 3 committed the snapshot ends at entry 2, and the walk goes from entry 4 to
entry 1. -/
theorem snapshot_conf_in_force_third :
    EmbedsInForce [⟨4, 1, []⟩, ⟨1, 0, []⟩] (snapshotAndCompact {} 3 fourEntries) := by
  refine (snapshot_conf_in_force confChain_fourEntries List.mem_cons_self ⟨by decide, by decide, rfl, rfl⟩
    (by decide) (by decide)).1 ⟨by decide, by decide, by decide, fun _ _ _ _ _ => rfl, ?_⟩
  exact fun _ _ _ _ _ _ _ hsnp => (by cases hsnp)

/-- With entry 4 committed the snapshot ends at entry 3 and has the configuration of
entry 4. -/
theorem snapshot_conf_in_force_fails :
    ConfChain {} fourEntries.logStore [⟨4, 1, []⟩, ⟨1, 0, []⟩] ∧ fourEntries.config = ⟨4, 1, []⟩ ∧
      Decides {} fourEntries 4 ∧ fourEntries.logStore.startIdx ≤ 4 ∧ 4 < fourEntries.logStore.nextSlot ∧
      ¬ EmbedsInForce [⟨4, 1, []⟩, ⟨1, 0, []⟩] (snapshotAndCompact {} 4 fourEntries) := by
  refine ⟨confChain_fourEntries, rfl, ⟨by decide, by decide, rfl, rfl⟩, by decide, by decide, ?_⟩
  rintro ⟨-, snp, hout, hnew⟩
  have hsnp : snp = ⟨3, 1, 0, ⟨4, 1, []⟩⟩ := by
    have hrun : (snapshotAndCompact {} 4 fourEntries).out = [.createSnapshot ⟨3, 1, 0, ⟨4, 1, []⟩⟩] := by decide
    cases hrun.symm.trans hout
    rfl
  rw [hsnp] at hnew
  exact absurd hnew (by decide)

end Cornerstone
