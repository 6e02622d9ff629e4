import Cornerstone.SnapshotTransfer
import Cornerstone.PeerMoves

/-! # Going on with a lagging peer

When a request to a peer can be made up, which requests one call of
`request_append_entries` or the loop of `commit` sends, and from these what becomes of
an accepted response: the peer is asked at once if its log is shorter, or it has a
commit coming.  `handle_install_snapshot_resp` compares a byte offset where
`handle_append_entries_resp` compares a log index.
-/

namespace Cornerstone
open Handlers Handler Server

variable {s t : Server} {o : List Effect} {env : Env} {pid : Int} {p : Peer}

/-! ## When a request can be made up -/

/-- The leader knows the term of the entry before those it would send. -/
def Server.KnowsTerm (env : Env) (s : Server) (n : Nat) : Prop :=
  n = 0 ∨ s.logStore.startIdx ≤ n ∨ ∃ snp, env.lastSnapshot = some snp ∧ n = snp.lastLogIdx

/-- `create_append_entries_req` makes up a request for a peer: its next index is within the
log, and where the log is compacted there is a snapshot with a block to send, or else the
entries are stored and follow one whose term is known. -/
def Server.CanAsk (env : Env) (s : Server) (p : Peer) : Prop :=
  s.nextOf p - 1 < s.logStore.nextSlot ∧
    if 0 < s.nextOf p - 1 ∧ s.nextOf p - 1 < s.logStore.startIdx - 1 then
      ∃ ctx, p.picks env (s.nextOf p - 1) = some ctx ∧ BlockReady env s ctx
    else s.KnowsTerm env (s.nextOf p - 1) ∧
      ¬ (s.nextOf p - 1 + 1 < s.logStore.nextSlot ∧ s.nextOf p - 1 + 1 < s.logStore.startIdx)

/-- It looks at the log, the parameters, the next index of the peer and the snapshot that
is under way to it. -/
theorem canAsk_congr {q : Peer} (hlog : t.logStore = s.logStore) (hparams : t.params = s.params)
    (hnext : q.nextLogIdx = p.nextLogIdx) (hctx : q.snpSyncCtx = p.snpSyncCtx) :
    t.CanAsk env q ↔ s.CanAsk env p := by
  have hof : t.nextOf q = s.nextOf p := by rw [Server.nextOf, Server.nextOf, hlog, hnext]
  have hpicks : ∀ n, q.picks env n = p.picks env n := fun n => by rw [Peer.picks, Peer.picks, hctx]
  have hready : ∀ ctx, BlockReady env t ctx ↔ BlockReady env s ctx :=
    fun ctx => ⟨fun h => h.congr hparams.symm, fun h => h.congr hparams⟩
  unfold Server.CanAsk Server.KnowsTerm
  simp only [hof, hlog, hpicks, hready]

theorem termForLog_known {n : Nat} (hlt : n < s.logStore.nextSlot) (h : s.KnowsTerm env n) :
    ∃ term, termForLog env n s = ⟨.ok term, s, []⟩ := by
  by_cases h0 : n = 0
  · exact ⟨0, by simp [termForLog, h0]⟩
  by_cases hge : s.logStore.startIdx ≤ n
  · have hin : n - s.logStore.startIdx < s.logStore.entries.length := by
      rw [LogStore.nextSlot] at hlt
      omega
    refine ⟨(s.logStore.entries.get ⟨_, hin⟩).term, ?_⟩
    simp [termForLog, h0, hge, termAt, LogStore.termAt?, LogStore.entryAt?, Nat.not_lt.mpr hge, hin]
  · obtain ⟨snp, hsnp, rfl⟩ := (h.resolve_left h0).resolve_left hge
    exact ⟨snp.lastLogTerm, by simp [termForLog, h0, hge, hsnp]⟩

theorem termForLog_unknown {n : Nat} (h : ¬ s.KnowsTerm env n) : ∃ e, (termForLog env n s).res = .error e := by
  obtain ⟨h0, hrest⟩ := not_or.mp h
  obtain ⟨hge, hsnp⟩ := not_or.mp hrest
  cases hlast : env.lastSnapshot with
  | none => exact ⟨.exit, by simp [termForLog, h0, hge, hlast, systemExitAndExit]⟩
  | some snp =>
    have hne : n ≠ snp.lastLogIdx := fun heq => hsnp ⟨snp, hlast, heq⟩
    exact ⟨.exit, by simp [termForLog, h0, hge, hlast, hne, systemExitAndExit]⟩

/-- **`create_append_entries_req`** makes up a request exactly then. -/
theorem createAppendEntriesReq_ok_iff (hp : s.findPeer pid = some p) :
    (∃ req, (createAppendEntriesReq env pid s).res = .ok req) ↔ s.CanAsk env p := by
  set q : Peer := if p.nextLogIdx = 0 then { p with nextLogIdx := s.logStore.nextSlot } else p with hq
  have hloc : (s.located pid).peerAt? (.peer pid) = some q :=
    findPeer_updatePeer (s := s) (fun q => by split <;> rfl) hp
  have hnext : q.nextLogIdx = s.nextOf p := by
    rw [hq, Server.nextOf]
    split <;> rfl
  have hctx : q.snpSyncCtx = p.snpSyncCtx := by
    rw [hq]
    split <;> rfl
  have hpicks : ∀ n, q.picks env n = p.picks env n := fun n => by rw [Peer.picks, Peer.picks, hctx]
  rw [createAppendEntriesReq, bind_silent (look_run _), bind_silent (change_located _),
    bind_silent (derefPeer_run hloc), hnext, Server.CanAsk]
  by_cases hlow : s.nextOf p - 1 ≥ s.logStore.nextSlot
  · rw [if_pos hlow]
    constructor
    · rintro ⟨req, h⟩
      simp [systemExitAndExit] at h
    · exact fun h => absurd h.1 (not_lt.mpr hlow)
  rw [if_neg hlow]
  have hin : s.nextOf p - 1 < s.logStore.nextSlot := not_le.mp hlow
  by_cases hbelow : 0 < s.nextOf p - 1 ∧ s.nextOf p - 1 < s.logStore.startIdx - 1
  · rw [if_pos hbelow, if_pos hbelow]
    constructor
    · rintro ⟨req, hres⟩
      refine ⟨hin, ?_⟩
      by_contra hno
      have hnone : ¬ ∃ ctx, q.picks env (s.nextOf p - 1) = some ctx ∧ BlockReady env (s.located pid) ctx := by
        rintro ⟨ctx, hctx, hready⟩
        exact hno ⟨ctx, (hpicks _).symm.trans hctx, hready.congr (s := s.located pid) (t := s) rfl⟩
      obtain ⟨e, _, _, he, -⟩ := @createSyncSnapshotReq_fails _ env _ q (s.nextOf p - 1) s.state.term
        s.quickCommitIdx hloc hnone
      rw [he] at hres
      cases hres
    · rintro ⟨-, ctx, hctx, hready⟩
      rw [createSyncSnapshotReq_run hloc ((hpicks _).trans hctx) (hready.congr (t := s.located pid) rfl)]
      exact ⟨_, rfl⟩
  · rw [if_neg hbelow, if_neg hbelow]
    have hknows : (s.located pid).KnowsTerm env (s.nextOf p - 1) ↔ s.KnowsTerm env (s.nextOf p - 1) := Iff.rfl
    by_cases hk : s.KnowsTerm env (s.nextOf p - 1)
    · obtain ⟨term, hterm⟩ := termForLog_known (s := s.located pid) hin (hknows.mpr hk)
      rw [bind_silent hterm]
      by_cases hgap : s.nextOf p - 1 + 1 < s.logStore.nextSlot ∧ s.nextOf p - 1 + 1 < s.logStore.startIdx
      · rw [if_pos hgap]
        constructor
        · rintro ⟨req, h⟩
          cases h
        · exact fun h => absurd hgap h.2.2
      · rw [if_neg hgap]
        exact ⟨fun _ => ⟨hin, hk, hgap⟩, fun _ => ⟨_, rfl⟩⟩
    · obtain ⟨e, hterm⟩ := termForLog_unknown (mt hknows.mp hk)
      constructor
      · rintro ⟨req, h⟩
        rw [bind_run, Outcome.andThen, hterm] at h
        cases h
      · exact fun h => absurd h.2.1 hk

/-! ## One call for one peer -/

/-- A request that replicates, to this peer. -/
def Effect.asks (pid : Int) : Effect → Bool
  | .send req _ => req.dst = pid && req.type.replicates
  | _ => false

/-- A peer is asked. -/
def Asked (pid : Int) (o : List Effect) : Prop := ∃ e ∈ o, e.asks pid = true

theorem not_asked_nil : ¬ Asked pid [] := fun ⟨_, he, _⟩ => absurd he List.not_mem_nil

theorem asked_append {o o' : List Effect} : Asked pid (o ++ o') ↔ Asked pid o ∨ Asked pid o' := by
  simp only [Asked, List.mem_append]
  constructor
  · rintro ⟨e, he | he, hasks⟩
    · exact .inl ⟨e, he, hasks⟩
    · exact .inr ⟨e, he, hasks⟩
  · rintro (⟨e, he, hasks⟩ | ⟨e, he, hasks⟩)
    · exact ⟨e, .inl he, hasks⟩
    · exact ⟨e, .inr he, hasks⟩

theorem not_asked_of_idle (h : ∀ e ∈ o, e.idle = true) : ¬ Asked pid o := by
  rintro ⟨e, he, hasks⟩
  have hidle := h e he
  cases e with
  | send req memory =>
    simp only [Effect.asks, Bool.and_eq_true] at hasks
    simp [Effect.idle, hasks.2] at hidle
  | _ => cases hasks

/-- The law of looking after one peer. -/
structure Minds (pid : Int) (s : Server) (o : List Effect) (t : Server) : Prop where
  others : ∀ q, q ≠ pid → t.findPeer q = s.findPeer q
  log : t.logStore = s.logStore
  params : t.params = s.params
  out : ∀ q, q ≠ pid → ¬ Asked q o

theorem minds_law (pid : Int) : Law (Minds pid) where
  refl _ := ⟨fun _ _ => rfl, rfl, rfl, fun _ _ => not_asked_nil⟩
  trans := by
    intro s t u o o' h h'
    refine ⟨fun q hq => (h'.others q hq).trans (h.others q hq), h'.log.trans h.log, h'.params.trans h.params,
      fun q hq hasked => ?_⟩
    exact (asked_append.mp hasked).elim (h.out q hq) (h'.out q hq)

theorem minds_updatePeer {f : Peer → Peer} (hf : ∀ p, (f p).id = p.id) (pid : Int) (s : Server) :
    Minds pid s [] (s.updatePeer pid f) :=
  ⟨fun _ hq => findPeer_updatePeer_ne hf hq, rfl, rfl, fun _ _ => not_asked_nil⟩

theorem minds_exits (pid : Int) : Exits (Minds pid) := fun _ _ =>
  ⟨fun _ _ => rfl, rfl, rfl, fun _ _ => not_asked_of_idle (by simp [Effect.idle])⟩

theorem minds_createSyncSnapshotReq (env : Env) (pid : Int) (n t c : Nat) :
    Obeys (Minds pid) s (createSyncSnapshotReq env (.peer pid) n t c) := by
  have hlaw := minds_law pid
  have hexit : ∀ {u : Server} {α : Type} (code : Int), Obeys (Minds pid) u (systemExitAndExit code : Action α) :=
    fun code => reads_exit (minds_exits pid) code
  refine .bind hlaw (.bind hlaw (reads_derefPeer hlaw _) fun p _ => ?_) fun ctx _ =>
    .bind hlaw (reads_derefPeer hlaw _) fun p _ => .look_bind (.ite (fun _ => .halt hlaw _) fun _ =>
      .ite (fun _ => hexit _) fun _ => .ite (fun _ => .halt hlaw _) fun _ => .pure hlaw _)
  split
  · exact .pure hlaw _
  · exact hexit _
  · refine .ite (fun _ => hexit _) fun _ => .ite (fun _ => hexit _) fun _ => ?_
    exact .change_bind hlaw (minds_updatePeer (f := (·.setSnapshotInSync _)) (fun _ => rfl) pid _) (.pure hlaw _)

theorem minds_createAppendEntriesReq (env : Env) (pid : Int) :
    Obeys (Minds pid) s (createAppendEntriesReq env pid) := by
  have hlaw := minds_law pid
  have hexit : ∀ {u : Server} {α : Type} (code : Int), Obeys (Minds pid) u (systemExitAndExit code : Action α) :=
    fun code => reads_exit (minds_exits pid) code
  refine .look_bind (.change_bind hlaw (minds_updatePeer (fun p => ?_) pid s) ?_)
  · split <;> rfl
  refine .bind hlaw (reads_derefPeer hlaw _) fun p _ => .ite (fun _ => hexit _) fun _ =>
    .ite (fun _ => minds_createSyncSnapshotReq env _ _ _ _) fun _ => ?_
  exact .bind hlaw (reads_termForLog hlaw (minds_exits pid) env _) fun t _ =>
    .ite (fun _ => .halt hlaw _) fun _ => .pure hlaw _

theorem minds_requestAppendEntriesTo (env : Env) (pid : Int) :
    Obeys (Minds pid) s (requestAppendEntriesTo env pid) := by
  have hlaw := minds_law pid
  refine .look_bind ?_
  split
  · exact .pure hlaw _
  · refine .ite (fun _ => .pure hlaw _) fun _ => .change_bind hlaw
      (minds_updatePeer (f := fun p => { p with busy := true }) (fun _ => rfl) pid s) ?_
    refine .bind hlaw (minds_createAppendEntriesReq env pid) fun req hreq => .bind hlaw ?_ fun _ _ => .pure hlaw _
    have hdst := (createAppendEntriesReq_tells env pid req hreq).1
    refine ⟨fun _ _ => rfl, rfl, rfl, fun q hq hasked => ?_⟩
    obtain ⟨e, he, hasks⟩ := hasked
    cases List.mem_singleton.mp he
    simp only [Effect.asks, Bool.and_eq_true, decide_eq_true_eq] at hasks
    exact hq (hasks.1.symm.trans hdst)

theorem canAsk_makeBusy : (s.makeBusy pid).CanAsk env { p with busy := true } ↔ s.CanAsk env p :=
  canAsk_congr rfl rfl rfl rfl

/-- A free peer is asked and found busy, if the request can be made up. -/
theorem requestAppendEntriesTo_asks (hp : s.findPeer pid = some p) (hfree : p.busy = false)
    (h : s.CanAsk env p) : (requestAppendEntriesTo env pid s).res = .ok true ∧
      Asked pid (requestAppendEntriesTo env pid s).out ∧
      (requestAppendEntriesTo env pid s).state.busyWith pid = true := by
  have hbusy : (s.makeBusy pid).findPeer pid = some { p with busy := true } := findPeer_makeBusy hp
  obtain ⟨req, hreq⟩ := (createAppendEntriesReq_ok_iff hbusy).mpr (canAsk_makeBusy.mpr h)
  obtain ⟨hdst, -, htype⟩ := createAppendEntriesReq_tells env pid req hreq
  have htunes : Tunes (s.makeBusy pid) _ _ := tunes_createAppendEntriesReq env pid
  rw [requestAppendEntriesTo_idle hp hfree, bind_run, Outcome.andThen, hreq]
  refine ⟨rfl, asked_append.mpr (.inr ⟨_, List.mem_cons_self, ?_⟩), ?_⟩
  · simp [Effect.asks, hdst, MsgType.replicates, htype]
  · have hsame : ((createAppendEntriesReq env pid (s.makeBusy pid)).state).busyWith pid =
        (s.makeBusy pid).busyWith pid := busyWith_of_flags htunes.flags pid
    refine hsame.trans ?_
    rw [Server.busyWith, hbusy]
    rfl

/-- If it cannot, nothing is sent. -/
theorem requestAppendEntriesTo_fails (hp : s.findPeer pid = some p) (hfree : p.busy = false)
    (h : ¬ s.CanAsk env p) : (∃ e, (requestAppendEntriesTo env pid s).res = .error e) ∧
      ¬ Asked pid (requestAppendEntriesTo env pid s).out := by
  have hbusy : (s.makeBusy pid).findPeer pid = some { p with busy := true } := findPeer_makeBusy hp
  have hidle : Idles (s.makeBusy pid) _ _ := idles_createAppendEntriesReq env pid
  cases hres : (createAppendEntriesReq env pid (s.makeBusy pid)).res with
  | ok req =>
    exact absurd (canAsk_makeBusy.mp ((createAppendEntriesReq_ok_iff hbusy).mp ⟨req, hres⟩)) h
  | error e =>
    rw [requestAppendEntriesTo_idle hp hfree, bind_run, Outcome.andThen, hres]
    exact ⟨⟨e, rfl⟩, not_asked_of_idle hidle.out⟩

/-! ## The loop of `commit` -/

/-- A peer that is free can be asked. -/
def Server.Askable (env : Env) (s : Server) (q : Int) : Prop :=
  ∀ p, s.findPeer q = some p → p.busy = false → s.CanAsk env p

theorem minds_notifyPeer (env : Env) (pid : Int) : Obeys (Minds pid) s (notifyPeer env pid) :=
  .bind (minds_law pid) (minds_requestAppendEntriesTo env pid) fun _ _ => .ite (fun _ => .pure (minds_law pid) _)
    fun _ => minds_updatePeer (f := fun p => { p with pendingCommit := true }) (fun _ => rfl) pid _

theorem notifyPeer_ok_iff : (notifyPeer env pid s).res = .ok () ↔ s.Askable env pid := by
  by_cases hskip : ∀ p, s.findPeer pid = some p → p.busy = true
  · rw [notifyPeer, bind_run, requestAppendEntriesTo_skips hskip]
    refine ⟨fun _ p hp hfree => ?_, fun _ => rfl⟩
    rw [hskip p hp] at hfree
    cases hfree
  · push Not at hskip
    obtain ⟨p, hp, hb⟩ := hskip
    have hfree := Bool.eq_false_iff.mpr hb
    have haskable : s.Askable env pid ↔ s.CanAsk env p := by
      refine ⟨fun h => h p hp hfree, fun h q hq _ => ?_⟩
      rw [hp] at hq
      cases hq
      exact h
    rw [haskable, notifyPeer, bind_run, Outcome.andThen]
    by_cases hcan : s.CanAsk env p
    · rw [(requestAppendEntriesTo_asks hp hfree hcan).1]
      exact ⟨fun _ => hcan, fun _ => rfl⟩
    · obtain ⟨⟨e, he⟩, -⟩ := requestAppendEntriesTo_fails hp hfree hcan
      rw [he]
      refine ⟨fun h => ?_, fun h => absurd h hcan⟩
      cases h

/-- After its round a peer is not free. -/
theorem notifyPeer_busy (h : (notifyPeer env pid s).res = .ok ()) {q : Peer}
    (hq : (notifyPeer env pid s).state.findPeer pid = some q) : q.busy = true := by
  by_cases hskip : ∀ p, s.findPeer pid = some p → p.busy = true
  · rw [notifyPeer, bind_run, requestAppendEntriesTo_skips hskip] at hq
    cases hp : s.findPeer pid with
    | none =>
      have hmem : pid ∉ s.peerIds := fun hmem => by
        have hsome := findPeer_isSome.mpr hmem
        rw [hp] at hsome
        cases hsome
      have hsame : (s.updatePeer pid fun p => { p with pendingCommit := true }).findPeer pid = some q := hq
      rw [Server.updatePeer_of_not_mem hmem, hp] at hsame
      cases hsame
    | some p =>
      have hset := findPeer_updatePeer (f := fun p => { p with pendingCommit := true }) (fun _ => rfl) hp
      cases hset.symm.trans hq
      exact hskip p hp
  · push Not at hskip
    obtain ⟨p, hp, hb⟩ := hskip
    have hfree := Bool.eq_false_iff.mpr hb
    have hcan := notifyPeer_ok_iff.mp h p hp hfree
    obtain ⟨hres, -, hbusy⟩ := requestAppendEntriesTo_asks hp hfree hcan
    rw [notifyPeer, bind_run, Outcome.andThen, hres] at hq
    have hq' : (requestAppendEntriesTo env pid s).state.findPeer pid = some q := hq
    rw [Server.busyWith, hq'] at hbusy
    exact hbusy

/-- A round that comes to its end leaves it to the other peers whether they can be asked. -/
theorem askable_notifyPeer (h : (notifyPeer env pid s).res = .ok ()) (q : Int) :
    (notifyPeer env pid s).state.Askable env q ↔ s.Askable env q := by
  have hminds : Minds pid s _ _ := minds_notifyPeer env pid
  by_cases hq : q = pid
  · subst hq
    refine ⟨fun _ => notifyPeer_ok_iff.mp h, fun _ p hp hfree => ?_⟩
    rw [notifyPeer_busy h hp] at hfree
    cases hfree
  · unfold Server.Askable
    rw [hminds.others q hq]
    exact forall_congr' fun p => imp_congr_right fun _ => imp_congr_right fun _ =>
      canAsk_congr hminds.log hminds.params rfl rfl

/-- The loop asks a free peer exactly if it can be asked, and so can the free ones before it. -/
theorem asked_notifyPeers_iff : ∀ {before after : List Int} {s : Server}, pid ∉ before →
    s.findPeer pid = some p → p.busy = false →
      (Asked pid (forEach (notifyPeer env) (before ++ pid :: after) s).out ↔
        (∀ q ∈ before, s.Askable env q) ∧ s.CanAsk env p)
  | [], after, s, _, hp, hfree => by
    rw [List.nil_append, forEach_cons]
    by_cases hcan : s.CanAsk env p
    · refine ⟨fun _ => ⟨fun _ hq => absurd hq List.not_mem_nil, hcan⟩, fun _ => ?_⟩
      obtain ⟨hres, hasked, -⟩ := requestAppendEntriesTo_asks hp hfree hcan
      have hround : notifyPeer env pid s = ⟨.ok (), (requestAppendEntriesTo env pid s).state,
          (requestAppendEntriesTo env pid s).out ++ []⟩ := by
        rw [notifyPeer, bind_run, Outcome.andThen, hres]
        rfl
      rw [bind_run, hround, Outcome.andThen_ok, List.append_nil]
      exact asked_append.mpr (.inl hasked)
    · refine ⟨fun hasked => ?_, fun h => absurd h.2 hcan⟩
      obtain ⟨⟨e, he⟩, hno⟩ := requestAppendEntriesTo_fails hp hfree hcan
      have hround : notifyPeer env pid s = ⟨.error e, (requestAppendEntriesTo env pid s).state,
          (requestAppendEntriesTo env pid s).out⟩ := by
        rw [notifyPeer, bind_run, Outcome.andThen, he]
      rw [bind_run, hround, Outcome.andThen_error] at hasked
      exact absurd hasked hno
  | q :: before, after, s, hnot, hp, hfree => by
    obtain ⟨hne, hrest⟩ := not_or.mp (mt List.mem_cons.mpr hnot)
    have hminds : Minds q s _ _ := minds_notifyPeer env q
    rw [List.cons_append, forEach_cons, List.forall_mem_cons]
    rcases bind_cases (notifyPeer env q) (fun _ => forEach (notifyPeer env) (before ++ pid :: after)) s with
      ⟨e, he, hstop⟩ | ⟨a, hres, hgo⟩
    · rw [hstop]
      refine ⟨fun hasked => absurd hasked (hminds.out pid hne), fun h => ?_⟩
      rw [notifyPeer_ok_iff.mpr h.1.1] at he
      cases he
    · rw [hgo]
      have hcan : (notifyPeer env q s).state.CanAsk env p ↔ s.CanAsk env p :=
        canAsk_congr hminds.log hminds.params rfl rfl
      rw [asked_append, asked_notifyPeers_iff hrest ((hminds.others pid hne).trans hp) hfree, hcan]
      simp only [askable_notifyPeer hres]
      constructor
      · rintro (hasked | ⟨hall, hcan⟩)
        · exact absurd hasked (hminds.out pid hne)
        · exact ⟨⟨notifyPeer_ok_iff.mp hres, hall⟩, hcan⟩
      · rintro ⟨⟨-, hall⟩, hcan⟩
        exact .inr ⟨hall, hcan⟩

/-! ## Accepted responses -/

theorem Tells.asked {n : Nat} (h : Tells pid n o) : Asked pid o := by
  obtain ⟨e, he, htells⟩ := h
  refine ⟨e, he, ?_⟩
  cases e with
  | send req memory =>
    simp only [Effect.tells, decide_eq_true_eq] at htells
    simp [Effect.asks, htells.1, MsgType.replicates, htells.2.2]
  | _ => cases htells

/-- Going on with a free peer asks it if it can be asked. -/
theorem asked_continueWith {need : Bool} (hr : s.role = .leader) (hp : s.findPeer pid = some p)
    (hfree : p.busy = false) :
    Asked pid (continueWith env pid need s).out ↔ need = true ∧ s.CanAsk env p := by
  cases need with
  | false =>
    have hrun : continueWith env pid false s = ⟨.ok (), s, []⟩ := by simp [continueWith]
    rw [hrun]
    simp [not_asked_nil]
  | true =>
    have hrun : continueWith env pid true s = (requestAppendEntriesTo env pid >>= fun _ => pure ()) s := by
      simp only [continueWith, bind_run, look_run, Outcome.andThen_ok, ite_run, hr, and_self, if_true,
        List.nil_append]
    rw [hrun, bind_run, Outcome.andThen]
    by_cases hcan : s.CanAsk env p
    · obtain ⟨hres, hasked, -⟩ := requestAppendEntriesTo_asks hp hfree hcan
      rw [hres]
      exact ⟨fun _ => ⟨rfl, hcan⟩, fun _ => asked_append.mpr (.inl hasked)⟩
    · obtain ⟨⟨e, he⟩, hno⟩ := requestAppendEntriesTo_fails hp hfree hcan
      rw [he]
      exact ⟨fun h => absurd h hno, fun h => absurd h.2 hcan⟩

/-- The peer has a reason to be asked: its log is shorter, or it has a commit coming. -/
def Server.Due (s : Server) (p : Peer) (nextIdx : Nat) : Prop :=
  nextIdx < s.logStore.nextSlot ∨ p.pendingCommit = true

/-- The peer an accepted response comes from is asked during the handler if it is due by
its new next index; if it is not, and the commit index stays, it is not asked. -/
def ServedAtOnce (s : Server) (p : Peer) (nextIdx : Nat) (r : Outcome Server Effect Stop Unit) : Prop :=
  (s.Due p nextIdx → Asked p.id r.out) ∧
    (¬ s.Due p nextIdx → r.state.quickCommitIdx = s.quickCommitIdx → ¬ Asked p.id r.out)

/-- If the peer is due a request for it can be made up, and where the response moves the
commit index, so can those for the free peers the loop of `commit` comes to before it. -/
def AppendServes (env : Env) (s : Server) (p : Peer) (resp : RespMsg) : Prop :=
  s.Due p resp.nextIdx → s.CanAsk env { p with nextLogIdx := resp.nextIdx } ∧
    (s.quickCommitIdx < s.responseIdx resp →
      ∀ q ∈ s.peerIds.takeWhile (· ≠ resp.src), s.Askable env q)

/-- The peer is due by its new next index exactly if it is by the byte offset of the
response, and then a request for it can be made up. -/
def SnapshotServes (env : Env) (s : Server) (p : Peer) (ctx : SnapshotSyncCtx) (resp : RespMsg) : Prop :=
  s.Due p (ctx.snapshot.lastLogIdx + 1) ↔ s.Due p resp.nextIdx ∧
    s.CanAsk env { p with nextLogIdx := ctx.snapshot.lastLogIdx + 1, snpSyncCtx := none }

variable {resp : RespMsg} {ctx : SnapshotSyncCtx}

theorem findPeer_noteAnswer (hp : s.findPeer resp.src = some p) : (s.noteAnswer resp).findPeer resp.src =
    some { p with nextLogIdx := resp.nextIdx, matchedIdx := ulongSub resp.nextIdx 1 } :=
  findPeer_updatePeer (f := fun p => { p with nextLogIdx := resp.nextIdx, matchedIdx := ulongSub resp.nextIdx 1 })
    (fun _ => rfl) hp

theorem exists_append_of_mem {x : Int} {l : List Int} (h : x ∈ l) : ∃ after, l = l.takeWhile (· ≠ x) ++ x :: after := by
  induction l with
  | nil => cases h
  | cons y l ih =>
    by_cases hy : y = x
    · exact ⟨l, by simp [hy]⟩
    · obtain ⟨after, hafter⟩ := ih ((List.mem_cons.mp h).resolve_left (Ne.symm hy))
      refine ⟨after, ?_⟩
      rw [List.takeWhile_cons_of_pos (by simpa using hy), List.cons_append, ← hafter]

/-- The commit that an accepted response brings about asks its peer if that can be asked,
and so can the free ones before it. -/
theorem asked_commit_iff (env : Env) (hr : s.role = .leader) (hp : s.findPeer resp.src = some p)
    (hfree : p.busy = false) (hlt : s.quickCommitIdx < s.responseIdx resp) :
    Asked resp.src (commit env (s.responseIdx resp) (s.noteAnswer resp)).out ↔
      (∀ q ∈ s.peerIds.takeWhile (· ≠ resp.src), s.Askable env q) ∧
        s.CanAsk env { p with nextLogIdx := resp.nextIdx } := by
  have hmem : resp.src ∈ s.peerIds := findPeer_isSome.mp (by rw [hp]; rfl)
  have hids : (s.noteAnswer resp).peerIds = s.peerIds := peerIds_of_flags (noteAnswer_flags resp s)
  set u : Server := { s.noteAnswer resp with quickCommitIdx := s.responseIdx resp } with hu
  obtain ⟨after, hafter⟩ := exists_append_of_mem hmem
  have hbefore : resp.src ∉ s.peerIds.takeWhile (· ≠ resp.src) := by
    intro h
    simpa using List.all_eq_true.mp List.all_takeWhile resp.src h
  have hloop : commit env (s.responseIdx resp) (s.noteAnswer resp) = forEach (notifyPeer env) s.peerIds u := by
    rw [commit_advances (s := s.noteAnswer resp) env hr hlt, hids]
  have hsame : ∀ q ∈ s.peerIds.takeWhile (· ≠ resp.src), (u.Askable env q ↔ s.Askable env q) := by
    intro q hq
    have hne : q ≠ resp.src := fun heq => hbefore (heq ▸ hq)
    have hfind : u.findPeer q = s.findPeer q := findPeer_updatePeer_ne (fun _ => rfl) hne
    unfold Server.Askable
    rw [hfind]
    exact forall_congr' fun p => imp_congr_right fun _ => imp_congr_right fun _ => canAsk_congr rfl rfl rfl rfl
  have hu' : u.findPeer resp.src = some { p with
      nextLogIdx := resp.nextIdx, matchedIdx := ulongSub resp.nextIdx 1 } := findPeer_noteAnswer hp
  have hasked := @asked_notifyPeers_iff env resp.src _ _ after u hbefore hu' hfree
  rw [← hafter] at hasked
  rw [hloop, hasked]
  exact and_congr (forall₂_congr hsame) (canAsk_congr rfl rfl rfl rfl)

/-- What of `handle_append_entries_resp` the peer sees, as the commit index moves or stays. -/
theorem asked_appendResp (env : Env) (hr : s.role = .leader) (hp : s.findPeer resp.src = some p)
    (hfree : p.busy = false) (hacc : resp.accepted = true) :
    Asked resp.src (handleAppendEntriesResp env resp s).out ↔
      if s.quickCommitIdx < s.responseIdx resp then
        (∀ q ∈ s.peerIds.takeWhile (· ≠ resp.src), s.Askable env q) ∧
          s.CanAsk env { p with nextLogIdx := resp.nextIdx }
      else s.Due p resp.nextIdx ∧ s.CanAsk env { p with nextLogIdx := resp.nextIdx } := by
  have hmem : resp.src ∈ s.peerIds := findPeer_isSome.mp (by rw [hp]; rfl)
  have hnoted := findPeer_noteAnswer hp
  have hrun : handleAppendEntriesResp env resp s = (acceptedAppend env resp >>= continueWith env resp.src) s := by
    simp [handleAppendEntriesResp, hp, hacc]
  have happ := acceptedAppend_run (s := s) env hacc
  split
  · rename_i hlt
    rw [← asked_commit_iff env hr hp hfree hlt]
    rcases bind_cases (commit env (s.responseIdx resp)) (fun _ => stillLags resp) (s.noteAnswer resp) with
      ⟨e, -, hstop⟩ | ⟨a, hcommit, hlags⟩
    · rw [hrun, bind_run, happ, hstop, Outcome.andThen_error]
    · have hasked : Asked resp.src (commit env (s.responseIdx resp) (s.noteAnswer resp)).out := by
        have hids : (s.noteAnswer resp).peerIds = s.peerIds := peerIds_of_flags (noteAnswer_flags resp s)
        have hbusy : (s.noteAnswer resp).busyWith resp.src = false := by
          rw [Server.busyWith, hnoted]
          exact hfree
        have hn := commit_notifies (s := s.noteAnswer resp) env hr hlt hcommit
        exact (hn.free resp.src (hids ▸ hmem) (hids ▸ hmem) hbusy).asked
      refine ⟨fun _ => hasked, fun h => ?_⟩
      rw [hrun, bind_run, happ, hlags, stillLags_run, Outcome.andThen_ok, List.append_nil]
      exact asked_append.mpr (.inl h)
  · rename_i hge
    have hidle : commit env (s.responseIdx resp) (s.noteAnswer resp) = ⟨.ok (), s.noteAnswer resp, []⟩ :=
      commit_idle env (not_lt.mp hge)
    have hclear : ((s.noteAnswer resp).clearFlag resp.src).findPeer resp.src = some { p with
        nextLogIdx := resp.nextIdx, matchedIdx := ulongSub resp.nextIdx 1, pendingCommit := false } :=
      findPeer_updatePeer (f := fun p => { p with pendingCommit := false }) (fun _ => rfl) hnoted
    have hneed : (((s.noteAnswer resp).findPeer resp.src).any Peer.pendingCommit ||
        decide (resp.nextIdx < (s.noteAnswer resp).logStore.nextSlot)) = true ↔ s.Due p resp.nextIdx := by
      rw [hnoted, Option.any_some, Bool.or_eq_true, decide_eq_true_eq, Server.Due, or_comm]
      rfl
    rw [hrun, bind_run, happ, bind_silent hidle, stillLags_run, Outcome.andThen_ok, List.nil_append,
      asked_continueWith (s := (s.noteAnswer resp).clearFlag resp.src) hr hclear hfree, hneed]
    exact and_congr_right fun _ => canAsk_congr rfl rfl rfl rfl

theorem append_served_iff (env : Env) (hr : s.role = .leader) (hp : s.findPeer resp.src = some p)
    (hfree : p.busy = false) (hacc : resp.accepted = true) :
    ServedAtOnce s p resp.nextIdx (handleAppendEntriesResp env resp s) ↔ AppendServes env s p resp := by
  have hid := (findPeer_mem hp).2
  have hmem : resp.src ∈ s.peerIds := findPeer_isSome.mp (by rw [hp]; rfl)
  have hquick := (answers_handleAppendEntriesResp (sends_law.refl s) env resp).quick
  rw [if_pos ⟨hacc, hmem⟩] at hquick
  unfold ServedAtOnce AppendServes
  rw [hid, hquick, asked_appendResp env hr hp hfree hacc]
  by_cases hlt : s.quickCommitIdx < s.responseIdx resp
  · have hmoves : max s.quickCommitIdx (s.responseIdx resp) ≠ s.quickCommitIdx := by omega
    simp only [hmoves, false_imp_iff, implies_true, and_true, hlt, forall_const]
    exact imp_congr_right fun _ => and_comm
  · simp only [hlt, false_imp_iff, and_true]
    constructor
    · exact fun h hdue => (h.1 hdue).2
    · exact fun h => ⟨fun hdue => ⟨hdue, h hdue⟩, fun hnot _ hasked => hnot hasked.1⟩

/-- The last response to an installed snapshot asks by its byte offset. -/
theorem asked_lastBlock (env : Env) (hr : s.role = .leader) (hp : s.findPeer resp.src = some p)
    (hfree : p.busy = false) (hacc : resp.accepted = true) (hctx : p.snpSyncCtx = some ctx)
    (hlast : ctx.snapshot.size ≤ resp.nextIdx) :
    Asked resp.src (handleInstallSnapshotResp env resp s).out ↔ s.Due p resp.nextIdx ∧
      s.CanAsk env { p with nextLogIdx := ctx.snapshot.lastLogIdx + 1, snpSyncCtx := none } := by
  have hid : ∀ p : Peer, (p.installed ctx).id = p.id := fun _ => rfl
  have hfind : (s.noteSnapshot resp ctx).findPeer resp.src = some (p.installed ctx) := findPeer_updatePeer hid hp
  rw [lastBlock_run env hp hacc hctx hlast, asked_continueWith (s := s.noteSnapshot resp ctx) hr hfind hfree,
    Bool.or_eq_true, decide_eq_true_eq, Server.Due, or_comm]
  exact and_congr_right fun _ => canAsk_congr rfl rfl rfl rfl

theorem lastBlock_served_iff (env : Env) (hr : s.role = .leader) (hp : s.findPeer resp.src = some p)
    (hfree : p.busy = false) (hacc : resp.accepted = true) (hctx : p.snpSyncCtx = some ctx)
    (hlast : ctx.snapshot.size ≤ resp.nextIdx) :
    ServedAtOnce s p (ctx.snapshot.lastLogIdx + 1) (handleInstallSnapshotResp env resp s) ↔
      SnapshotServes env s p ctx resp := by
  have hid := (findPeer_mem hp).2
  have hquick : (handleInstallSnapshotResp env resp s).state.quickCommitIdx = s.quickCommitIdx := by
    have hsends := sends_continueWith (s := s.noteSnapshot resp ctx) env resp.src
      (p.pendingCommit || resp.nextIdx < s.logStore.nextSlot)
    rw [lastBlock_run env hp hacc hctx hlast]
    exact hsends.quick_eq
  unfold ServedAtOnce SnapshotServes
  rw [hid, hquick, asked_lastBlock env hr hp hfree hacc hctx hlast]
  constructor
  · exact fun h => ⟨h.1, fun hasked => by_contra fun hnot => h.2 hnot rfl hasked⟩
  · exact fun h => ⟨h.mp, fun hnot _ hasked => hnot (h.mpr hasked)⟩

/-- **When a lagging peer is served at once.**  After an accepted append_entries response
whenever the requests that are due can be made up; after the last response to a snapshot
when, besides, the byte offset tells what the next index would. -/
theorem served_at_once_iff (env : Env) (hr : s.role = .leader) (hp : s.findPeer resp.src = some p)
    (hfree : p.busy = false) (hacc : resp.accepted = true) :
    (ServedAtOnce s p resp.nextIdx (handleAppendEntriesResp env resp s) ↔ AppendServes env s p resp) ∧
      ∀ ctx, p.snpSyncCtx = some ctx → ctx.snapshot.size ≤ resp.nextIdx →
        (ServedAtOnce s p (ctx.snapshot.lastLogIdx + 1) (handleInstallSnapshotResp env resp s) ↔
          SnapshotServes env s p ctx resp) :=
  ⟨append_served_iff env hr hp hfree hacc, fun _ hctx hlast => lastBlock_served_iff env hr hp hfree hacc hctx hlast⟩

/-- A peer that is sent a snapshot of this size up to index 5. -/
def peerSyncing (size : Nat) : Peer :=
  { peerNext 6 with snpSyncCtx := some ⟨⟨5, 3, size, {}⟩, 0⟩ }

/-- Its leader, whose log goes from 6 to 8. -/
def syncingLeader (size : Nat) : Server := { compactedLeader 6 with peers := [peerSyncing size] }

/-- The response to the last block. -/
def lastBlockResp (size : Nat) : RespMsg :=
  { term := 0, type := .installSnapshotResponse, src := 2, dst := 1, nextIdx := size, accepted := true }

/-- A snapshot of ten bytes is longer than the log: the peer is not served. -/
theorem served_at_once_fails : ¬ ∀ (env : Env) (s : Server) (p : Peer) (resp : RespMsg), s.role = .leader →
    s.findPeer resp.src = some p → p.busy = false → resp.accepted = true →
      ServedAtOnce s p resp.nextIdx (handleAppendEntriesResp env resp s) ∧
        ∀ ctx, p.snpSyncCtx = some ctx → ctx.snapshot.size ≤ resp.nextIdx →
          ServedAtOnce s p (ctx.snapshot.lastLogIdx + 1) (handleInstallSnapshotResp env resp s) := by
  intro hall
  have hserved := (hall {} (syncingLeader 10) (peerSyncing 10) (lastBlockResp 10) rfl rfl rfl rfl).2 _ rfl (by decide)
  have hasked := hserved.1 (.inl (by decide))
  have hnone : (handleInstallSnapshotResp {} (lastBlockResp 10) (syncingLeader 10)).out = [] := by decide +kernel
  rw [hnone] at hasked
  exact not_asked_nil hasked

/-- One of three bytes is shorter, and it is. -/
theorem served_at_once_iff_three :
    ServedAtOnce (syncingLeader 3) (peerSyncing 3) 6
        (handleInstallSnapshotResp { lastSnapshot := some ⟨5, 3, 3, {}⟩ } (lastBlockResp 3) (syncingLeader 3)) ↔
      SnapshotServes { lastSnapshot := some ⟨5, 3, 3, {}⟩ } (syncingLeader 3) (peerSyncing 3) ⟨⟨5, 3, 3, {}⟩, 0⟩
        (lastBlockResp 3) :=
  have hacc : (lastBlockResp 3).accepted = true := rfl
  (served_at_once_iff { lastSnapshot := some ⟨5, 3, 3, {}⟩ } (s := syncingLeader 3) (p := peerSyncing 3) rfl rfl rfl
    hacc).2 _ rfl (by decide)

end Cornerstone
