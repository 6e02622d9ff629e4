import Cornerstone.Segments

/-! # Every handler goes through segments

One lemma for each function of `raft_server` that does more than sending, and
from them `handle_path` for every event.
-/

namespace Cornerstone
open Handlers Handler Server

/-- The law of going through segments. -/
abbrev Walk (s₀ : Server) (ev : Event) : Server → List Effect → Server → Prop :=
  Path (Segment s₀ ev)

variable {s₀ s t : Server} {ev : Event} {o : List Effect} {α : Type}

theorem walk_law : Law (Walk s₀ ev) := Path.law

/-- A segment without effects in front. -/
theorem walk_step {u : Server} (h : Segment s₀ ev s [] t) (p : Walk s₀ ev t o u) :
    Walk s₀ ev s o u := .step h p

/-! ## Bookkeeping -/

theorem Bookkeeping.refl (s : Server) : Bookkeeping s s := ⟨rfl, id⟩

theorem Bookkeeping.id_eq (h : Bookkeeping s t) : t.id = s.id := by
  rw [h.rest]

theorem Bookkeeping.trans {u : Server} (h : Bookkeeping s t) (h' : Bookkeeping t u) :
    Bookkeeping s u := by
  refine ⟨?_, fun hx => h'.exits (h.exits hx)⟩
  have hu := h'.rest
  rw [h.rest] at hu
  exact hu

theorem RequestEffect.plain {q : Nat} {e : Effect} (h : RequestEffect s q e) :
    e.plain s.state := by
  cases h with
  | send h => simp [Effect.plain, h.type_ne]
  | sendExt req => simp [Effect.plain]
  | systemExit code => rfl

theorem Quiet.bookkeeping (h : Quiet s o t) : Bookkeeping s t := by
  refine ⟨?_, h.exits⟩
  have hrest := h.rest
  rw [hrest]

theorem walk_book (h : Bookkeeping s t) (ho : ∀ e ∈ o, e.plain s.state) : Walk s₀ ev s o t :=
  .single (.book h ho)

theorem Quiet.walk (h : Quiet s o t) : Walk s₀ ev s o t :=
  walk_book h.bookkeeping fun e he => (h.out e he).plain

theorem Sends.walk (h : Sends s o t) : Walk s₀ ev s o t := h.quiet.walk

/-- A change of fields that do not matter. -/
theorem walk_change {f : Server → Server} (h : Bookkeeping s (f s)) :
    Obeys (Walk s₀ ev) s (change f : Action Unit) :=
  walk_book h (by simp)

theorem walk_change_bind {f : Server → Server} {k : Unit → Action α} (h : Bookkeeping s (f s))
    (hk : Obeys (Walk s₀ ev) (f s) (k ())) : Obeys (Walk s₀ ev) s (change f >>= k) :=
  .change_bind walk_law (walk_book h (by simp)) hk

theorem walk_emit {e : Effect} (h : e.plain s.state) : Walk s₀ ev s [e] s :=
  walk_book (.refl s) (by simpa using h)

/-- An extended request may leave at any time. -/
theorem walk_sendExtReq (req : ReqMsg) : Obeys (Walk s₀ ev) s (sendExtReq req) :=
  .look_bind (walk_emit (by simp [Effect.plain]))

theorem walk_exit (code : Int) : Obeys (Walk s₀ ev) s (systemExitAndExit code : Action α) :=
  Sends.walk (sends_exit code)

theorem walk_becomeFollower : Obeys (Walk s₀ ev) s becomeFollower := by
  have h : Walk s₀ ev { s with role := .follower } [] (becomeFollower s).state :=
    walk_book ⟨rfl, id⟩ (by simp)
  exact .step (.stepDown s) h

theorem walk_updateTerm (term : Nat) : Obeys (Walk s₀ ev) s (updateTerm term) := by
  rcases Nat.lt_or_ge s.state.term term with h | h
  · unfold Obeys
    rw [updateTerm_of_lt h]
    exact .single (.newTerm h)
  · unfold Obeys
    rw [updateTerm_of_le h]
    exact .refl s

/-! ## Elections -/

/-- `save_state` right after the change it saves. -/
theorem walk_change_save {f : Server → Server} {k : Unit → Action α}
    (h : Walk s₀ ev s [.saveState (f s).state] (f s))
    (hk : Obeys (Walk s₀ ev) (f s) (k ())) :
    Obeys (Walk s₀ ev) s (change f >>= fun _ => saveState >>= k) :=
  show Walk s₀ ev s ([.saveState (f s).state] ++ (k () (f s)).out) (k () (f s)).state from
    walk_law.trans h hk

/-- Taking office. -/
theorem walk_becomeLeader (env : Env) (h : MayLead s₀ ev) (hc : s.config = s₀.config)
    (hl : s.logStore = s₀.logStore) (hf : s.configChanging = s₀.configChanging)
    (hs : s.state.commitIdx = s₀.state.commitIdx) :
    Obeys (Walk s₀ ev) s (becomeLeader env) := by
  have hreq : Walk s₀ ev s.elected _ _ := Quiet.walk (quiet_requestAppendEntries env)
  unfold Obeys
  rw [becomeLeader_run]
  refine walk_law.trans ?_ hreq
  by_cases hz : s.config.logIdx = 0
  · simp only [Server.elected, Server.electedEffects, if_pos hz]
    exact Path.step (Segment.lead h) (Path.single (Segment.leadConfig h rfl hz hc hl hf hs))
  · simp only [Server.elected, Server.electedEffects, if_neg hz]
    exact Path.single (Segment.lead h)

theorem Canvasses.walk (h : Canvasses s o t) (hv : s.state.votedFor = s.id) :
    Walk s₀ ev s o t := by
  refine walk_book ⟨?_, h.exits⟩ fun e he => ?_
  · have hrest := h.rest
    rw [hrest]
  · rcases h.out e he with ⟨req, rfl, hreq⟩ | ⟨code, rfl⟩
    · simp [Effect.plain, hreq.term, hreq.src, hv]
    · rfl

/-- The steps of a server that has been told to leave. -/
theorem walk_handleElectionTimeout (env : Env) :
    Obeys (Walk s .electionTimeout) s (handleElectionTimeout env) := by
  by_cases hdown : s.stepsToDown > 0
  · by_cases hz : s.stepsToDown - 1 = 0
    · cases hsrv : s.config.getServer s.id with
      | none =>
        refine .single (.quit (.inl rfl) (c := s.config) ⟨?_, ?_⟩ ?_ ?_)
        all_goals simp [handleElectionTimeout, systemExitAndExit, hdown, hz, hsrv, Effect.plain]
      | some srv =>
        refine .single (.quit (.inl rfl)
          (c := { s.config with servers := s.config.servers.erase srv }) ⟨?_, ?_⟩ ?_ ?_)
        all_goals simp [handleElectionTimeout, systemExitAndExit, hdown, hz, hsrv, Effect.plain]
    · refine walk_book ⟨?_, ?_⟩ ?_
      all_goals simp [handleElectionTimeout, hdown, hz]
  by_cases hcatch : s.catchingUp = true
  · simp only [Obeys, handleElectionTimeout, bind_run, look_run, Outcome.andThen_ok, ite_run,
      if_neg hdown, if_pos hcatch]
    exact .refl s
  by_cases hlead : s.role = .leader
  · simp only [Obeys, handleElectionTimeout, bind_run, look_run, Outcome.andThen_ok, ite_run,
      if_neg hdown, if_neg hcatch, if_pos hlead]
    exact walk_exit _
  · have hstand : s.Standing := ⟨hdown, by simpa using hcatch, hlead⟩
    have hcamp : Walk s .electionTimeout s s.campaignEffects s.campaign :=
      .single (.campaign rfl hlead)
    unfold Obeys
    rw [handleElectionTimeout_run env hstand]
    split
    · refine walk_law.trans hcamp (walk_step (.electionDone _) ?_)
      exact walk_becomeLeader (s := s.wonAlone) env (.inr ⟨rfl, hlead⟩) rfl rfl rfl rfl
    · exact walk_law.trans hcamp (Canvasses.walk (canvasses_requestVotes env _) rfl)

theorem walk_handleVotingResp (env : Env) (resp : RespMsg) (hb : Bookkeeping s₀ s)  :
    Obeys (Walk s₀ ev) s (handleVotingResp env resp) := by
  have hdone : s.electionCompleted = s₀.electionCompleted := by rw [hb.rest]
  have hc : s.config = s₀.config := by rw [hb.rest]
  have hl : s.logStore = s₀.logStore := by rw [hb.rest]
  have hf : s.configChanging = s₀.configChanging := by rw [hb.rest]
  have hs : s.state = s₀.state := by rw [hb.rest]
  cases he : s.electionCompleted with
  | true =>
    unfold Obeys
    rw [handleVotingResp_done env resp he]
    exact walk_book ⟨rfl, id⟩ (by simp)
  | false =>
    have hmay : MayLead s₀ ev := .inl (hdone ▸ he)
    have hcount : Walk s₀ ev s [] (s.counted resp.accepted) := by
      have hvote : Bookkeeping s
          (Server.addVote { s with votesResponded := s.votesResponded + 1 } resp.accepted) := by
        cases resp.accepted <;> exact ⟨rfl, id⟩
      refine walk_step (.book hvote (by simp)) ?_
      rw [Server.counted, Server.closeElection]
      split
      · exact .single (.electionDone _)
      · exact .refl _
    have hrest := counted_rest (s := s) resp.accepted
    unfold Obeys
    rw [handleVotingResp_run env resp he]
    split
    · refine walk_law.trans hcount (walk_step (.electionDone _) ?_)
      refine walk_becomeLeader env hmay ?_ ?_ ?_ ?_
      · rw [hrest]
        exact hc
      · rw [hrest]
        exact hl
      · rw [hrest]
        exact hf
      · rw [hrest]
        exact congrArg SrvState.commitIdx hs
    · exact hcount

/-! ## append_entries requests -/

theorem walk_followLeader (b : Bool) : Obeys (Walk s₀ ev) s (followLeader b) :=
  .look_bind (.ite (fun _ => .ite (fun _ => walk_becomeFollower) fun _ =>
    .ite (fun _ => walk_exit _) fun _ => .pure walk_law _) fun _ => .pure walk_law _)

/-- What following a leader may change. -/
theorem followLeader_rest (b : Bool) : ∃ r p j x, (followLeader b s).state =
    { s with role := r, peers := p, srvToJoin := j, exited := x } := by
  simp only [followLeader, bind_run, look_run, Outcome.andThen_ok, ite_run]
  split
  · split
    · exact ⟨_, _, _, _, rfl⟩
    · split
      · exact ⟨_, _, _, _, rfl⟩
      · exact ⟨_, _, _, _, rfl⟩
  · exact ⟨_, _, _, _, rfl⟩

theorem appendLogOkay_ok (env : Env) (req : ReqMsg) :
    Returns s (appendLogOkay env req) fun b _ => b = true → LogOkay s.logStore req := by
  refine .look_bind (.ite (fun h0 => .pure fun _ => .inl h0) fun h0 => .ite (fun hlt => ?_)
    fun _ => .pure fun h => by cases h)
  refine .bind fun term hterm => .pure fun hb => .inr ⟨hlt, fun hge => ?_⟩
  have heq : req.lastLogTerm = term := by simpa using hb
  simp only [termForLog, termAt, bind_run, look_run, Outcome.andThen_ok, ite_run, if_neg h0,
    if_pos (show req.lastLogIdx ≥ s.logStore.startIdx from hge)] at hterm
  cases hat : s.logStore.termAt? req.lastLogIdx with
  | none =>
    rw [hat] at hterm
    cases hterm
  | some t =>
    rw [hat] at hterm
    cases hterm
    rw [heq]

theorem sends_appendLogOkay (env : Env) (req : ReqMsg) : Obeys Sends s (appendLogOkay env req) :=
  .look_bind (.ite (fun _ => .pure sends_law _) fun _ => .ite (fun _ =>
    .bind sends_law (reads_termForLog sends_law sends_exits env _) fun _ _ => .pure sends_law _) fun _ => .pure sends_law _)

theorem plain_writeEffects {m : SrvState} (l : LogStore) (idx : Nat) (stale fresh : List LogEntry) :
    ∀ e ∈ writeEffects l idx stale fresh, e.plain m := by
  intro e he
  obtain ⟨n, x, rfl | rfl⟩ := mem_writeEffects he
  · rfl
  · rfl

theorem walk_writeEntries {req : ReqMsg} (he : ev = .request req)
    (ht : req.type = .appendEntriesRequest) (h : req.term = s.state.term)
    (hle : s₀.state.term ≤ s.state.term) (hl : s.logStore = s₀.logStore) (hf : s.configChanging = s₀.configChanging)
    (hs : s.state.commitIdx = s₀.state.commitIdx) (hok : LogOkay s.logStore req) :
    Obeys (Walk s₀ ev) s (writeEntries req.lastLogIdx req.logEntries) := by
  rcases Nat.lt_or_ge (req.lastLogIdx + 1) s.logStore.startIdx with hlt | hge
  · have hbelow := writeEntries_below req.logEntries hlt
    unfold Obeys
    rw [hbelow.1, hbelow.2]
    exact .refl s
  · unfold Obeys
    rw [writeEntries_run req.logEntries hge]
    exact .single (.replicate he ht h hle hl hf hs hge hok (plain_writeEffects _ _ _ _))

theorem walk_handleAppendEntries (env : Env) {req : ReqMsg} (he : ev = .request req)
    (ht : req.type = .appendEntriesRequest) (hle : req.term ≤ s.state.term)
    (hle₀ : s₀.state.term ≤ s.state.term) (hl : s.logStore = s₀.logStore) (hf : s.configChanging = s₀.configChanging)
    (hs : s.state.commitIdx = s₀.state.commitIdx) :
    Obeys (Walk s₀ ev) s (handleAppendEntries env req) := by
  refine .look_bind (.bind walk_law (walk_followLeader _) fun _ _ => .look_bind ?_)
  obtain ⟨r, p, j, x, hu⟩ := followLeader_rest (s := s) (decide (req.term = s.state.term))
  rw [hu]
  refine .bind walk_law (Sends.walk (sends_appendLogOkay env req)) fun okay hokay => ?_
  have hsent := Sends.quiet (sends_appendLogOkay (s := { s with
    role := r, peers := p, srvToJoin := j, exited := x }) env req)
  refine .ite (fun _ => .pure walk_law _) fun hcond => ?_
  have hok : LogOkay s.logStore req := by
    have h := appendLogOkay_ok env req okay hokay
    exact h (by simpa using (not_or.mp hcond).2)
  have hterm : req.term = s.state.term := Nat.le_antisymm hle (Nat.not_lt.mp (not_or.mp hcond).1)
  refine .bind walk_law (walk_writeEntries he ht ?_ ?_ ?_ ?_ ?_ ?_) fun _ _ => ?_
  · rw [hsent.state_eq]
    exact hterm
  · rw [hsent.state_eq]
    exact hle₀
  · rw [hsent.logStore_eq]
    exact hl
  · rw [hsent.configChanging_eq]
    exact hf
  · rw [hsent.state_eq]
    exact hs
  · rw [hsent.logStore_eq]
    exact hok
  · refine walk_change_bind ⟨rfl, id⟩ ?_
    exact .bind walk_law (Quiet.walk (quiet_commit env _)) fun _ _ => .pure walk_law _

/-! ## Client requests and responses of peers -/

theorem walk_appendClientEntries {req : ReqMsg} (he : ev = .request req)
    (ht : req.type = .clientRequest) : ∀ {es : List LogEntry} {s : Server},
    (∀ e ∈ es, e ∈ req.logEntries) → s₀.role = .leader → s.role = .leader → s.state = s₀.state →
    s.configChanging = s₀.configChanging → Obeys (Walk s₀ ev) s (appendClientEntries es)
  | [], s, _, _, _, _, _ => .refl s
  | e :: es, s, hm, hr₀, hr, hs, hf => by
    have hslot : (s.logStore.append e).nextSlot - 1 = s.logStore.nextSlot := by
      rw [LogStore.append_nextSlot]
      rfl
    have hseg := Segment.client he ht hr hs hr₀ hf (hm e List.mem_cons_self)
    have htail := walk_appendClientEntries (s := { s with logStore := s.logStore.append e }) he ht
      (fun e' he' => hm e' (List.mem_cons_of_mem _ he')) hr₀ hr hs hf
    have hall := Path.step hseg htail
    simp only [Obeys, appendClientEntries, originate, bind_run, look_run, emit_run, change_run,
      Outcome.andThen_ok, List.nil_append, List.append_nil, List.singleton_append, hslot]
    exact hall

theorem walk_handleCliReq (env : Env) {req : ReqMsg} (he : ev = .request req)
    (ht : req.type = .clientRequest) : Obeys (Walk s ev) s (handleCliReq env req) := by
  refine .look_bind (.ite (fun _ => .pure walk_law _) fun hr => ?_)
  have hr' : s.role = .leader := not_not.mp hr
  refine .bind walk_law (walk_appendClientEntries he ht (fun _ h => h) hr' hr' rfl rfl) fun _ _ => ?_
  exact .bind walk_law (Quiet.walk (quiet_requestAppendEntries env)) fun _ _ =>
    .look_bind (.pure walk_law _)

theorem walk_acceptedAppend (env : Env) (resp : RespMsg) :
    Obeys (Walk s₀ ev) s (acceptedAppend env resp) :=
  walk_change_bind ⟨rfl, id⟩ (.look_bind (.bind walk_law (Quiet.walk (quiet_commit env _))
    fun _ _ => Sends.walk (sends_stillLags resp)))

theorem walk_handleAppendEntriesResp (env : Env) (resp : RespMsg) :
    Obeys (Walk s₀ ev) s (handleAppendEntriesResp env resp) := by
  refine .look_bind ?_
  cases s.findPeer resp.src with
  | none => exact .pure walk_law _
  | some p =>
    have hgo : ∀ (t : Server) (b : Bool), Obeys (Walk s₀ ev) t (continueWith env resp.src b) :=
      fun t b => Sends.walk (sends_continueWith env resp.src b)
    exact .ite (fun _ => .bind walk_law (walk_acceptedAppend env resp) fun b _ => hgo _ b)
      fun _ => .bind walk_law (Sends.walk (sends_declinedAppend resp p)) fun b _ => hgo _ b

theorem walk_acceptedSnapshot (resp : RespMsg) (p : Peer) :
    Obeys (Walk s₀ ev) s (acceptedSnapshot resp p) := by
  unfold acceptedSnapshot
  cases p.snpSyncCtx with
  | none => exact .pure walk_law _
  | some ctx =>
    exact .look_bind (.ite (fun _ => walk_change_bind ⟨rfl, id⟩ (.pure walk_law _)) fun _ =>
      walk_change_bind ⟨rfl, id⟩ (.pure walk_law _))

theorem walk_handleInstallSnapshotResp (env : Env) (resp : RespMsg) :
    Obeys (Walk s₀ ev) s (handleInstallSnapshotResp env resp) := by
  refine .look_bind ?_
  cases s.findPeer resp.src with
  | none => exact .pure walk_law _
  | some p =>
    have hgo : ∀ (t : Server) (b : Bool), Obeys (Walk s₀ ev) t (continueWith env resp.src b) :=
      fun t b => Sends.walk (sends_continueWith env resp.src b)
    exact .ite (fun _ => .bind walk_law (walk_acceptedSnapshot resp p) fun b _ => hgo _ b)
      fun _ => .bind walk_law (.pure walk_law _) fun b _ => hgo _ b

theorem walk_handlePeerResp (env : Env) (resp : RespMsg) (hb : Bookkeeping s₀ s) :
    Obeys (Walk s₀ ev) s (handlePeerResp env resp) := by
  refine .bind walk_law (walk_updateTerm _) fun updated hu => .ite (fun _ => .pure walk_law _)
    fun hnot => ?_
  have hstay : (updateTerm resp.term s).state = s := by
    rcases Nat.lt_or_ge s.state.term resp.term with hlt | hge
    · rw [updateTerm_of_lt hlt] at hu
      cases hu
      exact absurd rfl hnot
    · rw [updateTerm_of_le hge]
  rw [hstay]
  cases resp.type with
  | requestVoteResponse => exact walk_handleVotingResp env resp hb
  | appendEntriesResponse => exact walk_handleAppendEntriesResp env resp
  | installSnapshotResponse => exact walk_handleInstallSnapshotResp env resp
  | _ => exact walk_exit _

/-! ## Membership -/

/-- The law of bookkeeping. -/
structure Books (s : Server) (o : List Effect) (t : Server) : Prop where
  book : Bookkeeping s t
  out : ∀ e ∈ o, e.plain s.state

theorem books_law : Law Books where
  refl s := ⟨.refl s, by simp⟩
  trans := by
    intro s t u o o' h h'
    refine ⟨h.book.trans h'.book, fun e he => ?_⟩
    rcases List.mem_append.mp he with he | he
    · exact h.out e he
    · have hst : t.state = s.state := by rw [h.book.rest]
      exact hst ▸ h'.out e he

theorem Books.walk (h : Books s o t) : Walk s₀ ev s o t := walk_book h.book h.out

theorem books_addServer (srv : SrvConfig) : Obeys Books s (addServer srv) := by
  refine .look_bind (.ite (fun _ => ?_) fun _ => ⟨⟨rfl, id⟩, by simp⟩)
  cases s.srvToJoin with
  | none => exact ⟨⟨rfl, id⟩, by simp⟩
  | some joining => exact .ite (fun _ => ⟨⟨rfl, id⟩, by simp⟩) fun _ => ⟨⟨rfl, id⟩, by simp⟩

theorem books_erasePeer (pid : Int) : Obeys Books s (erasePeer pid) :=
  obeys_erasePeer books_law (fun _ => ⟨.refl s, by simp [Effect.plain]⟩) ⟨⟨rfl, fun h => h⟩, by simp⟩

theorem books_removeServers (newConfig : ClusterConfig) : ∀ {pids : List Int} {s : Server},
    Obeys Books s (removeServers newConfig pids)
  | [], s => .pure books_law _
  | pid :: pids, s => by
    refine .look_bind (.ite (fun _ => ?_) fun _ => ?_)
    · exact .emit_bind books_law ⟨.refl s, by simp [Effect.plain]⟩
        (.emit_bind books_law ⟨.refl s, by simp [Effect.plain]⟩ (.pure books_law _))
    · exact .bind books_law (books_erasePeer pid) fun _ _ => books_removeServers newConfig

/-- The law of putting a configuration in force. -/
def Reconfigures (newConfig : ClusterConfig) (s : Server) (o : List Effect) (t : Server) : Prop :=
  ∃ c, (c = s.config ∨ c = newConfig) ∧ Books { s with config := c } o t

theorem Books.reconfigures (newConfig : ClusterConfig) (h : Books s o t) :
    Reconfigures newConfig s o t := ⟨s.config, .inl rfl, h⟩

theorem reconfigures_law (newConfig : ClusterConfig) : Law (Reconfigures newConfig) where
  refl s := (books_law.refl s).reconfigures newConfig
  trans := by
    rintro s t u o o' ⟨c, hc, h⟩ ⟨c', hc', h'⟩
    have ht : t.config = c := by rw [h.book.rest]
    rw [ht] at hc'
    refine ⟨c', ?_, books_law.trans (t := { t with config := c' }) ⟨⟨?_, h.book.exits⟩, h.out⟩ h'⟩
    · rcases hc' with rfl | rfl
      · exact hc
      · exact .inr rfl
    · have hrest := h.book.rest
      rw [hrest]

/-- **`reconfigure`** puts the new configuration in force, if it does not step
down, and otherwise only keeps books. -/
theorem reconfigures_reconfigure (newConfig : ClusterConfig) :
    Obeys (Reconfigures newConfig) s (reconfigure newConfig) := by
  have hlaw := reconfigures_law newConfig
  refine .look_bind (.bind hlaw ?_ fun _ _ => .bind hlaw ?_ fun _ _ => ?_)
  · refine .forEach hlaw (fun _ => True) trivial fun srv _ s _ => ⟨?_, trivial⟩
    exact Books.reconfigures newConfig (books_addServer srv)
  · exact Books.reconfigures newConfig (books_removeServers newConfig)
  · exact .ite (fun _ => .pure hlaw _) fun _ => ⟨newConfig, .inr rfl, books_law.refl _⟩

/-- Only the server itself makes the loop over `srvs_removed` end early. -/
theorem removeServers_stays (newConfig : ClusterConfig) : ∀ {pids : List Int} {s : Server},
    s.id ∉ pids → Returns s (removeServers newConfig pids) fun stepDown _ => stepDown = false
  | [], s, _ => .pure rfl
  | pid :: pids, s, hself => by
    have hne : pid ≠ s.id := fun h => hself (h ▸ List.mem_cons_self)
    refine .look_bind (.ite (fun h => absurd h.1 hne) fun _ => .bind fun _ _ => ?_)
    have hid : (erasePeer pid s).state.id = s.id := (books_erasePeer pid).book.id_eq
    exact removeServers_stays newConfig fun h => hself (List.mem_cons_of_mem _ (hid ▸ h))

/-- A configuration with this server in it comes into force. -/
theorem reconfigure_config {newConfig : ClusterConfig} (h : newConfig.getServer s.id ≠ none) :
    Returns s (reconfigure newConfig) fun _ t => t.config = newConfig := by
  have hself : s.id ∉ s.peerIds.filter (fun id => newConfig.getServer id = none) ++
      (if newConfig.getServer s.id = none then [s.id] else []) := by
    rw [if_neg h, List.append_nil, List.mem_filter]
    rintro ⟨-, hnone⟩
    exact h (of_decide_eq_true hnone)
  refine .look_bind (.bind fun _ _ => .bind fun stepDown hdown => ?_)
  have hbooks : ∀ srvs, Obeys Books s (forEach addServer srvs) := fun srvs =>
    .forEach books_law (fun _ => True) trivial fun srv _ s _ => ⟨books_addServer srv, trivial⟩
  have hid := (hbooks (newConfig.servers.filter fun srv =>
    srv.id ∉ s.peerIds ∧ srv.id ≠ s.id)).book.id_eq
  have hstay := removeServers_stays newConfig (by rwa [hid]) stepDown hdown
  rw [hstay]
  exact .ite (fun hf => by cases hf) fun _ => fun _ _ => rfl

theorem total_removeServers (newConfig : ClusterConfig) : ∀ pids : List Int,
    Total (removeServers newConfig pids)
  | [] => .pure _
  | _ :: pids => .look_bind fun _ => .ite
      (.bind (.emit _) fun _ => .bind (.emit _) fun _ => .pure _)
      (.bind (total_erasePeer _) fun _ => total_removeServers newConfig pids)

theorem total_addServer (srv : SrvConfig) : Total (addServer srv) := by
  refine .look_bind fun s => .ite ?_ (.change _)
  cases s.srvToJoin with
  | none => exact .change _
  | some joining => exact .ite (.change _) (.change _)

/-- `reconfigure` never stops half-way. -/
theorem total_reconfigure (newConfig : ClusterConfig) : Total (reconfigure newConfig) :=
  .look_bind fun _ => .bind (.forEach total_addServer _) fun _ =>
    .bind (total_removeServers newConfig _) fun _ => .ite (.pure _) (.change _)

/-! ## Extended requests -/

theorem walk_inviteSrvToJoinCluster : Obeys (Walk s₀ ev) s inviteSrvToJoinCluster :=
  .bind walk_law (Sends.walk (reads_derefPeer sends_law _)) fun _ _ => .look_bind (walk_sendExtReq _)

theorem walk_handleRmSrvReq (req : ReqMsg) : Obeys (Walk s₀ ev) s (handleRmSrvReq req) := by
  refine .look_bind ?_
  split
  · refine .ite (fun _ => .pure walk_law _) fun _ => .ite (fun _ => .pure walk_law _) fun _ =>
      .ite (fun _ => .pure walk_law _) fun _ => ?_
    split
    · exact .halt walk_law _
    · refine .ite (fun _ => .pure walk_law _) fun _ => ?_
      split
      · exact .pure walk_law _
      · exact .bind walk_law (walk_sendExtReq _) fun _ _ => .pure walk_law _
  · exact .pure walk_law _

theorem walk_handleAddSrvReq (req : ReqMsg) : Obeys (Walk s₀ ev) s (handleAddSrvReq req) := by
  refine .look_bind ?_
  split
  · refine .ite (fun _ => .pure walk_law _) fun _ => .ite (fun _ => .pure walk_law _) fun _ => ?_
    split
    · exact .halt walk_law _
    · refine .ite (fun _ => .pure walk_law _) fun _ => .ite (fun _ => .pure walk_law _) fun _ => ?_
      exact walk_change_bind ⟨rfl, id⟩
        (.bind walk_law walk_inviteSrvToJoinCluster fun _ _ => .pure walk_law _)
  · exact .pure walk_law _

theorem walk_handleLogSyncReq (env : Env) {req : ReqMsg} (he : ev = .request req)
    (ht : req.type = .syncLogRequest) : Obeys (Walk s ev) s (handleLogSyncReq env req) := by
  refine .look_bind ?_
  split
  · rename_i e hm
    refine .ite (fun _ => .pure walk_law _) fun _ => .ite (fun _ => .pure walk_law _) fun hc => ?_
    split
    · exact .halt walk_law _
    · rename_i l hl
      have hseg : Walk s ev s [] { s with logStore := l } :=
        .single (.applyPack he ht hm (by simpa using hc) hl)
      refine .change_bind walk_law hseg ?_
      exact .bind walk_law (Quiet.walk (quiet_commit env _)) fun _ _ => .look_bind (.pure walk_law _)
  · exact .pure walk_law _

theorem walk_handleJoinClusterReq {req : ReqMsg} (he : ev = .request req)
    (ht : req.type = .joinClusterRequest) : Obeys (Walk s ev) s (handleJoinClusterReq req) := by
  refine .look_bind ?_
  split
  · rename_i e hm
    refine .ite (fun _ => .pure walk_law _) fun hv => .ite (fun _ => .pure walk_law _) fun hc => ?_
    refine walk_change_save (.single (.join he ht hm (not_not.mp hv) (by simpa using hc))) ?_
    split
    · exact .halt walk_law _
    · refine .bind walk_law ?_ fun _ _ => .look_bind (.pure walk_law _)
      obtain ⟨c, -, hbooks⟩ := reconfigures_reconfigure (s := { s with
        catchingUp := true
        role := .follower
        leader := req.src
        quickCommitIdx := 0
        state := { s.state.setCommitIdx 0 with votedFor := -1, term := req.term } }) _
      exact walk_step (.joinConfig he ht c) hbooks.walk
  · exact .pure walk_law _

theorem walk_handleLeaveClusterReq (req : ReqMsg) :
    Obeys (Walk s₀ ev) s (handleLeaveClusterReq req) :=
  .look_bind (.ite (fun _ => walk_change_bind ⟨rfl, id⟩ (.pure walk_law _)) fun _ =>
    .pure walk_law _)

/-! ## Snapshots -/

/-- The end of `handle_snapshot_sync_req`, once the log is compacted. -/
theorem walk_applySnapshot (env : Env) {req : ReqMsg} {snp : Snapshot}
    (he : ev = .request req) (ht : req.type = .installSnapshotRequest)
    (hm : CompletesSnapshot req snp.lastLogIdx)
    (hl : s.logStore = s₀.logStore) (hf : s.configChanging = s₀.configChanging)
    (hs : s.state.commitIdx = s₀.state.commitIdx) (hn : s.state.commitIdx < snp.lastLogIdx)
    (hge : s.logStore.startIdx ≤ snp.lastLogIdx) :
    Obeys (Walk s₀ ev) s (applySnapshotData env snp) := by
  set s₁ : Server := { s with logStore := s.logStore.compact snp.lastLogIdx } with hs₁
  by_cases happ : env.applySnapshot = false
  · refine .single (.quit (.inr ⟨snp.lastLogIdx, hge, rfl⟩) (c := s.config) ⟨?_, ?_⟩ ?_ ?_)
    all_goals simp [applySnapshotData, systemExitAndExit, happ, Effect.plain]
  · obtain ⟨a, ha⟩ := total_reconfigure snp.lastConfig s₁
    obtain ⟨c, -, hbooks⟩ : Reconfigures snp.lastConfig s₁ _ _ :=
      reconfigures_reconfigure snp.lastConfig
    have hst : (reconfigure snp.lastConfig s₁).state.state = s.state := by rw [hbooks.book.rest]
    have hrun : applySnapshotData env snp s =
        ⟨.ok true, { (reconfigure snp.lastConfig s₁).state with
            state := s.state.setCommitIdx snp.lastLogIdx
            quickCommitIdx := snp.lastLogIdx },
          ([.applySnapshot snp] ++ (reconfigure snp.lastConfig s₁).out ++
            [.saveConfig (reconfigure snp.lastConfig s₁).state.config]) ++
            [.saveState (s.state.setCommitIdx snp.lastLogIdx)]⟩ := by
      simp [applySnapshotData, saveState, happ, ← hs₁, Outcome.andThen, ha, hst]
    unfold Obeys
    rw [hrun]
    refine .single (.install (t := { (reconfigure snp.lastConfig s₁).state with
      state := s.state.setCommitIdx snp.lastLogIdx
      quickCommitIdx := snp.lastLogIdx }) he ht hm hl hf hs hn hge (c := c) ⟨?_, hbooks.book.exits⟩ ?_)
    · have hrest := hbooks.book.rest
      rw [hrest]
    · intro e he
      rcases List.mem_append.mp he with he | he
      · rcases List.mem_append.mp he with he | he
        · rw [List.mem_singleton.mp he]
          rfl
        · exact hbooks.out e he
      · rw [List.mem_singleton.mp he]
        rfl

theorem walk_installSnapshotBlock (env : Env) {req : ReqMsg} {snpReq : SnapshotSyncReq}
    (he : ev = .request req) (ht : req.type = .installSnapshotRequest)
    (hm : snpReq.done = true → CompletesSnapshot req snpReq.snapshot.lastLogIdx)
    (hl : s.logStore = s₀.logStore) (hf : s.configChanging = s₀.configChanging)
    (hs : s.state.commitIdx = s₀.state.commitIdx)
    (hn : s.state.commitIdx < snpReq.snapshot.lastLogIdx) :
    Obeys (Walk s₀ ev) s (installSnapshotBlock env snpReq) := by
  refine .ite (fun _ => .halt walk_law _) fun _ => .emit_bind walk_law (walk_emit rfl) ?_
  refine .ite (fun hd => .look_bind ?_) fun _ => .pure walk_law _
  refine .ite (fun _ => walk_exit _) fun _ => .ite (fun _ => .halt walk_law _) fun hge => ?_
  exact .ite (fun _ => walk_applySnapshot env he ht (hm hd) hl hf hs hn (Nat.not_lt.mp hge)) fun _ =>
    .pure walk_law _

theorem walk_handleSnapshotSyncReq (env : Env) {req : ReqMsg} {snpReq : SnapshotSyncReq}
    (he : ev = .request req) (ht : req.type = .installSnapshotRequest)
    (hm : snpReq.done = true → CompletesSnapshot req snpReq.snapshot.lastLogIdx)
    (hl : s.logStore = s₀.logStore) (hf : s.configChanging = s₀.configChanging)
    (hs : s.state.commitIdx = s₀.state.commitIdx)
    (hn : s.state.commitIdx < snpReq.snapshot.lastLogIdx) :
    Obeys (Walk s₀ ev) s (handleSnapshotSyncReq env snpReq) :=
  .rescue walk_law (walk_installSnapshotBlock env he ht hm hl hf hs hn) (walk_exit _)

theorem walk_handleInstallSnapshotReq (env : Env) {req : ReqMsg} (he : ev = .request req)
    (ht : req.type = .installSnapshotRequest) (hl : s.logStore = s₀.logStore)
    (hf : s.configChanging = s₀.configChanging) (hs : s.state.commitIdx = s₀.state.commitIdx) :
    Obeys (Walk s₀ ev) s (handleInstallSnapshotReq env req) := by
  refine .look_bind (.bind walk_law (walk_followLeader _) fun _ _ => .look_bind ?_)
  obtain ⟨r, p, j, x, hu⟩ := followLeader_rest (s := s)
    (decide (req.term = s.state.term ∧ s.catchingUp = false))
  rw [hu]
  refine .ite (fun _ => .pure walk_law _) fun _ => ?_
  split
  · rename_i e hentry
    refine .ite (fun _ => .pure walk_law _) fun _ => ?_
    split
    · exact .halt walk_law _
    · rename_i syncReq hreq
      refine .ite (fun _ => .pure walk_law _) fun hn => ?_
      refine .bind walk_law ?_ fun ok _ => .ite (fun _ => .pure walk_law _) fun _ =>
        .pure walk_law _
      exact walk_handleSnapshotSyncReq env he ht (fun hd => ⟨e, syncReq, hentry, hreq, hd, rfl⟩) hl hf
        hs (Nat.not_le.mp hn)
  · exact .pure walk_law _

/-! ## `process_req` -/

/-- What `process_req` has made sure of before it turns to the handler. -/
structure Noted (s₀ s : Server) (req : ReqMsg) : Prop where
  logStore : s.logStore = s₀.logStore
  configChanging : s.configChanging = s₀.configChanging
  commitIdx : s.state.commitIdx = s₀.state.commitIdx
  term : req.term ≤ s.state.term
  le : s₀.state.term ≤ s.state.term

theorem walk_noteTerm (req : ReqMsg) : Obeys (Walk s₀ ev) s (noteTerm req) := by
  refine .ite (fun _ => .bind walk_law (walk_updateTerm _) fun _ _ => ?_) fun _ => .pure walk_law _
  refine walk_change ⟨?_, ?_⟩
  · split <;> rfl
  · split <;> exact id

/-- The server once a request of the core algorithm is noted. -/
def Server.noted (s : Server) (term : Nat) : Server :=
  let s := if s.state.term < term then s.inTerm term else s
  if s.stepsToDown > 0 then { s with stepsToDown := 2 } else s

theorem noteTerm_run {req : ReqMsg} (h : req.type = .appendEntriesRequest ∨
    req.type = .requestVoteRequest ∨ req.type = .installSnapshotRequest) :
    noteTerm req s = ⟨.ok (), s.noted req.term,
      if s.state.term < req.term then [.saveState (s.inTerm req.term).state] else []⟩ := by
  simp only [noteTerm, if_pos h, bind_run]
  rcases Nat.lt_or_ge s.state.term req.term with hlt | hge
  · simp only [updateTerm_of_lt hlt, Outcome.andThen_ok, change_run, Server.noted, if_pos hlt,
      List.append_nil]
  · simp only [updateTerm_of_le hge, Outcome.andThen_ok, change_run, Server.noted,
      if_neg (Nat.not_lt.mpr hge), List.append_nil]

theorem noted_noted (s : Server) (req : ReqMsg) : Noted s (s.noted req.term) req := by
  unfold Server.noted
  rcases Nat.lt_or_ge s.state.term req.term with hlt | hge
  · simp only [if_pos hlt]
    split <;> exact ⟨rfl, rfl, rfl, le_refl _, hlt.le⟩
  · simp only [if_neg (Nat.not_lt.mpr hge)]
    split <;> exact ⟨rfl, rfl, rfl, hge, le_refl _⟩

theorem noted_rest (s : Server) (term : Nat) :
    (s.noted term).logStore = s.logStore ∧ (s.noted term).bg = s.bg ∧
      (s.noted term).state.commitIdx = s.state.commitIdx ∧
      (s.noted term).state.term = max s.state.term term ∧
      (s.role ≠ .leader → (s.noted term).role ≠ .leader) ∧ (s.noted term).exited = s.exited := by
  unfold Server.noted
  rcases Nat.lt_or_ge s.state.term term with hlt | hge
  · simp only [if_pos hlt, max_eq_right hlt.le]
    split <;> exact ⟨rfl, rfl, rfl, rfl, fun _ => by simp [Server.inTerm], rfl⟩
  · simp only [if_neg (Nat.not_lt.mpr hge), max_eq_left hge]
    split <;> exact ⟨rfl, rfl, rfl, rfl, fun h => h, rfl⟩

theorem noted_kept (s : Server) (term : Nat) :
    (s.noted term).catchingUp = s.catchingUp ∧ (s.noted term).snpPending = s.snpPending := by
  unfold Server.noted
  by_cases hlt : s.state.term < term
  · simp only [if_pos hlt]
    split <;> exact ⟨rfl, rfl⟩
  · simp only [if_neg hlt]
    split <;> exact ⟨rfl, rfl⟩

/-- An answer that is no vote. -/
abbrev NoVote (resp : RespMsg) (_ : Server) : Prop := resp.type ≠ .requestVoteResponse

theorem noVote_handleAddSrvReq (req : ReqMsg) : Returns s (handleAddSrvReq req) NoVote := by
  refine .look_bind ?_
  split
  · refine .ite (fun _ => .pure (by simp)) fun _ => .ite (fun _ => .pure (by simp)) fun _ => ?_
    split
    · exact .halt _
    · exact .ite (fun _ => .pure (by simp)) fun _ => .ite (fun _ => .pure (by simp)) fun _ =>
        .change_bind (.bind fun _ _ => .pure (by simp [RespMsg.accept]))
  · exact .pure (by simp)

theorem noVote_handleRmSrvReq (req : ReqMsg) : Returns s (handleRmSrvReq req) NoVote := by
  refine .look_bind ?_
  split
  · refine .ite (fun _ => .pure (by simp)) fun _ => .ite (fun _ => .pure (by simp)) fun _ =>
      .ite (fun _ => .pure (by simp)) fun _ => ?_
    split
    · exact .halt _
    · refine .ite (fun _ => .pure (by simp)) fun _ => ?_
      split
      · exact .pure (by simp)
      · exact .emit_bind (.pure (by simp [RespMsg.accept]))
  · exact .pure (by simp)

theorem noVote_handleLogSyncReq (env : Env) (req : ReqMsg) :
    Returns s (handleLogSyncReq env req) NoVote := by
  refine .look_bind ?_
  split
  · refine .ite (fun _ => .pure (by simp)) fun _ => .ite (fun _ => .pure (by simp)) fun _ => ?_
    split
    · exact .halt _
    · exact .change_bind (.bind fun _ _ => .look_bind (.pure (by simp [RespMsg.accept])))
  · exact .pure (by simp)

theorem noVote_handleJoinClusterReq (req : ReqMsg) :
    Returns s (handleJoinClusterReq req) NoVote := by
  refine .look_bind ?_
  split
  · refine .ite (fun _ => .pure (by simp)) fun _ => .ite (fun _ => .pure (by simp)) fun _ =>
      .change_bind (.bind fun _ _ => ?_)
    split
    · exact .halt _
    · exact .bind fun _ _ => .look_bind (.pure (by simp [RespMsg.accept]))
  · exact .pure (by simp)

theorem noVote_handleInstallSnapshotReq (env : Env) (req : ReqMsg) :
    Returns s (handleInstallSnapshotReq env req) NoVote := by
  refine .look_bind (.bind fun _ _ => .look_bind (.ite (fun _ => .pure (by simp)) fun _ => ?_))
  split
  · refine .ite (fun _ => .pure (by simp)) fun _ => ?_
    split
    · exact .halt _
    · exact .ite (fun _ => .pure (by simp)) fun _ => .bind fun _ _ =>
        .ite (fun _ => .pure (by simp [RespMsg.accept])) fun _ => .pure (by simp)
  · exact .pure (by simp)

/-- Only `handle_vote_req` answers with a vote. -/
theorem noVote_answerReq (env : Env) {req : ReqMsg} (h : req.type ≠ .requestVoteRequest) :
    Returns s (answerReq env req) NoVote := by
  unfold answerReq
  split
  · refine .look_bind (.bind fun _ _ => .look_bind (.bind fun _ _ => ?_))
    exact .ite (fun _ => .pure (by simp)) fun _ => .bind fun _ _ =>
      .change_bind (.bind fun _ _ => .pure (by simp [RespMsg.accept]))
  · contradiction
  · exact .look_bind (.ite (fun _ => .pure (by simp)) fun _ => .bind fun _ _ => .bind fun _ _ =>
      .look_bind (.pure (by simp [RespMsg.accept])))
  · unfold handleExtendedMsg
    split
    · exact noVote_handleAddSrvReq req
    · exact noVote_handleRmSrvReq req
    · exact noVote_handleLogSyncReq env req
    · exact noVote_handleJoinClusterReq req
    · exact .look_bind (.ite (fun _ => .change_bind (.pure (by simp [RespMsg.accept]))) fun _ =>
        .pure (by simp))
    · exact noVote_handleInstallSnapshotReq env req
    · exact .bind fun _ _ => .bind fun _ _ => .halt _

/-- The handlers of the extended requests that are not messages of the core
algorithm; they run from where the server was. -/
theorem walk_handleExtendedMsg (env : Env) {req : ReqMsg}
    (h : req.type ≠ .installSnapshotRequest) :
    Obeys (Walk s (.request req)) s (handleExtendedMsg env req) := by
  unfold handleExtendedMsg
  split
  · exact walk_handleAddSrvReq req
  · exact walk_handleRmSrvReq req
  · exact walk_handleLogSyncReq env rfl ‹_›
  · exact walk_handleJoinClusterReq rfl ‹_›
  · exact walk_handleLeaveClusterReq req
  · contradiction
  · exact walk_exit _

/-- Granting a vote and saying so. -/
theorem walk_handleVoteReq {req : ReqMsg} (ht : req.type = .requestVoteRequest) :
    Obeys (Walk s₀ (.request req)) s (handleVoteReq req >>= reply) := by
  unfold Obeys
  rw [bind_run, handleVoteReq_run]
  by_cases hg : s.grants req = true
  · rw [if_pos hg]
    have hg' := hg
    simp only [Server.grants, decide_eq_true_eq] at hg'
    have hgrant : Segment s₀ (.request req) s [.saveState (s.votingFor req.src).state]
        (s.votingFor req.src) := .grant rfl ht hg'.1 hg'.2.2
    exact Path.step hgrant (.single (.reply fun _ _ => ⟨rfl, rfl, req, rfl, ht, rfl⟩))
  · rw [if_neg hg]
    exact .single (.reply fun _ hacc => by cases hacc)

/-- An answer that is no vote may leave at any time. -/
theorem walk_reply {x : Action RespMsg} (hx : Obeys (Walk s₀ ev) s x) (hn : Returns s x NoVote) :
    Obeys (Walk s₀ ev) s (x >>= reply) :=
  .bind walk_law hx fun resp hres => .look_bind (.single (.reply fun ht => absurd ht (hn resp hres)))

theorem walk_processReq (env : Env) (req : ReqMsg) :
    Obeys (Walk s (.request req)) s (processReq env req) := by
  refine .bind walk_law (walk_noteTerm req) fun _ _ => ?_
  by_cases hcore : req.type = .appendEntriesRequest ∨ req.type = .requestVoteRequest ∨
      req.type = .installSnapshotRequest
  · rw [noteTerm_run hcore]
    obtain ⟨hl, hf, hc, hterm, hle⟩ := noted_noted s req
    rcases hcore with ht | ht | ht
    · refine walk_reply ?_ (noVote_answerReq env (by simp [ht]))
      simp only [answerReq, ht]
      exact walk_handleAppendEntries env rfl ht hterm hle hl hf hc
    · simp only [answerReq, ht]
      exact walk_handleVoteReq ht
    · refine walk_reply ?_ (noVote_answerReq env (by simp [ht]))
      simp only [answerReq, handleExtendedMsg, ht]
      exact walk_handleInstallSnapshotReq env rfl ht hl hf hc
  · have hpure : noteTerm req = pure () := if_neg hcore
    rw [hpure]
    obtain ⟨ha, hv, hi⟩ : req.type ≠ .appendEntriesRequest ∧ req.type ≠ .requestVoteRequest ∧
        req.type ≠ .installSnapshotRequest := by simpa [not_or] using hcore
    refine walk_reply ?_ (noVote_answerReq env hv)
    unfold answerReq
    split
    · contradiction
    · contradiction
    · exact walk_handleCliReq env rfl ‹_›
    · exact walk_handleExtendedMsg env hi

/-! ## Extended responses -/

theorem walk_appendConfig {servers : List SrvConfig} (hb : Bookkeeping s₀ s)
    (h : ChangesTo s₀ ev servers) : Obeys (Walk s₀ ev) s (appendConfig servers) :=
  .single (.changeConfig hb h)

theorem walk_syncLogToNewSrv (env : Env) (startIdx : Nat) (hb : Bookkeeping s₀ s)
    (h : ∀ srv, s.confToAdd = some srv → s.srvToJoin.isSome →
      ChangesTo s₀ ev (s₀.config.servers ++ [srv])) :
    Obeys (Walk s₀ ev) s (syncLogToNewSrv env startIdx) := by
  have hcfg : s.config = s₀.config := by rw [hb.rest]
  refine .look_bind (.bind walk_law (Sends.walk (reads_derefPeer sends_law _)) fun p hp => ?_)
  rw [derefPeer_state]
  refine .ite (fun _ => ?_) fun _ => .ite (fun _ => ?_) fun _ => ?_
  · cases hconf : s.confToAdd with
    | none => exact .halt walk_law _
    | some srv =>
      have hjoin : s.srvToJoin.isSome := by
        simp only [derefPeer, bind_run, look_run, Outcome.andThen_ok, Server.peerAt?] at hp
        cases hj : s.srvToJoin with
        | none =>
          rw [hj] at hp
          cases hp
        | some q => rfl
      refine .bind walk_law (walk_appendConfig hb ?_) fun _ _ =>
        Quiet.walk (quiet_requestAppendEntries env)
      rw [hcfg]
      exact h srv hconf hjoin
  · exact .bind walk_law (Sends.walk (sends_createSyncSnapshotReq env _ _ _ _)) fun _ _ =>
      walk_sendExtReq _
  · split
    · exact .halt walk_law _
    · exact walk_sendExtReq _

theorem walk_rmSrvFromCluster (env : Env) (srvId : Int) (hb : Bookkeeping s₀ s)
    (h : ChangesTo s₀ ev (s₀.config.servers.filter (·.id ≠ srvId))) :
    Obeys (Walk s₀ ev) s (rmSrvFromCluster env srvId) := by
  have hcfg : s.config = s₀.config := by rw [hb.rest]
  refine .look_bind (.bind walk_law (walk_appendConfig hb ?_) fun _ _ =>
    Quiet.walk (quiet_requestAppendEntries env))
  rw [hcfg]
  exact h

/-- A server between a response to an extended request and its handler. -/
theorem Sends.isSome_joining (h : Sends s o t) : t.srvToJoin.isSome = s.srvToJoin.isSome := by
  simpa using congrArg Option.isSome h.joining

/-- A response lets `sync_log_to_new_srv` go on from a changed `srv_to_join_`. -/
theorem walk_syncJoining (env : Env) {via : Option PeerRef} {reqType : MsgType} {resp : RespMsg}
    (hs : Sends s₀ o s) (f : Peer → Peer) (startIdx : Nat)
    (ht : resp.type = .syncLogResponse ∨ resp.accepted = true ∧
      (resp.type = .joinClusterResponse ∨ resp.type = .installSnapshotResponse)) :
    Obeys (Walk s₀ (.extResp via reqType resp)) (s.updateAt .joining f)
      (syncLogToNewSrv env startIdx) := by
  refine walk_syncLogToNewSrv env startIdx (hs.quiet.bookkeeping.trans ⟨rfl, id⟩) fun srv hc hj => ?_
  refine .add ?_ ?_ ht
  · rw [← hs.quiet.confToAdd_eq]
    exact hc
  · rw [← hs.isSome_joining]
    simpa [Server.updateAt] using hj

theorem walk_handleExtSnapshotResp (env : Env) {via : Option PeerRef} {reqType : MsgType}
    {resp : RespMsg} (hs : Sends s₀ o s) (ht : resp.type = .installSnapshotResponse) :
    Obeys (Walk s₀ (.extResp via reqType resp)) s (handleExtSnapshotResp env resp) := by
  refine .look_bind ?_
  split
  · exact .pure walk_law _
  · refine .ite (fun _ => .pure walk_law _) fun hacc => ?_
    have hacc' : resp.accepted = true := by simpa using hacc
    split
    · exact walk_exit _
    · -- the peer object is set to the next offset, or to the end of the snapshot
      have hgo : ∀ f : Peer → Peer, Obeys (Walk s₀ (.extResp via reqType resp))
          (s.updateAt .joining f)
          (derefPeer .joining >>= fun p => syncLogToNewSrv env p.nextLogIdx) := by
        intro f
        refine .bind walk_law (Sends.walk (reads_derefPeer sends_law _)) fun p _ => ?_
        rw [derefPeer_state]
        exact walk_syncJoining env hs f _ (.inr ⟨hacc', .inr ht⟩)
      exact .ite (fun _ => walk_change_bind ⟨rfl, id⟩ (hgo _)) fun _ =>
        walk_change_bind ⟨rfl, id⟩ (hgo _)

theorem walk_handleExtResp (env : Env) {via : Option PeerRef} {reqType : MsgType}
    {resp : RespMsg} (hs : Sends s₀ o s) :
    Obeys (Walk s₀ (.extResp via reqType resp)) s (handleExtResp env resp) := by
  refine .look_bind ?_
  split
  · rename_i ht
    split
    · exact .pure walk_law _
    · exact walk_change_bind ⟨rfl, id⟩ (walk_syncJoining env hs _ _ (.inl ht))
  · rename_i ht
    split
    · exact .pure walk_law _
    · refine .ite (fun hacc => ?_) fun _ => .pure walk_law _
      refine walk_syncLogToNewSrv env 1 hs.quiet.bookkeeping fun srv hc hj =>
        .add ?_ ?_ (.inr ⟨hacc, .inl ht⟩)
      · rw [← hs.quiet.confToAdd_eq]
        exact hc
      · rw [← hs.isSome_joining]
        exact hj
  · rename_i ht
    refine .ite (fun hacc => ?_) fun _ => .pure walk_law _
    exact walk_rmSrvFromCluster env resp.src hs.quiet.bookkeeping (.remove ⟨ht, hacc⟩)
  · exact walk_handleExtSnapshotResp env hs ‹_›
  · exact walk_exit _

theorem walk_handleExtRespErr (env : Env) (via : Option PeerRef) (req : ReqMsg) :
    Obeys (Walk s (.extErr via req)) (rpcResult via req.type true s).state
      (handleExtRespErr env req) := by
  have hs : Sends s (rpcResult via req.type true s).out (rpcResult via req.type true s).state :=
    sends_rpcResult via req.type true
  set t := (rpcResult via req.type true s).state with ht
  have hparams : t.params = s.params := hs.quiet.params_eq
  refine .ite (fun htype => .look_bind ?_) fun _ => .pure walk_law _
  cases hp : t.peerAt? (extPeer req) with
  | none => exact .pure walk_law _
  | some p =>
    refine .ite (fun hfin => ?_) fun _ => ?_
    · have hfinal : s.failsFinally via req = true := by
        rw [Server.failsFinally, Server.failedPeer, ← ht, hp, ← hparams]
        simpa using hfin
      refine .ite (fun hleave => ?_) fun hnot => ?_
      · have hrm : ∀ u : Server, Bookkeeping s u →
            Obeys (Walk s (.extErr via req)) u (rmSrvFromCluster env p.id) := fun u hu =>
          walk_rmSrvFromCluster env p.id hu (.drop hleave hfinal p.id)
        have hbook := hs.quiet.bookkeeping
        refine .ite (fun _ => ?_) fun _ => hrm _ hbook
        exact .bind walk_law (books_erasePeer p.id).walk fun _ _ =>
          hrm _ (hbook.trans (books_erasePeer p.id).book)
      · have hsync : req.type = .syncLogRequest ∨ req.type = .joinClusterRequest := by
          rcases htype with h | h | h
          · exact .inl h
          · exact .inr h
          · exact absurd h hnot
        have hgive := Segment.giveUp hs.quiet.bookkeeping rfl hsync hfinal
        exact walk_step hgive (walk_book (o := []) ⟨rfl, id⟩ (by simp))
    · refine walk_change ⟨?_, ?_⟩
      · cases hx : extPeer req <;> rfl
      · cases hx : extPeer req <;> exact id

/-! ## The committing thread -/

theorem walk_takeSnapshot (env : Env) {committedIdx : Nat} (h : committedIdx ≤ s.state.commitIdx) :
    Obeys (Walk s₀ ev) s (takeSnapshot env committedIdx) := by
  have hconf : Obeys Sends s (confInForce env committedIdx (s.logStore.entries.length + 1) s.config) :=
    reads_confInForce sends_law env committedIdx
  refine .look_bind (.bind walk_law (Sends.walk hconf) fun conf _ => ?_)
  refine .bind walk_law (Sends.walk (reads_confOrSnapshot sends_law sends_exits env _ _)) fun conf' _ => ?_
  refine .bind walk_law (Sends.walk (reads_termAt sends_law _)) fun t _ => ?_
  refine .change_bind walk_law (.single (.snapshot ?_)) (walk_emit rfl)
  rw [(Sends.quiet (reads_termAt sends_law _)).state_eq, (Sends.quiet (reads_confOrSnapshot sends_law sends_exits env _ _)).state_eq,
    (Sends.quiet hconf).state_eq]
  exact (Nat.sub_le _ _).trans h

theorem walk_snapshotAndCompact (env : Env) {committedIdx : Nat}
    (h : committedIdx ≤ s.state.commitIdx) :
    Obeys (Walk s₀ ev) s (snapshotAndCompact env committedIdx) := by
  refine .look_bind (.ite (fun _ => walk_change_bind ⟨rfl, fun h => h⟩ ?_) fun _ =>
    .pure walk_law _)
  refine .ite (fun _ => walk_change ⟨rfl, fun h => h⟩) fun _ => ?_
  exact .rescue walk_law (walk_takeSnapshot env h) (walk_change ⟨rfl, fun h => h⟩)

theorem walk_onSnapshotCompleted (env : Env) (result : Bool) :
    Obeys (Walk s ev) s (onSnapshotCompleted env result) := by
  refine .look_bind ?_
  cases hp : s.snpPending with
  | none => exact .pure walk_law _
  | some snp =>
    refine .ite (fun _ => ?_) fun hge => ?_
    · exact .change_bind walk_law (.single (.compact (l := s.logStore) (.inl rfl)))
        (.halt walk_law _)
    · have hdone : ∀ l, (l = s.logStore ∨ ∃ snp, s.snpPending = some snp ∧
          s.logStore.startIdx ≤ snp.lastLogIdx ∧ l = s.logStore.compact snp.lastLogIdx) →
          Walk s ev s [] { s with snpPending := none, snpInProgress := false, logStore := l } :=
        fun l hl => walk_step (.compact hl) (walk_book ⟨rfl, fun h => h⟩ (by simp))
      refine hdone _ ?_
      split
      · rename_i hboth
        exact .inr ⟨snp, hp, Nat.not_lt.mp fun hlt => hge ⟨hboth.1, hlt⟩, rfl⟩
      · exact .inl rfl

/-- What `commit_in_bg` does with a configuration it can read. -/
theorem commitConfig_run {e : LogEntry} {newConf : ClusterConfig} {rest : Bytes}
    (hd : ClusterConfig.deserialize e.buf = some (newConf, rest)) :
    ∃ o t c, commitConfig e s = ⟨.ok (), t, o⟩ ∧
      (s.config.logIdx < newConf.logIdx ∧ c = newConf ∨ c = s.config ∧
        (newConf.logIdx ≤ s.config.logIdx ∨ newConf.getServer s.id = none)) ∧
      Books { s with configChanging := false, config := c } o t := by
  set s₁ : Server := { s with configChanging := false } with hs₁
  have hre : ∃ c, (reconfigureIfNewer newConf s₁).res = .ok () ∧
      (s.config.logIdx < newConf.logIdx ∧ c = newConf ∨ c = s.config ∧
        (newConf.logIdx ≤ s.config.logIdx ∨ newConf.getServer s.id = none)) ∧
      Books { s₁ with config := c } (reconfigureIfNewer newConf s₁).out
        (reconfigureIfNewer newConf s₁).state := by
    by_cases hlt : s.config.logIdx < newConf.logIdx
    · have hrun : reconfigureIfNewer newConf s₁ = reconfigure newConf s₁ := by
        simp only [reconfigureIfNewer, bind_run, look_run, Outcome.andThen_ok, ite_run,
          List.nil_append]
        exact if_pos hlt
      obtain ⟨a, ha⟩ := total_reconfigure newConf s₁
      obtain ⟨c, hc, hbooks⟩ : Reconfigures newConf s₁ _ _ := reconfigures_reconfigure newConf
      rw [hrun]
      refine ⟨c, ha, ?_, hbooks⟩
      rcases hc with hsame | hnew
      · by_cases hself : newConf.getServer s.id = none
        · exact .inr ⟨hsame, .inr hself⟩
        · have hcfg : c = newConf := by
            have hstate := reconfigure_config (s := s₁) hself a ha
            rwa [hbooks.book.rest] at hstate
          exact .inl ⟨hlt, hcfg⟩
      · exact .inl ⟨hlt, hnew⟩
    · have hrun : reconfigureIfNewer newConf s₁ = ⟨.ok (), s₁, []⟩ := by
        simp only [reconfigureIfNewer, bind_run, look_run, Outcome.andThen_ok, ite_run, pure_run,
          List.nil_append]
        exact if_neg hlt
      rw [hrun]
      exact ⟨s.config, rfl, .inr ⟨rfl, .inl (Nat.not_lt.mp hlt)⟩, books_law.refl _⟩
  obtain ⟨c, hok, hc, hbooks⟩ := hre
  set r := reconfigureIfNewer newConf s₁ with hr
  have hup : Bookkeeping r.state (r.state.caughtUp newConf) := by
    unfold Server.caughtUp
    split
    · exact ⟨rfl, fun h => h⟩
    · exact .refl _
  refine ⟨.saveConfig newConf :: r.out, r.state.caughtUp newConf, c, ?_, hc, ?_⟩
  · simp only [commitConfig, hd, bind_run, emit_run, change_run, Outcome.andThen_ok]
    rw [← hs₁, ← hr, Outcome.andThen, hok]
    simp
  · refine ⟨hbooks.book.trans hup, fun e' he' => ?_⟩
    rcases List.mem_cons.mp he' with rfl | he'
    · rfl
    · exact hbooks.out e' he'

/-- **The committing thread passes an entry.** -/
theorem walk_commitEntry (env : Env) {cur : Nat} (hbg : s.bg = .committing cur)
    (hm : hasMore s cur = true) : Obeys (Walk s .bgIter) s (commitEntry env (cur + 1)) := by
  have hsnap : ∀ t : Server, cur + 1 ≤ t.state.commitIdx →
      Obeys (Walk s .bgIter) t (snapshotAndCompact env (cur + 1)) :=
    fun t ht => walk_snapshotAndCompact env ht
  refine .bind walk_law (Sends.walk (reads_entryAt sends_law _)) fun e he => ?_
  have hat : s.logStore.entryAt? (cur + 1) = some e := by
    simp only [entryAt, bind_run, look_run, Outcome.andThen_ok] at he
    cases hx : s.logStore.entryAt? (cur + 1) with
    | none =>
      simp only [hx, ite_run] at he
      split at he <;> cases he
    | some e' =>
      rw [hx] at he
      cases he
      rfl
  rw [entryAt_run hat]
  by_cases hconf : e.valType = .conf
  · have happ : applyEntry (cur + 1) e = commitConfig e := by
      simp only [applyEntry, hconf, reduceCtorEq, if_false, if_true]
    rw [happ]
    cases hd : ClusterConfig.deserialize e.buf with
    | none =>
      have hthrow : commitConfig e s = ⟨.error .throw, s, []⟩ := by
        simp only [commitConfig, hd, halt_run]
      refine .bind walk_law ?_ fun a ha => ?_
      · unfold Obeys
        rw [hthrow]
        exact .refl s
      · rw [hthrow] at ha
        cases ha
    | some p =>
      obtain ⟨o, t, c, hrun, hc, hbooks⟩ := commitConfig_run (s := s) hd
      have hst : t.state = s.state := by rw [hbooks.book.rest]
      have hseg : Walk s .bgIter s o
          { t with state := s.state.setCommitIdx (cur + 1), bg := .committing (cur + 1) } := by
        refine .single (.commitConfig rfl hbg hm hat hconf hd hc ⟨?_, hbooks.book.exits⟩ hbooks.out)
        have hrest := hbooks.book.rest
        rw [hrest]
      have hk := hsnap { t with state := s.state.setCommitIdx (cur + 1), bg := .committing (cur + 1) }
        (by simp)
      unfold Obeys
      simp only [bind_run, hrun, change_run, Outcome.andThen_ok, List.nil_append, hst]
      exact walk_law.trans hseg hk
  · have hseg : Segment s .bgIter s _ _ := .commitEntry rfl hbg hm hat hconf
    have hrun : applyEntry (cur + 1) e s =
        ⟨.ok (), s, if e.valType = .appLog then [.commit (cur + 1) e] else []⟩ := by
      by_cases happ : e.valType = .appLog
      · simp [applyEntry, happ]
      · simp [applyEntry, happ, hconf]
    have hk := hsnap { s with state := s.state.setCommitIdx (cur + 1), bg := .committing (cur + 1) }
      (by simp)
    unfold Obeys
    simp only [bind_run, hrun, change_run, Outcome.andThen_ok, List.nil_append]
    exact walk_law.trans (.single hseg) hk

theorem walk_bgIter (env : Env) : Obeys (Walk s .bgIter) s (bgIter env) := by
  refine .look_bind ?_
  cases hbg : s.bg with
  | waiting => exact .pure walk_law _
  | committing cur =>
    refine .ite (fun hm => ?_) fun _ => ?_
    · exact .rescue walk_law (walk_commitEntry env hbg hm) (walk_exit _)
    · exact Path.step (.save s) (.single (.sleep s))

theorem walk_bgWake : Obeys (Walk s₀ ev) s bgWake :=
  .look_bind (.ite (fun _ => .single (.wake s)) fun _ => .pure walk_law _)

/-- **Whatever happens to a server, it goes through segments.** -/
theorem handle_path (env : Env) (ev : Event) (s : Server) :
    Walk s ev s (handle env ev s).out (handle env ev s).state := by
  cases ev with
  | request req => exact walk_processReq env req
  | peerResp via reqType resp =>
    refine Obeys.bind walk_law (Sends.walk (sends_rpcResult via reqType false)) fun _ _ => ?_
    exact walk_handlePeerResp env resp (Sends.quiet (sends_rpcResult via reqType false)).bookkeeping
  | peerErr via reqType => exact Sends.walk (sends_rpcResult via reqType true)
  | extResp via reqType resp =>
    refine Obeys.bind walk_law (Sends.walk (sends_rpcResult via reqType false)) fun _ _ => ?_
    exact walk_handleExtResp env (sends_rpcResult via reqType false)
  | extErr via req =>
    refine Obeys.bind walk_law (Sends.walk (sends_rpcResult via req.type true)) fun _ _ => ?_
    exact walk_handleExtRespErr env via req
  | extRetry req => exact walk_sendExtReq req
  | electionTimeout => exact walk_handleElectionTimeout env
  | hbTimeout pid => exact Sends.walk (sends_handleHbTimeout env pid)
  | bgWake => exact walk_bgWake
  | bgIter => exact walk_bgIter env
  | snapshotCompleted result => exact walk_onSnapshotCompleted env result

/-! ## Invariants -/

/-- A process that has ended stays so. -/
theorem Segment.exits (h : Segment s₀ ev s o t) : s.exited = true → t.exited = true := by
  intro hx
  cases h with
  | book hb ho => exact hb.exits hx
  | install he ht hm hl hf hs hn hge hb ho => exact hb.exits hx
  | quit hl hb hx' ho => exact hx'
  | commitConfig he hbg hm hat hc hd hcfg hb ho => exact hb.exits hx
  | _ => exact hx

/-- `I` holds on, unless the process ends. -/
structure Keeps (I : Server → Prop) (s : Server) (_ : List Effect) (t : Server) : Prop where
  exits : s.exited = true → t.exited = true
  keeps : I s → I t ∨ t.exited = true

theorem keeps_law (I : Server → Prop) : Law (Keeps I) where
  refl s := ⟨id, .inl⟩
  trans := by
    intro s t u o o' h h'
    refine ⟨fun hx => h'.exits (h.exits hx), fun hs => ?_⟩
    rcases h.keeps hs with ht | hx
    · exact h'.keeps ht
    · exact .inr (h'.exits hx)

/-- **What the segments of safe events keep, every safe run keeps**, as long as
the process lives. -/
theorem keeps_of_segments {I : Server → Prop} {P : Server → Event → Prop}
    (hseg : ∀ s₀ ev s o t, P s₀ ev → Segment s₀ ev s o t → I s → I t ∨ t.exited = true)
    {run : List (Env × Event)} {s : Server} (hs : I s) (h : s.Along (fun s _ ev => P s ev) run) :
    I (s.runFrom run) ∨ (s.runFrom run).exited = true := by
  refine Along.invariant (I := fun t => I t ∨ t.exited = true) (fun t env ev ht hP => ?_)
    (.inl hs) h
  rcases ht with ht | hx
  · rcases Server.next_exits env ev t with hx | hnext
    · exact .inr hx
    · have hkeeps : Keeps I t _ _ := (handle_path env ev t).lift (keeps_law I)
        fun _ _ _ h => ⟨h.exits, hseg t ev _ _ _ hP h⟩
      rw [hnext]
      exact hkeeps.keeps ht
  · rw [Server.next, if_pos hx]
    exact .inr hx

end Cornerstone
