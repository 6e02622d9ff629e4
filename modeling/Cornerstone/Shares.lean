import Cornerstone.CommitRun
import Cornerstone.Elections
import Cornerstone.PeerSet

/-! # What an event does to a share in the replicated log

What one server holds of the log that a cluster replicates: the term it is in, its vote,
whether it leads, the entries, how far it takes them for committed, and how far it believes its
peers to have them.  Few events change any of it, and only those that add entries say
anything new to others.
-/

namespace Cornerstone
open Handlers Handler Server Splice

/-- A server's share in the replicated log. -/
structure Share where
  term : Nat
  votedFor : Int
  leads : Bool
  done : Bool
  log : List LogEntry
  quick : Nat
  matched : List (Int × Nat)

def Server.share (s : Server) : Share where
  term := s.state.term
  votedFor := s.state.votedFor
  leads := s.role = .leader
  done := s.electionCompleted
  log := s.logStore.entries
  quick := s.quickCommitIdx
  matched := s.peers.map fun p => (p.id, p.matchedIdx)

namespace Share

/-- A share once its server has heard of term `t`. -/
def hears (r : Share) (t : Nat) : Share :=
  if r.term < t then { r with term := t, votedFor := -1, leads := false, done := false } else r

/-- The share of a leader with more entries: without peers it takes them for committed. -/
def grows (r : Share) (es : List LogEntry) : Share :=
  { r with
    log := r.log ++ es
    quick := if r.matched = [] then max r.quick (r.log ++ es).length else r.quick }

/-- The share of a server that takes office and appends `es`. -/
def takesOffice (r : Share) (es : List LogEntry) : Share := ({ r with leads := true, done := true } : Share).grows es

end Share

/-- The configuration the committing thread is about to put in force. -/
def Server.upcomingConfig (s : Server) : Option ClusterConfig :=
  match s.bg with
  | .waiting => none
  | .committing cur =>
    match s.logStore.entryAt? (cur + 1) with
    | none => none
    | some e =>
      match ClusterConfig.deserialize e.buf with
      | none => none
      | some (conf, _) => if e.valType = .conf ∧ s.config.logIdx < conf.logIdx then some conf else none

/-- The servers stay as they are: a configuration that comes into force names this one
and its peers. -/
def KeepsMembers (s : Server) : Event → Prop
  | .bgIter => ∀ conf ∈ s.upcomingConfig, (∀ srv ∈ conf.servers, srv.id ∈ s.id :: s.peerIds) ∧
      ∀ q ∈ s.id :: s.peerIds, q ∈ conf.servers.map SrvConfig.id
  | _ => True

instance decidableKeepsMembers (s : Server) : (ev : Event) → Decidable (KeepsMembers s ev)
  | .bgIter => inferInstanceAs (Decidable (∀ conf ∈ s.upcomingConfig,
      (∀ srv ∈ conf.servers, srv.id ∈ s.id :: s.peerIds) ∧
        ∀ q ∈ s.id :: s.peerIds, q ∈ conf.servers.map SrvConfig.id))
  | .request _ | .peerResp _ _ _ | .peerErr _ _ | .extResp _ _ _ | .extErr _ _ | .extRetry _ | .electionTimeout
  | .hbTimeout _ | .bgWake | .snapshotCompleted _ => inferInstanceAs (Decidable True)

/-- The events that the servers of one configuration see while nothing is compacted. -/
def Event.ordinary : Event → Prop
  | .request req => req.core
  | .peerResp _ _ resp => resp.type ≠ .installSnapshotResponse
  | .peerErr _ _ | .electionTimeout | .hbTimeout _ | .bgWake | .bgIter => True
  | _ => False

variable {s t u : Server} {ev : Event} {o : List Effect} {α : Type}

/-! ## Resting -/

/-- Effects that reach no other server; what is saved is the ballot there is, and a commit
is one of an entry the server has and takes for committed. -/
def Effect.inward (s : Server) : Effect → Prop
  | .saveState st => st.ballot = s.state.ballot
  | .send _ _ | .reply _ _ | .becomeLeader _ _ => False
  | .commit idx e => idx ≤ s.quickCommitIdx ∧ s.logStore.entryAt? idx = some e
  | _ => True

/-- The law of changing nothing about the log, the term and the peers. -/
structure Rests (s : Server) (o : List Effect) (t : Server) : Prop where
  share : t.share = s.share
  poll : t.poll = s.poll
  out : ∀ e ∈ o, e.inward s

theorem Rests.logStore (h : Rests s o t) : t.logStore = s.logStore := by
  have hlog : t.logStore.entries = s.logStore.entries := congrArg Share.log h.share
  have hstart : t.logStore.startIdx = s.logStore.startIdx := congrArg Poll.startIdx h.poll
  cases hs : s.logStore
  cases ht : t.logStore
  simp_all

theorem Rests.ballot (h : Rests s o t) : t.state.ballot = s.state.ballot :=
  congrArg₂ Ballot.mk (congrArg Share.term h.share) (congrArg Share.votedFor h.share)

theorem rests_law : Law Rests where
  refl _ := ⟨rfl, rfl, by simp⟩
  trans := by
    intro s t u o o' h h'
    refine ⟨h'.share.trans h.share, h'.poll.trans h.poll, fun e he => ?_⟩
    rcases List.mem_append.mp he with he | he
    · exact h.out e he
    · have hin := h'.out e he
      have hquick : t.quickCommitIdx = s.quickCommitIdx := congrArg Share.quick h.share
      cases e with
      | saveState st => exact hin.trans h.ballot
      | commit idx e => exact ⟨hquick ▸ hin.1, h.logStore ▸ hin.2⟩
      | send | reply | becomeLeader => exact hin
      | _ => trivial

theorem rests_same (hshare : t.share = s.share) (hpoll : t.poll = s.poll) : Rests s [] t :=
  ⟨hshare, hpoll, by simp⟩

theorem rests_emit {e : Effect} (h : e.inward s) : Rests s [e] s := ⟨rfl, rfl, by simpa using h⟩

theorem rests_exits : Exits Rests := fun _ _ => ⟨rfl, rfl, by simp [Effect.inward]⟩

theorem Rests.bystands (h : Rests s o t) : Bystands s o t := by
  refine ⟨.inl h.poll, fun _ e he => ?_⟩
  have hin := h.out e he
  cases e with
  | send | reply | becomeLeader => exact hin.elim
  | _ => rfl

/-! ## The committing thread -/

theorem rests_takeSnapshot (env : Env) (committedIdx : Nat) : Obeys Rests s (takeSnapshot env committedIdx) := by
  have hlaw := rests_law
  refine .look_bind (.bind hlaw (reads_confInForce hlaw env _) fun _ _ =>
    .bind hlaw (reads_confOrSnapshot hlaw rests_exits env _ _) fun _ _ =>
    .bind hlaw (reads_termAt hlaw _) fun _ _ => ?_)
  exact .change_bind hlaw (rests_same rfl rfl) (rests_emit trivial)

theorem rests_snapshotAndCompact (env : Env) (committedIdx : Nat) :
    Obeys Rests s (snapshotAndCompact env committedIdx) := by
  refine .look_bind (.ite (fun _ => ?_) fun _ => .pure rests_law _)
  refine .change_bind rests_law (rests_same rfl rfl) (.ite (fun _ => rests_same rfl rfl) fun _ => ?_)
  exact .rescue rests_law (rests_takeSnapshot env _) (rests_same rfl rfl)

/-- A configuration with the servers there are adds and removes none. -/
theorem reconfigure_same {newConfig : ClusterConfig} (hsub : ∀ srv ∈ newConfig.servers, srv.id ∈ s.id :: s.peerIds)
    (hsup : ∀ q ∈ s.id :: s.peerIds, q ∈ newConfig.servers.map SrvConfig.id) :
    reconfigure newConfig s = ⟨.ok (), { s with config := newConfig }, []⟩ := by
  have hhas : ∀ q ∈ s.id :: s.peerIds, newConfig.getServer q ≠ none := fun q hq => by
    obtain ⟨srv, hsrv, hid⟩ := List.mem_map.mp (hsup q hq)
    exact getServer_isSome.mpr ⟨srv, hsrv, hid⟩
  have hadded : (newConfig.servers.filter fun srv => srv.id ∉ s.peerIds ∧ srv.id ≠ s.id) = [] := by
    refine List.filter_eq_nil_iff.mpr fun srv hsrv => ?_
    rcases List.mem_cons.mp (hsub srv hsrv) with heq | hmem
    · simp [heq]
    · simp [hmem]
  have hremoved : s.peerIds.filter (fun id => newConfig.getServer id = none) = [] := by
    refine List.filter_eq_nil_iff.mpr fun q hq => ?_
    simpa using hhas q (List.mem_cons_of_mem _ hq)
  simp only [reconfigure, bind_run, look_run, Outcome.andThen_ok, hadded, hremoved,
    if_neg (hhas s.id List.mem_cons_self), List.append_nil, forEach_nil, pure_run, removeServers, ite_run,
    Bool.false_eq_true, if_false, change_run]

theorem rests_commitConfig {cur : Nat} {e : LogEntry} (hbg : s.bg = .committing cur)
    (hat : s.logStore.entryAt? (cur + 1) = some e) (hconf : e.valType = .conf) (h : KeepsMembers s .bgIter) :
    Obeys Rests s (commitConfig e) := by
  have hlaw := rests_law
  unfold commitConfig
  cases hd : ClusterConfig.deserialize e.buf with
  | none => exact .halt hlaw _
  | some p =>
    obtain ⟨conf, rest⟩ := p
    refine .emit_bind hlaw (rests_emit trivial) (.change_bind hlaw (rests_same rfl rfl) ?_)
    refine .bind hlaw (.look_bind (.ite (fun hlt => ?_) fun _ => .pure hlaw _)) fun _ _ => ?_
    · have hup : s.upcomingConfig = some conf := by
        simp only [Server.upcomingConfig, hbg, hat, hd]
        exact if_pos ⟨hconf, hlt⟩
      obtain ⟨hsub, hsup⟩ := h conf hup
      have hrun := reconfigure_same (s := { s with configChanging := false }) hsub hsup
      unfold Obeys
      rw [hrun]
      exact rests_same rfl rfl
    · refine rests_same ?_ ?_ <;> (simp only [change_run, Server.caughtUp]; split <;> rfl)

/-- A round of the committing thread. -/
theorem rests_bgIter (env : Env) (h : KeepsMembers s .bgIter) : Obeys Rests s (bgIter env) := by
  have hlaw := rests_law
  refine .look_bind ?_
  cases hbg : s.bg with
  | waiting => exact .pure hlaw _
  | committing cur =>
    refine .ite (fun hm => ?_) fun _ => .emit_bind hlaw (rests_emit rfl) (rests_same rfl rfl)
    refine .rescue hlaw (.bind hlaw (reads_entryAt hlaw _) fun e he => ?_) (reads_exit rests_exits _)
    have hat : s.logStore.entryAt? (cur + 1) = some e := by
      simp only [entryAt, bind_run, look_run, Outcome.andThen_ok] at he
      cases hx : s.logStore.entryAt? (cur + 1) with
      | none =>
        simp only [hx, ite_run] at he
        split at he <;> cases he
      | some e' =>
        rw [hx] at he
        cases he
        rfl
    rw [entryAt_run hat]
    have hquick : cur < s.quickCommitIdx := by
      simp only [hasMore, Bool.and_eq_true, decide_eq_true_eq] at hm
      exact hm.1
    refine .bind hlaw (.ite (fun _ => rests_emit ⟨hquick, hat⟩) fun _ => .ite (fun hconf => ?_)
      fun _ => .pure hlaw _) fun _ _ => .change_bind hlaw (rests_same ?_ ?_) (rests_snapshotAndCompact env _)
    · exact rests_commitConfig hbg hat hconf h
    · simp [Server.share]
    · simp [Server.poll, Server.peerIds]


/-! ## Requests of a leader -/

theorem share_hears_of_le {n : Nat} (h : n ≤ s.state.term) : s.share.hears n = s.share :=
  if_neg (Nat.not_lt.mpr h)

theorem share_hears_of_lt {n : Nat} (h : s.state.term < n) :
    s.share.hears n = { s.share with term := n, votedFor := -1, leads := false, done := false } := if_pos h

theorem log_hears (r : Share) (n : Nat) : (r.hears n).log = r.log := by
  unfold Share.hears
  split <;> rfl

/-- Whoever hears of its own term or a later one is in that term. -/
theorem term_hears {n : Nat} (h : s.state.term ≤ n) : (s.share.hears n).term = n := by
  rcases h.eq_or_lt with heq | hlt
  · rw [share_hears_of_le heq.ge]
    exact heq
  · rw [share_hears_of_lt hlt]

theorem share_answered (s : Server) (resp : RespMsg) :
    (s.answered resp).share = { s.share with matched := (s.answered resp).share.matched } := by
  unfold Server.answered
  split <;> rfl

theorem Quiet.share (h : Quiet s o t) : t.share = { s.share with quick := t.quickCommitIdx } := by
  have hmatched : t.peers.map (fun p => (p.id, p.matchedIdx)) = s.peers.map fun p => (p.id, p.matchedIdx) := by
    have hmap := congrArg (List.map fun c => (c.1.id, c.2)) h.peers
    rwa [List.map_map, List.map_map] at hmap
  rw [Server.share, hmatched, h.state_eq, h.role_eq, h.electionCompleted_eq, h.logStore_eq]
  rfl

/-- What an effect says is borne out by the state it leaves: a vote that is saved is the one
there is, an append_entries request is a leader's and quotes its log, and what is committed
is in the log.  No answer promises anything but those to clients. -/
def Effect.borneOut (ev : Event) (t : Server) : Effect → Prop
  | .saveState st => st.votedFor ≠ -1 → st.ballot = t.state.ballot
  | .send req _ => req.type = .appendEntriesRequest → t.role = .leader ∧ OwnRequest t t.quickCommitIdx req
  | .reply resp _ => resp.type ≠ .installSnapshotResponse ∧ resp.grants = false ∧
      (resp.type = .appendEntriesResponse → resp.accepted = true →
        ∃ req, ev = .request req ∧ req.type = .clientRequest)
  | .becomeLeader _ _ => False
  | .commit idx e => idx ≤ t.quickCommitIdx ∧ t.logStore.entryAt? idx = some e
  | _ => True

theorem Rests.borneOut (h : Rests s o t) : ∀ e ∈ o, e.borneOut ev t := by
  intro e he
  have hin := h.out e he
  have hquick : t.quickCommitIdx = s.quickCommitIdx := congrArg Share.quick h.share
  cases e with
  | saveState st => exact fun _ => hin.trans h.ballot.symm
  | commit idx e => exact ⟨hquick ▸ hin.1, h.logStore ▸ hin.2⟩
  | send | reply | becomeLeader => exact hin.elim
  | _ => trivial

/-- The law of sending nothing unless one leads. -/
def Mute (s : Server) (o : List Effect) (t : Server) : Prop :=
  s.role ≠ .leader → t.role = s.role ∧ ∀ req m, .send req m ∉ o

theorem mute_law : Law Mute where
  refl _ _ := ⟨rfl, by simp⟩
  trans := by
    intro s t u o o' h h' hr
    obtain ⟨ht, ho⟩ := h hr
    obtain ⟨hu, ho'⟩ := h' (ht ▸ hr)
    refine ⟨hu.trans ht, fun req m hmem => ?_⟩
    rcases List.mem_append.mp hmem with hmem | hmem
    · exact ho req m hmem
    · exact ho' req m hmem

/-- A change of peers. -/
theorem mute_same (h : t.role = s.role) : Mute s [] t := fun _ => ⟨h, by simp⟩

theorem mute_commit (env : Env) (idx : Nat) : Obeys Mute s (commit env idx) := by
  intro hr
  rw [commit_run env idx hr]
  exact ⟨rfl, by simp⟩

theorem mute_continueWith (env : Env) (pid : Int) (b : Bool) : Obeys Mute s (continueWith env pid b) := by
  intro hr
  have hrun : continueWith env pid b s = ⟨.ok (), s, []⟩ := by
    simp [continueWith, hr]
  rw [hrun]
  exact ⟨rfl, by simp⟩

theorem mute_handleAppendEntriesResp (env : Env) (resp : RespMsg) :
    Obeys Mute s (handleAppendEntriesResp env resp) := by
  have hlaw := mute_law
  refine .look_bind ?_
  cases s.findPeer resp.src with
  | none => exact .pure hlaw _
  | some p =>
    have haccepted : Obeys Mute s (acceptedAppend env resp) :=
      .change_bind hlaw (mute_same rfl) (.look_bind (.bind hlaw (mute_commit env _) fun _ _ =>
        .look_bind (.change_bind hlaw (mute_same rfl) (.pure hlaw _))))
    have hdeclined : Obeys Mute s (declinedAppend resp p) := by
      unfold declinedAppend
      exact .ite (fun _ => .change_bind hlaw (mute_same rfl) (.pure hlaw _))
        fun _ => .change_bind hlaw (mute_same rfl) (.pure hlaw _)
    exact .ite (fun _ => .bind hlaw haccepted fun b _ => mute_continueWith env _ b)
      fun _ => .bind hlaw hdeclined fun b _ => mute_continueWith env _ b

theorem mute_handleHbTimeout (env : Env) (pid : Int) : Obeys Mute s (handleHbTimeout env pid) := by
  intro hr
  have hrun : handleHbTimeout env pid s = ⟨.ok (), s, []⟩ := by
    simp [handleHbTimeout, hr]
  rw [hrun]
  exact ⟨rfl, by simp⟩

/-- The requests of a leader are borne out. -/
theorem Quiet.borneOut (h : Quiet s o t) (hm : s.role ≠ .leader → ∀ req m, .send req m ∉ o) :
    ∀ e ∈ o, e.borneOut ev t := by
  intro e he
  have hreq := (h.out e he).mono (s := t) h.id_eq.symm h.state_eq.symm h.logStore_eq.symm h.peerIds_eq.symm
    (le_refl t.quickCommitIdx)
  cases hreq with
  | send hown =>
    refine fun _ => ⟨?_, hown⟩
    rw [h.role_eq]
    by_contra hr
    exact hm hr _ _ he
  | sendExt req => trivial
  | systemExit code => trivial

/-- `request_append_entries()` of a leader: it sends, and without peers commits. -/
theorem share_requestAppendEntries (env : Env) (h1 : s.logStore.startIdx = 1) :
    (requestAppendEntries env s).state.share = s.share.grows [] := by
  have hquiet : Quiet s _ _ := quiet_requestAppendEntries env
  have hmatched : s.share.matched = [] ↔ s.peers.length = 0 := by simp [Server.share]
  have hlast : s.logStore.nextSlot - 1 = s.logStore.entries.length := by
    rw [LogStore.nextSlot, h1]
    omega
  have hquick : (requestAppendEntries env s).state.quickCommitIdx = (s.share.grows []).quick := by
    simp only [Share.grows, List.append_nil]
    by_cases hp : s.peers.length = 0
    · have hrun : requestAppendEntries env s = commit env (s.logStore.nextSlot - 1) s := by
        simp only [requestAppendEntries, bind_run, look_run, Outcome.andThen_ok, ite_run, if_pos hp,
          List.nil_append]
      rw [hrun, commit_quick, hlast, if_pos (hmatched.mpr hp)]
      rfl
    · have hsends : Sends s (requestAppendEntries env s).out (requestAppendEntries env s).state := by
        refine Obeys.look_bind (.ite (fun h => absurd h hp) fun _ => ?_)
        refine Obeys.forEach sends_law (fun _ => True) trivial fun pid _ s _ => ⟨?_, trivial⟩
        exact .bind sends_law (sends_requestAppendEntriesTo env pid) fun _ _ => .pure sends_law _
      rw [hsends.quick_eq, if_neg (mt hmatched.mp hp)]
      rfl
  rw [hquiet.share, hquick]
  simp only [Share.grows, List.append_nil]

/-! ## Events -/

/-- What an event makes of the share of a server, and what it says of it. -/
inductive Shares (s : Server) (ev : Event) : List Effect → Server → Prop
  /-- Nothing changes but for a term it may hear of. -/
  | hears (n : Nat) {o : List Effect} {t : Server} (h : t.share = s.share.hears n)
      (ho : ∀ e ∈ o, e.borneOut ev t) : Shares s ev o t
  /-- All have responded to its request for votes. -/
  | closes {o : List Effect} {t : Server} (h : t.share = { s.share with done := true })
      (ho : ∀ e ∈ o, e.borneOut ev t) : Shares s ev o t
  /-- It takes in the entries of a leader and says so. -/
  | accepts {req : ReqMsg} {resp : RespMsg} {m : SrvState} {o : List Effect} {t : Server}
      (he : ev = .request req) (ht : req.type = .appendEntriesRequest) (hle : s.state.term ≤ req.term)
      (hr : (s.share.hears req.term).leads = false) (hprev : s.logStore.hasPrev req = true)
      (h : t.share = { s.share.hears req.term with
        log := s.logStore.entries.take req.lastLogIdx ++
          splice LogEntry.term (s.logStore.entries.drop req.lastLogIdx) req.logEntries
        quick := max s.quickCommitIdx req.commitIdx })
      (htype : resp.type = .appendEntriesResponse) (hsrc : resp.src = s.id) (hterm : resp.term = req.term)
      (hnext : resp.nextIdx = req.lastLogIdx + req.logEntries.length + 1)
      (ho : ∀ e ∈ o, e.borneOut ev t) : Shares s ev (o ++ [.reply resp m]) t
  /-- It gives its vote to a server with a log as up to date as its own. -/
  | grants {req : ReqMsg} {resp : RespMsg} {m : SrvState} {o : List Effect} {t : Server}
      (he : ev = .request req) (ht : req.type = .requestVoteRequest) (hle : s.state.term ≤ req.term)
      (hokay : s.voteLogOkay req = true)
      (hv : (s.share.hears req.term).votedFor = req.src ∨ (s.share.hears req.term).votedFor = -1)
      (h : t.share = { s.share.hears req.term with votedFor := req.src })
      (htype : resp.type = .requestVoteResponse) (hterm : resp.term = req.term) (hdst : resp.dst = req.src)
      (ho : ∀ e ∈ o, e.borneOut ev t) : Shares s ev (o ++ [.reply resp m]) t
  | stands {o : List Effect} {t : Server} (he : ev = .electionTimeout) (hr : s.role ≠ .leader)
      (h : t.share = s.campaign.share) (ho : ∀ e ∈ o, e.borneOut ev t) : Shares s ev o t
  /-- It takes office, in the term it is in or at once in the one it stands in. -/
  | leads {r : Share} {es : List LogEntry} {n : Nat} {o o' : List Effect} {t : Server}
      (hr : (r = s.share ∧ s.electionCompleted = false ∧
          ∃ via reqType resp, ev = .peerResp via reqType resp ∧ resp.type = .requestVoteResponse) ∨
        r = s.campaign.share ∧ ev = .electionTimeout ∧ s.role ≠ .leader ∧ s.peerIds = [])
      (hes : ∀ e ∈ es, e.term = r.term) (h : t.share = r.takesOffice es)
      (ho : ∀ e ∈ o, e.borneOut ev t) (ho' : ∀ e ∈ o', e.borneOut ev t) :
      Shares s ev (o ++ .becomeLeader r.term n :: o') t
  /-- It appends the entries of a client. -/
  | serves {req : ReqMsg} {o : List Effect} {t : Server} (he : ev = .request req)
      (ht : req.type = .clientRequest) (hr : s.role = .leader) (h : t.share = s.share.grows req.logEntries)
      (ho : ∀ e ∈ o, e.borneOut ev t) : Shares s ev o t
  /-- It hears how much of the log a peer has. -/
  | answers {via : Option PeerRef} {reqType : MsgType} {resp : RespMsg} {o : List Effect} {t : Server}
      (he : ev = .peerResp via reqType resp) (ht : resp.type = .appendEntriesResponse)
      (hle : resp.term ≤ s.state.term)
      (h : t.share = { (s.answered resp).share with
        quick := if resp.accepted = true ∧ resp.src ∈ s.peerIds then max s.quickCommitIdx (s.responseIdx resp)
          else s.quickCommitIdx })
      (ho : ∀ e ∈ o, e.borneOut ev t) : Shares s ev o t

theorem Rests.shares (h : Rests s o t) : Shares s ev o t :=
  .hears 0 (h.share.trans (share_hears_of_le (Nat.zero_le _)).symm) h.borneOut

theorem Sends.share (h : Sends s o t) : t.share = s.share := by
  rw [h.quiet.share, h.quick_eq]
  rfl

theorem Sends.shares (h : Sends s o t) (hm : s.role ≠ .leader → ∀ req m, .send req m ∉ o) : Shares s ev o t :=
  .hears 0 (h.share.trans (share_hears_of_le (Nat.zero_le _)).symm) (h.quiet.borneOut hm)

theorem Shares.of_share {x : Bool} (h : Shares s ev o t) : Shares s ev o { t with exited := x } := by
  have hmove : ∀ {o : List Effect}, (∀ e ∈ o, e.borneOut ev t) →
      ∀ e ∈ o, e.borneOut ev { t with exited := x } := by
    intro o ho e he
    have hsaid := ho e he
    cases e with
    | send req m => exact fun htype => ⟨(hsaid htype).1, { (hsaid htype).2 with }⟩
    | saveState | reply | becomeLeader | commit => exact hsaid
    | _ => trivial
  cases h with
  | hears n h ho => exact .hears n h (hmove ho)
  | closes h ho => exact .closes h (hmove ho)
  | accepts he ht hle hr hprev h htype hsrc hterm hnext ho =>
    exact .accepts he ht hle hr hprev h htype hsrc hterm hnext (hmove ho)
  | grants he ht hle hokay hv h htype hterm hdst ho =>
    exact .grants he ht hle hokay hv h htype hterm hdst (hmove ho)
  | stands he hr h ho => exact .stands he hr h (hmove ho)
  | leads hr hes h ho ho' => exact .leads hr hes h (hmove ho) (hmove ho')
  | serves he ht hr h ho => exact .serves he ht hr h (hmove ho)
  | answers he ht hle h ho => exact .answers he ht hle h (hmove ho)

/-! ## Requests -/

theorem share_noted (n : Nat) : (s.noted n).share = s.share.hears n := by
  have hmatched : ((s.inTerm n).peers.map fun p => (p.id, p.matchedIdx)) =
      s.peers.map fun p => (p.id, p.matchedIdx) := by
    simp only [Server.inTerm, List.map_map]
    rfl
  have hraised : (s.inTerm n).share = { s.share with term := n, votedFor := -1, leads := false, done := false } := by
    rw [Server.share, hmatched]
    rfl
  by_cases hlt : s.state.term < n
  · have hhears : s.share.hears n = (s.inTerm n).share := by
      rw [hraised]
      exact if_pos hlt
    rw [hhears, Server.noted, if_pos hlt]
    split <;> rfl
  · rw [share_hears_of_le (Nat.not_lt.mp hlt), Server.noted, if_neg hlt]
    split <;> rfl

theorem noted_id (s : Server) (n : Nat) : (s.noted n).id = s.id := by
  have hdown : ∀ u : Server, (if u.stepsToDown > 0 then { u with stepsToDown := 2 } else u).id = u.id := by
    intro u
    split <;> rfl
  rw [Server.noted, hdown]
  split <;> rfl

theorem share_followed (b : Bool) (hr : s.role ≠ .leader) : (s.followed b).share = s.share := by
  unfold Server.followed
  split
  · simp only [Server.share, List.map_map, hr]
    rfl
  · rfl

/-- A leader declines the entries of others, or ends when they are of its own term. -/
theorem handleAppendEntries_leader (env : Env) (req : ReqMsg) (h1 : s.logStore.startIdx = 1)
    (hr : s.role = .leader) (hle : req.term ≤ s.state.term) :
    handleAppendEntries env req s = ⟨.error .exit, { s with exited := true }, [.systemExit (-1)]⟩ ∨
      handleAppendEntries env req s = ⟨.ok (s.appendResp req), s, []⟩ := by
  have hne : s.role ≠ .candidate := by
    rw [hr]
    decide
  by_cases heq : req.term = s.state.term
  · refine .inl ?_
    simp only [handleAppendEntries, followLeader, bind_run, look_run, Outcome.andThen_ok, heq, decide_true,
      ite_run, if_true, if_neg hne, if_pos hr, systemExitAndExit, emit_run, change_run, halt_run]
    rfl
  · refine .inr ?_
    have hlt : req.term < s.state.term := by omega
    simp only [handleAppendEntries, followLeader, bind_run, look_run, Outcome.andThen_ok, heq, decide_false,
      Bool.false_eq_true, if_false, pure_run, appendLogOkay_run env req h1, hlt, true_or, if_true,
      List.nil_append]
    rfl

/-- An append_entries request. -/
theorem shares_appendReq (env : Env) {req : ReqMsg} (h1 : s.logStore.startIdx = 1)
    (ht : req.type = .appendEntriesRequest) :
    Shares s (.request req) (processReq env req s).out (processReq env req s).state := by
  have hrun := noteTerm_run (s := s) (.inl ht)
  have hshare := share_noted (s := s) req.term
  obtain ⟨hlog, -, -, hterm, -, -⟩ := noted_rest s req.term
  set n := s.noted req.term with hn
  set o := if s.state.term < req.term then [Effect.saveState (s.inTerm req.term).state] else [] with ho
  have ho' : ∀ e ∈ o, ∀ t, e.borneOut (.request req) t := by
    intro e he t
    rw [ho] at he
    split at he
    · rw [List.mem_singleton.mp he]
      exact fun hv => absurd rfl hv
    · cases he
  have hdeclines : ∀ {u : Server} {resp : RespMsg}, handleAppendEntries env req n = ⟨.ok resp, u, []⟩ →
      u.share = n.share → resp.accepted = false → resp.type = .appendEntriesResponse →
      Shares s (.request req) (processReq env req s).out (processReq env req s).state := by
    intro u resp hans hu hacc htype
    rw [processReq_run hrun (show answerReq env req n = _ by rw [answerReq, ht]; exact hans), List.nil_append]
    refine .hears req.term (hu.trans hshare) fun e he => ?_
    rcases List.mem_append.mp he with he | he
    · exact ho' e he u
    · rw [List.mem_singleton.mp he]
      exact ⟨by rw [htype]; decide, by simp [RespMsg.grants, htype], fun _ h => by rw [hacc] at h; cases h⟩
  have h1' : n.logStore.startIdx = 1 := hlog ▸ h1
  have hle : req.term ≤ n.state.term := by
    rw [hterm]
    exact le_max_right _ _
  by_cases hr : n.role = .leader
  · rcases handleAppendEntries_leader env req h1' hr hle with hexit | hdecl
    · have hproc : processReq env req s = ⟨.error .exit, { n with exited := true }, o ++ [.systemExit (-1)]⟩ := by
        simp only [processReq, bind_run, hrun, Outcome.andThen_ok, answerReq, ht, hexit, Outcome.andThen_error]
      rw [hproc]
      refine .hears req.term hshare fun e he => ?_
      rcases List.mem_append.mp he with he | he
      · exact ho' e he _
      · rw [List.mem_singleton.mp he]
        trivial
    · exact hdeclines hdecl rfl rfl rfl
  · have hans := handleAppendEntries_run env req h1' hr
    split at hans
    · exact hdeclines hans (share_followed _ hr) rfl rfl
    · rename_i hok
      obtain ⟨hge, hprev⟩ := not_or.mp hok
      have heq : req.term = n.state.term := Nat.le_antisymm hle (Nat.not_lt.mp hge)
      rw [processReq_run hrun (show answerReq env req n = _ by rw [answerReq, ht]; exact hans), ← List.append_assoc]
      obtain ⟨p, j, r, hf, hrole⟩ := followed_rest (s := n) (decide (req.term = n.state.term))
      have hfollowed := share_followed (decide (req.term = n.state.term)) hr
      have hquick : n.quickCommitIdx = s.quickCommitIdx := (congrArg Share.quick hshare).trans (by
        unfold Share.hears
        split <;> rfl)
      have hfirst : (n.followed (req.term = n.state.term)).logStore = s.logStore := by
        rw [hf]
        exact hlog
      have hentries := @replicate_entries (n.followed (req.term = n.state.term)) req.lastLogIdx req.logEntries
        (by rw [hfirst, h1]; omega)
      rw [hfirst, h1, Nat.add_sub_cancel, LogStore.tail, h1, Nat.add_sub_cancel] at hentries
      refine .accepts rfl ht ?_ ?_ ?_ ?_ rfl (noted_id s req.term) heq.symm rfl fun e he => ?_
      · rw [heq, hterm]
        exact le_max_left _ _
      · rw [← hshare]
        exact decide_eq_false hr
      · rw [← hlog]
        simpa using hprev
      · rw [← hshare, ← hfollowed, ← hentries, ← hquick, hf]
        rfl
      · rcases List.mem_append.mp he with he | he
        · exact ho' e he _
        · obtain ⟨i, x, rfl | rfl⟩ := mem_writeEffects he
          · trivial
          · trivial

/-- A request for a vote. -/
theorem shares_voteReq (env : Env) {req : ReqMsg} (h : req.type = .requestVoteRequest) :
    Shares s (.request req) (processReq env req s).out (processReq env req s).state := by
  have hrun := noteTerm_run (s := s) (.inr (.inl h))
  have hshare := share_noted (s := s) req.term
  obtain ⟨hlog, -, -, hterm, -, -⟩ := noted_rest s req.term
  set n := s.noted req.term with hn
  set o := if s.state.term < req.term then [Effect.saveState (s.inTerm req.term).state] else [] with ho
  have ho' : ∀ e ∈ o, ∀ t, e.borneOut (.request req) t := by
    intro e he t
    rw [ho] at he
    split at he
    · rw [List.mem_singleton.mp he]
      exact fun hv => absurd rfl hv
    · cases he
  have hanswer : answerReq env req n = handleVoteReq req n := by rw [answerReq, h]
  rw [handleVoteReq_run] at hanswer
  split at hanswer
  · rename_i hg
    simp only [Server.grants, decide_eq_true_eq] at hg
    obtain ⟨heq, hokay, hv⟩ := hg
    rw [processReq_run hrun hanswer, ← List.append_assoc]
    refine .grants rfl h ?_ ?_ ?_ ?_ rfl heq.symm rfl fun e he => ?_
    · rw [heq, hterm]
      exact le_max_left _ _
    · rwa [Server.voteLogOkay, hlog] at hokay
    · rw [← hshare]
      exact hv
    · rw [← hshare]
      rfl
    · rcases List.mem_append.mp he with he | he
      · exact ho' e he _
      · rw [List.mem_singleton.mp he]
        exact fun _ => rfl
  · rw [processReq_run hrun hanswer, List.nil_append]
    refine .hears req.term hshare fun e he => ?_
    rcases List.mem_append.mp he with he | he
    · exact ho' e he _
    · rw [List.mem_singleton.mp he]
      exact ⟨show MsgType.requestVoteResponse ≠ _ by decide, rfl, fun happ => by cases happ⟩

/-- The loop of `handle_cli_req`. -/
theorem appendClientEntries_run : ∀ (es : List LogEntry) (s : Server), ∃ o,
    appendClientEntries es s =
      ⟨.ok (), { s with logStore := { s.logStore with entries := s.logStore.entries ++ es } }, o⟩ ∧
      ∀ e ∈ o, ∀ ev t, e.borneOut ev t
  | [], s => ⟨[], by simp [appendClientEntries], by simp⟩
  | e :: es, s => by
    obtain ⟨o, hrun, ho⟩ := appendClientEntries_run es { s with logStore := s.logStore.append e }
    simp only [appendClientEntries, originate, bind_run, look_run, emit_run, change_run, Outcome.andThen_ok,
      List.nil_append, List.append_nil, hrun, LogStore.append_entries, List.append_assoc, List.singleton_append]
    refine ⟨_, rfl, fun w hw => ?_⟩
    rcases List.mem_cons.mp hw with rfl | hw
    · exact fun _ _ => trivial
    · rcases List.mem_cons.mp hw with rfl | hw
      · exact fun _ _ => trivial
      · exact ho w hw

/-- A client request. -/
theorem shares_clientReq (env : Env) {req : ReqMsg} (h1 : s.logStore.startIdx = 1)
    (ht : req.type = .clientRequest) :
    Shares s (.request req) (processReq env req s).out (processReq env req s).state := by
  have hpure : noteTerm req = pure () := if_neg (by simp [ht])
  have hreply : ∀ (resp : RespMsg) (m : SrvState) (t : Server), resp.type = .appendEntriesResponse →
      (Effect.reply resp m).borneOut (.request req) t := fun resp m t htype =>
    ⟨by rw [htype]; decide, by simp [RespMsg.grants, htype], fun _ _ => ⟨req, rfl, ht⟩⟩
  have hproc : processReq env req s = (handleCliReq env req >>= reply) s := by
    simp only [processReq, hpure, bind_run, pure_run, Outcome.andThen_ok, List.nil_append, answerReq, ht]
  rw [hproc]
  by_cases hr : s.role = .leader
  · obtain ⟨o, hrun, ho⟩ := appendClientEntries_run req.logEntries s
    set u : Server := { s with logStore := { s.logStore with entries := s.logStore.entries ++ req.logEntries } } with hu
    have hquiet : Quiet u _ _ := quiet_requestAppendEntries env
    have hshare : (requestAppendEntries env u).state.share = s.share.grows req.logEntries := by
      rw [share_requestAppendEntries (s := u) env h1]
      simp only [Share.grows, List.append_nil]
      rfl
    have hsaid : ∀ e ∈ (requestAppendEntries env u).out, e.borneOut (.request req) (requestAppendEntries env u).state :=
      hquiet.borneOut fun hn => absurd hr hn
    simp only [handleCliReq, bind_run, look_run, Outcome.andThen_ok, ite_run, hr, ne_eq, not_true_eq_false,
      if_false, hrun, List.nil_append]
    cases hres : (requestAppendEntries env u).res with
    | error e =>
      simp only [Outcome.andThen, hres]
      refine .serves rfl ht hr hshare fun w hw => ?_
      rcases List.mem_append.mp hw with hw | hw
      · exact ho w hw _ _
      · exact hsaid w hw
    | ok a =>
      simp only [Outcome.andThen, hres, reply, bind_run, look_run, pure_run, emit_run, List.append_nil,
        List.nil_append]
      refine .serves rfl ht hr hshare fun w hw => ?_
      rcases List.mem_append.mp hw with hw | hw
      · rcases List.mem_append.mp hw with hw | hw
        · exact ho w hw _ _
        · exact hsaid w hw
      · rw [List.mem_singleton.mp hw]
        exact hreply _ _ _ rfl
  · have hlow : (handleCliReq env req >>= reply) s = ⟨.ok (), s, [.reply
        { term := s.state.term, type := .appendEntriesResponse, src := s.id, dst := s.leader } s.state]⟩ := by
      simp only [handleCliReq, bind_run, look_run, Outcome.andThen_ok, ite_run, hr, ne_eq, not_false_eq_true,
        if_true, pure_run, reply, emit_run, List.nil_append]
    rw [hlow]
    refine .hears 0 (share_hears_of_le (Nat.zero_le _)).symm fun w hw => ?_
    rw [List.mem_singleton.mp hw]
    exact hreply _ _ _ rfl

/-! ## Elections -/

theorem share_leading : s.leading.share = { s.share with leads := true } := by
  have hmatched : (s.leading.peers.map fun p => (p.id, p.matchedIdx)) = s.peers.map fun p => (p.id, p.matchedIdx) := by
    simp only [Server.leading, List.map_map]
    rfl
  rw [Server.share, hmatched]
  rfl

/-- **Taking office** appends a configuration, if there was none, and sends requests. -/
theorem becomeLeader_shares (env : Env) (h1 : s.logStore.startIdx = 1) : ∃ es o,
    (∀ e ∈ es, e.term = s.state.term) ∧
    (becomeLeader env s).state.share = ({ s.share with leads := true } : Share).grows es ∧
    (becomeLeader env s).out = .becomeLeader s.state.term s.votesGranted :: o ∧
    ∀ e ∈ o, ∀ ev, e.borneOut ev (becomeLeader env s).state := by
  have helected : ∃ es, (∀ e ∈ es, e.term = s.state.term) ∧ s.elected.logStore.startIdx = 1 ∧
      s.elected.role = .leader ∧ s.elected.share = { s.share with leads := true, log := s.logStore.entries ++ es } := by
    unfold Server.elected
    split
    · refine ⟨[s.leading.firstConfigEntry], ?_, h1, rfl, ?_⟩
      · intro e he
        rw [List.mem_singleton.mp he]
        rfl
      · have hfirst : s.leading.firstConfig.share =
            { s.leading.share with log := s.logStore.entries ++ [s.leading.firstConfigEntry] } := rfl
        rw [hfirst, share_leading]
    · refine ⟨[], by simp, h1, rfl, ?_⟩
      rw [share_leading, List.append_nil]
      rfl
  obtain ⟨es, hes, h1', hrole, hshare⟩ := helected
  have hquiet : Quiet s.elected _ _ := quiet_requestAppendEntries env
  have hsaid : ∀ e ∈ (requestAppendEntries env s.elected).out, ∀ ev,
      e.borneOut ev (requestAppendEntries env s.elected).state := fun e he ev =>
    hquiet.borneOut (fun hn => absurd hrole hn) e he
  rw [becomeLeader_run]
  refine ⟨es, _, hes, ?_, rfl, fun e he ev => ?_⟩
  · show (requestAppendEntries env s.elected).state.share = _
    rw [share_requestAppendEntries env h1', hshare]
    simp only [Share.grows, List.append_nil]
    rfl
  · rcases List.mem_append.mp he with he | he
    · split at he
      · rw [List.mem_singleton.mp he]
        trivial
      · cases he
    · exact hsaid e he ev

theorem shares_handleElectionTimeout (env : Env) (h1 : s.logStore.startIdx = 1) :
    Shares s .electionTimeout (handleElectionTimeout env s).out (handleElectionTimeout env s).state := by
  by_cases hstand : s.Standing
  · have hcamp : ∀ e ∈ s.campaignEffects, ∀ t, s.campaign.state.ballot = t.state.ballot →
        e.borneOut .electionTimeout t := by
      intro e he t ht
      rcases List.mem_cons.mp he with rfl | he
      · exact fun hv => absurd rfl hv
      · rw [List.mem_singleton.mp he]
        exact fun _ => ht
    rw [handleElectionTimeout_run env hstand]
    split
    · rename_i hnone
      have hp : s.peerIds = [] := by
        rw [Server.peerIds, List.length_eq_zero_iff.mp hnone, List.map_nil]
      obtain ⟨es, o, hes, hshare, hout, ho⟩ := becomeLeader_shares (s := s.wonAlone) env h1
      simp only [hout]
      have hballot : s.campaign.state.ballot = (becomeLeader env s.wonAlone).state.state.ballot :=
        (congrArg₂ Ballot.mk (congrArg Share.term hshare) (congrArg Share.votedFor hshare)).symm
      exact .leads (.inr ⟨rfl, rfl, hstand.role, hp⟩) hes hshare (fun e he => hcamp e he _ hballot)
        fun e he => ho e he _
    · have hrun := requestVotes_run (s := s.campaign) env h1 s.peerIds
      simp only [hrun]
      refine .stands rfl hstand.role rfl fun e he => ?_
      rcases List.mem_append.mp he with he | he
      · exact hcamp e he _ rfl
      · obtain ⟨pid, -, rfl⟩ := List.mem_map.mp he
        exact fun htype => by cases htype
  · refine Rests.shares ?_
    have hlaw := rests_law
    refine Obeys.look_bind (.ite (fun _ => .change_bind hlaw (rests_same rfl rfl) (.look_bind (.ite (fun _ => ?_)
      fun _ => .pure hlaw _))) fun hdown => .ite (fun _ => .pure hlaw _) fun hcatch =>
      .ite (fun _ => reads_exit rests_exits _) fun hrole => ?_)
    · split
      · exact reads_exit rests_exits _
      · refine .change_bind hlaw (rests_same rfl rfl) (.look_bind (.emit_bind hlaw (rests_emit trivial) ?_))
        exact reads_exit rests_exits _
    · exact absurd ⟨hdown, by simpa using hcatch, hrole⟩ hstand

/-- A response to a request for votes, at a server that was `s` before its peer took note of it. -/
theorem shares_handleVotingResp (env : Env) {s' : Server} (hs : Sends s [] s') (h1 : s'.logStore.startIdx = 1)
    (via : Option PeerRef) (reqType : MsgType) {resp : RespMsg} (htype : resp.type = .requestVoteResponse) :
    Shares s (.peerResp via reqType resp) (handleVotingResp env resp s').out (handleVotingResp env resp s').state := by
  have hsame := hs.share
  have hdone : s'.electionCompleted = s.electionCompleted := hs.quiet.electionCompleted_eq
  cases hopen : s'.electionCompleted with
  | true =>
    rw [handleVotingResp_done env resp hopen]
    exact .hears 0 (hsame.trans (share_hears_of_le (Nat.zero_le _)).symm) (by simp)
  | false =>
    have hrest := counted_rest (s := s') resp.accepted
    have hcount : ∀ b, ({ s'.counted resp.accepted with electionCompleted := b } : Server).share =
        { s.share with done := b } := by
      intro b
      rw [hrest, ← hsame]
      rfl
    rw [handleVotingResp_run env resp hopen]
    split
    · have h1' : (s'.counted resp.accepted).logStore.startIdx = 1 := by
        rw [hrest]
        exact h1
      obtain ⟨es, o, hes, hshare, hout, ho⟩ := becomeLeader_shares
        (s := { s'.counted resp.accepted with electionCompleted := true }) env h1'
      have hterm : (s'.counted resp.accepted).state.term = s.share.term :=
        congrArg Share.term (hcount true)
      rw [hcount] at hshare
      rw [hout]
      simp only [hterm] at hes ⊢
      exact .leads (o := []) (.inl ⟨rfl, hdone.symm.trans hopen, via, reqType, resp, rfl, htype⟩) hes hshare (by simp) fun e he => ho e he _
    · have hnow := hcount (s'.counted resp.accepted).electionCompleted
      cases hclosed : (s'.counted resp.accepted).electionCompleted with
      | true =>
        rw [hclosed] at hnow
        exact .closes (by rw [← hnow, ← hclosed]) (by simp)
      | false =>
        rw [hclosed] at hnow
        refine .hears 0 ?_ (by simp)
        rw [share_hears_of_le (Nat.zero_le _)]
        have hopen' : s.share.done = false := hdone.symm.trans hopen
        calc (s'.counted resp.accepted).share = { s.share with done := false } := by rw [← hnow, ← hclosed]
          _ = s.share := by rw [← hopen']

/-- A response of a peer. -/
theorem shares_peerResp (env : Env) (via : Option PeerRef) (reqType : MsgType) {resp : RespMsg}
    (h1 : s.logStore.startIdx = 1) (hne : resp.type ≠ .installSnapshotResponse) :
    Shares s (.peerResp via reqType resp) (handle env (.peerResp via reqType resp) s).out
      (handle env (.peerResp via reqType resp) s).state := by
  obtain ⟨s', hsends, hrun⟩ := peerResp_run (s := s) env via reqType resp
  have hq := hsends.quiet
  have hsame := hsends.share
  rw [hrun]
  rcases Nat.lt_or_ge s'.state.term resp.term with hlt | hge
  · rw [handlePeerResp_of_lt env hlt]
    have hnoted : s'.share.hears resp.term = (s'.inTerm resp.term).share := by
      rw [← share_noted, Server.noted, if_pos hlt]
      split <;> rfl
    exact .hears resp.term (by rw [← hsame, hnoted]) (by simp [Effect.borneOut])
  · have h1' : s'.logStore.startIdx = 1 := hq.logStore_eq ▸ h1
    have hle : resp.term ≤ s.state.term := hq.state_eq ▸ hge
    have hrests : ∀ {o : List Effect} {t : Server}, Rests s' o t → Shares s (.peerResp via reqType resp) o t := by
      intro o t h
      exact .hears 0 ((h.share.trans hsame).trans (share_hears_of_le (Nat.zero_le _)).symm) h.borneOut
    rw [handlePeerResp_of_le env hge]
    cases hty : resp.type with
    | requestVoteResponse => exact shares_handleVotingResp env hsends h1' via reqType hty
    | appendEntriesResponse =>
      have hans := answers_handleAppendEntriesResp hsends env resp
      have hmute : Mute s' _ _ := mute_handleAppendEntriesResp env resp
      have hrole : (s.answered resp).role = s'.role := by
        rw [hq.role_eq, Server.answered]
        split <;> rfl
      refine .answers rfl hty hle ?_ (hans.quiet.borneOut fun hn => (hmute (hrole ▸ hn)).2)
      rw [hans.quiet.share, hans.quick]
    | installSnapshotResponse => exact absurd hty hne
    | _ => exact hrests (reads_exit rests_exits _)

/-- **What an event makes of a share of the log**, at a server that was never compacted. -/
theorem shares_next (env : Env) {ev : Event} (h1 : s.logStore.startIdx = 1) (hev : ev.ordinary)
    (hkeep : KeepsMembers s ev) : Shares s ev (s.effects env ev) (s.next env ev) := by
  rcases Server.effects_cases env ev s with ⟨hx, ho⟩ | ⟨hx, ho⟩
  · rw [ho, Server.next, if_pos hx]
    exact Rests.shares (rests_law.refl s)
  · obtain ⟨x, hnext⟩ := Server.next_of_live env ev hx
    rw [ho, hnext]
    refine Shares.of_share ?_
    cases ev with
    | request req =>
      rcases hev with h | h | h
      · exact shares_appendReq env h1 h
      · exact shares_voteReq env h
      · exact shares_clientReq env h1 h
    | peerResp via reqType resp => exact shares_peerResp env via reqType h1 hev
    | peerErr via reqType =>
      have hsends : Sends s _ _ := sends_rpcResult via reqType true
      have hout : (rpcResult via reqType true s).out = [] := by cases via <;> rfl
      refine hsends.shares fun _ req m hmem => ?_
      rw [hout] at hmem
      cases hmem
    | electionTimeout => exact shares_handleElectionTimeout env h1
    | hbTimeout pid =>
      have hsends : Sends s _ _ := sends_handleHbTimeout env pid
      have hmute : Mute s _ _ := mute_handleHbTimeout env pid
      exact hsends.shares fun hr => (hmute hr).2
    | bgWake =>
      exact Rests.shares (Obeys.look_bind (.ite (fun _ => rests_same rfl rfl) fun _ => .pure rests_law _))
    | bgIter => exact Rests.shares (rests_bgIter env hkeep)
    | _ => exact hev.elim

/-- **What an event makes of a poll**, when the servers stay as they are. -/
theorem polls_ordinary (env : Env) {ev : Event} (h1 : s.logStore.startIdx = 1) (hev : ev.ordinary)
    (hkeep : KeepsMembers s ev) : Polls s ev (s.effects env ev) (s.next env ev) := by
  cases ev with
  | bgIter =>
    rcases Server.effects_cases env .bgIter s with ⟨hx, ho⟩ | ⟨hx, ho⟩
    · rw [ho, Server.next, if_pos hx]
      exact .bystands (bystands_law.refl s)
    · obtain ⟨x, hnext⟩ := Server.next_of_live env .bgIter hx
      rw [ho, hnext]
      have hrests : Rests s _ _ := rests_bgIter env hkeep
      exact Polls.of_poll (.bystands hrests.bystands) rfl
  | request req => exact polls_next env h1 hev
  | peerResp | peerErr | electionTimeout | hbTimeout | bgWake => exact polls_next env h1 trivial
  | _ => exact hev.elim

end Cornerstone
