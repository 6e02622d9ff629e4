import Cornerstone.LogMatching
import Cornerstone.OfficeMoves
import Cornerstone.OneRequest
import Mathlib.Data.Finset.Max
import Mathlib.Data.Prod.Lex

/-! # A leader can be elected

What elections never do is shown elsewhere; here it is that they do not get stuck.  Whatever
has happened in a run of elections in order, where more than half of the members run and none
of them is in office, one of them can still be elected, in order, by its own timeouts and by
the requests and the answers it exchanges with the others.
-/

namespace Cornerstone
open Handlers Handler Server

variable {s t : Server} {req : ReqMsg} {resp : RespMsg} {o : List Effect}

/-! ## What a server does for an election -/

/-- A server that runs out of office with the log that `s` has, and is not past the term `T`. -/
structure Server.Backs (s : Server) (T : Nat) (t : Server) : Prop where
  runs : t.exited = false
  role : t.role ≠ .leader
  term : t.state.term ≤ T
  log : t.logStore = s.logStore

/-- A server that hears of a later term from a candidate whose log is as good as its own gives
it its vote. -/
theorem votes_for (hx : s.exited = false) (ht : req.type = .requestVoteRequest) (hlt : s.state.term < req.term)
    (hlog : s.voteLogOkay req = true) (env : Env) :
    (∃ resp, (s.effects env (.request req)).filterMap Cluster.reply? = [resp] ∧
        resp.type = .requestVoteResponse ∧ resp.term = req.term ∧ resp.accepted = true) ∧
      s.Backs req.term (s.next env (.request req)) := by
  have hnoted : (s.noted req.term).state = { s.state with term := req.term, votedFor := -1 } ∧
      (s.noted req.term).role = .follower ∧ (s.noted req.term).logStore = s.logStore ∧
        (s.noted req.term).exited = s.exited := by
    simp only [Server.noted, if_pos hlt]
    split <;> exact ⟨rfl, rfl, rfl, rfl⟩
  obtain ⟨hst, hrole, hstore, hlive⟩ := hnoted
  have hgrants : (s.noted req.term).grants req = true := by
    rw [Server.grants, Server.voteLogOkay, hstore, hst]
    exact decide_eq_true ⟨rfl, hlog, .inr rfl⟩
  have hvote := handleVoteReq_run (s := s.noted req.term) req
  rw [if_pos hgrants] at hvote
  have hanswer : answerReq env req = handleVoteReq req := by rw [answerReq, ht]
  have hrun := processReq_run (noteTerm_run (s := s) (.inr (.inl ht))) (hanswer ▸ hvote)
  have hhandle : handle env (.request req) s = processReq env req s := rfl
  rw [if_pos hlt] at hrun
  have hterm := congrArg SrvState.term hst
  constructor
  · refine ⟨((s.noted req.term).voteResp req).accept (s.noted req.term).logStore.nextSlot, ?_, rfl, hterm, rfl⟩
    rw [effects_of_running hx, hhandle, hrun]
    rfl
  · rw [Server.next_of_ok hx (by rw [hhandle, hrun]), hhandle, hrun]
    have hout : (s.noted req.term).role ≠ .leader := by
      rw [hrole]
      decide
    exact ⟨hlive.trans hx, hout, hterm.le, hstore⟩

/-- A server with peers that stands for election asks them all. -/
theorem stands_for (hx : s.exited = false) (hs : s.Standing) (h1 : s.logStore.startIdx = 1)
    (hpeers : s.peers ≠ []) (env : Env) :
    s.next env .electionTimeout = s.campaign ∧
      (s.effects env .electionTimeout).filterMap Cluster.sent? = s.peerIds.map s.campaign.voteReq := by
  have hrun := handleElectionTimeout_run env hs
  rw [if_neg (by simpa using hpeers), requestVotes_run (s := s.campaign) env h1 s.peerIds] at hrun
  have hhandle : handle env .electionTimeout s = handleElectionTimeout env s := rfl
  constructor
  · rw [Server.next_of_ok hx (by rw [hhandle, hrun]), hhandle, hrun]
  · rw [effects_of_running hx, hhandle, hrun, List.filterMap_append, List.filterMap_map]
    exact congrFun (List.filterMap_eq_map (f := s.campaign.voteReq)) s.peerIds

/-! ## Taking office -/

/-- A request that replicates is sent to `x`. -/
def Server.Asks (s : Server) (o : List Effect) (x : Int) : Prop :=
  ∃ req memory, .send req memory ∈ o ∧ req.src = s.id ∧ req.dst = x ∧ req.type.replicates = true

/-- Whoever comes to be busy is sent such a request. -/
theorem sent_of_moves {x : Int} (h : Moves False s o t) (hx : (x, true) ∈ t.marks) :
    (x, true) ∈ s.marks ∨ ∃ req memory, .send req memory ∈ o ∧ req.dst = x ∧ req.type.replicates = true := by
  induction h with
  | refl s => exact .inl hx
  | @step s u t o o' hmove _ ih =>
    rcases ih hx with hu | ⟨req, memory, hmem, hreq⟩
    · cases hmove with
      | idle hidle => exact .inl (hidle.marks ▸ hu)
      | @ask _ o req memory hid hmem hfree htype hm ho =>
        have hdst : req.dst ∈ s.marks.map Prod.fst := by
          rw [Server.marks, List.map_map]
          exact hmem
        rw [hm] at hu
        rcases (mem_markBusy hdst).mp hu with rfl | hs
        · exact .inr ⟨req, memory, by simp, rfl, htype⟩
        · exact .inl hs
      | @add _ p hid hself hnew hfree hm =>
        rw [hm] at hu
        rcases List.mem_append.mp hu with hs | hp
        · exact .inl hs
        · have hbusy := (Prod.mk.inj (List.mem_singleton.mp hp)).2
          rw [hfree] at hbusy
          cases hbusy
      | erase hid hm =>
        rw [hm] at hu
        exact .inl (List.mem_filter.mp hu).1
      | slip h _ _ _ => exact h.elim
    · exact .inr ⟨req, memory, List.mem_append_right _ hmem, hreq⟩

theorem asks_of_moves {u : Server} {q : Nat} {x : Int} (h : Moves False s o t) (ho : ∀ e ∈ o, RequestEffect u q e)
    (hid : u.id = s.id) (hx : (x, true) ∈ t.marks) : (x, true) ∈ s.marks ∨ s.Asks o x := by
  rcases sent_of_moves h hx with hs | ⟨req, memory, hmem, hdst, htype⟩
  · exact .inl hs
  · cases ho _ hmem with
    | send hown => exact .inr ⟨req, _, hmem, hown.src.trans hid, hdst, htype⟩

/-- **Requests to all the peers** of a server that was never compacted. -/
theorem requestAppendEntries_asks (env : Env) (hs : s.Ready) :
    ∃ t o, requestAppendEntries env s = ⟨.ok (), t, o⟩ ∧ Tended s t ∧
      ∀ x, (x, true) ∈ t.marks → (x, true) ∈ s.marks ∨ s.Asks o x := by
  have htends : Achieves s (requestAppendEntries env) fun _ t => Tended s t := by
    refine .look_bind (.ite (fun _ => commit_tends env _ hs) fun _ => ?_)
    refine .forEach (.refl s) fun pid _ u hu => ?_
    exact .bind (requestAppendEntriesTo_tends env pid (hu.ready hs)) fun _ v hv => .pure (hu.trans hv)
  have hmoves : Behaves False s (requestAppendEntries env) := behaves_requestAppendEntries env
  have hquiet : Quiet s _ _ := quiet_requestAppendEntries env
  obtain ⟨⟨⟩, hok, ht⟩ := htends
  refine ⟨(requestAppendEntries env s).state, (requestAppendEntries env s).out, ?_, ht, fun x hx => ?_⟩
  · rw [← hok]
  · refine asks_of_moves (hmoves ?_) hquiet.out rfl hx
    rintro ⟨e, he⟩
    cases hok.symm.trans he

/-- What it makes of a server to take office: it is ready to make requests, the configuration
may be behind its log, and whoever is busy has been sent a request. -/
structure Inaugurates (s : Server) (o : List Effect) (t : Server) : Prop where
  role : t.role = .leader
  exited : t.exited = s.exited
  state : t.state = s.state
  params : t.params = s.params
  ready : t.Ready
  log : ∃ conf, t.logStore.entries = s.logStore.entries ++ conf ∧ conf.length ≤ 1 ∧
    ∀ e ∈ conf, e.term = s.state.term
  asks : ∀ x, (x, true) ∈ t.marks → s.Asks o x

theorem Inaugurates.congr {s' : Server} {o' : List Effect} (h : Inaugurates s o t) (hid : s'.id = s.id)
    (hexited : s'.exited = s.exited) (hstate : s'.state = s.state) (hparams : s'.params = s.params)
    (hlog : s'.logStore = s.logStore) (ho : o ⊆ o') : Inaugurates s' o' t := by
  refine ⟨h.role, h.exited.trans hexited.symm, h.state.trans hstate.symm, h.params.trans hparams.symm, h.ready,
    ?_, ?_⟩
  · rw [hlog, hstate]
    exact h.log
  · intro x hx
    obtain ⟨req, memory, hmem, hsrc, hreq⟩ := h.asks x hx
    exact ⟨req, memory, ho hmem, hsrc.trans hid.symm, hreq⟩

/-- What `become_leader` sets up. -/
theorem elected_rest (s : Server) : s.elected.role = .leader ∧ s.elected.exited = s.exited ∧
    s.elected.state = s.state ∧ s.elected.params = s.params ∧ s.elected.id = s.id ∧
      s.elected.peers = s.leading.peers := by
  rw [Server.elected]
  split <;> exact ⟨rfl, rfl, rfl, rfl, rfl, rfl⟩

/-- What it puts behind the log. -/
theorem elected_log (s : Server) : ∃ conf, s.elected.logStore = { s.logStore with
    entries := s.logStore.entries ++ conf } ∧ conf.length ≤ 1 ∧ ∀ e ∈ conf, e.term = s.state.term := by
  rw [Server.elected]
  split
  · refine ⟨[s.leading.firstConfigEntry], rfl, le_rfl, fun e he => ?_⟩
    rw [List.mem_singleton.mp he]
    rfl
  · exact ⟨[], by rw [List.append_nil]; rfl, Nat.zero_le 1, fun e he => absurd he List.not_mem_nil⟩

/-- **Taking office** comes to its end at a server that was never compacted. -/
theorem becomeLeader_inaugurates (env : Env) (h1 : s.logStore.startIdx = 1) :
    ∃ t o, becomeLeader env s = ⟨.ok (), t, o⟩ ∧ Inaugurates s o t := by
  obtain ⟨hrole, hlive, hstate, hparams, hid, hpeers⟩ := elected_rest s
  obtain ⟨conf, hlog, hone, hterm⟩ := elected_log s
  have hready : s.elected.Ready := by
    refine ⟨by rw [hlog]; exact h1, fun p hp => ?_⟩
    rw [hpeers] at hp
    obtain ⟨q, -, rfl⟩ := List.mem_map.mp hp
    have hle : s.logStore.nextSlot ≤ s.elected.logStore.nextSlot := by
      rw [hlog]
      exact Nat.add_le_add_left (List.length_append.ge.trans' (Nat.le_add_right _ _)) _
    exact hle
  -- whoever was busy is free again
  have hfree : ∀ x, (x, true) ∉ s.elected.marks := by
    intro x hx
    rw [Server.marks, hpeers, Server.leading, List.map_map] at hx
    obtain ⟨p, -, hmark⟩ := List.mem_map.mp hx
    cases (Prod.mk.inj hmark).2
  obtain ⟨t, o, hrun, htends, hasks⟩ := requestAppendEntries_asks env hready
  refine ⟨t, s.electedEffects ++ o, ?_, ?_⟩
  · rw [becomeLeader_run, hrun]
  · have hexited : t.exited = s.elected.exited := by rw [htends.rest]
    refine ⟨htends.role_eq.trans hrole, hexited.trans hlive, htends.state_eq.trans hstate,
      htends.params_eq.trans hparams, htends.ready hready, ⟨conf, ?_, hone, hterm⟩, fun x hx => ?_⟩
    · rw [htends.logStore_eq, hlog]
    · obtain ⟨req, memory, hmem, hsrc, hreq⟩ := (hasks x hx).resolve_left (hfree x)
      exact ⟨req, memory, List.mem_append_right _ hmem, hsrc.trans hid, hreq⟩

/-! ## Counting votes -/

/-- An election goes on as long as someone has not answered. -/
theorem counted_open (h : s.electionCompleted = false) (hmore : s.votesResponded + 1 < s.peers.length + 1) :
    (s.counted true).electionCompleted = false := by
  have hnot : ¬ (Server.addVote { s with votesResponded := s.votesResponded + 1 } true).votesResponded ≥
      (Server.addVote { s with votesResponded := s.votesResponded + 1 } true).peers.length + 1 :=
    Nat.not_le_of_lt hmore
  unfold Server.counted Server.closeElection
  rw [if_neg hnot]
  exact h

/-- A candidate that has counted `n` votes, all of them granted, which is no majority. -/
structure Server.Gathers (s : Server) (n : Nat) : Prop where
  runs : s.exited = false
  opens : s.electionCompleted = false
  granted : s.votesGranted = n
  responded : s.votesResponded = n
  few : n ≤ (s.peers.length + 1) / 2

/-- A server that has gone on counting. -/
structure Server.Counts (s t : Server) : Prop where
  state : t.state = s.state
  log : t.logStore = s.logStore
  params : t.params = s.params

/-- **A granted vote** is one more, or brings the candidate into office. -/
theorem gathers_next {n : Nat} (h : s.Gathers n) (h1 : s.logStore.startIdx = 1) (ht : resp.type = .requestVoteResponse)
    (hle : resp.term ≤ s.state.term) (hacc : resp.accepted = true) {ev : Event} {pid : Int} {reqType : MsgType}
    (hev : ev = .peerResp (some (.peer pid)) reqType resp) (env : Env) :
    (s.next env ev).Gathers (n + 1) ∧ s.Counts (s.next env ev) ∨ Inaugurates s (s.effects env ev) (s.next env ev) := by
  -- the peer of the call is done with first
  set u := s.updateAt (.peer pid) (Peer.rpcResult s.params reqType false) with hu
  have hhandle : handle env ev s = handleVotingResp env resp u := by
    have hrun := handlePeerResp_of_le (s := u) env hle
    rw [ht] at hrun
    rw [hev]
    exact hrun
  have hrun := handleVotingResp_run (s := u) env resp h.opens
  rw [hacc] at hrun
  have hrest := counted_rest (s := u) true
  set v := u.counted true with hv
  have hgranted : v.votesGranted = n + 1 := by
    rw [hrest]
    exact congrArg (· + 1) h.granted
  have hresponded : v.votesResponded = n + 1 := by
    rw [hrest]
    exact congrArg (· + 1) h.responded
  have hlen : u.peers.length = s.peers.length := List.length_map _
  have hlen' : v.peers.length = s.peers.length := by
    rw [hrest]
    exact hlen
  have hfields : v.id = s.id ∧ v.exited = s.exited ∧ v.state = s.state ∧ v.params = s.params ∧
      v.logStore = s.logStore := by
    rw [hrest]
    exact ⟨rfl, rfl, rfl, rfl, rfl⟩
  obtain ⟨hid, hlive, hstate, hparams, hlog⟩ := hfields
  rw [hgranted, hlen'] at hrun
  by_cases hwin : n + 1 > (s.peers.length + 1) / 2
  · rw [if_pos hwin] at hrun
    obtain ⟨t, o, hok, hinaug⟩ :=
      becomeLeader_inaugurates (s := { v with electionCompleted := true }) env (hlog ▸ h1)
    have hnext := Server.next_of_ok h.runs (by rw [hhandle, hrun, hok])
    right
    rw [hnext, effects_of_running h.runs, hhandle, hrun, hok]
    exact hinaug.congr hid.symm hlive.symm hstate.symm hparams.symm hlog.symm (List.Subset.refl o)
  · rw [if_neg hwin] at hrun
    have hnext := Server.next_of_ok h.runs (by rw [hhandle, hrun])
    left
    rw [hnext, hhandle, hrun]
    refine ⟨⟨hlive.trans h.runs, ?_, hgranted, hresponded, ?_⟩, hstate, hlog, hparams⟩
    · -- there are servers left that have not answered
      refine counted_open h.opens ?_
      rw [hlen]
      exact Nat.lt_of_le_of_lt (le_of_eq (congrArg (· + 1) h.responded)) (by omega)
    · change n + 1 ≤ (v.peers.length + 1) / 2
      rw [hlen']
      omega

/-- A candidate that has asked has one vote, its own. -/
theorem gathers_campaign (hx : s.exited = false) (hpeers : s.peers ≠ []) : s.campaign.Gathers 1 := by
  have hsome := List.length_pos_iff.mpr hpeers
  refine ⟨hx, rfl, rfl, rfl, ?_⟩
  change 1 ≤ (s.peers.length + 1) / 2
  omega

/-- A server without peers that stands for election is elected. -/
theorem inaugurates_alone (hx : s.exited = false) (hs : s.Standing) (h1 : s.logStore.startIdx = 1)
    (hpeers : s.peers = []) (env : Env) :
    Inaugurates s.campaign (s.effects env .electionTimeout) (s.next env .electionTimeout) := by
  have hrun := handleElectionTimeout_run env hs
  rw [if_pos (by rw [hpeers]; rfl)] at hrun
  have hhandle : handle env .electionTimeout s = handleElectionTimeout env s := rfl
  obtain ⟨t, o, hok, hinaug⟩ := becomeLeader_inaugurates (s := s.wonAlone) env h1
  rw [Server.next_of_ok hx (by rw [hhandle, hrun, hok]), effects_of_running hx, hhandle, hrun, hok]
  exact hinaug.congr rfl rfl rfl rfl rfl (List.subset_append_right _ _)

/-! ## Logs -/

/-- The request of a candidate tells of the end of its log. -/
theorem voteLogOkay_iff {t : Server} (h1 : t.logStore.startIdx = 1) (pid : Int) :
    s.voteLogOkay (t.voteReq pid) = true ↔ s.logStore.lastTerm < t.logStore.lastTerm ∨
      t.logStore.lastTerm = s.logStore.lastTerm ∧ s.logStore.nextSlot - 1 ≤ t.logStore.nextSlot - 1 := by
  have hlast : (t.voteReq pid).lastLogTerm = t.logStore.lastTerm := by
    change termAtEnd t.logStore.entries (t.logStore.nextSlot - 1) = _
    rw [LogStore.nextSlot, h1, Nat.add_sub_cancel_left, termAtEnd, List.take_length, LogStore.lastTerm]
  rw [Server.voteLogOkay, decide_eq_true_iff, hlast]
  rfl

/-- Of some servers one has a log that is as good as that of any other. -/
theorem exists_best (servers : Int → Server) {W : Finset Int} (hW : W.Nonempty) :
    ∃ i ∈ W, ∀ j ∈ W, (servers j).logStore.lastTerm < (servers i).logStore.lastTerm ∨
      (servers i).logStore.lastTerm = (servers j).logStore.lastTerm ∧
        (servers j).logStore.nextSlot - 1 ≤ (servers i).logStore.nextSlot - 1 := by
  obtain ⟨i, hi, hmax⟩ := W.exists_max_image
    (fun j => toLex ((servers j).logStore.lastTerm, (servers j).logStore.nextSlot)) hW
  refine ⟨i, hi, fun j hj => ?_⟩
  rcases (Prod.Lex.le_iff).mp (hmax j hj) with hlt | ⟨heq, hle⟩
  · exact .inl hlt
  · exact .inr ⟨heq.symm, Nat.sub_le_sub_right hle 1⟩

/-! ## What acts do to a cluster -/

/-- An act that leaves elections and the terms of entries in order. -/
def GoesOrderly (c : Cluster) (act : Act) : Prop := MatchesOrderly c act ∧ c.On ElectsSafely act

instance (c : Cluster) (act : Act) : Decidable (GoesOrderly c act) := inferInstanceAs (Decidable (_ ∧ _))

namespace Cluster
variable {c c₀ c' c'' : Cluster} {act : Act} {i j : Int} {ev : Event} {env : Env} {P Q : Cluster → Act → Prop}

/-- A run whose acts meet `P` leads on. -/
def LeadsOn (P : Cluster → Act → Prop) (c c' : Cluster) : Prop := ∃ acts, c.Along P acts ∧ c.run acts = c'

theorem LeadsOn.refl (c : Cluster) : LeadsOn P c c := ⟨[], trivial, rfl⟩

theorem LeadsOn.trans (h : LeadsOn P c c') (h' : LeadsOn P c' c'') : LeadsOn P c c'' := by
  obtain ⟨acts, hacts, rfl⟩ := h
  obtain ⟨acts', hacts', rfl⟩ := h'
  exact ⟨acts ++ acts', along_append.mpr ⟨hacts, hacts'⟩, run_append _ _ _⟩

theorem LeadsOn.mono (h : LeadsOn P c c') (hPQ : ∀ c act, P c act → Q c act) : LeadsOn Q c c' := by
  obtain ⟨acts, hacts, hrun⟩ := h
  exact ⟨acts, hacts.mono hPQ, hrun⟩

theorem LeadsOn.single (env : Env) (h : P c act) : LeadsOn P c (c.next env act) := ⟨[(env, act)], ⟨h, trivial⟩, rfl⟩

/-- An act of an election in order. -/
def Elective (c : Cluster) (act : Act) : Prop := act.electoral ∧ GoesOrderly c act

/-- What is asked of the one event of an act. -/
theorem goesOrderly_of (he : c.event? act = some (i, ev)) (hstamp : StampsSafely (c.servers i) ev)
    (hkeep : KeepsMembers (c.servers i) ev) (hsafe : ElectsSafely (c.servers i) ev) : GoesOrderly c act := by
  refine ⟨⟨?_, ?_⟩, ?_⟩
  all_goals
    intro i' ev' he' _
    cases he.symm.trans he'
    assumption

theorem elective_timeout (hs : (c.servers i).id ≠ -1) (hlt : (c.servers i).state.term + 1 < ulongSize) :
    Elective c (.timeout i) := by
  have he : c.event? (.timeout i) = some (i, .electionTimeout) := rfl
  exact ⟨trivial, goesOrderly_of he (fun _ => hlt) trivial fun _ => ⟨hs, hlt⟩⟩

/-- The calls there are, and behind them the new ones. -/
theorem calls_next_eq (he : c.event? act = some (i, ev)) (hid : i ∈ c.ids) :
    (c.next env act).calls = touch ((c.servers i).effects env ev) c.calls act ++
      (((c.servers i).effects env ev).filterMap sent?).map fun req => { req := req } := by
  simp only [next, he, if_pos hid]

/-- What an act makes of a call. -/
theorem getElem?_calls_next (he : c.event? act = some (i, ev)) (hid : i ∈ c.ids) {n : Nat} {call : Call}
    (h : (touch ((c.servers i).effects env ev) c.calls act)[n]? = some call) :
    (c.next env act).calls[n]? = some call := by
  rw [calls_next_eq he hid, List.getElem?_append_left (List.getElem?_eq_some_iff.mp h).1]
  exact h

/-- A request to `x` that replicates is on its way, and nothing has come back yet. -/
def Awaits (c : Cluster) (i x : Int) : Prop :=
  ∃ (k : Nat) (call : Call), c.calls[k]? = some call ∧ call.settled = false ∧ call.req.src = i ∧
    call.req.dst = x ∧ call.req.type.replicates = true

/-- Every busy peer has been sent a request. -/
def Answerable (c : Cluster) (i : Int) : Prop := ∀ x, (x, true) ∈ (c.servers i).marks → c.Awaits i x

/-- A request that is sent is on its way. -/
theorem awaits_of_asks (he : c.event? act = some (i, ev)) (hid : i ∈ c.ids) (hi : (c.servers i).id = i) {x : Int}
    (h : (c.servers i).Asks ((c.servers i).effects env ev) x) : (c.next env act).Awaits i x := by
  obtain ⟨req, memory, hmem, hsrc, hdst, htype⟩ := h
  have hsent : req ∈ ((c.servers i).effects env ev).filterMap sent? :=
    List.mem_filterMap.mpr ⟨_, hmem, rfl⟩
  have hcall : ({ req := req } : Call) ∈ (c.next env act).calls := by
    rw [calls_next_eq he hid]
    exact List.mem_append_right _ (List.mem_map.mpr ⟨req, hsent, rfl⟩)
  obtain ⟨k, hk⟩ := List.getElem?_of_mem hcall
  exact ⟨k, _, hk, rfl, hsrc.trans hi, hdst, htype⟩

end Cluster

/-! ## An election -/

/-- What makes a server eligible: it runs, it is not in office, and it has peers to ask. -/
structure Eligible (ids : List Int) (i : Int) (s : Server) : Prop where
  member : Member ids i s
  runs : s.exited = false
  stands : s.Standing
  peers : s.peers ≠ []

theorem Eligible.campaign {ids : List Int} {i : Int} (h : Eligible ids i s) : Eligible ids i s.campaign := by
  have hrole : s.campaign.role ≠ .leader := by
    change SrvRole.candidate ≠ .leader
    decide
  have hstands : s.campaign.Standing := ⟨h.stands.stepsToDown, h.stands.catchingUp, hrole⟩
  exact ⟨⟨h.member.id, h.member.startIdx, h.member.nodup, h.member.mem⟩, h.runs, hstands, h.peers⟩

theorem term_campaign (h : s.state.term + 1 < ulongSize) : s.campaign.state.term = s.state.term + 1 :=
  Nat.mod_eq_of_lt h

namespace Cluster
variable {c c₀ c' : Cluster} {i j : Int} {W : Finset Int} {T : Nat}

/-- **Standing again and again**, a server comes to any later term, and nothing else happens
to the servers. -/
theorem stands_until (hid : i ∈ c.ids) (hne : i ≠ -1) (h : Eligible c.ids i (c.servers i)) {m : Nat}
    (hle : (c.servers i).state.term ≤ m) (hm : m < ulongSize) :
    ∃ c', LeadsOn Elective c c' ∧ c'.ids = c.ids ∧ (∀ j, j ≠ i → c'.servers j = c.servers j) ∧
      Eligible c.ids i (c'.servers i) ∧ (c'.servers i).state.term = m ∧
      (c'.servers i).logStore = (c.servers i).logStore ∧ (c'.servers i).params = (c.servers i).params := by
  induction m, hle using Nat.le_induction with
  | base => exact ⟨c, .refl c, rfl, fun _ _ => rfl, h, rfl, rfl, rfl⟩
  | succ m _ ih =>
    obtain ⟨d, hleads, hids, hrest, helig, hterm, hlog, hparams⟩ := ih (Nat.lt_of_succ_lt hm)
    have hmem : i ∈ d.ids := hids ▸ hid
    have he : d.event? (.timeout i) = some (i, .electionTimeout) := rfl
    have hlt : (d.servers i).state.term + 1 < ulongSize := by
      rw [hterm]
      exact hm
    have hself : (d.next {} (.timeout i)).servers i = (d.servers i).campaign :=
      (servers_next_self he hmem).trans
        (stands_for helig.runs helig.stands helig.member.startIdx helig.peers {}).1
    have helective : Elective d (.timeout i) := elective_timeout (helig.member.id.trans_ne hne) hlt
    refine ⟨d.next {} (.timeout i), hleads.trans (.single {} helective), (ids_next _ _ _).trans hids,
      ?_, ?_, ?_, ?_, ?_⟩
    · intro j hj
      exact (servers_next_of_ne he hmem hj).trans (hrest j hj)
    · rw [hself]
      exact helig.campaign
    · rw [hself, term_campaign hlt, hterm]
    · rw [hself]
      exact hlog
    · rw [hself]
      exact hparams

/-- Server `j`, which has not heard of the term `T` yet, is asked for a vote that it will give. -/
structure Asked (c : Cluster) (i : Int) (T : Nat) (j : Int) : Prop where
  mem : j ∈ c.ids
  ne : j ≠ i
  runs : (c.servers j).exited = false
  earlier : (c.servers j).state.term < T
  call : ∃ (k : Nat) (req : ReqMsg), c.calls[k]? = some { req := req } ∧ req.type = .requestVoteRequest ∧
    req.src = i ∧ req.dst = j ∧ req.term = T ∧ (c.servers j).voteLogOkay req = true

/-- The election of `i` by `W`, in which the servers `waiting` are still to vote; `c₀` is where
it began. -/
structure Polling (c₀ : Cluster) (W : Finset Int) (i : Int) (T : Nat) (waiting : List Int) (c : Cluster) : Prop where
  ids : c.ids = c₀.ids
  mem : i ∈ c.ids
  member : Member c.ids i (c.servers i)
  term : (c.servers i).state.term = T
  log : (c.servers i).logStore = (c₀.servers i).logStore
  params : (c.servers i).params = (c₀.servers i).params
  backs : ∀ j ∈ W, j ≠ i → (c₀.servers j).Backs T (c.servers j)
  nodup : waiting.Nodup
  asked : ∀ j ∈ waiting, c.Asked i T j
  gathers : ∃ n, n + waiting.length = W.card ∧ (c.servers i).Gathers n

/-- Server `i` has just been elected by `W`. -/
structure Elected (c₀ : Cluster) (W : Finset Int) (i : Int) (T : Nat) (c : Cluster) : Prop where
  ids : c.ids = c₀.ids
  mem : i ∈ c.ids
  member : Member c.ids i (c.servers i)
  leads : (c.servers i).Leads
  term : (c.servers i).state.term = T
  params : (c.servers i).params = (c₀.servers i).params
  ready : (c.servers i).Ready
  log : ∃ conf, (c.servers i).logStore.entries = (c₀.servers i).logStore.entries ++ conf ∧ conf.length ≤ 1 ∧
    ∀ e ∈ conf, e.term = T
  answerable : c.Answerable i
  backs : ∀ j ∈ W, j ≠ i → (c₀.servers j).Backs T (c.servers j)

/-- A call that an act is not about stays as it is. -/
theorem Asked.next {act : Act} {p : Int} {ev : Event} {env : Env} {k : Nat} {call : Call} (h : c.Asked i T j)
    (hact : act = .deliver k ∨ act = .answer k 0) (he : c.event? act = some (p, ev)) (hp : p ∈ c.ids) (hj : j ≠ p)
    (hcall : c.calls[k]? = some call) (hdst : call.req.dst ≠ j) : (c.next env act).Asked i T j := by
  obtain ⟨hmem, hne, hruns, hearlier, n, req, hreq, ht, hsrc, hto, hterm, hlog⟩ := h
  have hother : k ≠ n := by
    rintro rfl
    cases hcall.symm.trans hreq
    exact hdst hto
  have hsame : (c.next env act).servers j = c.servers j := servers_next_of_ne he hp hj
  refine ⟨(ids_next _ _ _).symm ▸ hmem, hne, hsame ▸ hruns, hsame ▸ hearlier,
    n, req, ?_, ht, hsrc, hto, hterm, hsame ▸ hlog⟩
  refine getElem?_calls_next he hp ?_
  rcases hact with rfl | rfl
  · rw [touch, List.getElem?_modify, hreq]
    exact congrArg some (if_neg hother)
  · rw [touch, List.getElem?_modify, hreq]
    exact congrArg some (if_neg hother)

/-- **The next vote** is given and comes back. -/
theorem Polling.next {waiting : List Int} (h : Polling c₀ W i T (j :: waiting) c) :
    ∃ c', LeadsOn Elective c c' ∧ (Polling c₀ W i T waiting c' ∨ Elected c₀ W i T c') := by
  obtain ⟨hmem, hne, hruns, hearlier, k, req, hcall, ht, hsrc, hdst, hterm, hlog⟩ := h.asked j List.mem_cons_self
  obtain ⟨hnot, hnodup⟩ := List.nodup_cons.mp h.nodup
  obtain ⟨n, hcount, hgathers⟩ := h.gathers
  have hothers : ∀ q ∈ waiting, q ≠ j := fun q hq heq => hnot (heq ▸ hq)
  -- the request reaches `j`
  have he : c.event? (.deliver k) = some (j, .request req) := by
    simp only [event?, hcall, Option.map_some, hdst]
  obtain ⟨⟨resp, hreply, htype, hrterm, hacc⟩, hvoted⟩ := votes_for hruns ht (hterm ▸ hearlier) hlog {}
  have hcall' : (c.next {} (.deliver k)).calls[k]? = some { req := req, answers := [resp] } := by
    refine getElem?_calls_next he hmem ?_
    rw [touch, List.getElem?_modify, hcall, hreply]
    exact congrArg some (if_pos rfl)
  have hasked : ∀ q ∈ waiting, (c.next {} (.deliver k)).Asked i T q := fun q hq =>
    (h.asked q (List.mem_cons_of_mem _ hq)).next (.inl rfl) he hmem (hothers q hq) hcall fun heq =>
      hothers q hq (heq.symm.trans hdst)
  have hself : (c.next {} (.deliver k)).servers i = c.servers i := servers_next_of_ne he hmem hne.symm
  have hids : (c.next {} (.deliver k)).ids = c.ids := ids_next _ _ _
  have hbacks : ∀ q ∈ W, q ≠ i → (c₀.servers q).Backs T ((c.next {} (.deliver k)).servers q) := by
    intro q hq hqi
    by_cases hqj : q = j
    · rw [hqj, servers_next_self he hmem]
      have hbefore := h.backs j (hqj ▸ hq) hne
      exact ⟨hvoted.runs, hvoted.role, hterm ▸ hvoted.term, hvoted.log.trans hbefore.log⟩
    · rw [servers_next_of_ne he hmem hqj]
      exact h.backs q hq hqi
  have hstamp : StampsSafely (c.servers j) (.request req) := by
    intro hclient
    cases ht.symm.trans hclient
  have hlead : LeadsOn Elective c (c.next {} (.deliver k)) :=
    .single {} ⟨trivial, goesOrderly_of he hstamp trivial trivial⟩
  generalize c.next {} (.deliver k) = d at hcall' hasked hself hids hbacks hlead
  -- its answer comes back to `i`
  have hi : i ∈ d.ids := hids ▸ h.mem
  have he' : d.event? (.answer k 0) = some (i, .peerResp (some (.peer j)) req.type resp) := by
    simp only [event?, hcall', hsrc, hdst, List.getElem?_cons_zero, Option.map_some]
    rfl
  have hle : resp.term ≤ (c.servers i).state.term := by rw [hrterm, hterm, h.term]
  have hnext : (d.next {} (.answer k 0)).servers i =
      (c.servers i).next {} (.peerResp (some (.peer j)) req.type resp) := by
    rw [servers_next_self he' hi, hself]
  have hids' : (d.next {} (.answer k 0)).ids = c.ids := (ids_next _ _ _).trans hids
  have hmember : Member c.ids i ((d.next {} (.answer k 0)).servers i) := by
    rw [hnext]
    exact h.member.of_same (polls_next {} h.member.startIdx (by trivial)).same
  have hbacks' : ∀ q ∈ W, q ≠ i → (c₀.servers q).Backs T ((d.next {} (.answer k 0)).servers q) := by
    intro q hq hqi
    rw [servers_next_of_ne he' hi hqi]
    exact hbacks q hq hqi
  have hsafe : ElectsSafely (d.servers i) (.peerResp (some (.peer j)) req.type resp) := by
    intro _ _ _
    rw [hself, hrterm, hterm, h.term]
  refine ⟨d.next {} (.answer k 0),
    hlead.trans (.single {} ⟨trivial, goesOrderly_of he' trivial trivial hsafe⟩), ?_⟩
  rcases gathers_next hgathers h.member.startIdx htype hle hacc rfl {} with ⟨hmore, hcounts⟩ | hinaug
  · left
    refine ⟨hids'.trans h.ids, hids' ▸ h.mem, hids'.symm ▸ hmember, ?_, ?_, ?_, hbacks', hnodup, ?_, n + 1, ?_, ?_⟩
    · rw [hnext, hcounts.state]
      exact h.term
    · rw [hnext, hcounts.log]
      exact h.log
    · rw [hnext, hcounts.params]
      exact h.params
    · intro q hq
      exact (hasked q hq).next (.inr rfl) he' hi (hasked q hq).ne hcall' fun heq =>
        hothers q hq (heq.symm.trans hdst)
    · rw [List.length_cons] at hcount
      omega
    · rw [hnext]
      exact hmore
  · right
    obtain ⟨conf, hconf, hone, hcterm⟩ := hinaug.log
    refine ⟨hids'.trans h.ids, hids' ▸ h.mem, hids'.symm ▸ hmember, ?_, ?_, ?_, ?_, ⟨conf, ?_, hone, ?_⟩, ?_, hbacks'⟩
    · rw [hnext]
      exact ⟨hinaug.exited.trans hgathers.runs, hinaug.role⟩
    · rw [hnext, hinaug.state]
      exact h.term
    · rw [hnext, hinaug.params]
      exact h.params
    · rw [hnext]
      exact hinaug.ready
    · rw [hnext, hconf, h.log]
    · rw [← h.term]
      exact hcterm
    · intro x hx
      rw [hnext] at hx
      exact awaits_of_asks he' hi (hself ▸ h.member.id) (hself ▸ hinaug.asks x hx)

/-- With all the votes of a majority, the candidate is in office. -/
theorem Polling.elects {waiting : List Int} (h : Polling c₀ W i T waiting c)
    (hmost : c₀.ids.dedup.length < 2 * W.card) : ∃ c', LeadsOn Elective c c' ∧ Elected c₀ W i T c' := by
  induction waiting generalizing c with
  | nil =>
    -- nobody is left to vote, and still there is no majority
    obtain ⟨n, hcount, hgathers⟩ := h.gathers
    have hlen := h.member.length h.mem
    have hfew := hgathers.few
    rw [h.ids, Server.peerIds, List.length_map] at hlen
    rw [List.length_nil] at hcount
    omega
  | cons j waiting ih =>
    obtain ⟨d, hlead, hd | hd⟩ := h.next
    · obtain ⟨c', hlead', hrest⟩ := ih hd
      exact ⟨c', hlead.trans hlead', hrest⟩
    · exact ⟨d, hlead, hd⟩

/-- The servers `W` are more than half of the members, they run, and none is in office. -/
structure CanElect (c : Cluster) (W : Finset Int) : Prop where
  members : ∀ j ∈ W, j ∈ c.ids
  most : c.ids.dedup.length < 2 * W.card
  runs : ∀ j ∈ W, (c.servers j).exited = false
  stands : ∀ j ∈ W, (c.servers j).Standing
  named : ∀ j ∈ W, j ≠ -1
  terms : ∀ j ∈ W, (c.servers j).state.term + 1 < ulongSize

theorem CanElect.nonempty (h : c.CanElect W) : W.Nonempty := by
  have hmost := h.most
  apply Finset.card_pos.mp
  omega

/-- They back whoever is elected in a later term. -/
theorem CanElect.backs (h : c.CanElect W) (hmax : ∀ j ∈ W, (c.servers j).state.term ≤ T) :
    ∀ j ∈ W, (c.servers j).Backs T (c.servers j) :=
  fun j hj => ⟨h.runs j hj, (h.stands j hj).role, hmax j hj, rfl⟩

/-- A server that stands once more than all of `W` have is polled for. -/
theorem CanElect.polling (h : c.CanElect W) (hi : i ∈ W) (helig : Eligible c.ids i (c.servers i))
    (hbest : ∀ j ∈ W, (c.servers j).logStore.lastTerm < (c.servers i).logStore.lastTerm ∨
      (c.servers i).logStore.lastTerm = (c.servers j).logStore.lastTerm ∧
        (c.servers j).logStore.nextSlot - 1 ≤ (c.servers i).logStore.nextSlot - 1)
    {m : Nat} (hm : m + 1 < ulongSize) (hmax : ∀ j ∈ W, (c.servers j).state.term ≤ m) :
    ∃ c', LeadsOn Elective c c' ∧ Polling c W i (m + 1) (W.erase i).toList c' := by
  obtain ⟨d, hlead, hids, hrest, hd, hterm, hlog, hparams⟩ :=
    stands_until (h.members i hi) (h.named i hi) helig (hmax i hi) (Nat.lt_of_succ_lt hm)
  have hmem : i ∈ d.ids := hids ▸ h.members i hi
  have he : d.event? (.timeout i) = some (i, .electionTimeout) := rfl
  have hlt : (d.servers i).state.term + 1 < ulongSize := by
    rw [hterm]
    exact hm
  have helective : Elective d (.timeout i) := elective_timeout (hd.member.id.trans_ne (h.named i hi)) hlt
  obtain ⟨hcamp, hsent⟩ := stands_for hd.runs hd.stands hd.member.startIdx hd.peers {}
  have hself : (d.next {} (.timeout i)).servers i = (d.servers i).campaign := (servers_next_self he hmem).trans hcamp
  have hothers : ∀ j, j ≠ i → (d.next {} (.timeout i)).servers j = c.servers j := fun j hj =>
    (servers_next_of_ne he hmem hj).trans (hrest j hj)
  have hT : (d.servers i).campaign.state.term = m + 1 := by rw [term_campaign hlt, hterm]
  have hids' : (d.next {} (.timeout i)).ids = c.ids := (ids_next _ _ _).trans hids
  have hlate : ∀ j ∈ W, (c.servers j).state.term ≤ m + 1 := fun j hj => (hmax j hj).trans (Nat.le_succ m)
  refine ⟨d.next {} (.timeout i), hlead.trans (.single {} helective), ?_⟩
  refine ⟨hids', hids' ▸ h.members i hi, ?_, ?_, ?_, ?_, ?_, Finset.nodup_toList _, ?_, 1, ?_, ?_⟩
  · rw [hids', hself]
    exact hd.campaign.member
  · rw [hself]
    exact hT
  · rw [hself]
    exact hlog
  · rw [hself]
    exact hparams
  · intro j hj hji
    rw [hothers j hji]
    exact h.backs hlate j hj
  · intro j hj
    obtain ⟨hji, hjW⟩ := Finset.mem_erase.mp (Finset.mem_toList.mp hj)
    have hserver := hothers j hji
    have hpeer : j ∈ (d.servers i).peerIds := (hd.member.mem j).mpr ⟨h.members j hjW, hji⟩
    obtain ⟨n, hn⟩ := List.getElem?_of_mem hpeer
    have hcall : (d.next {} (.timeout i)).calls[d.calls.length + n]? =
        some { req := (d.servers i).campaign.voteReq j } := by
      have hcalls : ∀ o, touch o d.calls (.timeout i) = d.calls := fun _ => rfl
      rw [calls_next_eq he hmem, hsent, hcalls, List.getElem?_append_right (Nat.le_add_right _ _),
        Nat.add_sub_cancel_left, List.map_map, List.getElem?_map, hn]
      rfl
    have hlogs : (d.servers i).campaign.logStore = (c.servers i).logStore := hlog
    refine ⟨hids' ▸ h.members j hjW, hji, hserver ▸ h.runs j hjW, ?_, _, _, hcall, rfl, hd.member.id, rfl, hT, ?_⟩
    · rw [hserver]
      exact Nat.lt_succ_of_le (hmax j hjW)
    · rw [hserver, voteLogOkay_iff hd.campaign.member.startIdx, hlogs]
      exact hbest j hjW
  · rw [Finset.length_toList, Finset.card_erase_of_mem hi]
    have hpos := Finset.card_pos.mpr ⟨i, hi⟩
    omega
  · rw [hself]
    exact gathers_campaign hd.runs hd.peers

/-- A server without peers elects itself. -/
theorem CanElect.alone (h : c.CanElect W) (hi : i ∈ W) (hmember : Member c.ids i (c.servers i))
    (hpeers : (c.servers i).peers = []) :
    ∃ c', LeadsOn Elective c c' ∧ Elected c W i ((c.servers i).state.term + 1) c' := by
  have he : c.event? (.timeout i) = some (i, .electionTimeout) := rfl
  have hid := h.members i hi
  have helective : Elective c (.timeout i) := elective_timeout (hmember.id.trans_ne (h.named i hi)) (h.terms i hi)
  have hinaug := inaugurates_alone (h.runs i hi) (h.stands i hi) hmember.startIdx hpeers {}
  have hself : (c.next {} (.timeout i)).servers i = (c.servers i).next {} .electionTimeout := servers_next_self he hid
  have hids : (c.next {} (.timeout i)).ids = c.ids := ids_next _ _ _
  have hterm : (c.servers i).campaign.state.term = (c.servers i).state.term + 1 := term_campaign (h.terms i hi)
  have hT := congrArg SrvState.term hinaug.state
  obtain ⟨conf, hconf, hone, hcterm⟩ := hinaug.log
  refine ⟨c.next {} (.timeout i), .single {} helective, hids, hids ▸ hid, ?_, ?_, ?_, ?_, ?_,
    ⟨conf, ?_, hone, ?_⟩, ?_, ?_⟩
  · rw [hids, hself]
    exact hmember.of_same (polls_next {} hmember.startIdx (by trivial)).same
  · rw [hself]
    exact ⟨hinaug.exited.trans (h.runs i hi), hinaug.role⟩
  · rw [hself]
    exact hT.trans hterm
  · rw [hself]
    exact hinaug.params
  · rw [hself]
    exact hinaug.ready
  · rw [hself]
    exact hconf
  · rw [← hterm]
    exact hcterm
  · intro x hx
    rw [hself] at hx
    exact awaits_of_asks he hid hmember.id (hinaug.asks x hx)
  · -- there is nobody else
    intro j hj hji
    have hpeer := (hmember.mem j).mpr ⟨h.members j hj, hji⟩
    rw [Server.peerIds, hpeers] at hpeer
    cases hpeer

/-- **An election can be won** where more than half of the members run and none of them is in
office: one of those with the best log stands in a term that is later than all of theirs. -/
theorem CanElect.elects (h : c.CanElect W) (hmembers : ∀ i ∈ W, Member c.ids i (c.servers i)) :
    ∃ c', LeadsOn Elective c c' ∧ ∃ i ∈ W, ∃ T, (∀ j ∈ W, (c.servers j).state.term < T) ∧ Elected c W i T c' := by
  obtain ⟨i, hi, hbest⟩ := exists_best c.servers h.nonempty
  by_cases hpeers : (c.servers i).peers = []
  · obtain ⟨c', hlead, helected⟩ := h.alone hi (hmembers i hi) hpeers
    refine ⟨c', hlead, i, hi, _, fun j hj => ?_, helected⟩
    have hji : j = i := by
      by_contra hne
      have hpeer := ((hmembers i hi).mem j).mpr ⟨h.members j hj, hne⟩
      rw [Server.peerIds, hpeers] at hpeer
      cases hpeer
    rw [hji]
    exact Nat.lt_succ_self _
  · obtain ⟨j₀, hj₀, hmax⟩ := W.exists_max_image (fun j => (c.servers j).state.term) h.nonempty
    obtain ⟨d, hlead, hd⟩ := h.polling hi ⟨hmembers i hi, h.runs i hi, h.stands i hi, hpeers⟩ hbest
      (h.terms j₀ hj₀) hmax
    obtain ⟨c', hlead', helected⟩ := hd.elects h.most
    exact ⟨c', hlead.trans hlead', i, hi, _, fun j hj => Nat.lt_succ_of_le (hmax j hj), helected⟩

/-- Nobody who elected it is past the term of the new leader. -/
theorem Elected.late (h : Elected c₀ W i T c) {j : Int} (hj : j ∈ W) :
    (c.servers j).state.term ≤ (c.servers i).state.term := by
  rw [h.term]
  by_cases hji : j = i
  · rw [hji, h.term]
  · exact (h.backs j hj hji).term

end Cluster

/-- What elections keep holds along a run of them in order. -/
theorem polled_run {c : Cluster} {acts : List (Env × Act)} (hc : Polled c) (h : c.Along ElectsOrderly acts) :
    Polled (c.run acts) := by
  refine h.invariant (I := Polled) (fun c env act hc hact => ?_) hc
  by_cases hnobody : ∀ i ev, c.event? act = some (i, ev) → i ∉ c.ids
  · rw [Cluster.next_of_none env hnobody]
    exact hc
  · push Not at hnobody
    obtain ⟨i, ev, he, hid⟩ := hnobody
    exact hc.next (hc.turn he hid (hc.core_of_electoral hact.1 he) (hact.2 i ev he hid))

/-- **No run of elections in order gets stuck**: wherever it has come to, a majority that runs
and has nobody in office can elect one of its servers, in order, in a term that none of it is
past. -/
theorem leader_electable (params : Int → RaftParams) (config : ClusterConfig) (acts : List (Env × Act))
    (h : (Cluster.start params config).Along ElectsOrderly acts) (W : Finset Int)
    (hW : ((Cluster.start params config).run acts).CanElect W) :
    ∃ more, (Cluster.start params config).Along ElectsOrderly (acts ++ more) ∧
      ∃ i ∈ W, (((Cluster.start params config).run (acts ++ more)).servers i).Leads ∧
        ∀ j ∈ W, (((Cluster.start params config).run (acts ++ more)).servers j).state.term ≤
          (((Cluster.start params config).run (acts ++ more)).servers i).state.term := by
  have hpolled := polled_run (polled_start params config) h
  obtain ⟨c', ⟨more, hmore, rfl⟩, i, hi, T, -, helected⟩ :=
    hW.elects fun i hi => hpolled.holds.servers i (hW.members i hi)
  rw [← Cluster.run_append] at helected
  refine ⟨more, Cluster.along_append.mpr ⟨h, hmore.mono fun c act hact => ⟨hact.1, hact.2.2⟩⟩, i, hi,
    helected.leads, ?_⟩
  intro j hj
  exact helected.late hj

/-- Server 1 is elected with the vote of server 2. -/
def firstElection : List (Env × Act) := [({}, .timeout 1), ({}, .deliver 0), ({}, .answer 0 0)]

/-- The two others can elect one of theirs. -/
theorem others_canElect : (freshCluster.run firstElection).CanElect {2, 3} where
  members := by decide +kernel
  most := by decide +kernel
  runs := by decide +kernel
  stands j hj := by
    have hone : j = 2 ∨ j = 3 := by simpa using hj
    rcases hone with rfl | rfl
    · exact ⟨by decide +kernel, by decide +kernel, by decide +kernel⟩
    · exact ⟨by decide +kernel, by decide +kernel, by decide +kernel⟩
  named := by decide
  terms := by decide +kernel

theorem leader_electable_others :
    ∃ more, freshCluster.Along ElectsOrderly (firstElection ++ more) ∧
      ∃ i ∈ ({2, 3} : Finset Int), ((freshCluster.run (firstElection ++ more)).servers i).Leads ∧
        ∀ j ∈ ({2, 3} : Finset Int), ((freshCluster.run (firstElection ++ more)).servers j).state.term ≤
          ((freshCluster.run (firstElection ++ more)).servers i).state.term :=
  leader_electable _ _ firstElection (by decide +kernel) {2, 3} others_canElect

end Cornerstone
