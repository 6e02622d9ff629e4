import Cornerstone.Electable
import Cornerstone.CatchUp
import Cornerstone.MatchedLogs

/-! # An entry can be committed

Replication does not get stuck either.  A leader that has just been elected can bring each
server of a majority up to its own log, one after the other: where the peer is still busy its
request is given up, a heartbeat makes a new one, the follower answers it, and each such round
takes the next index down to where the two logs agree, or up to the end of the leader's.  With
the last of them the leader commits its whole log, and with it what a client has sent.
-/

namespace Cornerstone
open Handlers Handler Server Splice

variable {s t u L F : Server} {req : ReqMsg} {resp : RespMsg} {o : List Effect} {pid : Int} {n : Nat}

/-! ## The follower -/

/-- A follower that the leader `L` can bring up to its own log. -/
structure Server.Trails (L F : Server) : Prop where
  runs : F.exited = false
  role : F.role ≠ .leader
  term : F.state.term ≤ L.state.term
  matching : Matched LogEntry.term L.logStore.entries F.logStore.entries

/-- What a follower answers to a request for entries, and what it is then. -/
structure Answers.Of (F : Server) (req : ReqMsg) (resp : RespMsg) (F' : Server) : Prop where
  type : resp.type = .appendEntriesResponse
  src : resp.src = F.id
  term : resp.term = F.state.term
  declined : resp.accepted = false → 0 < resp.nextIdx ∧ F'.logStore = F.logStore
  accepted : F.state.term ≤ req.term → resp.accepted = F.logStore.hasPrev req
  exited : F'.exited = F.exited
  state : F'.state = F.state
  role : F'.role ≠ .leader

/-- A follower that was never compacted answers a request, and goes on. -/
theorem answers_append (env : Env) (req : ReqMsg) (h1 : F.logStore.startIdx = 1) (hr : F.role ≠ .leader) :
    ∃ resp F' o, handleAppendEntries env req F = ⟨.ok resp, F', o⟩ ∧ o.filterMap Cluster.reply? = [] ∧
      Answers.Of F req resp F' := by
  obtain ⟨p, j, r, hf, hrole⟩ := followed_rest (s := F) (decide (req.term = F.state.term))
  have hrun := handleAppendEntries_run env req h1 hr
  rw [hf] at hrun
  by_cases hno : req.term < F.state.term ∨ F.logStore.hasPrev req = false
  · rw [if_pos hno] at hrun
    refine ⟨_, _, _, hrun, rfl, rfl, rfl, rfl, fun _ => ⟨?_, rfl⟩, fun hle => ?_, rfl, rfl, hrole hr⟩
    · change 0 < F.logStore.startIdx + F.logStore.entries.length
      omega
    · exact (hno.resolve_left (Nat.not_lt.mpr hle)).symm
  · rw [if_neg hno] at hrun
    push Not at hno
    refine ⟨_, _, _, hrun, ?_, rfl, rfl, rfl, fun hacc => Bool.noConfusion hacc, fun _ => ?_, rfl, rfl, hrole hr⟩
    · refine List.filterMap_eq_nil_iff.mpr fun e he => ?_
      obtain ⟨k, x, rfl | rfl⟩ := mem_writeEffects he
      · rfl
      · rfl
    · exact (Bool.eq_true_of_not_eq_false hno.2).symm

/-- Handling the request is all that a follower does with it once the term is noted. -/
theorem next_append {env : Env} (hx : F.exited = false) (ht : req.type = .appendEntriesRequest)
    (hrun : handleAppendEntries env req (F.noted req.term) = ⟨.ok resp, t, o⟩)
    (ho : o.filterMap Cluster.reply? = []) :
    (F.effects env (.request req)).filterMap Cluster.reply? = [resp] ∧ F.next env (.request req) = t := by
  have hanswer : answerReq env req = handleAppendEntries env req := by rw [answerReq, ht]
  have hhandle : handle env (.request req) F = processReq env req F := rfl
  have hproc := processReq_run (noteTerm_run (s := F) (.inl ht)) (hanswer ▸ hrun)
  constructor
  · rw [effects_of_running hx, hhandle, hproc, List.filterMap_append, List.filterMap_append, ho]
    split <;> rfl
  · rw [Server.next_of_ok hx (by rw [hhandle, hproc]), hhandle, hproc]

/-- What an exchange makes of the follower is what it makes of the request. -/
theorem Probing.answered {env : Env × Env} {L' F' : Server} (h : Probing n L F)
    (hex : exchange env (L, F) = some (resp, L', F')) :
    (handleAppendEntries env.2 (L.appendReq F.id n) F).res = .ok resp ∧
      (handleAppendEntries env.2 (L.appendReq F.id n) F).state = F' := by
  simp only [exchange, h.created] at hex
  generalize handleAppendEntries env.2 (L.appendReq F.id n) F = x at hex ⊢
  rcases hres : x.res with e | r
  · rw [hres] at hex
    cases hex
  · simp only [hres] at hex
    split at hex
    · cases hex
    · cases hex
      exact ⟨rfl, rfl⟩

/-! ## The leader -/

/-- A leader that has dealt with `pid`: its peers may be elsewhere and its commit index may have
moved on, and it takes the same to be matched at the others. -/
structure Server.Steers (pid : Int) (s t : Server) : Prop where
  rest : t = { s with peers := t.peers, quickCommitIdx := t.quickCommitIdx }
  ids : t.peerIds = s.peerIds
  others : ∀ q ∈ t.peers, q.id ≠ pid → ∃ p ∈ s.peers, p.id = q.id ∧ q.matchedIdx = p.matchedIdx

namespace Server.Steers

theorem trans (h : s.Steers pid t) (h' : t.Steers pid u) : s.Steers pid u := by
  refine ⟨?_, h'.ids.trans h.ids, fun r hr hne => ?_⟩
  · have hu := h'.rest
    rw [h.rest] at hu
    exact hu
  · obtain ⟨q, hq, hqr, hrm⟩ := h'.others r hr hne
    obtain ⟨p, hp, hpq, hqm⟩ := h.others q hq (hqr ▸ hne)
    exact ⟨p, hp, hpq.trans hqr, hrm.trans hqm⟩

theorem of_tended (h : Tended s t) : s.Steers pid t := by
  refine ⟨h.rest, h.ids, fun q hq _ => ?_⟩
  obtain ⟨p, hp, hc, hm, -⟩ := h.peers q hq
  exact ⟨p, hp, by rw [Peer.id, Peer.id, hc], hm⟩

theorem updatePeer {f : Peer → Peer} (hf : ∀ p, (f p).id = p.id) : s.Steers pid (s.updatePeer pid f) := by
  refine ⟨rfl, updatePeer_peerIds hf s pid, fun q hq hne => ?_⟩
  obtain ⟨p, hp, rfl⟩ := List.mem_map.mp hq
  split at hne
  · exact absurd ((hf p).trans ‹_›) hne
  · rw [if_neg ‹_›]
    exact ⟨p, hp, rfl, rfl⟩

theorem id_eq (h : s.Steers pid t) : t.id = s.id := by rw [h.rest]
theorem exited_eq (h : s.Steers pid t) : t.exited = s.exited := by rw [h.rest]
theorem role_eq (h : s.Steers pid t) : t.role = s.role := by rw [h.rest]
theorem state_eq (h : s.Steers pid t) : t.state = s.state := by rw [h.rest]
theorem params_eq (h : s.Steers pid t) : t.params = s.params := by rw [h.rest]
theorem logStore_eq (h : s.Steers pid t) : t.logStore = s.logStore := by rw [h.rest]

end Server.Steers

theorem Server.Ready.updatePeer {f : Peer → Peer} (hs : s.Ready)
    (hf : ∀ p ∈ s.peers, p.id = pid → (f p).nextLogIdx ≤ s.logStore.nextSlot) : (s.updatePeer pid f).Ready := by
  refine ⟨hs.startIdx, fun q hq => ?_⟩
  obtain ⟨p, hp, rfl⟩ := List.mem_map.mp hq
  split
  · exact hf p hp ‹_›
  · exact hs.next_le p hp

/-- The end of a request leaves a peer where it is believed to be. -/
theorem tended_rpcResult (reqType : MsgType) (failed : Bool) :
    Tended s (s.updatePeer pid (Peer.rpcResult s.params reqType failed)) := by
  refine Tended.updatePeer pid fun p => ?_
  unfold Peer.rpcResult
  split_ifs <;> exact ⟨rfl, rfl, .inl rfl⟩

/-- And takes its flag down. -/
theorem marks_rpcResult {reqType : MsgType} (hrep : reqType.replicates = true) (failed : Bool) {x : Int}
    (h : (x, true) ∈ (s.updatePeer pid (Peer.rpcResult s.params reqType failed)).marks) :
    x ≠ pid ∧ (x, true) ∈ s.marks := by
  simp only [Server.marks, Server.updatePeer, List.map_map, List.mem_map, Function.comp_apply] at h ⊢
  obtain ⟨p, hp, hmark⟩ := h
  split at hmark
  · rw [mark_rpcResult, hrep, Bool.not_true, Bool.and_false] at hmark
    cases hmark
  · rename_i hne
    exact ⟨fun hx => hne ((Prod.mk.inj hmark).1.trans hx), p, hp, hmark⟩

/-- **A heartbeat** of a leader makes a request for a peer that is free. -/
theorem beats (hl : s.Leads) (hs : s.Ready) {p : Peer} (hp : s.findPeer pid = some p) (hfree : p.busy = false)
    (env : Env) : s.next env (.hbTimeout pid) = (s.makeBusy pid).located pid ∧
      s.effects env (.hbTimeout pid) = [.send (s.appendReq pid (s.nextOf p)) s.state] := by
  have hbusy : Tended s (s.makeBusy pid) := Tended.updatePeer pid fun p => ⟨rfl, rfl, .inl rfl⟩
  have hmade := createAppendEntriesReq_run env (hbusy.ready hs)
    (findPeer_updatePeer (f := fun p => { p with busy := true }) (fun _ => rfl) hp)
  have hrun : handle env (.hbTimeout pid) s =
      ⟨.ok (), (s.makeBusy pid).located pid, [.send (s.appendReq pid (s.nextOf p)) s.state]⟩ := by
    simp only [handle, handleHbTimeout, bind_run, look_run, Outcome.andThen_ok, ite_run, if_pos hl.role,
      List.nil_append, requestAppendEntriesTo_idle hp hfree, hmade, sendReq, emit_run, pure_run]
    rfl
  constructor
  · rw [Server.next_of_ok hl.runs (by rw [hrun]), hrun]
  · rw [effects_of_running hl.runs, hrun]

/-- **An answer** comes to its end at the leader, whatever it says. -/
theorem Probing.heeds (h : Probing n L F) (env : Env) (hsrc : resp.src = F.id)
    (hle : resp.accepted = true → resp.nextIdx ≤ L.logStore.nextSlot) :
    Achieves L (handleAppendEntriesResp env resp) fun _ t => L.Steers F.id t := by
  obtain ⟨p, hp, hpn⟩ := h.findPeer
  rw [← hsrc] at hp ⊢
  have hbelow := h.le_nextSlot
  have hgoes : ∀ {f : Peer → Peer} (b : Bool), (∀ p, (f p).id = p.id) →
      (∀ p ∈ L.peers, p.id = resp.src → (f p).nextLogIdx ≤ L.logStore.nextSlot) →
      Achieves (L.updatePeer resp.src f) (continueWith env resp.src b) fun _ t => L.Steers resp.src t := by
    intro f b hid hf
    refine (continueWith_tends env resp.src b (h.ready.updatePeer hf)).mono fun _ t ht => ?_
    exact (Steers.updatePeer hid).trans (.of_tended ht)
  refine .look_bind ?_
  cases hacc : resp.accepted with
  | true =>
    set f : Peer → Peer := fun p => { p with
      nextLogIdx := resp.nextIdx, matchedIdx := ulongSub resp.nextIdx 1 } with hf
    have hready : (L.updatePeer resp.src f).Ready := h.ready.updatePeer fun _ _ _ => hle hacc
    have hrest : Achieves (L.updatePeer resp.src f) (do
        let s ← look
        commit env (majorityIdx (s.logStore.nextSlot - 1) (s.peers.map Peer.matchedIdx))
        stillLags resp) fun _ t => Tended (L.updatePeer resp.src f) t := by
      refine .look_bind (.bind (commit_tends env _ hready) fun _ t ht => ?_)
      exact (stillLags_tends resp).mono fun _ u hu => ht.trans hu
    simp only [hp, if_true]
    refine .bind (.change_bind hrest) fun more t ht => ?_
    refine (continueWith_tends env resp.src more (ht.ready hready)).mono fun _ u hu => ?_
    have hfirst : L.Steers resp.src (L.updatePeer resp.src f) := Steers.updatePeer fun _ => rfl
    exact hfirst.trans (.of_tended (ht.trans hu))
  | false =>
    by_cases hjump : resp.nextIdx > 0 ∧ p.nextLogIdx > resp.nextIdx
    · have hrun := hgoes (f := fun p => { p with nextLogIdx := resp.nextIdx }) true (fun _ => rfl) fun _ _ _ => by
        change resp.nextIdx ≤ _
        omega
      simpa [hp, declinedAppend, hjump, Achieves] using hrun
    · have hone : ∀ q ∈ L.peers, q.id = resp.src → ulongSub q.nextLogIdx 1 ≤ L.logStore.nextSlot := by
        intro q hq hid
        rw [h.next q hq (hid.trans hsrc), ulongSub_of_le h.one_le (lt_of_le_of_lt hbelow h.lt_ulong)]
        omega
      have hrun := hgoes (f := fun p => { p with nextLogIdx := ulongSub p.nextLogIdx 1 }) true
        (fun p => Eq.refl p.config.id) hone
      simpa [hp, declinedAppend, hjump, Achieves] using hrun

/-! ## A client's entries -/

/-- Entries that share no key with a log leave it matching. -/
theorem matched_append_fresh {α κ : Type} {key : α → κ} {l f es : List α} (h : Matched key l f)
    (hes : ∀ e ∈ es, ∀ b ∈ f, key e ≠ key b) : Matched key (l ++ es) f := by
  intro i a b ha hb hkey
  rcases Nat.lt_or_ge i l.length with hlt | hge
  · rw [List.getElem?_append_left hlt] at ha
    rw [List.take_append_of_le_length hlt]
    exact h i a b ha hb hkey
  · rw [List.getElem?_append_right hge] at ha
    exact absurd hkey (hes a (List.mem_of_getElem? ha) b (List.mem_of_getElem? hb))

/-- A log that has room for `k` more entries, and for a batch behind them. -/
structure Server.HasRoom (s : Server) (k : Nat) : Prop where
  batch : 1 ≤ s.params.maxAppendSize
  fits : (s.logStore.nextSlot + k : Int) + s.params.maxAppendSize ≤ ulongSize

/-- The server with entries behind its log. -/
def Server.withEntries (s : Server) (es : List LogEntry) : Server :=
  { s with logStore := { s.logStore with entries := s.logStore.entries ++ es } }

theorem Server.Ready.withEntries (h : s.Ready) (es : List LogEntry) : (s.withEntries es).Ready := by
  refine ⟨h.startIdx, fun p hp => (h.next_le p hp).trans ?_⟩
  exact Nat.add_le_add_left (List.length_append.ge.trans' (Nat.le_add_right _ _)) _

/-- Without peers the whole log is committed at once. -/
theorem requestAppendEntries_commits (env : Env) (h : s.peers = []) :
    s.logStore.nextSlot - 1 ≤ (requestAppendEntries env s).state.quickCommitIdx := by
  have hrun : requestAppendEntries env s = commit env (s.logStore.nextSlot - 1) s := by
    simp only [requestAppendEntries, bind_run, look_run, Outcome.andThen_ok, List.nil_append, h, List.length_nil,
      if_true]
  rw [hrun, commit_quick]
  exact le_max_right _ _

/-- The answer to a client's request, before it is accepted. -/
def Server.clientResp (s : Server) : RespMsg where
  term := s.state.term
  type := .appendEntriesResponse
  src := s.id
  dst := s.leader

/-- **A client's request** at a leader that was never compacted: the entries go behind its log,
and requests for them to the peers. -/
theorem serves_client (env : Env) (hl : s.Leads) (hs : s.Ready) (ht : req.type = .clientRequest) :
    Tended (s.withEntries req.logEntries) (s.next env (.request req)) ∧
      (∀ x, (x, true) ∈ (s.next env (.request req)).marks →
        (x, true) ∈ s.marks ∨ s.Asks (s.effects env (.request req)) x) ∧
      (s.peers = [] → (s.withEntries req.logEntries).logStore.nextSlot - 1 ≤
        (s.next env (.request req)).quickCommitIdx) := by
  obtain ⟨o₁, happend, -⟩ := appendClientEntries_run req.logEntries s
  change _ = (⟨.ok (), s.withEntries req.logEntries, o₁⟩ : Outcome _ _ _ _) at happend
  obtain ⟨t, o₂, hrequest, htends, hasks⟩ := requestAppendEntries_asks env (hs.withEntries req.logEntries)
  have hcommits := requestAppendEntries_commits (s := s.withEntries req.logEntries) env
  rw [hrequest] at hcommits
  have hanswer : answerReq env req s = ⟨.ok (s.clientResp.accept t.logStore.nextSlot), t, o₁ ++ o₂⟩ := by
    simp only [answerReq, ht, handleCliReq, bind_run, look_run, Outcome.andThen_ok, List.nil_append, ite_run, hl.role,
      ne_eq, not_true_eq_false, if_false, happend, hrequest, pure_run, List.append_nil]
    rfl
  have hnote : noteTerm req s = ⟨.ok (), s, []⟩ := by simp [noteTerm, ht]
  have hproc := processReq_run hnote hanswer
  have hhandle : handle env (.request req) s = processReq env req s := rfl
  rw [Server.next_of_ok hl.runs (by rw [hhandle, hproc]), effects_of_running hl.runs, hhandle, hproc]
  refine ⟨htends, fun x hx => ?_, hcommits⟩
  rcases hasks x hx with hold | ⟨r, memory, hmem, hsrc, hreq⟩
  · exact .inl hold
  · exact .inr ⟨r, memory, by simp [hmem], hsrc, hreq⟩

/-! ## A leader at work -/

/-- The leader has committed whatever more than half of the servers have. -/
def Server.CommitsMost (s : Server) : Prop :=
  ∀ m, Majority ((s.logStore.nextSlot - 1) :: s.peers.map Peer.matchedIdx) (m ≤ ·) → m ≤ s.quickCommitIdx

/-- The leader believes the peer to be at `n`. -/
def Server.Places (s : Server) (pid : Int) (n : Nat) : Prop := ∀ p ∈ s.peers, p.id = pid → s.nextOf p = n

theorem Server.Places.tended (h : s.Places pid n) (ht : Tended s t) : t.Places pid n := by
  intro q hq hid
  obtain ⟨p, hp, hc, -, hn⟩ := ht.peers q hq
  have hpid : p.id = pid := by
    rw [← hid, Peer.id, Peer.id, hc]
  rw [← h p hp hpid]
  simp only [Server.nextOf, ht.logStore_eq]
  rcases hn with hn | ⟨hz, hn⟩
  · rw [hn]
  · rw [hz, if_pos rfl, hn]
    split
    · rfl
    · rfl

/-- Once it is set, the next index of the peer is that place. -/
theorem Server.Places.located (h : s.Places pid n) : ∀ q ∈ (s.located pid).peers, q.id = pid → q.nextLogIdx = n := by
  intro q hq hid
  obtain ⟨p, hp, rfl⟩ := List.mem_map.mp hq
  by_cases hpid : p.id = pid
  · have hplace := h p hp hpid
    rw [Server.nextOf] at hplace
    rw [if_pos hpid]
    by_cases hz : p.nextLogIdx = 0
    · rw [if_pos hz] at hplace
      simpa only [hz, if_true] using hplace
    · rw [if_neg hz] at hplace
      simpa only [hz, if_false] using hplace
  · rw [if_neg hpid] at hid
    exact absurd hid hpid

/-- Whoever is busy once `pid` is called was so before, or is `pid`. -/
theorem marks_called (hmem : pid ∈ s.peerIds) {x : Int} (h : (x, true) ∈ ((s.makeBusy pid).located pid).marks) :
    x = pid ∨ (x, true) ∈ s.marks := by
  have hidle : Idles (s.makeBusy pid) [] ((s.makeBusy pid).located pid) :=
    idles_updateAt (.peer pid) (fun p => by split <;> rfl) (s.makeBusy pid)
  rw [hidle.marks, makeBusy_marks] at h
  refine (mem_markBusy ?_).mp h
  rw [Server.marks, List.map_map]
  exact hmem

namespace Cluster
variable {c c' c'' : Cluster} {act : Act} {i j p : Int} {ev : Event} {env : Env} {W : Finset Int} {k : Nat}

theorem ids_run (c : Cluster) (acts : List (Env × Act)) : (c.run acts).ids = c.ids := by
  induction acts generalizing c with
  | nil => rfl
  | cons step acts ih => exact (ih (c.next step.1 step.2)).trans (ids_next _ _ _)

/-- A request stays on its way until its call is settled. -/
theorem Awaits.next {x : Int} (h : c.Awaits i x) (he : c.event? act = some (p, ev)) (hp : p ∈ c.ids)
    (hact : ∀ k call, c.calls[k]? = some call → (act = .fail k ∨ ∃ m, act = .answer k m) → call.req.dst ≠ x) :
    (c.next env act).Awaits i x := by
  obtain ⟨k, call, hcall, hopen, hsrc, hdst, htype⟩ := h
  have htouch : ∃ call', (touch ((c.servers p).effects env ev) c.calls act)[k]? = some call' ∧
      call'.settled = false ∧ call'.req = call.req := by
    cases act with
    | deliver k' =>
      rw [touch, List.getElem?_modify, hcall]
      by_cases hk : k' = k
      · exact ⟨_, congrArg some (if_pos hk), hopen, rfl⟩
      · exact ⟨_, congrArg some (if_neg hk), hopen, rfl⟩
    | fail k' =>
      rw [touch, List.getElem?_modify, hcall]
      by_cases hk : k' = k
      · exact absurd hdst (hact k call hcall (.inl (hk ▸ rfl)))
      · exact ⟨_, congrArg some (if_neg hk), hopen, rfl⟩
    | answer k' m =>
      rw [touch, List.getElem?_modify, hcall]
      by_cases hk : k' = k
      · exact absurd hdst (hact k call hcall (.inr ⟨m, hk ▸ rfl⟩))
      · exact ⟨_, congrArg some (if_neg hk), hopen, rfl⟩
    | timeout | heartbeat | client | wake | commit => exact ⟨call, hcall, hopen, rfl⟩
  obtain ⟨call', hcall', hopen', hreq⟩ := htouch
  exact ⟨k, call', getElem?_calls_next he hp hcall', hopen', hreq ▸ hsrc, hreq ▸ hdst, hreq ▸ htype⟩

/-- A leader with room in its log, and a majority that it can bring up to it. -/
structure Serves (W : Finset Int) (i : Int) (c : Cluster) : Prop where
  mem : i ∈ c.ids
  member : Member c.ids i (c.servers i)
  leads : (c.servers i).Leads
  ready : (c.servers i).Ready
  roomy : (c.servers i).Roomy
  answerable : c.Answerable i
  members : ∀ j ∈ W, j ≠ i → j ∈ c.ids ∧ Member c.ids j (c.servers j)
  trails : ∀ j ∈ W, j ≠ i → (c.servers i).Trails (c.servers j)

/-- Where the leader `i` leads on by what it does with `j`. -/
structure Works (i j : Int) (c c' : Cluster) : Prop where
  leads : LeadsOn GoesOrderly c c'
  ids : c'.ids = c.ids
  steers : (c.servers i).Steers j (c'.servers i)
  others : ∀ q, q ≠ i → q ≠ j → c'.servers q = c.servers q

theorem Works.trans (h : Works i j c c') (h' : Works i j c' c'') : Works i j c c'' :=
  ⟨h.leads.trans h'.leads, h'.ids.trans h.ids, h.steers.trans h'.steers, fun q hi hj =>
    (h'.others q hi hj).trans (h.others q hi hj)⟩

/-- It stays at work. -/
theorem Serves.works (h : Serves W i c) (hw : Works i j c c') (hready : (c'.servers i).Ready)
    (hans : c'.Answerable i)
    (hj : j ∈ W → j ≠ i → Member c.ids j (c'.servers j) ∧ (c.servers i).Trails (c'.servers j)) : Serves W i c' := by
  have hst := hw.steers
  have htrails : ∀ {F : Server}, (c.servers i).Trails F → (c'.servers i).Trails F := fun hF =>
    ⟨hF.runs, hF.role, hst.state_eq ▸ hF.term, hst.logStore_eq ▸ hF.matching⟩
  refine ⟨hw.ids ▸ h.mem, ?_, ⟨hst.exited_eq.trans h.leads.runs, hst.role_eq.trans h.leads.role⟩, hready, ?_, hans,
    fun q hq hne => ?_, fun q hq hne => ?_⟩
  · rw [hw.ids]
    refine ⟨hst.id_eq.trans h.member.id, hst.logStore_eq ▸ h.member.startIdx, ?_, fun q => ?_⟩
    · rw [hst.ids]
      exact h.member.nodup
    · rw [hst.ids]
      exact h.member.mem q
  · exact ⟨hst.params_eq ▸ h.roomy.batch, by rw [hst.logStore_eq, hst.params_eq]; exact h.roomy.fits⟩
  · rw [hw.ids]
    refine ⟨(h.members q hq hne).1, ?_⟩
    by_cases hqj : q = j
    · subst hqj
      exact (hj hq hne).1
    · rw [hw.others q hne hqj]
      exact (h.members q hq hne).2
  · by_cases hqj : q = j
    · subst hqj
      exact htrails (hj hq hne).2
    · rw [hw.others q hne hqj]
      exact htrails (h.trails q hq hne)

/-- Nothing has happened to the followers. -/
theorem Serves.alone (h : Serves W i c) (hw : Works i j c c') (hready : (c'.servers i).Ready)
    (hans : c'.Answerable i) (hrest : ∀ q, q ≠ i → c'.servers q = c.servers q) : Serves W i c' := by
  refine h.works hw hready hans fun hj hne => ?_
  rw [hrest j hne]
  exact ⟨(h.members j hj hne).2, h.trails j hj hne⟩

/-- **A busy peer is given up**: its request fails. -/
theorem Serves.freed (h : Serves W i c) (j : Int) : ∃ c', Works i j c c' ∧ Serves W i c' ∧
    Tended (c.servers i) (c'.servers i) ∧ (∀ q, q ≠ i → c'.servers q = c.servers q) ∧
      (j, true) ∉ (c'.servers i).marks := by
  by_cases hbusy : (j, true) ∈ (c.servers i).marks
  · obtain ⟨k, call, hcall, hopen, hsrc, hdst, htype⟩ := h.answerable j hbusy
    have he : c.event? (.fail k) = some (i, .peerErr (some (.peer j)) call.req.type) := by
      simp only [event?, hcall, hopen, hsrc, hdst, Bool.false_eq_true, if_false]
    have hself : (c.next {} (.fail k)).servers i =
        (c.servers i).updatePeer j (Peer.rpcResult (c.servers i).params call.req.type true) := by
      rw [servers_next_self he h.mem, Server.next_of_ok h.leads.runs rfl]
      rfl
    have htends : Tended (c.servers i) ((c.next {} (.fail k)).servers i) := hself ▸ tended_rpcResult _ _
    have hrest : ∀ q, q ≠ i → (c.next {} (.fail k)).servers q = c.servers q := fun q hq =>
      servers_next_of_ne he h.mem hq
    have hmarks : ∀ x, (x, true) ∈ ((c.next {} (.fail k)).servers i).marks →
        x ≠ j ∧ (x, true) ∈ (c.servers i).marks := by
      intro x hx
      rw [hself] at hx
      exact marks_rpcResult htype true hx
    have hw : Works i j c (c.next {} (.fail k)) := ⟨.single {} (goesOrderly_of he trivial trivial trivial),
      ids_next _ _ _, .of_tended htends, fun q hi _ => hrest q hi⟩
    refine ⟨_, hw, h.alone hw (htends.ready h.ready) (fun x hx => ?_) hrest, htends, hrest,
      fun hx => (hmarks j hx).1 rfl⟩
    obtain ⟨hne, hold⟩ := hmarks x hx
    refine (h.answerable x hold).next he h.mem fun k' call' hcall' hact => ?_
    have hk : k' = k := by
      rcases hact with hact | ⟨m, hact⟩
      · exact (Act.fail.inj hact).symm
      · cases hact
    subst hk
    cases hcall.symm.trans hcall'
    rw [hdst]
    exact hne.symm
  · have hst : (c.servers i).Steers j (c.servers i) := .of_tended (.refl _)
    exact ⟨c, ⟨.refl c, rfl, hst, fun _ _ _ => rfl⟩, h, .refl _, fun _ _ => rfl, hbusy⟩

/-- The leader has called `j`, which it believes to be at `n`. -/
structure Called (W : Finset Int) (i j : Int) (n k : Nat) (c : Cluster) : Prop where
  serves : Serves W i c
  call : c.calls[k]? = some { req := (c.servers i).appendReq j n }
  next : ∀ p ∈ (c.servers i).peers, p.id = j → p.nextLogIdx = n
  one_le : 1 ≤ n

/-- **A heartbeat** calls a peer, once it is free. -/
theorem Serves.calls (h : Serves W i c) (hj : j ∈ (c.servers i).peerIds) {n : Nat} (hn : (c.servers i).Places j n) :
    ∃ c' k, Works i j c c' ∧ (∀ q, q ≠ i → c'.servers q = c.servers q) ∧ Called W i j n k c' := by
  obtain ⟨d, hwork, hd, htends, hrest, hfree⟩ := h.freed j
  have hj' : j ∈ (d.servers i).peerIds := htends.ids.symm ▸ hj
  obtain ⟨p, hp⟩ := Option.isSome_iff_exists.mp (findPeer_isSome.mpr hj')
  obtain ⟨hmem, hid⟩ := findPeer_mem hp
  have hidle : p.busy = false := by
    refine Bool.eq_false_iff.mpr fun hbusy => hfree (List.mem_map.mpr ⟨p, hmem, ?_⟩)
    rw [Peer.mark, hid, hbusy]
  have hplace : (d.servers i).nextOf p = n := hn.tended htends p hmem hid
  have he : d.event? (.heartbeat i j) = some (i, .hbTimeout j) := rfl
  obtain ⟨hnext, hout⟩ := beats hd.leads hd.ready hp hidle {}
  rw [hplace] at hout
  set t := ((d.servers i).makeBusy j).located j with ht
  have hself : (d.next {} (.heartbeat i j)).servers i = t := (servers_next_self he hd.mem).trans hnext
  have hothers : ∀ q, q ≠ i → (d.next {} (.heartbeat i j)).servers q = d.servers q := fun q hq =>
    servers_next_of_ne he hd.mem hq
  have hbusy : Tended (d.servers i) ((d.servers i).makeBusy j) := Tended.updatePeer j fun p => ⟨rfl, rfl, .inl rfl⟩
  have htends' : Tended (d.servers i) t := hbusy.trans (tended_located j)
  have hreq : t.appendReq j n = (d.servers i).appendReq j n := rfl
  have hcall : (d.next {} (.heartbeat i j)).calls[d.calls.length]? = some { req := t.appendReq j n } := by
    have htouch : ∀ o, touch o d.calls (.heartbeat i j) = d.calls := fun _ => rfl
    rw [calls_next_eq he hd.mem, hout, htouch, List.getElem?_append_right le_rfl, Nat.sub_self, hreq]
    rfl
  have hnexts : ∀ q ∈ t.peers, q.id = j → q.nextLogIdx = n := ((hn.tended htends).tended hbusy).located
  have hone : 1 ≤ n := by
    rw [← hplace, Server.nextOf]
    split
    · rw [LogStore.nextSlot, hd.ready.startIdx]
      omega
    · exact Nat.one_le_iff_ne_zero.mpr ‹_›
  have hgoes : GoesOrderly d (.heartbeat i j) := goesOrderly_of he trivial trivial trivial
  have hsteer : (d.servers i).Steers j ((d.next {} (.heartbeat i j)).servers i) := hself ▸ .of_tended htends'
  have hw : Works i j d (d.next {} (.heartbeat i j)) :=
    ⟨.single {} hgoes, ids_next _ _ _, hsteer, fun q hi _ => hothers q hi⟩
  have hans : (d.next {} (.heartbeat i j)).Answerable i := by
    intro x hx
    rw [hself] at hx
    rcases marks_called hj' hx with rfl | hold
    · refine ⟨d.calls.length, _, hcall, rfl, hd.member.id, rfl, rfl⟩
    · refine (hd.answerable x hold).next he hd.mem fun k call _ hact => ?_
      rcases hact with hact | ⟨m, hact⟩
      · cases hact
      · cases hact
  refine ⟨_, d.calls.length, hwork.trans hw, fun q hq => (hothers q hq).trans (hrest q hq), ?_⟩
  refine ⟨hd.alone hw (hself ▸ htends'.ready hd.ready) hans hothers, ?_, ?_, hone⟩
  · rw [hself]
    exact hcall
  · rw [hself]
    exact hnexts

/-- The follower that is called, once it has noted the term of the leader. -/
theorem Called.probing {n : Nat} (h : Called W i j n k c) (hj : j ∈ W) (hne : j ≠ i) :
    Probing n (c.servers i) ((c.servers j).noted (c.servers i).state.term) := by
  obtain ⟨hid, hmember⟩ := h.serves.members j hj hne
  have htrails := h.serves.trails j hj hne
  obtain ⟨hlog, -, -, hterm, hrole, -⟩ := noted_rest (c.servers j) (c.servers i).state.term
  have hname : ((c.servers j).noted (c.servers i).state.term).id = j := (noted_id _ _).trans hmember.id
  have hknown : j ∈ (c.servers i).peerIds := (h.serves.member.mem j).mpr ⟨hid, hne⟩
  obtain ⟨p, hp, hpid⟩ := List.mem_map.mp hknown
  refine ⟨h.serves.ready, ?_, hrole htrails.role, ?_, ?_, ?_, ?_, h.one_le, ?_, ?_⟩
  · rw [hlog]
    exact hmember.startIdx
  · rw [hterm, max_eq_right htrails.term]
  · rw [hlog]
    exact htrails.matching
  · rw [hname]
    exact hknown
  · rw [hname]
    exact h.next
  · rw [← h.next p hp hpid]
    exact h.serves.ready.next_le p hp
  · have hbatch := h.serves.roomy.batch
    have hfits := h.serves.roomy.fits
    omega

/-- **A call is answered**, and the leader hears of it. -/
theorem Called.exchanged {n : Nat} {resp : RespMsg} {F' : Server} {o : List Effect} {Q : Server → Prop}
    (h : Called W i j n k c) (hj : j ∈ W) (hne : j ≠ i)
    (hrun : handleAppendEntries {} ((c.servers i).appendReq j n) ((c.servers j).noted (c.servers i).state.term) =
      ⟨.ok resp, F', o⟩)
    (ho : o.filterMap reply? = [])
    (ha : Answers.Of ((c.servers j).noted (c.servers i).state.term) ((c.servers i).appendReq j n) resp F')
    (hF' : (c.servers i).Trails F') (hle : resp.accepted = true → resp.nextIdx ≤ (c.servers i).logStore.nextSlot)
    (hL : Achieves ((c.servers i).updatePeer j (Peer.rpcResult (c.servers i).params .appendEntriesRequest false))
      (handleAppendEntriesResp {} resp) fun _ t => Q t)
    (hready : ∀ t, Q t → t.Ready) :
    ∃ c', Works i j c c' ∧ Serves W i c' ∧ c'.servers j = F' ∧ Q (c'.servers i) ∧
      (resp.accepted = true → (c'.servers i).CommitsMost) := by
  set L := c.servers i with hLdef
  obtain ⟨hid, hmember⟩ := h.serves.members j hj hne
  have htrails := h.serves.trails j hj hne
  have hprobe := h.probing hj hne
  -- the request reaches `j`
  have he : c.event? (.deliver k) = some (j, .request (L.appendReq j n)) := by
    simp only [event?, h.call, Option.map_some]
    rfl
  obtain ⟨hreply, hnext⟩ := next_append htrails.runs rfl hrun ho
  have hself : (c.next {} (.deliver k)).servers j = F' := (servers_next_self he hid).trans hnext
  have hrest : ∀ q, q ≠ j → (c.next {} (.deliver k)).servers q = c.servers q := fun q hq =>
    servers_next_of_ne he hid hq
  have hcall : (c.next {} (.deliver k)).calls[k]? = some { req := L.appendReq j n, answers := [resp] } := by
    refine getElem?_calls_next he hid ?_
    rw [touch, List.getElem?_modify, h.call, hreply]
    exact congrArg some (if_pos rfl)
  have hcore : (Event.request (L.appendReq j n)).core := Or.inl rfl
  have hmember' : Member c.ids j F' := by
    rw [← hnext]
    exact hmember.of_same (polls_next {} hmember.startIdx hcore).same
  have hstamp : StampsSafely (c.servers j) (.request (L.appendReq j n)) := fun hclient => by cases hclient
  have hfirst : LeadsOn GoesOrderly c (c.next {} (.deliver k)) := .single {} (goesOrderly_of he hstamp trivial trivial)
  have hids : (c.next {} (.deliver k)).ids = c.ids := ids_next _ _ _
  have hawaits : ∀ x, c.Awaits i x → (c.next {} (.deliver k)).Awaits i x := fun x hx =>
    hx.next he hid fun k' call _ hact => by
      rcases hact with hact | ⟨m, hact⟩
      · cases hact
      · cases hact
  generalize c.next {} (.deliver k) = d at hself hrest hcall hfirst hids hawaits
  -- its answer comes back to `i`
  have hi : i ∈ d.ids := hids ▸ h.serves.mem
  have hserver : d.servers i = L := hrest i hne.symm
  have he' : d.event? (.answer k 0) = some (i, .peerResp (some (.peer j)) .appendEntriesRequest resp) := by
    have hsrc : (L.appendReq j n).src = i := h.serves.member.id
    simp only [event?, hcall, hsrc, List.getElem?_cons_zero, Option.map_some]
    rfl
  have hterm : resp.term ≤ L.state.term := by rw [ha.term, ← hprobe.term]
  set M := L.updatePeer j (Peer.rpcResult L.params .appendEntriesRequest false) with hM
  have hheard : Tended L M := tended_rpcResult _ _
  have hname : ((c.servers j).noted L.state.term).id = j := (noted_id _ _).trans hmember.id
  have hsteers : Achieves M (handleAppendEntriesResp {} resp) fun _ t => M.Steers j t := by
    have hheeds := (hprobe.tended hheard rfl rfl hprobe.role rfl).heeds {} ha.src hle
    rw [hname] at hheeds
    exact hheeds
  have hhandle : handle {} (.peerResp (some (.peer j)) .appendEntriesRequest resp) L =
      handleAppendEntriesResp {} resp M := by
    have hpeer := handlePeerResp_of_le (s := M) {} (hheard.state_eq.symm ▸ hterm)
    rw [ha.type] at hpeer
    exact hpeer
  obtain ⟨⟨⟩, hok, hst⟩ := hsteers
  obtain ⟨-, -, hq⟩ := hL
  have hturn : (d.next {} (.answer k 0)).servers i = (handleAppendEntriesResp {} resp M).state := by
    rw [servers_next_self he' hi, hserver, Server.next_of_ok h.serves.leads.runs (by rw [hhandle, hok]), hhandle]
  have hout : (d.servers i).effects {} (.peerResp (some (.peer j)) .appendEntriesRequest resp) =
      (handleAppendEntriesResp {} resp M).out := by
    rw [hserver, effects_of_running h.serves.leads.runs, hhandle]
  have hanswers := answers_peerResp {} (some (.peer j)) .appendEntriesRequest ha.type hterm
  rw [hhandle] at hanswers
  have hmoves : Moves False M (handleAppendEntriesResp {} resp M).out (handleAppendEntriesResp {} resp M).state := by
    refine behaves_handleAppendEntriesResp {} resp ?_
    rintro ⟨e, herr⟩
    cases hok.symm.trans herr
  have hothers : ∀ q, q ≠ i → (d.next {} (.answer k 0)).servers q = d.servers q := fun q hq =>
    servers_next_of_ne he' hi hq
  have hsafe : ElectsSafely (d.servers i) (.peerResp (some (.peer j)) .appendEntriesRequest resp) := by
    intro hvote
    cases ha.type.symm.trans hvote
  have hw : Works i j c (d.next {} (.answer k 0)) := by
    refine ⟨hfirst.trans (.single {} (goesOrderly_of he' trivial trivial hsafe)), (ids_next _ _ _).trans hids, ?_,
      fun q hqi hqj => (hothers q hqi).trans (hrest q hqj)⟩
    rw [hturn]
    exact (Steers.of_tended hheard).trans hst
  refine ⟨_, hw, h.serves.works hw (hturn ▸ hready _ hq) (fun x hx => ?_) (fun _ _ => ?_), ?_, hturn ▸ hq, ?_⟩
  · -- whoever is busy has been called before, or with the answer
    rw [hturn] at hx
    have hasked := asks_of_moves (u := L.answered resp) hmoves hanswers.quiet.out (by
      rw [Server.answered]
      split <;> rfl) hx
    rcases hasked with hold | hnew
    · obtain ⟨hxj, hmark⟩ := marks_rpcResult rfl false hold
      refine (hawaits x (h.serves.answerable x hmark)).next he' hi fun k' call hcall' hact => ?_
      have hk : k' = k := by
        rcases hact with hact | ⟨m, hact⟩
        · cases hact
        · exact (Act.answer.inj hact).1.symm
      subst hk
      cases hcall.symm.trans hcall'
      exact hxj.symm
    · refine awaits_of_asks he' hi (hserver ▸ h.serves.member.id) ?_
      rw [hout, hserver]
      exact hnew
  · rw [hothers j hne, hself]
    exact ⟨hmember', hF'⟩
  · exact (hothers j hne).trans hself
  · intro hacc m hmost
    rw [hturn] at hmost ⊢
    have hknown : resp.src ∈ L.peerIds := by
      rw [ha.src, hname]
      exact (h.serves.member.mem j).mpr ⟨hid, hne⟩
    rw [hanswers.quick, if_pos ⟨hacc, hknown⟩]
    refine le_max_of_le_right ((le_responseIdx_iff hacc m).mpr ?_)
    rw [replicas_eq hacc, ← hanswers.quiet.matched_eq]
    rw [hanswers.quiet.logStore_eq] at hmost
    have hlog : (L.answered resp).logStore = L.logStore := by
      rw [Server.answered]
      split <;> rfl
    rw [hlog] at hmost
    exact hmost

/-- What a round with `j` comes to: where the logs do not agree below the next index, it may go
down; else it goes up by what there is to send. -/
inductive Advances (i j : Int) (n : Nat) (c c' : Cluster) : Prop
  | down {n' : Nat} (hno : (c.servers i).logStore.entries.take (n - 1) ≠ (c.servers j).logStore.entries.take (n - 1))
      (hlt : n' < n) (hn : (c'.servers i).Places j n') : Advances i j n c c'
  | up {m : Nat} (hgrow : n < (c.servers i).logStore.nextSlot → 0 < m) (hle : n + m ≤ (c.servers i).logStore.nextSlot)
      (hn : (c'.servers i).Places j (n + m)) (hmatches : Probing.Matches j (n + m) (c'.servers i))
      (hagree : (c'.servers i).logStore.entries.take (n + m - 1) = (c'.servers j).logStore.entries.take (n + m - 1))
      (hcommits : (c'.servers i).CommitsMost) : Advances i j n c c'

theorem places_of_next {s : Server} {n : Nat} (h1 : 1 ≤ n) (h : ∀ p ∈ s.peers, p.id = j → p.nextLogIdx = n) :
    s.Places j n := by
  intro p hp hid
  rw [Server.nextOf, if_neg (by rw [h p hp hid]; omega), h p hp hid]

/-- **One round**: the call, its answer, and what the leader makes of it. -/
theorem Called.round {n : Nat} (h : Called W i j n k c) (hj : j ∈ W) (hne : j ≠ i) :
    ∃ c', Works i j c c' ∧ Serves W i c' ∧ Advances i j n c c' := by
  have hprobe := h.probing hj hne
  have hlog : ((c.servers j).noted (c.servers i).state.term).logStore = (c.servers j).logStore := (noted_rest _ _).1
  have hname : ((c.servers j).noted (c.servers i).state.term).id = j :=
    (noted_id _ _).trans (h.serves.members j hj hne).2.id
  have hlive : ((c.servers j).noted (c.servers i).state.term).exited = false :=
    (noted_rest _ _).2.2.2.2.2.trans (h.serves.trails j hj hne).runs
  set L := c.servers i with hL
  set F := (c.servers j).noted L.state.term with hF
  obtain ⟨resp, F', o, hrun, ho, ha⟩ := answers_append {} (L.appendReq j n) hprobe.startIdx hprobe.role
  have hacc := ha.accepted hprobe.term.ge
  have hheard : Tended L (L.updatePeer j (Peer.rpcResult L.params .appendEntriesRequest false)) := tended_rpcResult _ _
  have hM := hprobe.tended hheard rfl rfl hprobe.role rfl
  have hle : F'.state.term ≤ L.state.term := by rw [ha.state, hprobe.term]
  cases hprev : F.logStore.hasPrev (L.appendReq j n) with
  | false =>
    have hdecl := hacc.trans hprev
    have hone : 1 < n := by
      have h1 := h.one_le
      by_contra hle
      have h0 : (L.appendReq j n).lastLogIdx = 0 := show n - 1 = 0 by omega
      rw [LogStore.hasPrev, h0] at hprev
      simp at hprev
    obtain ⟨n', hlt, hgoes⟩ := hM.declines {} resp ha.src hdecl (ha.declined hdecl).1 hone
    have htrails : L.Trails F' := ⟨ha.exited.trans hlive, ha.role, hle, (ha.declined hdecl).2 ▸ hprobe.matching⟩
    have hnever : resp.accepted = true → resp.nextIdx ≤ L.logStore.nextSlot := fun htrue => by
      rw [hdecl] at htrue
      cases htrue
    obtain ⟨c', hw, hserves, -, ⟨-, -, hprobe'⟩, -⟩ :=
      h.exchanged hj hne hrun ho ha htrails hnever hgoes fun t ht => ht.2.2.ready
    refine ⟨c', hw, hserves, .down (fun hagree => ?_) hlt (places_of_next hprobe'.one_le (hname ▸ hprobe'.next))⟩
    -- logs that agree there have the request accepted
    have hyes := hprobe.hasPrev_of_take (hlog.symm ▸ hagree)
    rw [hname, hprev] at hyes
    cases hyes
  | true =>
    have hyes := hacc.trans hprev
    obtain ⟨m, hentries, hm, hgrow⟩ := hprobe.batch_eq h.serves.roomy
    have hpre := hprobe.take_of_hasPrev (hname.symm ▸ hprev)
    obtain ⟨resp', L', F'', hex, -, hidx, hlogL, -, -, hprobe', -, hagree⟩ :=
      hprobe.exchange_accepted ({}, {}) (hname.symm ▸ hprev) hpre hentries hm
    obtain ⟨hres, hstate⟩ := hprobe.answered hex
    rw [hname, hrun] at hres hstate
    cases hres
    cases hstate
    have h1 := h.one_le
    have hslot := hprobe.nextSlot_eq
    have hbound : resp.nextIdx ≤ L.logStore.nextSlot := by omega
    have hgoes := hM.accepts {} resp ha.src hyes (by omega) (hheard.logStore_eq.symm ▸ hbound)
    have htrails : L.Trails F' := ⟨ha.exited.trans hlive, ha.role, hle, hlogL ▸ hprobe'.matching⟩
    obtain ⟨c', hw, hserves, hserver, ⟨-, -, hprobe'', hmatches⟩, hcommits⟩ :=
      h.exchanged hj hne hrun ho ha htrails (fun _ => hbound) hgoes fun t ht => ht.2.2.1.ready
    rw [hname] at hmatches
    rw [hidx] at hprobe'' hmatches
    refine ⟨c', hw, hserves, .up hgrow (hidx ▸ hbound) (places_of_next hprobe''.one_le (hname ▸ hprobe''.next))
      hmatches ?_ (hcommits hyes)⟩
    rw [hserver, hw.steers.logStore_eq]
    exact hagree

/-- The leader takes its whole log to be matched at `j`, which has it. -/
structure Has (i j : Int) (c : Cluster) : Prop where
  matched : ∀ p ∈ (c.servers i).peers, p.id = j → p.matchedIdx = (c.servers i).logStore.nextSlot - 1
  kept : (c.servers i).logStore.entries <+: (c.servers j).logStore.entries

/-- What the leader does with others leaves that. -/
theorem Has.works {q : Int} (h : Has i q c) (hw : Works i j c c') (hqj : q ≠ j) (hqi : q ≠ i) : Has i q c' := by
  refine ⟨fun p hp hid => ?_, ?_⟩
  · obtain ⟨p', hp', hpid, hm⟩ := hw.steers.others p hp (hid.trans_ne hqj)
    rw [hm, hw.steers.logStore_eq]
    exact h.matched p' hp' (hpid.trans hid)
  · rw [hw.steers.logStore_eq, hw.others q hqi hqj]
    exact h.kept

/-- **Once the logs agree below the next index**, it rises to the end. -/
theorem Serves.rises {n : Nat} (h : Serves W i c) (hj : j ∈ W) (hne : j ≠ i) (hn : (c.servers i).Places j n)
    (hagree : (c.servers i).logStore.entries.take (n - 1) = (c.servers j).logStore.entries.take (n - 1)) :
    ∃ c', Works i j c c' ∧ Serves W i c' ∧ Has i j c' ∧ (c'.servers i).CommitsMost := by
  -- on what is left of the log
  induction hd : (c.servers i).logStore.nextSlot - n using Nat.strong_induction_on generalizing c n with
  | _ d ih =>
    have hpeer : j ∈ (c.servers i).peerIds := (h.member.mem j).mpr ⟨(h.members j hj hne).1, hne⟩
    obtain ⟨c₁, k, hw₁, hrest₁, hcalled⟩ := h.calls hpeer hn
    obtain ⟨c₂, hw₂, h₂, hadv⟩ := hcalled.round hj hne
    have hw := hw₁.trans hw₂
    have hlog₁ := hw₁.steers.logStore_eq
    cases hadv with
    | down hno _ _ =>
      refine absurd ?_ hno
      rw [hlog₁, hrest₁ j hne]
      exact hagree
    | @up m hgrow hle hn₂ hmatches hagree₂ hcommits =>
      rw [hlog₁] at hgrow hle
      have hlog := hw.steers.logStore_eq
      by_cases hend : n + m = (c.servers i).logStore.nextSlot
      · refine ⟨c₂, hw, h₂, ⟨fun p hp hid => ?_, ?_⟩, hcommits⟩
        · rw [hlog, ← hend]
          exact hmatches p hp hid
        · have hall : (c₂.servers i).logStore.entries.take (n + m - 1) = (c₂.servers i).logStore.entries := by
            rw [List.take_of_length_le]
            rw [hend, hlog, LogStore.nextSlot, h.member.startIdx]
            omega
          rw [← hall, hagree₂]
          exact List.take_prefix _ _
      · have hone := hcalled.one_le
        obtain ⟨c', hw', h', hhas, hmost⟩ := ih _ (by rw [hlog]; omega) h₂ hn₂ hagree₂ rfl
        exact ⟨c', hw.trans hw', h', hhas, hmost⟩

/-- **Bringing a follower up to the log of its leader**, from wherever it is believed to be:
down to where the two logs agree, and up again. -/
theorem Serves.reaches (h : Serves W i c) (hj : j ∈ W) (hne : j ≠ i) :
    ∃ c', Works i j c c' ∧ Serves W i c' ∧ Has i j c' ∧ (c'.servers i).CommitsMost := by
  have hpeer : j ∈ (c.servers i).peerIds := (h.member.mem j).mpr ⟨(h.members j hj hne).1, hne⟩
  obtain ⟨p, hp, hpid⟩ := List.mem_map.mp hpeer
  have hplace : (c.servers i).Places j ((c.servers i).nextOf p) := by
    intro q hq hid
    rw [List.inj_on_of_nodup_map h.member.nodup hq hp (hid.trans hpid.symm)]
  generalize (c.servers i).nextOf p = n at hplace
  clear hp hpid
  -- on the place
  induction n using Nat.strong_induction_on generalizing c with
  | _ n ih =>
    by_cases hagree : (c.servers i).logStore.entries.take (n - 1) = (c.servers j).logStore.entries.take (n - 1)
    · exact h.rises hj hne hplace hagree
    · obtain ⟨c₁, k, hw₁, hrest₁, hcalled⟩ := h.calls hpeer hplace
      obtain ⟨c₂, hw₂, h₂, hadv⟩ := hcalled.round hj hne
      have hw := hw₁.trans hw₂
      cases hadv with
      | down _ hlt hn₂ =>
        have hpeer₂ : j ∈ (c₂.servers i).peerIds := hw.steers.ids.symm ▸ hpeer
        obtain ⟨c', hw', h', hhas, hmost⟩ := ih _ hlt h₂ hpeer₂ hn₂
        exact ⟨c', hw.trans hw', h', hhas, hmost⟩
      | up _ _ hn₂ _ hagree₂ _ =>
        obtain ⟨c', hw', h', hhas, hmost⟩ := h₂.rises hj hne hn₂ hagree₂
        exact ⟨c', hw.trans hw', h', hhas, hmost⟩

/-- One after the other. -/
theorem Serves.reaches_all {js : List Int} (h : Serves W i c) (hjs : ∀ j ∈ js, j ∈ W ∧ j ≠ i) (hnodup : js.Nodup) :
    ∃ c', LeadsOn GoesOrderly c c' ∧ Serves W i c' ∧ (c'.servers i).logStore = (c.servers i).logStore ∧
      (∀ q, q ∉ js → Has i q c → q ≠ i → Has i q c') ∧ (∀ j ∈ js, Has i j c') ∧
        (js ≠ [] ∨ (c.servers i).CommitsMost → (c'.servers i).CommitsMost) := by
  induction js generalizing c with
  | nil =>
    refine ⟨c, .refl c, h, rfl, fun q _ hq _ => hq, fun j hj => absurd hj List.not_mem_nil, ?_⟩
    rintro (hne | hmost)
    · exact absurd rfl hne
    · exact hmost
  | cons j js ih =>
    obtain ⟨hnot, hnodup'⟩ := List.nodup_cons.mp hnodup
    obtain ⟨hjW, hne⟩ := hjs j List.mem_cons_self
    obtain ⟨c₁, hw, h₁, hhas, hmost⟩ := h.reaches hjW hne
    obtain ⟨c', hlead, h', hlog, hold, hnew, hcommits⟩ :=
      ih h₁ (fun q hq => hjs q (List.mem_cons_of_mem j hq)) hnodup'
    refine ⟨c', hw.leads.trans hlead, h', hlog.trans hw.steers.logStore_eq, fun q hq hqhas hqi => ?_, fun q hq => ?_,
      fun _ => hcommits (.inr hmost)⟩
    · have hqj : q ≠ j := fun heq => hq (heq ▸ List.mem_cons_self)
      exact hold q (fun hmem => hq (List.mem_cons_of_mem j hmem)) (hqhas.works hw hqj hqi) hqi
    · rcases List.mem_cons.mp hq with rfl | hq
      · exact hold q hnot hhas hne
      · exact hnew q hq

/-- The leader and those that have its whole log are more than half. -/
theorem Serves.most (h : Serves W i c) (hi : i ∈ W) (hmost : c.ids.dedup.length < 2 * W.card)
    (hhas : ∀ j ∈ W, j ≠ i → Has i j c) :
    Majority (((c.servers i).logStore.nextSlot - 1) :: (c.servers i).peers.map Peer.matchedIdx)
      ((c.servers i).logStore.nextSlot - 1 ≤ ·) := by
  set N := (c.servers i).logStore.nextSlot - 1 with hN
  have hlen := h.member.length h.mem
  rw [Server.peerIds, List.length_map] at hlen
  have hsub : (W.erase i).toList ⊆ (((c.servers i).peers.filter fun p => decide (N ≤ p.matchedIdx)).map Peer.id) := by
    intro j hj
    obtain ⟨hne, hjW⟩ := Finset.mem_erase.mp (Finset.mem_toList.mp hj)
    obtain ⟨p, hp, hid⟩ := List.mem_map.mp ((h.member.mem j).mpr ⟨(h.members j hjW hne).1, hne⟩)
    refine List.mem_map.mpr ⟨p, List.mem_filter.mpr ⟨hp, ?_⟩, hid⟩
    exact decide_eq_true ((hhas j hjW hne).matched p hp hid).ge
  have hcount := List.Nodup.length_le_of_subset (W.erase i).nodup_toList hsub
  rw [Finset.length_toList, Finset.card_erase_of_mem hi, List.length_map, ← List.countP_eq_length_filter] at hcount
  have hpos := Finset.card_pos.mpr ⟨i, hi⟩
  rw [Majority, List.length_cons, List.length_map, List.countP_cons, List.countP_map]
  have hown : (if decide (N ≤ N) = true then 1 else 0) = 1 := if_pos (decide_eq_true le_rfl)
  rw [hown]
  change _ < (List.countP (fun p : Peer => decide (N ≤ p.matchedIdx)) (c.servers i).peers) + 1
  omega

/-- **All of the majority has the log of the leader, which has committed it.** -/
theorem Serves.commits (h : Serves W i c) (hi : i ∈ W) (hmost : c.ids.dedup.length < 2 * W.card)
    (halone : (c.servers i).peers = [] → (c.servers i).CommitsMost) :
    ∃ c', LeadsOn GoesOrderly c c' ∧ Serves W i c' ∧ (c'.servers i).logStore = (c.servers i).logStore ∧
      (∀ j ∈ W, j ≠ i → Has i j c') ∧ (c'.servers i).logStore.nextSlot - 1 ≤ (c'.servers i).quickCommitIdx := by
  have hjs : ∀ j ∈ (W.erase i).toList, j ∈ W ∧ j ≠ i := by
    intro j hj
    obtain ⟨hne, hjW⟩ := Finset.mem_erase.mp (Finset.mem_toList.mp hj)
    exact ⟨hjW, hne⟩
  obtain ⟨c', hlead, h', hlog, -, hnew, hcommits⟩ := h.reaches_all hjs (W.erase i).nodup_toList
  have hhas : ∀ j ∈ W, j ≠ i → Has i j c' := fun j hj hne =>
    hnew j (Finset.mem_toList.mpr (Finset.mem_erase.mpr ⟨hne, hj⟩))
  have hids : c'.ids = c.ids := by
    obtain ⟨acts, -, rfl⟩ := hlead
    exact ids_run c acts
  refine ⟨c', hlead, h', hlog, hhas, hcommits ?_ _ (h'.most hi (hids ▸ hmost) hhas)⟩
  by_cases hnone : (W.erase i).toList = []
  · -- a majority of one has no peers
    right
    refine halone (List.length_eq_zero_iff.mp ?_)
    have hlen := h.member.length h.mem
    rw [Server.peerIds, List.length_map] at hlen
    have hcard := congrArg List.length hnone
    rw [Finset.length_toList, Finset.card_erase_of_mem hi, List.length_nil] at hcard
    omega
  · exact .inl hnone

/-- **A new leader gets a client's request**, and is at work. -/
theorem Elected.serves {c₀ : Cluster} {T : Nat} (h : Elected c₀ W i T c) (hW : ∀ j ∈ W, j ≠ i → j ∈ c.ids ∧
      Member c.ids j (c.servers j))
    (hstart₀ : (c₀.servers i).logStore.startIdx = 1)
    (hmatch : ∀ j ∈ W, Matched LogEntry.term (c₀.servers i).logStore.entries (c₀.servers j).logStore.entries)
    (hyoung : ∀ j ∈ W, ∀ e ∈ (c₀.servers j).logStore.entries, e.term < T)
    {req : ReqMsg} (htype : req.type = .clientRequest) (hreq : ∀ e ∈ req.logEntries, e.term = T)
    (hroom : (c₀.servers i).HasRoom (req.logEntries.length + 1)) :
    GoesOrderly c (.client i req) ∧ Serves W i (c.next {} (.client i req)) ∧
      (∃ log, ((c.next {} (.client i req)).servers i).logStore.entries = log ++ req.logEntries) ∧
      (((c.next {} (.client i req)).servers i).peers = [] → ((c.next {} (.client i req)).servers i).CommitsMost) := by
  have hsame : ({ req with type := .clientRequest } : ReqMsg) = req := by rw [← htype]
  have he : c.event? (.client i req) = some (i, .request req) := by rw [event?, hsame]
  obtain ⟨htends, hmarks, hcommits⟩ := serves_client {} h.leads h.ready htype
  have hself : (c.next {} (.client i req)).servers i = (c.servers i).next {} (.request req) :=
    servers_next_self he h.mem
  have hrest : ∀ q, q ≠ i → (c.next {} (.client i req)).servers q = c.servers q := fun q hq =>
    servers_next_of_ne he h.mem hq
  have hids : (c.next {} (.client i req)).ids = c.ids := ids_next _ _ _
  have hstamp : StampsSafely (c.servers i) (.request req) := fun _ _ e hmem => (hreq e hmem).trans h.term.symm
  obtain ⟨conf, hconf, hone, hcterm⟩ := h.log
  set t := (c.servers i).next {} (.request req) with ht
  have hlog : t.logStore.entries = (c₀.servers i).logStore.entries ++ (conf ++ req.logEntries) := by
    rw [htends.logStore_eq, ← List.append_assoc, ← hconf]
    rfl
  have hstart : t.logStore.startIdx = 1 := by
    rw [htends.logStore_eq]
    exact h.member.startIdx
  have hparams : t.params = (c₀.servers i).params := htends.params_eq.trans h.params
  refine ⟨goesOrderly_of he hstamp trivial trivial, ⟨hids ▸ h.mem, ?_, ?_, ?_, ?_, ?_, ?_, ?_⟩, ?_, ?_⟩
  · rw [hids, hself]
    refine ⟨?_, hstart, ?_, fun q => ?_⟩
    · rw [htends.rest]
      exact h.member.id
    · rw [htends.ids]
      exact h.member.nodup
    · rw [htends.ids]
      exact h.member.mem q
  · rw [hself]
    refine ⟨?_, htends.role_eq.trans h.leads.role⟩
    rw [htends.rest]
    exact h.leads.runs
  · rw [hself]
    exact htends.ready (h.ready.withEntries _)
  · rw [hself]
    refine ⟨hparams ▸ hroom.batch, ?_⟩
    have hfits := hroom.fits
    have hslot : t.logStore.nextSlot ≤ (c₀.servers i).logStore.nextSlot + (req.logEntries.length + 1) := by
      rw [LogStore.nextSlot, LogStore.nextSlot, hstart, hstart₀, hlog, List.length_append, List.length_append]
      omega
    rw [hparams]
    push_cast at hfits
    omega
  · intro x hx
    rw [hself] at hx
    rcases hmarks x hx with hold | hnew
    · refine (h.answerable x hold).next he h.mem fun k call _ hact => ?_
      rcases hact with hact | ⟨m, hact⟩
      · cases hact
      · cases hact
    · exact awaits_of_asks he h.mem h.member.id hnew
  · intro j hj hne
    rw [hids, hrest j hne]
    exact hW j hj hne
  · intro j hj hne
    have hbacks := h.backs j hj hne
    rw [hself, hrest j hne]
    refine ⟨hbacks.runs, hbacks.role, ?_, ?_⟩
    · rw [htends.state_eq]
      exact hbacks.term.trans h.term.ge
    · -- the new entries are of a later term than all that the follower has
      rw [hlog, hbacks.log]
      refine matched_append_fresh (hmatch j hj) fun e hmem b hb => ?_
      have hT : e.term = T := by
        rcases List.mem_append.mp hmem with hc | hr
        · exact hcterm e hc
        · exact hreq e hr
      rw [hT]
      exact (hyoung j hj b hb).ne'
  · rw [hself, hlog, ← List.append_assoc]
    exact ⟨_, rfl⟩
  · intro halone m hmost
    rw [hself] at halone hmost ⊢
    have hnone : (c.servers i).peers = [] := by
      have hlen := congrArg List.length htends.ids
      rw [Server.peerIds, Server.peerIds, List.length_map, List.length_map, halone] at hlen
      exact List.length_eq_zero_iff.mp hlen.symm
    rw [halone] at hmost
    obtain ⟨a, ha, hle⟩ := hmost.exists_mem
    rw [List.mem_singleton.mp ha] at hle
    have hbound := hcommits hnone
    rw [← htends.logStore_eq] at hbound
    exact (of_decide_eq_true hle).trans hbound

end Cluster

/-! ## Every run -/

/-- What holds between acts. -/
def Going (c : Cluster) : Prop := Polled c ∧ ∃ a, Mirrors False c a

/-- The logs of a run in order match. -/
theorem Going.matched {c : Cluster} (h : Going c) (i j : Int) :
    Matched LogEntry.term (c.servers i).logStore.entries (c.servers j).logStore.entries := by
  obtain ⟨-, a, hm⟩ := h
  intro k e e' he he' hterm
  rw [← hm.log i] at he ⊢
  rw [← hm.log j] at he' ⊢
  exact (hm.sound.matching.log i).take_eq (hm.sound.matching.log j) he he' hterm

end Cornerstone
