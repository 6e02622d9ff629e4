import Cornerstone.ConsensusRun
import Cornerstone.ElectionSafety
import Cornerstone.Shares

/-! # Logs that match

A follower compares the terms of its entries with those of the leader's, and nothing
else of them.  That is enough as long as the entries of one term all come from one log:
the leader of the term appends them, and everyone else takes in parts of its log.  The
servers of a cluster then do what the abstract protocol does, and matching is a fact
about that.  What makes the terms tell too little is an entry of a client, which keeps
the term it comes with.
-/

namespace Cornerstone
open Handlers Splice

/-! ## What is claimed -/

/-- One server at most takes office in a term. -/
def OneLeader (history : List (Int × Effect)) : Prop :=
  ∀ t i j m n, (i, .becomeLeader t m) ∈ history → (j, .becomeLeader t n) ∈ history → i = j

/-- The term an effect takes office in. -/
def Effect.office : Effect → Option Nat
  | .becomeLeader t _ => some t
  | _ => none

instance (history : List (Int × Effect)) : Decidable (OneLeader history) := by
  refine decidable_of_iff (∀ p ∈ history, ∀ q ∈ history, p.2.office.isSome → p.2.office = q.2.office → p.1 = q.1)
    ⟨fun h t i j m n hi hj => h _ hi _ hj rfl rfl, fun h p hp q hq hsome heq => ?_⟩
  obtain ⟨i, e⟩ := p
  obtain ⟨j, e'⟩ := q
  cases e <;> cases hsome
  cases e' <;> cases heq
  exact h _ i j _ _ hp hq

/-- Two logs with entries of one term at one index are the same up to that index. -/
def LogsMatch (c : Cluster) : Prop :=
  ∀ i ∈ c.ids, ∀ j ∈ c.ids, ∀ idx e e', (c.servers i).logStore.entryAt? idx = some e →
    (c.servers j).logStore.entryAt? idx = some e' → e.term = e'.term →
    ∀ n ≤ idx, (c.servers i).logStore.entryAt? n = (c.servers j).logStore.entryAt? n

/-- The condition under which an event leaves the terms of entries telling: a leader gets
entries of its own term from clients, and nobody stands for election at the largest
term. -/
def StampsSafely (s : Server) : Event → Prop
  | .request req => req.type = .clientRequest → s.role = .leader → ∀ e ∈ req.logEntries, e.term = s.state.term
  | .electionTimeout => s.role ≠ .leader → s.state.term + 1 < ulongSize
  | _ => True

instance decidableStampsSafely (s : Server) : (ev : Event) → Decidable (StampsSafely s ev)
  | .request req => inferInstanceAs (Decidable (req.type = .clientRequest → s.role = .leader →
      ∀ e ∈ req.logEntries, e.term = s.state.term))
  | .electionTimeout => inferInstanceAs (Decidable (s.role ≠ .leader → s.state.term + 1 < ulongSize))
  | .peerResp _ _ _ | .peerErr _ _ | .extResp _ _ _ | .extErr _ _ | .extRetry _ | .hbTimeout _ | .bgWake | .bgIter
  | .snapshotCompleted _ => inferInstanceAs (Decidable True)

/-! ## Quoting a log -/

theorem termAtEnd_take {l l' : List LogEntry} {n : Nat} (h : l.take n = l'.take n) :
    termAtEnd l n = termAtEnd l' n := by
  rw [termAtEnd, termAtEnd, h]

/-- A log that has grown is quoted as well. -/
theorem Quotes.mono {l l' : List LogEntry} {req : ReqMsg} (h : Quotes l req) (hp : l <+: l') : Quotes l' req := by
  refine ⟨h.lastLogIdx_le.trans hp.length_le, ?_, h.entries.trans (hp.drop _)⟩
  obtain ⟨rest, rfl⟩ := hp
  rw [h.lastLogTerm]
  exact termAtEnd_take (List.take_append_of_le_length h.lastLogIdx_le).symm

/-- **The entries of a request, spliced in behind the entry it starts from, bring the log
to what the quoted one has up to there.** -/
theorem Quotes.takes {l f : List LogEntry} {req : ReqMsg} (h : Quotes l req) (hm : Matched LogEntry.term l f)
    (hprev : req.lastLogIdx = 0 ∨ req.lastLogIdx ≤ f.length ∧ req.lastLogTerm = termAtEnd f req.lastLogIdx) :
    req.lastLogIdx + req.logEntries.length ≤ l.length ∧
      Consensus.Takes (l.take (req.lastLogIdx + req.logEntries.length)) f
        (f.take req.lastLogIdx ++ splice LogEntry.term (f.drop req.lastLogIdx) req.logEntries) := by
  have hlen := h.entries.length_le
  rw [List.length_drop] at hlen
  have hle := h.lastLogIdx_le
  have hsum : req.lastLogIdx + req.logEntries.length ≤ l.length := by omega
  have hpre : l.take req.lastLogIdx = f.take req.lastLogIdx := by
    rcases Nat.eq_zero_or_eq_succ_pred req.lastLogIdx with h0 | hsucc
    · rw [h0, List.take_zero, List.take_zero]
    · obtain ⟨hle', hterm⟩ := hprev.resolve_left (by omega)
      have hl : l[req.lastLogIdx.pred]? = some l[req.lastLogIdx.pred] := List.getElem?_eq_getElem (by omega)
      have hf : f[req.lastLogIdx.pred]? = some f[req.lastLogIdx.pred] := List.getElem?_eq_getElem (by omega)
      have hsame := h.lastLogTerm.symm.trans hterm
      rw [hsucc, Nat.succ_eq_add_one, termAtEnd_succ hl, termAtEnd_succ hf] at hsame
      rw [hsucc]
      exact hm _ _ _ hl hf hsame
  have hpart := List.prefix_iff_eq_take.mp h.entries
  refine ⟨hsum, ?_⟩
  have hcases := hm.splice_cases hpre hsum
  rw [← hpart] at hcases
  exact hcases

/-! ## The protocol a cluster follows -/

/-- An append_entries request quotes the log of the leader of its term. -/
structure Quoting (a : Consensus.State Int LogEntry) (req : ReqMsg) : Prop where
  leader : a.leader req.term = some req.src
  dst_ne : req.dst ≠ req.src
  quotes : Quotes (a.record req.term) req

/-- A request on its way is for a vote, or quotes a leader's log. -/
def Told (a : Consensus.State Int LogEntry) (req : ReqMsg) : Prop :=
  req.type = .requestVoteRequest ∨ req.type = .appendEntriesRequest ∧ Quoting a req

/-- An append_entries request that was accepted has been taken in. -/
structure TakenIn (a : Consensus.State Int LogEntry) (req : ReqMsg) (resp : RespMsg) : Prop where
  type : req.type = .appendEntriesRequest
  src : resp.src = req.dst
  term : resp.term = req.term
  nextIdx_pos : 0 < resp.nextIdx
  acked : resp.nextIdx ≤ a.acked req.dst req.term + 1

/-- An answer that accepts entries tells the truth. -/
def Confirmed (a : Consensus.State Int LogEntry) (req : ReqMsg) (resp : RespMsg) : Prop :=
  resp.type ≠ .installSnapshotResponse ∧
    (resp.type = .appendEntriesResponse → resp.accepted = true → TakenIn a req resp)

/-- The cluster `c` has come to where the protocol is in state `a`. -/
structure Mirrors (Fair : Prop) (c : Cluster) (a : Consensus.State Int LogEntry) : Prop where
  sound : Consensus.Sound c.ids.dedup LogEntry.term Fair a
  term : ∀ i, a.term i = (c.servers i).state.term
  log : ∀ i, a.log i = (c.servers i).logStore.entries
  leader : ∀ t i, a.leader t = some i ↔ ∃ n, (i, .becomeLeader t n) ∈ c.history
  members : ∀ t i, a.leader t = some i → i ∈ c.ids
  office : ∀ i, (c.servers i).role = .leader ↔ a.leader (c.servers i).state.term = some i
  done : ∀ i, a.leader (c.servers i).state.term = some i → (c.servers i).electionCompleted = true
  holds : c.Holds (Member c.ids) (Told a) (Confirmed a)

theorem Quoting.mono {a a' : Consensus.State Int LogEntry} {req : ReqMsg} (h : Quoting a req)
    (hext : Consensus.Extends a a') : Quoting a' req :=
  ⟨hext.leader _ _ h.leader, h.dst_ne, h.quotes.mono (hext.record _)⟩

theorem Told.mono {a a' : Consensus.State Int LogEntry} {req : ReqMsg} (h : Told a req)
    (hext : Consensus.Extends a a') : Told a' req :=
  h.imp_right fun h => ⟨h.1, h.2.mono hext⟩

theorem Confirmed.mono {a a' : Consensus.State Int LogEntry} {req : ReqMsg} {resp : RespMsg}
    (h : Confirmed a req resp) (hext : Consensus.Extends a a') : Confirmed a' req resp := by
  refine ⟨h.1, fun ht hacc => ?_⟩
  have htaken := h.2 ht hacc
  exact { htaken with acked := htaken.acked.trans (Nat.succ_le_succ (hext.acked _ _)) }

/-- What a request is accepted behind. -/
theorem LogStore.prev_of_hasPrev {l : LogStore} {req : ReqMsg} (h1 : l.startIdx = 1) (h : l.hasPrev req = true) :
    req.lastLogIdx = 0 ∨ req.lastLogIdx ≤ l.entries.length ∧ req.lastLogTerm = termAtEnd l.entries req.lastLogIdx := by
  simp only [LogStore.hasPrev, LogStore.nextSlot, h1, decide_eq_true_eq] at h
  exact h.imp_right fun h => ⟨by omega, h.2⟩

/-- Logs with the same root match. -/
theorem matched_of_rooted {record : Nat → List LogEntry} {l f : List LogEntry}
    (hl : Consensus.Rooted LogEntry.term record l) (hf : Consensus.Rooted LogEntry.term record f) :
    Matched LogEntry.term l f :=
  fun _ _ _ ha hb he => hl.take_eq hf ha hb he

namespace Mirrors
variable {Fair : Prop} {c : Cluster} {a a' : Consensus.State Int LogEntry} {env : Env} {act : Act} {i : Int}
  {ev : Event}

/-- What one act makes of the cluster, in terms of logs and elections. -/
structure Turn (c : Cluster) (env : Env) (act : Act) (i : Int) (ev : Event) : Prop where
  event : c.event? act = some (i, ev)
  mem : i ∈ c.ids
  shares : Shares (c.servers i) ev ((c.servers i).effects env ev) ((c.servers i).next env ev)
  polls : Polls (c.servers i) ev ((c.servers i).effects env ev) ((c.servers i).next env ev)
  safe : StampsSafely (c.servers i) ev

/-- A new term of a candidate is one more than the old one. -/
theorem Turn.campaign_term (ht : Turn c env act i ev) (he : ev = .electionTimeout)
    (hr : (c.servers i).role ≠ .leader) : (c.servers i).campaign.state.term = (c.servers i).state.term + 1 := by
  have hsafe := ht.safe
  rw [he] at hsafe
  exact Nat.mod_eq_of_lt (hsafe hr)

/-- Steps of the protocol that do what an act does lead to where the cluster is then. -/
theorem close (h : Mirrors Fair c a) (ht : Turn c env act i ev) {t : Server} {o : List Effect}
    (hnext : (c.servers i).next env ev = t) (heff : (c.servers i).effects env ev = o)
    (hsteps : Consensus.Steps c.ids.dedup LogEntry.term Fair a a')
    (hterm : a'.term = Function.update a.term i t.state.term)
    (hlog : a'.log = Function.update a.log i t.logStore.entries)
    (hleader : ∀ u j, a'.leader u = some j ↔ a.leader u = some j ∨ j = i ∧ ∃ n, .becomeLeader u n ∈ o)
    (hoffice : t.role = .leader ↔ a'.leader t.state.term = some i)
    (hdone : a'.leader t.state.term = some i → t.electionCompleted = true)
    (hsend : ∀ req m, .send req m ∈ o → req.type = .appendEntriesRequest →
      t.role = .leader ∧ OwnRequest t t.quickCommitIdx req)
    (hreply : ∀ req resp m, ev = .request req → req.type ≠ .clientRequest → .reply resp m ∈ o →
      Confirmed a' req resp) :
    Mirrors Fair (c.next env act) a' := by
  subst hnext heff
  obtain ⟨hsound, hext⟩ := h.sound.steps hsteps
  have hmember := h.holds.servers i ht.mem
  have hself : (c.next env act).servers i = (c.servers i).next env ev := Cluster.servers_next_self ht.event ht.mem
  have hother : ∀ j, j ≠ i → (c.next env act).servers j = c.servers j := fun j hj =>
    Cluster.servers_next_of_ne ht.event ht.mem hj
  have hid : c.ids = (c.next env act).ids := (Cluster.ids_next c env act).symm
  have hled : ∀ u j, a'.leader u = some j ↔ ∃ n, (j, .becomeLeader u n) ∈ (c.next env act).history := by
    intro u j
    rw [hleader, h.leader, Cluster.history_next ht.event ht.mem]
    constructor
    · rintro (⟨n, hn⟩ | ⟨rfl, n, hn⟩)
      · exact ⟨n, List.mem_append_left _ hn⟩
      · exact ⟨n, List.mem_append_right _ (List.mem_map_of_mem hn)⟩
    · rintro ⟨n, hn⟩
      rcases List.mem_append.mp hn with hn | hn
      · exact .inl ⟨n, hn⟩
      · obtain ⟨e, he, heq⟩ := List.mem_map.mp hn
        cases heq
        exact .inr ⟨rfl, n, he⟩
  refine ⟨hid ▸ hsound, fun j => ?_, fun j => ?_, hled, fun u j hj => ?_, fun j => ?_, fun j hj => ?_, ?_⟩
  · by_cases hji : j = i
    · rw [hterm, hji, Function.update_self, hself]
    · rw [hterm, Function.update_of_ne hji, hother j hji, h.term]
  · by_cases hji : j = i
    · rw [hlog, hji, Function.update_self, hself]
    · rw [hlog, Function.update_of_ne hji, hother j hji, h.log]
  · rw [← hid]
    rcases (hleader u j).mp hj with hold | ⟨rfl, -⟩
    · exact h.members u j hold
    · exact ht.mem
  · by_cases hji : j = i
    · subst hji
      rw [hself]
      exact hoffice
    · rw [hother j hji, h.office]
      exact ⟨hext.leader _ _, fun hj => ((hleader _ _).mp hj).resolve_right fun hnew => hji hnew.1⟩
  · by_cases hji : j = i
    · subst hji
      rw [hself] at hj ⊢
      exact hdone hj
    · rw [hother j hji] at hj ⊢
      exact h.done j (((hleader _ _).mp hj).resolve_right fun hnew => hji hnew.1)
  · have hmember' := hmember.of_same ht.polls.same
    rw [← hid]
    refine h.holds.next env ht.event ht.mem (fun _ _ _ hs => hs) (fun req hreq => hreq.mono hext)
      (fun req resp hresp => hresp.mono hext) hmember' (fun req m hsent => ?_) fun req resp m he hreq hrep => ?_
    · rcases (ht.polls.effect hmember.startIdx _ hsent).of_send with happ | ⟨-, -, -, pid, -, rfl⟩
      · obtain ⟨hlead, hown⟩ := hsend req m hsent happ
        have hnow := hoffice.mp hlead
        have hsrc : req.src = i := hown.src.trans hmember'.id
        refine .inr ⟨happ, ⟨?_, ?_, ?_⟩⟩
        · rw [hown.term, hsrc]
          exact hnow
        · rw [hsrc]
          exact ((hmember'.mem req.dst).mp hown.dst).2
        · have hterm' : a'.term i = ((c.servers i).next env ev).state.term := by
            rw [hterm, Function.update_self]
          have hrecord := hsound.matching.office i (hterm' ▸ hnow)
          rw [hterm', hlog, Function.update_self] at hrecord
          rw [hown.term, hrecord]
          exact (hown.quotes hmember'.startIdx).2
      · exact .inl rfl
    · refine hreply req resp m he (fun hcli => ?_) hrep
      rcases hreq with htype | ⟨htype, -⟩
      · rw [hcli] at htype
        cases htype
      · rw [hcli] at htype
        cases htype

/-- Effects that promise nothing but what is there. -/
structure Harmless (ev : Event) (o : List Effect) (t : Server) : Prop where
  send : ∀ req m, .send req m ∈ o → req.type = .appendEntriesRequest → t.role = .leader ∧ OwnRequest t t.quickCommitIdx req
  reply : ∀ req resp m, ev = .request req → req.type ≠ .clientRequest → .reply resp m ∈ o →
    resp.type ≠ .installSnapshotResponse ∧ (resp.type = .appendEntriesResponse → resp.accepted = false)
  lead : ∀ u n, .becomeLeader u n ∉ o

theorem harmless_of_borneOut {o : List Effect} {t : Server} (ho : ∀ e ∈ o, e.borneOut ev t) : Harmless ev o t := by
  refine ⟨fun _ _ hs => ho _ hs, fun req resp m he hne hrep => ?_, fun _ _ hl => ho _ hl⟩
  obtain ⟨htype, -, hcli⟩ := ho _ hrep
  refine ⟨htype, fun happ => Bool.eq_false_iff.mpr fun hacc => ?_⟩
  obtain ⟨req', he', hreq'⟩ := hcli happ hacc
  cases he.symm.trans he'
  exact hne hreq'

theorem Harmless.confirmed {o : List Effect} {t : Server} (h : Harmless ev o t) {req : ReqMsg} {resp : RespMsg}
    {m : SrvState} (he : ev = .request req) (hne : req.type ≠ .clientRequest) (hrep : .reply resp m ∈ o) :
    Confirmed a req resp := by
  obtain ⟨htype, hdecl⟩ := h.reply req resp m he hne hrep
  refine ⟨htype, fun ht hacc => ?_⟩
  rw [hdecl ht] at hacc
  cases hacc

/-- Nobody takes office. -/
theorem leader_same {o : List Effect} (ho : ∀ u n, .becomeLeader u n ∉ o) {u : Nat} {i j : Int} :
    a.leader u = some j ↔ a.leader u = some j ∨ j = i ∧ ∃ n, .becomeLeader u n ∈ o := by
  refine ⟨.inl, fun h => h.resolve_right ?_⟩
  rintro ⟨-, n, hn⟩
  exact ho u n hn

/-- What an act does to votes and bids, and to the ballot of its server. -/
inductive Ballots (a a' : Consensus.State Int LogEntry) (s : Server) (i : Int) (ev : Event) (t : Server) : Prop
  /-- A new term begins without a vote. -/
  | keeps (hv : a'.voted = a.voted) (hb : a'.bid = a.bid)
      (h : t.state.ballot = s.state.ballot ∨ s.state.term < t.state.term ∧ t.state.votedFor = -1) :
      Ballots a a' s i ev t
  | stands (he : ev = .electionTimeout) (hr : s.role ≠ .leader)
      (hv : a'.voted = (a.stood i s.campaign.state.term).voted) (hb : a'.bid = (a.stood i s.campaign.state.term).bid)
      (h : t.state.ballot = s.campaign.state.ballot) : Ballots a a' s i ev t
  /-- A vote is given that the protocol has not seen yet. -/
  | grants {req : ReqMsg} (hv : a'.voted = a.voted) (hb : a'.bid = a.bid) (he : ev = .request req)
      (ht : req.type = .requestVoteRequest) (hle : s.state.term ≤ req.term) (hokay : s.voteLogOkay req = true)
      (hfree : s.state.term = req.term → s.state.votedFor = req.src ∨ s.state.votedFor = -1)
      (h : t.state.ballot = ⟨req.term, req.src⟩) (hlog : t.logStore.entries = s.logStore.entries) :
      Ballots a a' s i ev t

theorem ballot_of_share {s t : Server} (hterm : t.share.term = s.share.term)
    (hvoted : t.share.votedFor = s.share.votedFor) : t.state.ballot = s.state.ballot :=
  congrArg₂ Ballot.mk hterm hvoted

theorem ballot_hears {s t : Server} {n : Nat} (hterm : t.share.term = (s.share.hears n).term)
    (hvoted : t.share.votedFor = (s.share.hears n).votedFor) :
    t.state.ballot = s.state.ballot ∨ s.state.term < t.state.term ∧ t.state.votedFor = -1 := by
  by_cases hlt : s.state.term < n
  · rw [share_hears_of_lt hlt] at hterm hvoted
    exact .inr ⟨lt_of_lt_of_eq hlt hterm.symm, hvoted⟩
  · rw [share_hears_of_le (Nat.not_lt.mp hlt)] at hterm hvoted
    exact .inl (ballot_of_share hterm hvoted)

/-- Nothing happens in the protocol. -/
theorem next_same (h : Mirrors Fair c a) (ht : Turn c env act i ev) {t : Server} {o : List Effect}
    (hnext : (c.servers i).next env ev = t) (heff : (c.servers i).effects env ev = o)
    (hterm : t.share.term = (c.servers i).share.term) (hlog : t.share.log = (c.servers i).share.log)
    (hleads : t.share.leads = (c.servers i).share.leads)
    (hdone : (c.servers i).share.done = true → t.share.done = true) (ho : Harmless ev o t) :
    Mirrors Fair (c.next env act) a := by
  refine h.close ht hnext heff .refl ?_ ?_ (fun _ _ => leader_same ho.lead) ?_ (fun hl => ?_) ho.send
    fun _ _ _ => ho.confirmed
  · rw [show t.state.term = a.term i from hterm.trans (h.term i).symm, Function.update_eq_self]
  · rw [show t.logStore.entries = a.log i from hlog.trans (h.log i).symm, Function.update_eq_self]
  · rw [show t.state.term = (c.servers i).state.term from hterm, ← h.office i]
    exact decide_eq_decide.mp hleads
  · rw [show t.state.term = (c.servers i).state.term from hterm] at hl
    exact hdone (h.done i hl)

/-- A server hears of a later term. -/
theorem next_hears (h : Mirrors Fair c a) (ht : Turn c env act i ev) {t : Server} {o : List Effect} {n : Nat} {v : Int}
    (hnext : (c.servers i).next env ev = t) (heff : (c.servers i).effects env ev = o)
    (hshare : t.share = { (c.servers i).share.hears n with votedFor := v }) (ho : Harmless ev o t) :
    ∃ a', Mirrors Fair (c.next env act) a' ∧ a'.voted = a.voted ∧ a'.bid = a.bid ∧ Consensus.Extends a a' := by
  by_cases hlt : (c.servers i).state.term < n
  · rw [share_hears_of_lt hlt] at hshare
    have hterm : t.state.term = n := congrArg Share.term hshare
    have hle : a.term i ≤ n := by
      rw [h.term]
      exact hlt.le
    have hnot : a.leader n ≠ some i := fun hl => by
      have hled := h.sound.matching.led n i hl
      rw [h.term] at hled
      omega
    have hsteps : Consensus.Steps c.ids.dedup LogEntry.term Fair a (a.raised i n) := Consensus.steps_raised hle
    refine ⟨a.raised i n, ?_, rfl, rfl, (h.sound.steps hsteps).2⟩
    refine h.close ht hnext heff hsteps ?_ ?_ (fun _ _ => leader_same ho.lead) ?_ (fun hl => ?_) ho.send
      fun _ _ _ => ho.confirmed
    · rw [hterm]
      rfl
    · have hlog : t.logStore.entries = (c.servers i).logStore.entries := congrArg Share.log hshare
      rw [hlog, ← h.log i, Function.update_eq_self]
      rfl
    · have hleads : t.share.leads = false := congrArg Share.leads hshare
      rw [hterm]
      exact ⟨fun hr => absurd hr (of_decide_eq_false hleads), fun hl => absurd hl hnot⟩
    · rw [hterm] at hl
      exact absurd hl hnot
  · rw [share_hears_of_le (Nat.not_lt.mp hlt)] at hshare
    refine ⟨a, h.next_same ht hnext heff ?_ ?_ ?_ ?_ ho, rfl, rfl, .refl a⟩
    all_goals
      rw [hshare]
    exact id

/-- A request for entries that reaches a server quotes a leader's log. -/
theorem quoting (h : Mirrors Fair c a) (ht : Turn c env act i ev) {req : ReqMsg} (he : ev = .request req)
    (htype : req.type = .appendEntriesRequest) : Quoting a req ∧ req.dst = i := by
  subst he
  cases h.holds.comes ht.event with
  | client hcli =>
    rw [htype] at hcli
    cases hcli
  | deliver hreq hd =>
    refine ⟨?_, hd⟩
    rcases hreq with hvote | ⟨-, hq⟩
    · rw [htype] at hvote
      cases hvote
    · exact hq

/-- A server takes in the entries of a leader. -/
theorem next_accepts (h : Mirrors Fair c a) (ht : Turn c env act i ev) {t : Server} {o : List Effect} {req : ReqMsg}
    {resp : RespMsg} {m : SrvState} (hnext : (c.servers i).next env ev = t)
    (heff : (c.servers i).effects env ev = o ++ [.reply resp m]) (he : ev = .request req)
    (htype : req.type = .appendEntriesRequest) (hle : (c.servers i).state.term ≤ req.term)
    (hfollows : ((c.servers i).share.hears req.term).leads = false)
    (hprev : (c.servers i).logStore.hasPrev req = true)
    (hshare : t.share = { (c.servers i).share.hears req.term with
      log := (c.servers i).logStore.entries.take req.lastLogIdx ++
        splice LogEntry.term ((c.servers i).logStore.entries.drop req.lastLogIdx) req.logEntries
      quick := max (c.servers i).quickCommitIdx req.commitIdx })
    (hrtype : resp.type = .appendEntriesResponse) (hsrc : resp.src = (c.servers i).id) (hrterm : resp.term = req.term)
    (hidx : resp.nextIdx = req.lastLogIdx + req.logEntries.length + 1) (ho : ∀ e ∈ o, e.borneOut ev t) :
    ∃ a', Mirrors Fair (c.next env act) a' ∧ a'.voted = a.voted ∧ a'.bid = a.bid ∧ Consensus.Extends a a' := by
  obtain ⟨hq, hdst⟩ := h.quoting ht he htype
  have hmember := h.holds.servers i ht.mem
  have hterm : t.state.term = req.term := (congrArg Share.term hshare).trans (term_hears hle)
  have hmatched := matched_of_rooted (h.sound.matching.record req.term) (h.sound.matching.log i)
  rw [h.log i] at hmatched
  obtain ⟨hlen, htakes⟩ := hq.quotes.takes hmatched (LogStore.prev_of_hasPrev hmember.startIdx hprev)
  have hterm_le : a.term i ≤ req.term := by
    rw [h.term]
    exact hle
  set b := a.raised i req.term with hb
  have hbterm : b.term i = req.term := Function.update_self _ _ _
  have hne : i ≠ req.src := hdst ▸ hq.dst_ne
  have hraise : Consensus.Steps c.ids.dedup LogEntry.term Fair a b := Consensus.steps_raised hterm_le
  set m' := req.lastLogIdx + req.logEntries.length with hm'
  set l := (c.servers i).logStore.entries.take req.lastLogIdx ++
    splice LogEntry.term ((c.servers i).logStore.entries.drop req.lastLogIdx) req.logEntries with hl'
  have haccept : Consensus.Steps c.ids.dedup LogEntry.term Fair b (b.accepted i m' l) := by
    refine Consensus.steps_accepted (c := req.src) ?_ hne ?_ ?_
    · rw [hbterm]
      exact hq.leader
    · rw [hbterm]
      exact hlen
    · rw [hbterm, show b.log i = (c.servers i).logStore.entries from h.log i]
      exact htakes
  have hsteps := hraise.trans haccept
  refine ⟨b.accepted i m' l, ?_, rfl, rfl, (h.sound.steps hsteps).2⟩
  have hharmless := harmless_of_borneOut ho
  have hnot : a.leader req.term ≠ some i := fun hl => by
    have hsame : some req.src = some i := hq.leader.symm.trans hl
    exact hne (Option.some.inj hsame).symm
  refine h.close ht hnext heff hsteps ?_ ?_ (fun _ _ => leader_same fun u n hn => ?_) ?_ (fun hl => ?_)
    (fun req' m' hs happ => ?_) fun req' resp' m' he' hne' hrep => ?_
  · rw [hterm]
    rfl
  · rw [show t.logStore.entries = _ from congrArg Share.log hshare]
    rfl
  · rcases List.mem_append.mp hn with hn | hn
    · exact hharmless.lead u n hn
    · cases List.mem_singleton.mp hn
  · have hleads : t.share.leads = false := (congrArg Share.leads hshare).trans hfollows
    rw [hterm]
    exact ⟨fun hr => absurd hr (of_decide_eq_false hleads), fun hl => absurd hl hnot⟩
  · rw [hterm] at hl
    exact absurd hl hnot
  · rcases List.mem_append.mp hs with hs | hs
    · exact ho _ hs happ
    · cases List.mem_singleton.mp hs
  · rcases List.mem_append.mp hrep with hrep | hrep
    · exact hharmless.confirmed he' hne' hrep
    · cases List.mem_singleton.mp hrep
      rw [he] at he'
      cases he'
      refine ⟨by rw [hrtype]; decide, fun _ _ => ⟨htype, ?_, hrterm, by omega, ?_⟩⟩
      · rw [hsrc, hmember.id, hdst]
      · rw [hidx, hdst, Consensus.State.accepted]
        simp only [hbterm, Function.update_self]
        exact Nat.succ_le_succ (le_max_right _ _)

/-- A server stands for election. -/
theorem next_stands (h : Mirrors Fair c a) (ht : Turn c env act i ev) {t : Server} {o : List Effect}
    (hnext : (c.servers i).next env ev = t) (heff : (c.servers i).effects env ev = o)
    (hterm : (c.servers i).campaign.state.term = (c.servers i).state.term + 1)
    (hshare : t.share = (c.servers i).campaign.share) (ho : Harmless ev o t) :
    Mirrors Fair (c.next env act) (a.stood i (c.servers i).campaign.state.term) := by
  have hlt : a.term i < (c.servers i).campaign.state.term := by
    rw [h.term, hterm]
    exact Nat.lt_succ_self _
  have hsteps : Consensus.Steps c.ids.dedup LogEntry.term Fair a _ := Consensus.steps_stood hlt
  have hnow : t.state.term = (c.servers i).campaign.state.term := congrArg Share.term hshare
  have hnot : a.leader (c.servers i).campaign.state.term ≠ some i := fun hl => by
    have hled := h.sound.matching.led _ i hl
    omega
  refine h.close ht hnext heff hsteps ?_ ?_ (fun _ _ => leader_same ho.lead) ?_ (fun hl => ?_) ho.send
    fun _ _ _ => ho.confirmed
  · rw [hnow]
    rfl
  · have hlog : t.logStore.entries = (c.servers i).logStore.entries := congrArg Share.log hshare
    rw [hlog, ← h.log i, Function.update_eq_self]
    rfl
  · have hleads : t.share.leads = false := congrArg Share.leads hshare
    rw [hnow]
    exact ⟨fun hr => absurd hr (of_decide_eq_false hleads), fun hl => absurd hl hnot⟩
  · rw [hnow] at hl
    exact absurd hl hnot

/-- A server takes office, in the term it is in now. -/
theorem next_leads (h : Mirrors Fair c a) (ht : Turn c env act i ev) {t : Server} {o o' : List Effect} {r : Share}
    {es : List LogEntry} {n : Nat} {b : Consensus.State Int LogEntry} (hnext : (c.servers i).next env ev = t)
    (heff : (c.servers i).effects env ev = o ++ .becomeLeader r.term n :: o')
    (hsteps : Consensus.Steps c.ids.dedup LogEntry.term Fair a b)
    (hbterm : b.term = Function.update a.term i r.term) (hblog : b.log = a.log) (hbleader : b.leader = a.leader)
    (hlog : r.log = a.log i) (hnone : a.leader r.term = none)
    (hwin : Fair → Consensus.Quorum c.ids.dedup fun q => b.voted q r.term i)
    (hes : ∀ e ∈ es, e.term = r.term) (hshare : t.share = r.takesOffice es)
    (ho : Harmless ev o t) (ho' : Harmless ev o' t) :
    ∃ a', Mirrors Fair (c.next env act) a' ∧ a'.voted = b.voted ∧ a'.bid = b.bid ∧ Consensus.Extends a a' := by
  have hbi : b.term i = r.term := by
    rw [hbterm, Function.update_self]
  have hsound := (h.sound.steps hsteps).1
  have helect : Consensus.Steps c.ids.dedup LogEntry.term Fair b (b.elected i) := by
    refine Consensus.steps_elected ?_ (fun hf => ?_) fun hf => ?_
    · rw [hbi, hbleader]
      exact hnone
    · obtain ⟨q, -, hq, -⟩ := (hwin hf).inter (hwin hf)
      rw [hbi]
      exact hsound.voting.voted_bid q _ i hq
    · rw [hbi]
      exact hwin hf
  have hled : (b.elected i).leader r.term = some i := by
    simp only [Consensus.State.elected, hbi, Function.update_self]
  have happend : Consensus.Steps c.ids.dedup LogEntry.term Fair (b.elected i) ((b.elected i).appended i es) := by
    refine Consensus.steps_appended (hsound.steps helect).1.matching ?_ fun e he => ?_
    · rw [show (b.elected i).term i = r.term from hbi]
      exact hled
    · rw [show (b.elected i).term i = r.term from hbi]
      exact hes e he
  have hall := (hsteps.trans helect).trans happend
  refine ⟨(b.elected i).appended i es, ?_, rfl, rfl, (h.sound.steps hall).2⟩
  have hterm : t.state.term = r.term := congrArg Share.term hshare
  have hsend : ∀ req m, .send req m ∈ o ++ .becomeLeader r.term n :: o' → req.type = .appendEntriesRequest →
      t.role = .leader ∧ OwnRequest t t.quickCommitIdx req := by
    intro req m hs happ
    rcases List.mem_append.mp hs with hs | hs
    · exact ho.send req m hs happ
    · rcases List.mem_cons.mp hs with heq | hs
      · cases heq
      · exact ho'.send req m hs happ
  refine h.close ht hnext heff hall ?_ ?_ (fun u j => ?_) ?_ (fun _ => ?_) hsend fun req resp m he hne hrep => ?_
  · rw [hterm]
    exact hbterm
  · have hentries : t.logStore.entries = r.log ++ es := congrArg Share.log hshare
    rw [hentries, hlog]
    simp only [Consensus.State.appended, Consensus.State.elected, hblog]
  · simp only [Consensus.State.appended, Consensus.State.elected, hbi, hbleader]
    by_cases hu : u = r.term
    · rw [hu, Function.update_self, hnone]
      constructor
      · intro hij
        exact .inr ⟨(Option.some.inj hij).symm, n, List.mem_append_right _ List.mem_cons_self⟩
      · rintro (hold | ⟨rfl, -⟩)
        · cases hold
        · rfl
    · rw [Function.update_of_ne hu]
      refine ⟨.inl, fun hnew => hnew.resolve_right ?_⟩
      rintro ⟨-, k, hk⟩
      rcases List.mem_append.mp hk with hk | hk
      · exact ho.lead u k hk
      · rcases List.mem_cons.mp hk with heq | hk
        · cases heq
          exact hu rfl
        · exact ho'.lead u k hk
  · have hleads : t.share.leads = true := congrArg Share.leads hshare
    rw [hterm]
    exact ⟨fun _ => hled, fun _ => of_decide_eq_true hleads⟩
  · exact (congrArg Share.done hshare : t.electionCompleted = true)
  · rcases List.mem_append.mp hrep with hrep | hrep
    · exact ho.confirmed he hne hrep
    · rcases List.mem_cons.mp hrep with heq | hrep
      · cases heq
      · exact ho'.confirmed he hne hrep

/-- A leader appends the entries of a client. -/
theorem next_serves (h : Mirrors Fair c a) (ht : Turn c env act i ev) {t : Server} {o : List Effect}
    {es : List LogEntry} (hnext : (c.servers i).next env ev = t) (heff : (c.servers i).effects env ev = o)
    (hrole : (c.servers i).role = .leader) (hes : ∀ e ∈ es, e.term = (c.servers i).state.term)
    (hshare : t.share = (c.servers i).share.grows es) (ho : Harmless ev o t) :
    ∃ a', Mirrors Fair (c.next env act) a' ∧ a'.voted = a.voted ∧ a'.bid = a.bid ∧ Consensus.Extends a a' := by
  have hlead := (h.office i).mp hrole
  have happend : Consensus.Steps c.ids.dedup LogEntry.term Fair a (a.appended i es) := by
    refine Consensus.steps_appended h.sound.matching ?_ fun e he => ?_
    · rw [h.term]
      exact hlead
    · rw [h.term]
      exact hes e he
  have hterm : t.state.term = (c.servers i).state.term := congrArg Share.term hshare
  refine ⟨a.appended i es, ?_, rfl, rfl, (h.sound.steps happend).2⟩
  refine h.close ht hnext heff happend ?_ ?_ (fun _ _ => leader_same ho.lead) ?_ (fun hl => ?_) ho.send
    fun _ _ _ => ho.confirmed
  · rw [hterm, ← h.term i, Function.update_eq_self]
    rfl
  · have hentries : t.logStore.entries = (c.servers i).logStore.entries ++ es := congrArg Share.log hshare
    rw [hentries, ← h.log i]
    rfl
  · have hleads : t.share.leads = (c.servers i).share.leads := by
      rw [hshare]
      rfl
    rw [hterm, decide_eq_decide.mp hleads]
    exact ⟨fun _ => hlead, fun _ => hrole⟩
  · have hdone : t.electionCompleted = (c.servers i).electionCompleted := congrArg Share.done hshare
    rw [hdone]
    exact h.done i hlead

/-- **An act does what some steps of the protocol do**, as long as no term has two leaders. -/
theorem next (h : Mirrors Fair c a) (ht : Turn c env act i ev) (hone : OneLeader (c.next env act).history)
    (hwin : Fair → ∀ n, .becomeLeader (c.servers i).state.term n ∈ (c.servers i).effects env ev →
      Consensus.Quorum c.ids.dedup fun q => a.voted q (c.servers i).state.term i) :
    ∃ a', Mirrors Fair (c.next env act) a' ∧ Ballots a a' (c.servers i) i ev ((c.servers i).next env ev) ∧
      Consensus.Extends a a' := by
  have hkeeps : ∀ {t : Server}, (∃ a', Mirrors Fair (c.next env act) a' ∧ a'.voted = a.voted ∧
      a'.bid = a.bid ∧ Consensus.Extends a a') →
      (t.state.ballot = (c.servers i).state.ballot ∨
        (c.servers i).state.term < t.state.term ∧ t.state.votedFor = -1) →
      ∃ a', Mirrors Fair (c.next env act) a' ∧ Ballots a a' (c.servers i) i ev t ∧ Consensus.Extends a a' :=
    fun ⟨a', hm, hv, hb, hext⟩ h => ⟨a', hm, .keeps hv hb h, hext⟩
  have hvacant : ∀ u n, .becomeLeader u n ∈ (c.servers i).effects env ev → a.leader u ≠ some i →
      a.leader u = none := by
    intro u n hmem hne
    refine Option.eq_none_iff_forall_ne_some.mpr fun j hj => ?_
    obtain ⟨m, hm⟩ := (h.leader u j).mp hj
    rw [Cluster.history_next ht.event ht.mem] at hone
    have hij := hone u j i m n (List.mem_append_left _ hm) (List.mem_append_right _ (List.mem_map_of_mem hmem))
    exact hne (hij ▸ hj)
  have hshares := ht.shares
  generalize hnext : (c.servers i).next env ev = t at hshares ⊢
  generalize heff : (c.servers i).effects env ev = o at hshares
  cases hshares with
  | hears n hshare ho =>
    refine hkeeps (h.next_hears ht hnext heff (n := n) hshare (harmless_of_borneOut ho)) ?_
    exact ballot_hears (n := n) (by rw [hshare]) (by rw [hshare])
  | closes hshare ho =>
    refine hkeeps ⟨a, h.next_same ht hnext heff ?_ ?_ ?_ ?_ (harmless_of_borneOut ho), rfl, rfl, .refl a⟩
      (.inl (ballot_of_share (by rw [hshare]) (by rw [hshare])))
    all_goals rw [hshare]
    exact fun _ => rfl
  | accepts he htype hle hfollows hprev hshare hrtype hsrc hrterm hidx ho =>
    refine hkeeps (h.next_accepts ht hnext heff he htype hle hfollows hprev hshare hrtype hsrc hrterm hidx ho) ?_
    exact ballot_hears (by rw [hshare]) (by rw [hshare])
  | @grants req resp m o t he htype hle hokay hv hshare hrtype hrterm hdst ho =>
    have hharmless : Harmless ev (o ++ [.reply resp m]) t := by
      have hbefore := harmless_of_borneOut ho
      refine ⟨fun req' m' hs => ?_, fun req' resp' m' he' hne hrep => ?_, fun u n hn => ?_⟩
      · rcases List.mem_append.mp hs with hs | hs
        · exact hbefore.send req' m' hs
        · cases List.mem_singleton.mp hs
      · rcases List.mem_append.mp hrep with hrep | hrep
        · exact hbefore.reply req' resp' m' he' hne hrep
        · cases List.mem_singleton.mp hrep
          refine ⟨by rw [hrtype]; decide, fun happ => ?_⟩
          rw [hrtype] at happ
          cases happ
      · rcases List.mem_append.mp hn with hn | hn
        · exact hbefore.lead u n hn
        · cases List.mem_singleton.mp hn
    obtain ⟨a', hm, hvoted, hbid, hext⟩ := h.next_hears ht hnext heff hshare hharmless
    refine ⟨a', hm, .grants hvoted hbid he htype hle hokay (fun heq => ?_) ?_ ?_, hext⟩
    · rw [share_hears_of_le heq.ge] at hv
      exact hv
    · exact congrArg₂ Ballot.mk ((congrArg Share.term hshare).trans (term_hears hle)) (congrArg Share.votedFor hshare)
    · exact (congrArg Share.log hshare).trans (log_hears _ _)
  | stands he hr hshare ho =>
    have hterm := ht.campaign_term he hr
    have hlt : a.term i < (c.servers i).campaign.state.term := by
      rw [h.term, hterm]
      exact Nat.lt_succ_self _
    exact ⟨_, h.next_stands ht hnext heff hterm hshare (harmless_of_borneOut ho),
      .stands he hr rfl rfl (ballot_of_share (by rw [hshare]) (by rw [hshare])),
      (h.sound.steps (Consensus.steps_stood hlt)).2⟩
  | @leads r es n o o' t hr hes hshare ho ho' =>
    have hmem : .becomeLeader r.term n ∈ (c.servers i).effects env ev := by
      rw [heff]
      exact List.mem_append_right _ List.mem_cons_self
    rcases hr with ⟨rfl, hopen, -⟩ | ⟨rfl, he, hr, hnone⟩
    · -- with the votes of others, in the term it has stood in before
      have hvac := hvacant _ n hmem fun hl => Bool.false_ne_true (hopen.symm.trans (h.done i hl))
      have hiterm : a.term = Function.update a.term i (c.servers i).share.term := by
        rw [show (c.servers i).share.term = a.term i from (h.term i).symm, Function.update_eq_self]
      refine hkeeps (h.next_leads ht hnext heff .refl hiterm rfl rfl (h.log i).symm hvac
        (fun hf => hwin hf n hmem) hes hshare (harmless_of_borneOut ho) (harmless_of_borneOut ho')) (.inl ?_)
      exact congrArg₂ Ballot.mk (congrArg Share.term hshare) (congrArg Share.votedFor hshare)
    · -- alone, in the term it stands in now
      have hterm := ht.campaign_term he hr
      have hlt : a.term i < (c.servers i).campaign.state.term := by
        rw [h.term, hterm]
        exact Nat.lt_succ_self _
      have hvac := hvacant _ n hmem fun hl => by
        have hled := h.sound.matching.led _ i hl
        exact absurd hled (Nat.not_le.mpr hlt)
      have hquorum : Consensus.Quorum c.ids.dedup
          fun q => (a.stood i (c.servers i).campaign.state.term).voted q (c.servers i).campaign.state.term i := by
        refine ⟨[i], List.nodup_singleton i, by simpa using ht.mem, ?_, fun q hq => .inr ?_⟩
        · rw [(h.holds.servers i ht.mem).length ht.mem, hnone]
          simp
        · exact ⟨List.mem_singleton.mp hq, rfl, rfl⟩
      obtain ⟨a', hm, hv, hb, hext⟩ := h.next_leads ht hnext heff (Consensus.steps_stood hlt) rfl rfl rfl
        (h.log i).symm hvac (fun _ => hquorum) hes hshare (harmless_of_borneOut ho) (harmless_of_borneOut ho')
      refine ⟨a', hm, .stands he hr hv hb ?_, hext⟩
      exact congrArg₂ Ballot.mk (congrArg Share.term hshare) (congrArg Share.votedFor hshare)
  | @serves req o t he htype hrole hshare ho =>
    have hsafe := ht.safe
    rw [he] at hsafe
    refine hkeeps (h.next_serves ht hnext heff hrole (hsafe htype hrole) hshare (harmless_of_borneOut ho)) (.inl ?_)
    exact congrArg₂ Ballot.mk (congrArg Share.term hshare) (congrArg Share.votedFor hshare)
  | @answers via reqType resp o t he htype hle hshare ho =>
    rw [share_answered] at hshare
    refine hkeeps ⟨a, h.next_same ht hnext heff ?_ ?_ ?_ ?_ (harmless_of_borneOut ho), rfl, rfl, .refl a⟩
      (.inl (ballot_of_share (by rw [hshare]) (by rw [hshare])))
    all_goals rw [hshare]
    exact id

theorem start (params : Int → RaftParams) (config : ClusterConfig) :
    Mirrors Fair (Cluster.start params config) Consensus.State.initial := by
  have hmembers := (polled_start params config).holds.servers
  refine ⟨Consensus.sound_initial, fun _ => rfl, fun _ => rfl, fun t i => ?_, fun t i hl => ?_, fun i => ?_,
    fun i hl => ?_, ⟨hmembers, by simp [Cluster.start], by simp [Cluster.start]⟩⟩
  · simp [Consensus.State.initial, Cluster.start]
  · cases hl
  · exact ⟨fun hr => (by cases hr), fun hl => (by cases hl)⟩
  · cases hl

/-- What happens in the cluster is ordinary. -/
theorem ordinary (h : Mirrors Fair c a) (he : c.event? act = some (i, ev)) : ev.ordinary := by
  cases h.holds.comes he with
  | client hcli => exact .inr (.inr hcli)
  | deliver hreq hd =>
    rcases hreq with hvote | ⟨happ, -⟩
    · exact .inr (.inl hvote)
    · exact .inl happ
  | answer hreq hans hs => exact hans.1
  | _ => trivial

/-- An act that keeps the members and leaves the terms of entries telling is a turn. -/
theorem turn (h : Mirrors Fair c a) (he : c.event? act = some (i, ev)) (hid : i ∈ c.ids)
    (hsafe : StampsSafely (c.servers i) ev) (hkeep : KeepsMembers (c.servers i) ev) : Turn c env act i ev :=
  have h1 := (h.holds.servers i hid).startIdx
  ⟨he, hid, shares_next env h1 (h.ordinary he) hkeep, polls_ordinary env h1 (h.ordinary he) hkeep, hsafe⟩

/-- The record of a term is the log of the server that leads it. -/
theorem record_of_leader (h : Mirrors Fair c a) {i : Int} (hi : (c.servers i).role = .leader) :
    a.leader (c.servers i).state.term = some i ∧
      a.record (c.servers i).state.term = (c.servers i).logStore.entries := by
  have hlead := (h.office i).mp hi
  rw [← h.term i, ← h.log i] at *
  exact ⟨hlead, h.sound.matching.office i hlead⟩

/-- The logs of a cluster that follows the protocol match. -/
theorem logsMatch (h : Mirrors Fair c a) : LogsMatch c := by
  intro i hi j hj idx e e' he he' hterm n hn
  have h1 := (h.holds.servers i hi).startIdx
  have h1' := (h.holds.servers j hj).startIdx
  rcases Nat.eq_zero_or_eq_succ_pred idx with h0 | hsucc
  · rw [h0, LogStore.entryAt?, if_pos (by omega)] at he
    cases he
  rcases Nat.eq_zero_or_eq_succ_pred n with h0 | hsucc'
  · rw [h0, LogStore.entryAt?, if_pos (by omega), LogStore.entryAt?, if_pos (by omega)]
  rw [LogStore.entryAt?_of_mem (by omega), h1, ← h.log i] at he
  rw [LogStore.entryAt?_of_mem (by omega), h1', ← h.log j] at he'
  have htake := (h.sound.matching.log i).take_eq (h.sound.matching.log j) he he' hterm
  rw [LogStore.entryAt?_of_mem (by omega), LogStore.entryAt?_of_mem (by omega), h1, h1', ← h.log i, ← h.log j,
    ← List.getElem?_take_of_lt (l := a.log i) (show n - 1 < idx - 1 + 1 by omega), htake,
    List.getElem?_take_of_lt (by omega)]

end Mirrors

/-! ## Every run -/

/-- An act that keeps the members and leaves the terms of entries telling. -/
def MatchesOrderly (c : Cluster) (act : Act) : Prop := c.On StampsSafely act ∧ c.On KeepsMembers act

instance (c : Cluster) (act : Act) : Decidable (MatchesOrderly c act) :=
  inferInstanceAs (Decidable (_ ∧ _))

theorem OneLeader.mono {history history' : List (Int × Effect)} (h : OneLeader history') (hsub : history ⊆ history') :
    OneLeader history :=
  fun t i j m n hi hj => h t i j m n (hsub hi) (hsub hj)

theorem mirrors_run {c : Cluster} {a : Consensus.State Int LogEntry} {acts : List (Env × Act)}
    (hm : Mirrors False c a) (h : c.Along MatchesOrderly acts) (hone : OneLeader (c.run acts).history) :
    ∃ a', Mirrors False (c.run acts) a' := by
  induction acts generalizing c a with
  | nil => exact ⟨a, hm⟩
  | cons step acts ih =>
    obtain ⟨env, act⟩ := step
    obtain ⟨⟨hsafe, hkeep⟩, hrest⟩ := h
    by_cases hnobody : ∀ i ev, c.event? act = some (i, ev) → i ∉ c.ids
    · rw [Cluster.run, Cluster.next_of_none env hnobody] at hone ⊢
      rw [Cluster.next_of_none env hnobody] at hrest
      exact ih hm hrest hone
    · push Not at hnobody
      obtain ⟨i, ev, he, hid⟩ := hnobody
      have hnow := hone.mono (Cluster.history_prefix_run (c.next env act) acts).subset
      have hturn : Mirrors.Turn c env act i ev := hm.turn he hid (hsafe i ev he hid) (hkeep i ev he hid)
      obtain ⟨a', hm', -, -⟩ := hm.next hturn hnow False.elim
      exact ih hm' hrest hone

/-- **In every run with one leader for each term at most, in which leaders get entries of
their own term from clients, logs match.** -/
theorem logs_match_of_stamped (params : Int → RaftParams) (config : ClusterConfig) (acts : List (Env × Act))
    (h : (Cluster.start params config).Along MatchesOrderly acts)
    (hone : OneLeader ((Cluster.start params config).run acts).history) :
    LogsMatch ((Cluster.start params config).run acts) := by
  obtain ⟨a, hm⟩ := mirrors_run (.start params config) h hone
  exact hm.logsMatch

/-- A client's request for one entry; the entries of `raft_server::append_entries` have
term 0. -/
def clientReq (term : Nat) (buf : Bytes) : ReqMsg :=
  ⟨0, .clientRequest, 0, 0, 0, 0, 0, [⟨term, buf, .appLog⟩]⟩

/-- Server 1 is elected, gets an entry of its term, and sends what it has to server 2. -/
def stampedRun : List (Env × Act) :=
  [({}, .timeout 1), ({}, .deliver 0), ({}, .answer 0 0), ({}, .client 1 (clientReq 1 [65])), ({}, .deliver 2)]

theorem logs_match_of_stamped_three : LogsMatch (freshCluster.run stampedRun) :=
  logs_match_of_stamped _ _ _ (by decide +kernel) (by decide +kernel)

/-- Server 1 is elected in term 1 and server 2 in term 2, and either gets an entry as
`raft_server::append_entries` makes it. -/
def unstampedRun : List (Env × Act) :=
  [({}, .timeout 1), ({}, .deliver 0), ({}, .answer 0 0), ({}, .client 1 (clientReq 0 [65])),
    ({}, .timeout 2), ({}, .deliver 5), ({}, .answer 5 0), ({}, .client 2 (clientReq 0 [66]))]

/-- **Entries of term 0 make logs that do not match**, one leader for each term or not. -/
theorem logs_match_fails :
    OneLeader (freshCluster.run unstampedRun).history ∧ ¬ LogsMatch (freshCluster.run unstampedRun) := by
  refine ⟨by decide +kernel, fun h => ?_⟩
  have hsame := h 1 (by decide) 2 (by decide) 2 ⟨0, [65], .appLog⟩ ⟨0, [66], .appLog⟩ (by decide +kernel)
    (by decide +kernel) rfl 2 (le_refl 2)
  exact absurd hsame (by decide +kernel)

end Cornerstone
