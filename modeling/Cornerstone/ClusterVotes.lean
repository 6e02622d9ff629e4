import Cornerstone.MatchedLogs

/-! # The votes of a cluster in the protocol

The votes that servers save and answer with are votes of the abstract protocol: who has
voted in its term says so in its state, and who asks for votes says with which log it has
stood.  A vote that `handle_vote_req` gives is then one for a log as up to date as the
voter's.
-/

namespace Cornerstone
open Handlers Handler Server

/-! ## Votes in effects -/

theorem vote_of_borneOut {ev : Event} {t : Server} {e : Effect} {v : Ballot} (h : e.borneOut ev t)
    (hv : e.vote = some v) : v = t.state.ballot ∧ v.vote ≠ -1 := by
  cases e with
  | saveState st =>
    simp only [Effect.vote] at hv
    split at hv
    · cases hv
    · rename_i hne
      cases hv
      exact ⟨h hne, hne⟩
  | reply resp m =>
    rw [Effect.vote, h.2.1] at hv
    cases hv
  | _ => cases hv

/-- **A vote that an event gives is the one in memory afterwards.** -/
theorem Shares.vote {s t : Server} {ev : Event} {o : List Effect} (h : Shares s ev o t) {e : Effect} (he : e ∈ o)
    {v : Ballot} (hv : e.vote = some v) : v = t.state.ballot ∧
      (v.vote ≠ -1 ∨ ∃ req, ev = .request req ∧ req.type = .requestVoteRequest ∧ req.src = v.vote) := by
  have hsaid : e.borneOut ev t → v = t.state.ballot ∧
      (v.vote ≠ -1 ∨ ∃ req, ev = .request req ∧ req.type = .requestVoteRequest ∧ req.src = v.vote) := fun h =>
    (vote_of_borneOut h hv).imp_right .inl
  cases h with
  | hears n hshare ho => exact hsaid (ho e he)
  | closes hshare ho => exact hsaid (ho e he)
  | accepts hev htype hle hfollows hprev hshare hrtype hsrc hrterm hidx ho =>
    rcases List.mem_append.mp he with he | he
    · exact hsaid (ho e he)
    · rw [List.mem_singleton.mp he] at hv
      simp [Effect.vote, RespMsg.grants, hrtype] at hv
  | @grants req resp m o t hev htype hle hokay hfree hshare hrtype hrterm hdst ho =>
    rcases List.mem_append.mp he with he | he
    · exact hsaid (ho e he)
    · rw [List.mem_singleton.mp he, Effect.vote] at hv
      split at hv
      · cases hv
        have hterm : t.state.term = req.term := (congrArg Share.term hshare).trans (term_hears hle)
        have hvoted : t.state.votedFor = req.src := congrArg Share.votedFor hshare
        refine ⟨?_, .inr ⟨req, hev, htype, hdst.symm⟩⟩
        rw [SrvState.ballot, hterm, hvoted, hrterm, hdst]
      · cases hv
  | stands hev hr hshare ho => exact hsaid (ho e he)
  | leads hr hes hshare ho ho' =>
    rcases List.mem_append.mp he with he | he
    · exact hsaid (ho e he)
    · rcases List.mem_cons.mp he with rfl | he
      · cases hv
      · exact hsaid (ho' e he)
  | serves hev htype hr hshare ho => exact hsaid (ho e he)
  | answers hev htype hle hshare ho => exact hsaid (ho e he)

/-- A request for a vote is one of a candidate that has saved its own vote. -/
theorem Polls.asksVote {s t : Server} {ev : Event} {o : List Effect} (h : Polls s ev o t)
    (h1 : s.logStore.startIdx = 1) {req : ReqMsg} {m : SrvState} (hs : .send req m ∈ o)
    (htype : req.type = .requestVoteRequest) :
    ev = .electionTimeout ∧ s.role ≠ .leader ∧ .saveState s.campaign.state ∈ o ∧
      ∃ pid ∈ s.peerIds, req = s.campaign.voteReq pid := by
  have hoff : ∀ {s t : Server} {o : List Effect}, Bystands s o t → s.logStore.startIdx = 1 → .send req m ∉ o := by
    intro s t o hb h1 hmem
    have happ : req.type = .appendEntriesRequest := of_decide_eq_true (hb.out h1 _ hmem)
    rw [htype] at happ
    cases happ
  have hcamp : .send req m ∉ s.campaignEffects := by simp [Server.campaignEffects]
  cases h with
  | bystands hb => exact absurd hs (hoff hb h1)
  | grants he hq hterm hdst hg hb =>
    rcases List.mem_append.mp hs with hs | hs
    · exact absurd hs (hoff hb h1)
    · cases List.mem_singleton.mp hs
  | stands he hr ht =>
    rcases List.mem_append.mp hs with hs | hs
    · exact absurd hs hcamp
    · obtain ⟨pid, hpid, heq⟩ := List.mem_map.mp hs
      cases heq
      exact ⟨he, hr, List.mem_append_left _ (by simp [Server.campaignEffects]), pid, hpid, rfl⟩
  | alone he hr hp hb =>
    rcases List.mem_append.mp hs with hs | hs
    · exact absurd hs hcamp
    · rcases List.mem_cons.mp hs with heq | hs
      · cases heq
      · exact absurd hs (hoff hb h1)
  | counts he ht hle hopen hb => cases hs
  | wins he ht hle hopen hu hmost hb =>
    rcases List.mem_cons.mp hs with heq | hs
    · cases heq
    · exact absurd hs (hoff hb ((congrArg Poll.startIdx hu).trans h1))

/-! ## Votes of the protocol -/

/-- A request for a vote says with which log the candidate has stood. -/
def BidFor (a : Consensus.State Int LogEntry) (req : ReqMsg) : Prop :=
  ∃ l, a.bid req.src req.term l ∧ req.lastLogIdx = l.length ∧ req.lastLogTerm = Consensus.lastEpoch LogEntry.term l

/-- The votes of the cluster are votes of the protocol. -/
structure Balloted (c : Cluster) (a : Consensus.State Int LogEntry) : Prop where
  given : ∀ q t d, Voted c.history q t d → a.voted q t d
  ballot : ∀ q ∈ c.ids, ∀ d, a.voted q (c.servers q).state.term d → (c.servers q).state.votedFor = d ∧ d ≠ -1
  cast : ∀ q ∈ c.ids, (c.servers q).state.votedFor ≠ -1 →
    a.voted q (c.servers q).state.term (c.servers q).state.votedFor
  asked : c.Holds (fun _ _ => True) (fun req => req.type = .requestVoteRequest → BidFor a req) fun _ _ => True

theorem BidFor.mono {a a' : Consensus.State Int LogEntry} {req : ReqMsg} (h : BidFor a req)
    (hext : Consensus.Extends a a') : BidFor a' req := by
  obtain ⟨l, hb, hidx, hterm⟩ := h
  exact ⟨l, hext.bid _ _ _ hb, hidx, hterm⟩

namespace Mirrors
variable {Fair : Prop} {c : Cluster} {a a' : Consensus.State Int LogEntry} {env : Env} {act : Act} {i : Int}
  {ev : Event}

/-- A vote that the protocol sees later. -/
theorem granted (h : Mirrors Fair c a) {q d : Int} {l : List LogEntry} (hb : a.bid d (a.term q) l)
    (hv : ∀ d', a.voted q (a.term q) d' → d' = d) (hup : Consensus.UpToDate LogEntry.term l (a.log q)) :
    Mirrors Fair c (a.granted q d) ∧ Consensus.Extends a (a.granted q d) := by
  have hstep : Consensus.Steps c.ids.dedup LogEntry.term Fair a (a.granted q d) := Consensus.steps_granted hb hv hup
  obtain ⟨hsound, hext⟩ := h.sound.steps hstep
  exact ⟨⟨hsound, h.term, h.log, h.leader, h.members, h.office, h.done,
    ⟨h.holds.servers, fun call hcall => (h.holds.calls call hcall).mono hext,
      fun call hcall resp hresp => (h.holds.answers call hcall resp hresp).mono hext⟩⟩, hext⟩

/-- What the votes of the server an act is about have to meet. -/
theorem balloted_close (hb : Balloted c a) (ht : Turn c env act i ev) (hvotes : VotesSafely (c.servers i) ev)
    (hext : Consensus.Extends a a')
    (hother : ∀ q, q ≠ i → ∀ u d, a'.voted q u d → a.voted q u d)
    (hballot : ∀ d, a'.voted i ((c.servers i).next env ev).state.term d →
      ((c.servers i).next env ev).state.votedFor = d ∧ d ≠ -1)
    (hcast : ((c.servers i).next env ev).state.votedFor ≠ -1 →
      a'.voted i ((c.servers i).next env ev).state.term ((c.servers i).next env ev).state.votedFor)
    (hasks : ∀ req m, .send req m ∈ (c.servers i).effects env ev → req.type = .requestVoteRequest → BidFor a' req) :
    Balloted (c.next env act) a' := by
  have hself : (c.next env act).servers i = (c.servers i).next env ev := Cluster.servers_next_self ht.event ht.mem
  have hrest : ∀ j, j ≠ i → (c.next env act).servers j = c.servers j := fun j hj =>
    Cluster.servers_next_of_ne ht.event ht.mem hj
  refine ⟨fun q u d hv => ?_, fun q hq d hv => ?_, fun q hq hne => ?_, ?_⟩
  · obtain ⟨e, he, hvote⟩ := hv
    rw [Cluster.history_next ht.event ht.mem] at he
    rcases List.mem_append.mp he with he | he
    · exact hext.voted q u d (hb.given q u d ⟨e, he, hvote⟩)
    · obtain ⟨e', he', heq⟩ := List.mem_map.mp he
      cases heq
      obtain ⟨hnow, hsome⟩ := ht.shares.vote he' hvote
      have hterm : u = ((c.servers i).next env ev).state.term := congrArg Ballot.term hnow
      have hfor : d = ((c.servers i).next env ev).state.votedFor := congrArg Ballot.vote hnow
      have hne : d ≠ -1 := by
        rcases hsome with hne | ⟨req, hev, htype, hsrc⟩
        · exact hne
        · rw [hev] at hvotes
          have hsome := hvotes.1 htype
          rwa [hsrc] at hsome
      rw [hterm, hfor]
      exact hcast (hfor ▸ hne)
  · rw [Cluster.ids_next] at hq
    by_cases hqi : q = i
    · subst hqi
      rw [hself] at hv ⊢
      exact hballot d hv
    · rw [hrest q hqi] at hv ⊢
      exact hb.ballot q hq d (hother q hqi _ d hv)
  · rw [Cluster.ids_next] at hq
    by_cases hqi : q = i
    · subst hqi
      rw [hself] at hne ⊢
      exact hcast hne
    · rw [hrest q hqi] at hne ⊢
      exact hext.voted _ _ _ (hb.cast q hq hne)
  · exact hb.asked.next env ht.event ht.mem (fun _ _ _ h => h) (fun req hreq htype => (hreq htype).mono hext)
      (fun _ _ h => h) trivial hasks fun _ _ _ _ _ _ => trivial

/-- **An act keeps the votes of the cluster votes of the protocol**, once the protocol has
seen the vote it may give. -/
theorem balloted_next (h : Mirrors Fair c a) (hb : Balloted c a) (ht : Turn c env act i ev)
    (hvotes : VotesSafely (c.servers i) ev) (hsafe : ElectsSafely (c.servers i) ev)
    (h' : Mirrors Fair (c.next env act) a') (hext : Consensus.Extends a a')
    (hbal : Ballots a a' (c.servers i) i ev ((c.servers i).next env ev)) :
    ∃ a'', Mirrors Fair (c.next env act) a'' ∧ Balloted (c.next env act) a'' ∧ Consensus.Extends a a'' := by
  have hmember := h.holds.servers i ht.mem
  have hasks : ∀ req m, .send req m ∈ (c.servers i).effects env ev → req.type = .requestVoteRequest →
      ev = .electionTimeout ∧ (c.servers i).role ≠ .leader ∧
        ((c.servers i).next env ev).state.ballot = (c.servers i).campaign.state.ballot ∧
        ∃ pid, req = (c.servers i).campaign.voteReq pid := by
    intro req m hs htype
    obtain ⟨he, hr, hsave, pid, -, hreq⟩ := ht.polls.asksVote hmember.startIdx hs htype
    rw [he] at hsafe
    have hvote : (Effect.saveState (c.servers i).campaign.state).vote = some (c.servers i).campaign.state.ballot :=
      if_neg (hsafe hr).1
    exact ⟨he, hr, (ht.shares.vote hsave hvote).1.symm, pid, hreq⟩
  have hstand : ev = .electionTimeout → (c.servers i).role ≠ .leader →
      i ≠ -1 ∧ (c.servers i).campaign.state.ballot = ⟨(c.servers i).state.term + 1, i⟩ := by
    intro he hr
    rw [he] at hsafe
    obtain ⟨hid, hlt⟩ := hsafe hr
    rw [hmember.id] at hid
    exact ⟨hid, congrArg₂ Ballot.mk (Nat.mod_eq_of_lt hlt) hmember.id⟩
  have hnew : ∀ u d, (c.servers i).state.term < u → ¬ a.voted i u d := by
    intro u d hlt hv
    have hle := h.sound.voting.le i u d hv
    rw [h.term] at hle
    omega
  have hterm' : a'.term i = ((c.servers i).next env ev).state.term := by
    rw [h'.term, Cluster.servers_next_self ht.event ht.mem]
  have hlog' : a'.log i = ((c.servers i).next env ev).logStore.entries := by
    rw [h'.log, Cluster.servers_next_self ht.event ht.mem]
  generalize hnext : (c.servers i).next env ev = t at hbal hasks hterm' hlog'
  cases hbal with
  | keeps hv hbid hballot =>
    refine ⟨a', h', balloted_close hb ht hvotes hext (fun q _ u d hvote => hv ▸ hvote) (fun d hvote => ?_)
      (fun hne => ?_) fun req m hs htype => ?_, hext⟩
    · rw [hnext] at hvote ⊢
      rw [hv] at hvote
      rcases hballot with hsame | ⟨hlt, -⟩
      · rw [show t.state.term = (c.servers i).state.term from congrArg Ballot.term hsame] at hvote
        rw [show t.state.votedFor = (c.servers i).state.votedFor from congrArg Ballot.vote hsame]
        exact hb.ballot i ht.mem d hvote
      · exact absurd hvote (hnew _ d hlt)
    · rw [hnext] at hne ⊢
      rw [hv]
      rcases hballot with hsame | ⟨-, hnone⟩
      · rw [show t.state.term = (c.servers i).state.term from congrArg Ballot.term hsame,
          show t.state.votedFor = (c.servers i).state.votedFor from congrArg Ballot.vote hsame] at *
        exact hb.cast i ht.mem hne
      · exact absurd hnone hne
    · -- whoever asks for a vote has given itself one
      obtain ⟨he, hr, hnow, -⟩ := hasks req m hs htype
      obtain ⟨hid, hcamp⟩ := hstand he hr
      rw [hcamp] at hnow
      rcases hballot with hsame | ⟨-, hnone⟩
      · have hterm := congrArg Ballot.term (hsame.symm.trans hnow)
        exact absurd hterm (Nat.succ_ne_self _).symm
      · exact absurd ((congrArg Ballot.vote hnow).symm.trans hnone) hid
  | stands he hr hv hbid hballot =>
    obtain ⟨hid, hcamp⟩ := hstand he hr
    have hT : (c.servers i).campaign.state.term = (c.servers i).state.term + 1 := congrArg Ballot.term hcamp
    rw [hcamp] at hballot
    have hterm : t.state.term = (c.servers i).state.term + 1 := congrArg Ballot.term hballot
    have hfor : t.state.votedFor = i := congrArg Ballot.vote hballot
    refine ⟨a', h', balloted_close hb ht hvotes hext (fun q hqi u d hvote => ?_) (fun d hvote => ?_)
      (fun _ => ?_) fun req m hs htype => ?_, hext⟩
    · rw [hv] at hvote
      exact hvote.resolve_right fun hself => hqi hself.1
    · rw [hnext, hterm] at hvote
      rw [hnext, hfor]
      rw [hv, hT] at hvote
      rcases hvote with hold | ⟨-, -, rfl⟩
      · exact absurd hold (hnew _ d (Nat.lt_succ_self _))
      · exact ⟨rfl, hid⟩
    · rw [hnext, hterm, hfor, hv, hT]
      exact .inr ⟨rfl, rfl, rfl⟩
    · obtain ⟨-, -, -, pid, rfl⟩ := hasks req m hs htype
      have hlen : (c.servers i).logStore.nextSlot - 1 = (c.servers i).logStore.entries.length := by
        rw [LogStore.nextSlot, hmember.startIdx]
        omega
      refine ⟨a.log i, ?_, ?_, ?_⟩
      · rw [hbid]
        exact .inr ⟨hmember.id, rfl, rfl⟩
      · rw [h.log]
        exact hlen
      · have hlast : termAtEnd (c.servers i).logStore.entries ((c.servers i).logStore.nextSlot - 1) =
            Consensus.lastEpoch LogEntry.term (c.servers i).logStore.entries := by
          rw [hlen, termAtEnd, List.take_length]
          rfl
        rw [h.log]
        exact hlast
  | @grants req hv hbid he htype hle hokay hfree hballot hlog =>
    have hterm : t.state.term = req.term := congrArg Ballot.term hballot
    have hfor : t.state.votedFor = req.src := congrArg Ballot.vote hballot
    have hsrc : req.src ≠ -1 := by
      rw [he] at hvotes
      exact hvotes.1 htype
    obtain ⟨l, hbidl, hidx, hlast⟩ : BidFor a req := by
      have hcomes := hb.asked.comes ht.event
      rw [he] at hcomes
      cases hcomes with
      | client hcli =>
        rw [htype] at hcli
        cases hcli
      | deliver hreq hd => exact hreq htype
    -- the voter has no other vote in the term
    have honly : ∀ d, a'.voted i (a'.term i) d → d = req.src := by
      intro d hvote
      rw [hv, hterm', hterm] at hvote
      rcases hle.eq_or_lt with heq | hlt
      · rw [← heq] at hvote
        obtain ⟨hd, hne⟩ := hb.ballot i ht.mem d hvote
        rcases hfree heq with hsame | hnone
        · exact hd.symm.trans hsame
        · exact absurd (hd.symm.trans hnone) hne
      · exact absurd hvote (hnew _ d hlt)
    have hup : Consensus.UpToDate LogEntry.term l (a'.log i) := by
      rw [hlog', hlog]
      simp only [Server.voteLogOkay, decide_eq_true_eq, LogStore.nextSlot, hmember.startIdx, hidx, hlast] at hokay
      refine hokay.imp id fun hshort => ⟨hshort.1, ?_⟩
      omega
    obtain ⟨hm, hext'⟩ := h'.granted (q := i) (d := req.src) (l := l) (by rw [hbid, hterm', hterm]; exact hbidl) honly hup
    refine ⟨_, hm, balloted_close hb ht hvotes (hext.trans hext') (fun q hqi u d hvote => ?_) (fun d hvote => ?_)
      (fun _ => ?_) fun req' m hs htype' => ?_, hext.trans hext'⟩
    · rcases hvote with hvote | ⟨hqi', -, -⟩
      · exact hv ▸ hvote
      · exact absurd hqi' hqi
    · rw [hnext, hfor]
      rw [hnext, ← hterm'] at hvote
      rcases hvote with hvote | ⟨-, -, rfl⟩
      · exact ⟨(honly d hvote).symm, fun hd => hsrc ((honly d hvote).symm.trans hd)⟩
      · exact ⟨rfl, hsrc⟩
    · rw [hnext, ← hterm', hfor]
      exact .inr ⟨rfl, rfl, rfl⟩
    · obtain ⟨htime, -⟩ := hasks req' m hs htype'
      rw [he] at htime
      cases htime

end Mirrors
end Cornerstone
