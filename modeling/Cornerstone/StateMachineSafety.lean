import Cornerstone.ClusterVotes
import Cornerstone.Quorums

/-! # What state machines are told

The committing thread of a server hands the state machine the entries of its log up to the
commit index.  The commit index of a leader is where a majority of matched indexes allows,
that of a follower the one it is told.  What follows is when these indexes are those of the
abstract protocol, so that an index has one entry for all servers and all times.
-/

namespace Cornerstone
open Handlers Handler Server Splice

/-! ## What is claimed -/

/-- State machines are told of one entry for each index. -/
def StateMachineSafe (history : List (Int × Effect)) : Prop :=
  ∀ i j idx e e', (i, .commit idx e) ∈ history → (j, .commit idx e') ∈ history → e = e'

/-- The log has all entries of a request and goes on behind them. -/
def Server.runsOn (s : Server) (req : ReqMsg) : Prop :=
  overlap LogEntry.term (s.logStore.entries.drop req.lastLogIdx) req.logEntries = req.logEntries.length ∧
    req.lastLogIdx + req.logEntries.length < s.logStore.entries.length

instance (s : Server) (req : ReqMsg) : Decidable (s.runsOn req) := inferInstanceAs (Decidable (_ ∧ _))

/-- The condition under which an event leaves commit indexes telling: a log that runs on
behind the entries of a request is not told to commit what lies there, and what a majority
is known to have is committed with an entry of the leader's own term. -/
def CommitsSafely (s : Server) : Event → Prop
  | .request req => req.type = .appendEntriesRequest → s.state.term ≤ req.term → s.logStore.hasPrev req = true →
      s.runsOn req → req.commitIdx ≤ max s.quickCommitIdx (req.lastLogIdx + req.logEntries.length)
  | .peerResp _ _ resp => resp.type = .appendEntriesResponse → resp.accepted = true → resp.src ∈ s.peerIds →
      s.quickCommitIdx < s.responseIdx resp → s.logStore.termAt? (s.responseIdx resp) = some s.state.term
  | _ => True

instance decidableCommitsSafely (s : Server) : (ev : Event) → Decidable (CommitsSafely s ev)
  | .request req => inferInstanceAs (Decidable (req.type = .appendEntriesRequest → s.state.term ≤ req.term →
      s.logStore.hasPrev req = true → s.runsOn req →
        req.commitIdx ≤ max s.quickCommitIdx (req.lastLogIdx + req.logEntries.length)))
  | .peerResp _ _ resp => inferInstanceAs (Decidable (resp.type = .appendEntriesResponse → resp.accepted = true →
      resp.src ∈ s.peerIds → s.quickCommitIdx < s.responseIdx resp →
        s.logStore.termAt? (s.responseIdx resp) = some s.state.term))
  | .peerErr _ _ | .extResp _ _ _ | .extErr _ _ | .extRetry _ | .electionTimeout | .hbTimeout _ | .bgWake | .bgIter
  | .snapshotCompleted _ => inferInstanceAs (Decidable True)

/-! ## What an event says -/

/-- But for answers and taking office, what an event shows is borne out. -/
theorem Shares.said {s t : Server} {ev : Event} {o : List Effect} (h : Shares s ev o t) {e : Effect} (he : e ∈ o) :
    e.borneOut ev t ∨ (∃ resp m, e = .reply resp m) ∨ ∃ u n, e = .becomeLeader u n := by
  cases h with
  | hears n hshare ho => exact .inl (ho e he)
  | closes hshare ho => exact .inl (ho e he)
  | accepts hev htype hle hfollows hprev hshare hrtype hsrc hrterm hidx ho =>
    rcases List.mem_append.mp he with he | he
    · exact .inl (ho e he)
    · exact .inr (.inl ⟨_, _, List.mem_singleton.mp he⟩)
  | grants hev htype hle hokay hfree hshare hrtype hrterm hdst ho =>
    rcases List.mem_append.mp he with he | he
    · exact .inl (ho e he)
    · exact .inr (.inl ⟨_, _, List.mem_singleton.mp he⟩)
  | stands hev hr hshare ho => exact .inl (ho e he)
  | leads hr hes hshare ho ho' =>
    rcases List.mem_append.mp he with he | he
    · exact .inl (ho e he)
    · rcases List.mem_cons.mp he with he | he
      · exact .inr (.inr ⟨_, _, he⟩)
      · exact .inl (ho' e he)
  | serves hev htype hr hshare ho => exact .inl (ho e he)
  | answers hev htype hle hshare ho => exact .inl (ho e he)

/-- Requests for entries are those of a leader, made when it is what it is afterwards. -/
theorem Shares.sends {s t : Server} {ev : Event} {o : List Effect} (h : Shares s ev o t) {req : ReqMsg} {m : SrvState}
    (hs : .send req m ∈ o) (htype : req.type = .appendEntriesRequest) :
    t.role = .leader ∧ OwnRequest t t.quickCommitIdx req := by
  rcases h.said hs with hsaid | ⟨resp, m', heq⟩ | ⟨u, n, heq⟩
  · exact hsaid htype
  · cases heq
  · cases heq

/-- What is committed is in the log and within the commit index. -/
theorem Shares.commits {s t : Server} {ev : Event} {o : List Effect} (h : Shares s ev o t) {idx : Nat} {e : LogEntry}
    (hc : .commit idx e ∈ o) : idx ≤ t.quickCommitIdx ∧ t.logStore.entryAt? idx = some e := by
  rcases h.said hc with hsaid | ⟨resp, m, heq⟩ | ⟨u, n, heq⟩
  · exact hsaid
  · cases heq
  · cases heq

theorem lastIdxs_of_share (s : Server) : s.lastIdxs = (s.logStore.nextSlot - 1) :: s.share.matched.map Prod.snd := by
  rw [Server.lastIdxs, Server.share, List.map_map]
  rfl

/-- An entry of a log that was never compacted. -/
theorem LogStore.getElem?_of_entryAt? {l : LogStore} {idx : Nat} {e : LogEntry} (h1 : l.startIdx = 1)
    (h : l.entryAt? idx = some e) : 0 < idx ∧ l.entries[idx - 1]? = some e := by
  have hpos : 0 < idx := by
    by_contra hzero
    rw [LogStore.entryAt?, if_pos (by omega)] at h
    cases h
  rw [LogStore.entryAt?_of_mem (by omega), h1] at h
  exact ⟨hpos, h⟩

/-- Splicing in items that do not all agree, or go as far as the list does, leaves nothing
behind them. -/
theorem length_spliced_le {s : Server} {req : ReqMsg} (h : ¬ s.runsOn req) :
    (s.logStore.entries.take req.lastLogIdx ++
      splice LogEntry.term (s.logStore.entries.drop req.lastLogIdx) req.logEntries).length ≤
      req.lastLogIdx + req.logEntries.length := by
  have hright := @overlap_le_right _ _ _ LogEntry.term (s.logStore.entries.drop req.lastLogIdx) req.logEntries
  have hleft := @overlap_le_left _ _ _ LogEntry.term (s.logStore.entries.drop req.lastLogIdx) req.logEntries
  unfold splice
  split
  · rename_i hnil
    rw [List.drop_eq_nil_iff] at hnil
    have hlen : ¬ req.lastLogIdx + req.logEntries.length < s.logStore.entries.length := fun hlt =>
      h ⟨Nat.le_antisymm hright hnil, hlt⟩
    rw [List.take_append_drop]
    omega
  · simp only [List.length_append, List.length_take, List.length_drop] at hleft ⊢
    omega

/-! ## Commit indexes -/

/-- Commit indexes lie within what quorums have, and what has been committed is fixed. -/
structure Committed (c : Cluster) (a : Consensus.State Int LogEntry) : Prop where
  quick : ∀ i ∈ c.ids, Consensus.Backed c.ids.dedup LogEntry.term a (c.servers i).state.term
    (c.servers i).logStore.entries (c.servers i).quickCommitIdx
  told : c.Holds (fun _ _ => True) (fun req => req.type = .appendEntriesRequest →
    Consensus.Decided c.ids.dedup LogEntry.term a req.term req.commitIdx) fun _ _ => True
  done : ∀ i idx e, (i, .commit idx e) ∈ c.history →
    0 < idx ∧ Consensus.Fixed c.ids.dedup LogEntry.term a (idx - 1) e

namespace Mirrors
variable {c : Cluster} {a a' : Consensus.State Int LogEntry} {env : Env} {act : Act} {i : Int} {ev : Event}

/-- Where the commit index of the server an act is about lies within what a quorum has, so
does all that it says. -/
theorem committed_close (hc : Committed c a) (ht : Turn c env act i ev) (h1 : (c.servers i).logStore.startIdx = 1)
    (hext : Consensus.Extends a a')
    (hquick : Consensus.Backed c.ids.dedup LogEntry.term a' ((c.servers i).next env ev).state.term
      ((c.servers i).next env ev).logStore.entries ((c.servers i).next env ev).quickCommitIdx) :
    Committed (c.next env act) a' := by
  have hself : (c.next env act).servers i = (c.servers i).next env ev := Cluster.servers_next_self ht.event ht.mem
  have hrest : ∀ j, j ≠ i → (c.next env act).servers j = c.servers j := fun j hj =>
    Cluster.servers_next_of_ne ht.event ht.mem hj
  have hstart : ((c.servers i).next env ev).logStore.startIdx = 1 := ht.polls.same.startIdx.trans h1
  refine ⟨fun j hj => ?_, ?_, fun j idx e he => ?_⟩
  · rw [Cluster.ids_next] at hj ⊢
    by_cases hji : j = i
    · subst hji
      rw [hself]
      exact hquick
    · rw [hrest j hji]
      exact (hc.quick j hj).mono hext le_rfl
  · rw [Cluster.ids_next]
    refine hc.told.next env ht.event ht.mem (fun _ _ _ h => h) (fun req hreq htype => ?_) (fun _ _ h => h) trivial
      (fun req m hs htype => ?_) fun _ _ _ _ _ _ => trivial
    · exact (hreq htype).mono hext le_rfl le_rfl
    · obtain ⟨-, hown⟩ := ht.shares.sends hs htype
      rw [hown.term]
      exact hquick.decided.mono (.refl a') le_rfl hown.commitIdx
  · rw [Cluster.ids_next]
    rw [Cluster.history_next ht.event ht.mem] at he
    rcases List.mem_append.mp he with he | he
    · exact (hc.done j idx e he).imp_right fun hfixed => hfixed.mono hext
    · obtain ⟨e', he', heq⟩ := List.mem_map.mp he
      cases heq
      obtain ⟨hle, hat⟩ := ht.shares.commits he'
      obtain ⟨hpos, hget⟩ := LogStore.getElem?_of_entryAt? hstart hat
      exact ⟨hpos, hquick.fixed (by omega) hget⟩

/-- A leader has what is decided by its term. -/
theorem backed_of_leader {c : Cluster} {a : Consensus.State Int LogEntry} (h : Mirrors True c a) {i : Int}
    (hi : (c.servers i).role = .leader) {n : Nat}
    (hd : Consensus.Decided c.ids.dedup LogEntry.term a (c.servers i).state.term n) :
    Consensus.Backed c.ids.dedup LogEntry.term a (c.servers i).state.term (c.servers i).logStore.entries n := by
  obtain ⟨hlead, hrecord⟩ := h.record_of_leader hi
  have hbacked := (h.sound.complete trivial).backed_record hlead hd
  rwa [hrecord] at hbacked

/-- **What a leader knows a majority to have is chosen.** -/
theorem chosen_of_majority {c : Cluster} {a : Consensus.State Int LogEntry} {Fair : Prop} (h : Mirrors Fair c a)
    (hc : Credited c a) {i : Int} (hid : i ∈ c.ids) (hi : (c.servers i).role = .leader) {n : Nat}
    (hmaj : Majority (c.servers i).lastIdxs (n ≤ ·)) :
    Consensus.Chosen c.ids.dedup a (c.servers i).state.term n := by
  have hmember := h.holds.servers i hid
  obtain ⟨hlead, hrecord⟩ := h.record_of_leader hi
  have hnotin : (c.servers i).id ∉ (c.servers i).peerIds := fun hmem =>
    ((hmember.mem _).mp hmem).2 hmember.id
  obtain ⟨W, hsub, hmost, hhas⟩ :=
    (majority_iff_witnesses (List.nodup_cons.mpr ⟨hnotin, hmember.nodup⟩) n).mp hmaj
  have hids : ∀ q ∈ W, q = i ∨ q ≠ i ∧ q ∈ (c.servers i).peerIds := by
    intro q hq
    rcases List.mem_cons.mp (List.mem_toFinset.mp (hsub hq)) with heq | hmem
    · exact .inl (heq.trans hmember.id)
    · exact .inr ⟨((hmember.mem q).mp hmem).2, hmem⟩
  refine ⟨W.toList, W.nodup_toList, fun q hq => ?_, ?_, fun q hq => ?_⟩
  · rw [List.mem_dedup]
    rcases hids q (Finset.mem_toList.mp hq) with rfl | ⟨-, hmem⟩
    · exact hid
    · exact ((hmember.mem q).mp hmem).1
  · rw [Server.length_cluster] at hmost
    rw [Finset.length_toList, hmember.length hid, Server.peerIds, List.length_map]
    omega
  · have hlast := hhas q (Finset.mem_toList.mp hq)
    rcases hids q (Finset.mem_toList.mp hq) with rfl | ⟨hne, hmem⟩
    · -- the leader has its own log
      rw [Server.lastIdxOf, if_pos hmember.id.symm, LogStore.nextSlot, hmember.startIdx] at hlast
      refine .inr ⟨hlead, ?_⟩
      rw [hrecord]
      omega
    · obtain ⟨p, hp⟩ := Option.isSome_iff_exists.mp (findPeer_isSome.mpr hmem)
      have hpid : p.id = q := by simpa using List.find?_some hp
      rw [Server.lastIdxOf, if_neg fun heq => hne (heq.trans hmember.id), hp] at hlast
      have hmatched : (q, p.matchedIdx) ∈ (c.servers i).share.matched :=
        List.mem_map.mpr ⟨p, List.mem_of_find?_eq_some hp, by rw [hpid]⟩
      exact .inl (hlast.trans (hc i hid hi q p.matchedIdx hmatched))

/-- What a server that hears of a majority commits is backed. -/
theorem backed_answers (h : Mirrors True c a) (hc : Committed c a) (ht : Turn c env act i ev)
    (h' : Mirrors True (c.next env act) a') (hcred : Credited (c.next env act) a') (hext : Consensus.Extends a a')
    {via : Option PeerRef} {reqType : MsgType} {resp : RespMsg} (he : ev = .peerResp via reqType resp)
    (htype : resp.type = .appendEntriesResponse) (hle : resp.term ≤ (c.servers i).state.term)
    (hcounts : CountsSafely (c.servers i) ev) (hcommits : CommitsSafely (c.servers i) ev) {t : Server}
    (hnext : (c.servers i).next env ev = t)
    (hshare : t.share = { ((c.servers i).answered resp).share with
      quick := if resp.accepted = true ∧ resp.src ∈ (c.servers i).peerIds then
          max (c.servers i).quickCommitIdx ((c.servers i).responseIdx resp)
        else (c.servers i).quickCommitIdx }) :
    Consensus.Backed c.ids.dedup LogEntry.term a' t.state.term t.logStore.entries t.quickCommitIdx := by
  have hself : (c.next env act).servers i = t := (Cluster.servers_next_self ht.event ht.mem).trans hnext
  have hterm : t.state.term = (c.servers i).state.term := by
    rw [share_answered] at hshare
    exact congrArg Share.term hshare
  have hlog : t.logStore.entries = (c.servers i).logStore.entries := by
    rw [share_answered] at hshare
    exact congrArg Share.log hshare
  have hquick : t.quickCommitIdx = if resp.accepted = true ∧ resp.src ∈ (c.servers i).peerIds then
      max (c.servers i).quickCommitIdx ((c.servers i).responseIdx resp) else (c.servers i).quickCommitIdx := by
    rw [share_answered] at hshare
    exact congrArg Share.quick hshare
  have hold := (hc.quick i ht.mem).mono hext le_rfl
  rw [hterm, hlog, hquick]
  split
  · rename_i hacc
    rcases le_or_gt ((c.servers i).responseIdx resp) (c.servers i).quickCommitIdx with hsmall | hlarge
    · rw [max_eq_left hsmall]
      exact hold
    · -- the server has been a leader in the term all along, and knows of a majority now
      rw [max_eq_right hlarge.le]
      obtain ⟨req, htold, hsrc, htaken⟩ := h.takenIn ht he htype hacc.1
      rw [he] at hcounts hcommits
      have hnow : req.term = (c.servers i).state.term :=
        htaken.term.symm.trans (Nat.le_antisymm hle (hcounts.2 htype hacc.1))
      have hquoting : Quoting a req := by
        rcases htold with hvote | ⟨-, hq⟩
        · rw [htaken.type] at hvote
          cases hvote
        · exact hq
      have hrole : (c.servers i).role = .leader := by
        rw [h.office, ← hnow, ← hsrc]
        exact hquoting.leader
      have hrole' : t.role = .leader := by
        have hleads : t.share.leads = (c.servers i).share.leads := by
          rw [hshare, share_answered]
        exact of_decide_eq_true (hleads.trans (decide_eq_true hrole))
      have hmaj : Majority t.lastIdxs ((c.servers i).responseIdx resp ≤ ·) := by
        have hstart : t.logStore.startIdx = (c.servers i).logStore.startIdx := by
          rw [← hnext]
          exact ht.polls.same.startIdx
        have hmatched : t.share.matched = ((c.servers i).answered resp).share.matched := by
          rw [hshare]
        have hlast : t.lastIdxs = (c.servers i).replicas resp := by
          rw [replicas_eq hacc.1, lastIdxs_of_share, hmatched, LogStore.nextSlot, LogStore.nextSlot, hlog, hstart]
          rw [Server.share, List.map_map]
          rfl
        rw [hlast]
        exact (le_responseIdx_iff hacc.1 _).mp le_rfl
      rw [← hself] at hrole' hmaj
      have hchosen := h'.chosen_of_majority hcred (by rw [Cluster.ids_next]; exact ht.mem) hrole' hmaj
      obtain ⟨-, hrecord⟩ := h'.record_of_leader hrole'
      rw [hself, hterm] at hchosen hrecord
      rw [Cluster.ids_next] at hchosen
      rw [hlog] at hrecord
      have hat := hcommits htype hacc.1 hacc.2 hlarge
      obtain ⟨e, hat, heterm⟩ := Option.map_eq_some_iff.mp hat
      obtain ⟨hpos, hget⟩ := LogStore.getElem?_of_entryAt? (h.holds.servers i ht.mem).startIdx hat
      have hsucc : (c.servers i).responseIdx resp - 1 + 1 = (c.servers i).responseIdx resp := by omega
      refine .inr ⟨_, (c.servers i).responseIdx resp - 1, le_rfl, ⟨e, ?_, heterm⟩, ?_, hsucc.ge, ?_⟩
      · rw [hrecord]
        exact hget
      · rw [hsucc]
        exact hchosen
      · rw [hrecord]
        exact List.take_prefix _ _
  · exact hold

/-- A server takes in a part of what is a leader's log then and later. -/
theorem takes_accepts {Fair : Prop} (h : Mirrors Fair c a) (ht : Turn c env act i ev) (hext : Consensus.Extends a a')
    {req : ReqMsg} (he : ev = .request req) (htype : req.type = .appendEntriesRequest)
    (hprev : (c.servers i).logStore.hasPrev req = true) :
    a'.leader req.term = some req.src ∧
      req.lastLogIdx + req.logEntries.length ≤ (a'.record req.term).length ∧
      Consensus.Takes ((a'.record req.term).take (req.lastLogIdx + req.logEntries.length))
        (c.servers i).logStore.entries
        ((c.servers i).logStore.entries.take req.lastLogIdx ++
          splice LogEntry.term ((c.servers i).logStore.entries.drop req.lastLogIdx) req.logEntries) := by
  obtain ⟨hq, -⟩ := h.quoting ht he htype
  have hmatched := matched_of_rooted (h.sound.matching.record req.term) (h.sound.matching.log i)
  rw [h.log i] at hmatched
  obtain ⟨hlen, htakes⟩ := hq.quotes.takes hmatched
    (LogStore.prev_of_hasPrev (h.holds.servers i ht.mem).startIdx hprev)
  rw [← hext.take_record hlen] at htakes
  exact ⟨hext.leader _ _ hq.leader, hlen.trans (hext.record _).length_le, htakes⟩

/-- What a server that takes in the entries of a leader is told to commit is backed. -/
theorem backed_accepts (h : Mirrors True c a) (hc : Committed c a) (ht : Turn c env act i ev)
    (h' : Mirrors True (c.next env act) a') (hext : Consensus.Extends a a') {req : ReqMsg} (he : ev = .request req)
    (htype : req.type = .appendEntriesRequest) (hle : (c.servers i).state.term ≤ req.term)
    (hprev : (c.servers i).logStore.hasPrev req = true) (hcommits : CommitsSafely (c.servers i) ev) :
    Consensus.Backed c.ids.dedup LogEntry.term a' req.term
      ((c.servers i).logStore.entries.take req.lastLogIdx ++
        splice LogEntry.term ((c.servers i).logStore.entries.drop req.lastLogIdx) req.logEntries)
      (max (c.servers i).quickCommitIdx req.commitIdx) := by
  obtain ⟨hlead, hlen, htakes⟩ := h.takes_accepts ht hext he htype hprev
  have hcomplete := h'.sound.complete trivial
  rw [Cluster.ids_next] at hcomplete
  rcases le_or_gt req.commitIdx (c.servers i).quickCommitIdx with hsmall | hlarge
  · rw [max_eq_left hsmall]
    exact hcomplete.backed_takes ((hc.quick i ht.mem).mono hext le_rfl) hle hlead htakes
  · rw [max_eq_right hlarge.le]
    have hdecided : Consensus.Decided c.ids.dedup LogEntry.term a req.term req.commitIdx := by
      have hcomes := hc.told.comes ht.event
      rw [he] at hcomes
      cases hcomes with
      | client hcli =>
        rw [htype] at hcli
        cases hcli
      | deliver hreq hd => exact hreq htype
    refine hcomplete.backed_of_prefix hlead (hdecided.mono hext le_rfl le_rfl) hlen ?_ ?_
    · rcases htakes with ⟨hpre, heq⟩ | ⟨-, heq⟩
      · rw [heq]
        exact hpre
      · rw [heq]
    · rw [he] at hcommits
      by_cases hruns : (c.servers i).runsOn req
      · have hle' := hcommits htype hle hprev hruns
        rw [le_max_iff] at hle'
        exact .inl (hle'.resolve_left hlarge.not_ge)
      · exact .inr (length_spliced_le hruns)

/-- **An act keeps commit indexes within what quorums have**, in a cluster of several
servers. -/
theorem committed_next (h : Mirrors True c a) (hc : Committed c a) (ht : Turn c env act i ev)
    (hmany : 1 < c.ids.dedup.length) (hcounts : CountsSafely (c.servers i) ev)
    (hcommits : CommitsSafely (c.servers i) ev) (h' : Mirrors True (c.next env act) a')
    (hcred : Credited (c.next env act) a') (hext : Consensus.Extends a a') : Committed (c.next env act) a' := by
  have hmember := h.holds.servers i ht.mem
  refine committed_close hc ht hmember.startIdx hext ?_
  have hold := hc.quick i ht.mem
  have hpeers : (c.servers i).peerIds ≠ [] := fun hnone => by
    have hlen := hmember.length ht.mem
    rw [hnone, List.length_nil] at hlen
    omega
  have hmatched : (c.servers i).share.matched ≠ [] := fun hnone =>
    hpeers (List.map_eq_nil_iff.mpr (List.map_eq_nil_iff.mp hnone))
  have hself : (c.next env act).servers i = (c.servers i).next env ev := Cluster.servers_next_self ht.event ht.mem
  have hshares := ht.shares
  generalize hnext : (c.servers i).next env ev = t at hshares hself ⊢
  generalize (c.servers i).effects env ev = o at hshares
  -- where no entries come and no index moves
  have hsame : ∀ {r : Share}, t.share = r → (c.servers i).state.term ≤ r.term →
      r.log = (c.servers i).share.log → r.quick = (c.servers i).share.quick →
      Consensus.Backed c.ids.dedup LogEntry.term a' t.state.term t.logStore.entries t.quickCommitIdx := by
    intro r hr hterm hlog hquick
    rw [show t.logStore.entries = (c.servers i).logStore.entries from (congrArg Share.log hr).trans hlog,
      show t.quickCommitIdx = (c.servers i).quickCommitIdx from (congrArg Share.quick hr).trans hquick]
    exact hold.mono hext (hterm.trans_eq (congrArg Share.term hr).symm)
  have hhears : ∀ {n : Nat} {v : Int}, t.share = { (c.servers i).share.hears n with votedFor := v } →
      Consensus.Backed c.ids.dedup LogEntry.term a' t.state.term t.logStore.entries t.quickCommitIdx := by
    intro n v hr
    by_cases hlt : (c.servers i).state.term < n
    · rw [share_hears_of_lt hlt] at hr
      exact hsame hr hlt.le rfl rfl
    · rw [share_hears_of_le (Nat.not_lt.mp hlt)] at hr
      exact hsame hr le_rfl rfl rfl
  -- where a leader appends
  have hgrows : ∀ {r : Share} {es : List LogEntry}, t.share = r.grows es → r.leads = true →
      (c.servers i).state.term ≤ r.term → r.matched = (c.servers i).share.matched →
      r.quick = (c.servers i).share.quick →
      Consensus.Backed c.ids.dedup LogEntry.term a' t.state.term t.logStore.entries t.quickCommitIdx := by
    intro r es hr hleads hterm hsameMatched hquick
    have hrole : t.role = .leader := of_decide_eq_true ((congrArg Share.leads hr).trans hleads)
    have hquick' : t.quickCommitIdx = (c.servers i).quickCommitIdx := by
      refine (congrArg Share.quick hr).trans ?_
      rw [Share.grows, hsameMatched, if_neg hmatched]
      exact hquick
    have hdecided := hold.decided.mono hext (hterm.trans_eq (congrArg Share.term hr).symm) le_rfl
    rw [← hself] at hrole hdecided
    have hbacked := h'.backed_of_leader hrole (by rw [Cluster.ids_next]; exact hdecided)
    rwa [Cluster.ids_next, hself, ← hquick'] at hbacked
  cases hshares with
  | hears n hshare ho => exact hhears (n := n) hshare
  | closes hshare ho => exact hsame hshare le_rfl rfl rfl
  | @accepts req resp m o t he htype hle hfollows hprev hshare hrtype hsrc hrterm hidx ho =>
    have hterm : t.share.term = req.term := (congrArg Share.term hshare).trans (term_hears hle)
    have hbacked : Consensus.Backed c.ids.dedup LogEntry.term a' t.share.term t.share.log t.share.quick := by
      rw [hterm, hshare]
      exact h.backed_accepts hc ht h' hext he htype hle hprev hcommits
    exact hbacked
  | grants he htype hle hokay hv hshare hrtype hrterm hdst ho => exact hhears hshare
  | stands he hr hshare ho =>
    exact hsame hshare ((Nat.le_succ _).trans_eq (ht.campaign_term he hr).symm) rfl rfl
  | leads hr hes hshare ho ho' =>
    rcases hr with ⟨rfl, -, -⟩ | ⟨-, -, -, hnone⟩
    · exact hgrows hshare rfl le_rfl rfl rfl
    · exact absurd hnone hpeers
  | serves he htype hr hshare ho => exact hgrows hshare (decide_eq_true hr) le_rfl rfl rfl
  | answers he htype hle hshare ho =>
    exact h.backed_answers hc ht h' hcred hext he htype hle hcounts hcommits hnext hshare

/-- Whoever takes office with the votes of others has the protocol's votes of a quorum. -/
theorem quorum_of_office (hb : Balloted c a) (hp : Polled c) (ht : Polled.Turn c env act i ev) {n : Nat}
    (hn : .becomeLeader (c.servers i).state.term n ∈ (c.servers i).effects env ev) :
    Consensus.Quorum c.ids.dedup fun q => a.voted q (c.servers i).state.term i := by
  obtain ⟨pre, post, ho⟩ := List.append_of_mem hn
  obtain ⟨⟨V, hnodup, hsub, hlen, hV⟩, hmost⟩ := hp.earned_now ht ho
  have hpre : pre = [] := by
    rcases ht.polls.lead (hp.holds.servers i ht.mem).startIdx ho with ⟨he, hr, -, -, hterm, -⟩ |
      ⟨-, -, -, -, -, -, -, hnil, -⟩
    · rw [Polled.campaign_term ht he hr] at hterm
      omega
    · exact hnil
  rw [hpre, List.map_nil, List.append_nil] at hV
  exact ⟨V, hnodup, fun q hq => List.mem_dedup.mpr (hsub hq), hlen ▸ hmost, fun q hq => hb.given q _ i (hV q hq)⟩

end Mirrors

/-! ## A server alone -/

theorem eq_of_alone {ids : List Int} (hlone : ids.dedup.length ≤ 1) {i j : Int} (hi : i ∈ ids) (hj : j ∈ ids) :
    i = j := by
  by_contra hne
  have hsub : [i, j] ⊆ ids.dedup := by
    intro q hq
    rw [List.mem_dedup]
    rcases List.mem_cons.mp hq with rfl | hq
    · exact hi
    · exact List.mem_singleton.mp hq ▸ hj
  have hle := List.Nodup.length_le_of_subset (List.nodup_cons.mpr ⟨by simpa using hne, List.nodup_singleton j⟩) hsub
  exact absurd (hle.trans hlone) (by simp)

/-- What has been committed is in the log. -/
def Kept (c : Cluster) : Prop :=
  ∀ i idx e, (i, .commit idx e) ∈ c.history → i ∈ c.ids ∧ (c.servers i).logStore.entryAt? idx = some e

namespace Mirrors
variable {Fair : Prop} {c : Cluster} {a : Consensus.State Int LogEntry} {env : Env} {act : Act} {i : Int} {ev : Event}

/-- A server alone takes in nobody's entries. -/
theorem log_prefix_of_alone (h : Mirrors Fair c a) (ht : Turn c env act i ev) (hlone : c.ids.dedup.length ≤ 1) :
    (c.servers i).logStore.entries <+: ((c.servers i).next env ev).logStore.entries := by
  have hshares := ht.shares
  generalize (c.servers i).next env ev = t at hshares ⊢
  generalize (c.servers i).effects env ev = o at hshares
  have hsame : ∀ {r : Share}, t.share = r → r.log = (c.servers i).share.log →
      (c.servers i).logStore.entries <+: t.logStore.entries := by
    intro r hr hlog
    have hentries : t.logStore.entries = (c.servers i).logStore.entries := (congrArg Share.log hr).trans hlog
    rw [hentries]
  have hgrows : ∀ {r : Share} {es : List LogEntry}, t.share = r.grows es → r.log = (c.servers i).share.log →
      (c.servers i).logStore.entries <+: t.logStore.entries := by
    intro r es hr hlog
    have hentries : t.logStore.entries = r.log ++ es := congrArg Share.log hr
    rw [hentries, hlog]
    exact List.prefix_append _ _
  cases hshares with
  | hears n hshare ho => exact hsame hshare (log_hears _ n)
  | closes hshare ho => exact hsame hshare rfl
  | @accepts req resp m o t he htype hle hfollows hprev hshare hrtype hsrc hrterm hidx ho =>
    obtain ⟨hq, hdst⟩ := h.quoting ht he htype
    have hsame := eq_of_alone hlone (h.members _ _ hq.leader) ht.mem
    exact absurd (hdst.trans hsame.symm) hq.dst_ne
  | grants he htype hle hokay hv hshare hrtype hrterm hdst ho => exact hsame hshare (log_hears _ _)
  | stands he hr hshare ho => exact hsame hshare rfl
  | leads hr hes hshare ho ho' =>
    rcases hr with ⟨rfl, -, -⟩ | ⟨rfl, -, -, -⟩
    · exact hgrows hshare rfl
    · exact hgrows hshare rfl
  | serves he htype hr hshare ho => exact hgrows hshare rfl
  | answers he htype hle hshare ho =>
    rw [share_answered] at hshare
    exact hsame hshare rfl

/-- So what it has committed stays. -/
theorem kept_next (h : Mirrors Fair c a) (hk : Kept c) (ht : Turn c env act i ev) (hlone : c.ids.dedup.length ≤ 1) :
    Kept (c.next env act) := by
  have hself : (c.next env act).servers i = (c.servers i).next env ev := Cluster.servers_next_self ht.event ht.mem
  have h1 := (h.holds.servers i ht.mem).startIdx
  have hstart : ((c.servers i).next env ev).logStore.startIdx = 1 := ht.polls.same.startIdx.trans h1
  intro j idx e he
  rw [Cluster.ids_next]
  rw [Cluster.history_next ht.event ht.mem] at he
  rcases List.mem_append.mp he with he | he
  · obtain ⟨hj, hat⟩ := hk j idx e he
    refine ⟨hj, ?_⟩
    by_cases hji : j = i
    · subst hji
      obtain ⟨hpos, hget⟩ := LogStore.getElem?_of_entryAt? h1 hat
      obtain ⟨rest, hrest⟩ := h.log_prefix_of_alone ht hlone
      have hlt := (List.getElem?_eq_some_iff.mp hget).1
      rw [hself, LogStore.entryAt?_of_mem (by omega), hstart, ← hrest, List.getElem?_append_left hlt]
      exact hget
    · rw [Cluster.servers_next_of_ne ht.event ht.mem hji]
      exact hat
  · obtain ⟨e', he', heq⟩ := List.mem_map.mp he
    cases heq
    rw [hself]
    exact ⟨ht.mem, (ht.shares.commits he').2⟩

end Mirrors

/-! ## Every run -/

/-- An act that leaves elections, the terms of entries, matched indexes and commit indexes in
order. -/
def CommitsOrderly (c : Cluster) (act : Act) : Prop := CountsOrderly c act ∧ c.On CommitsSafely act

instance (c : Cluster) (act : Act) : Decidable (CommitsOrderly c act) :=
  inferInstanceAs (Decidable (_ ∧ _))

/-- What holds between acts. -/
structure Applied (c : Cluster) (a : Consensus.State Int LogEntry) : Prop where
  polled : Polled c
  mirrors : Mirrors True c a
  credited : Credited c a
  balloted : Balloted c a
  committed : 1 < c.ids.dedup.length → Committed c a
  kept : c.ids.dedup.length ≤ 1 → Kept c

theorem Applied.next {c : Cluster} {a : Consensus.State Int LogEntry} {env : Env} {act : Act} (h : Applied c a)
    (hact : CommitsOrderly c act) : ∃ a', Applied (c.next env act) a' ∧ Consensus.Extends a a' := by
  by_cases hnobody : ∀ i ev, c.event? act = some (i, ev) → i ∉ c.ids
  · rw [Cluster.next_of_none env hnobody]
    exact ⟨a, h, .refl a⟩
  · push Not at hnobody
    obtain ⟨i, ev, he, hid⟩ := hnobody
    obtain ⟨⟨⟨hstamp, hkeep⟩, helect, hcount⟩, hcommit⟩ := hact
    have ht : Mirrors.Turn c env act i ev := h.mirrors.turn he hid (hstamp i ev he hid) (hkeep i ev he hid)
    have hpoll := ht.polled h.polled (helect i ev he hid)
    have hp := h.polled.next hpoll
    obtain ⟨a', hm', hballots, hext⟩ := h.mirrors.next ht hp.safe.one_leader fun _ n hn =>
      Mirrors.quorum_of_office h.balloted h.polled hpoll hn
    obtain ⟨a'', hm, hb, hext⟩ :=
      h.mirrors.balloted_next h.balloted ht hpoll.votes (helect i ev he hid) hm' hext hballots
    have hc := h.mirrors.credited_next h.credited ht (hcount i ev he hid) hext
    refine ⟨a'', ⟨hp, hm, hc, hb, fun hmany => ?_, fun hlone => ?_⟩, hext⟩
    · rw [Cluster.ids_next] at hmany
      exact h.mirrors.committed_next (h.committed hmany) ht hmany (hcount i ev he hid) (hcommit i ev he hid) hm hc hext
    · rw [Cluster.ids_next] at hlone
      exact h.mirrors.kept_next (h.kept hlone) ht hlone

/-- **A run in order is one of the protocol.** -/
theorem Applied.run {c : Cluster} {a : Consensus.State Int LogEntry} {acts : List (Env × Act)} (h : Applied c a)
    (hacts : c.Along CommitsOrderly acts) : ∃ a', Applied (c.run acts) a' ∧ Consensus.Extends a a' := by
  induction acts generalizing c a with
  | nil => exact ⟨a, h, .refl a⟩
  | cons step acts ih =>
    obtain ⟨a', h', hext⟩ := h.next hacts.1
    obtain ⟨a'', h'', hext'⟩ := ih h' hacts.2
    exact ⟨a'', h'', hext.trans hext'⟩

/-- What has been committed at an index is the same everywhere. -/
theorem Applied.safe {c : Cluster} {a : Consensus.State Int LogEntry} (h : Applied c a) :
    StateMachineSafe c.history := by
  intro i j idx e e' he he'
  rcases Nat.lt_or_ge 1 c.ids.dedup.length with hmany | hlone
  · have hc := h.committed hmany
    obtain ⟨-, hfixed⟩ := hc.done i idx e he
    obtain ⟨-, hfixed'⟩ := hc.done j idx e' he'
    exact (h.mirrors.sound.complete trivial).fixed_unique h.mirrors.sound.matching hfixed hfixed'
  · obtain ⟨hi, hat⟩ := h.kept hlone i idx e he
    obtain ⟨hj, hat'⟩ := h.kept hlone j idx e' he'
    rw [eq_of_alone hlone hi hj] at hat
    exact Option.some.inj (hat.symm.trans hat')

end Cornerstone
