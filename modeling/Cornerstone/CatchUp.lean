import Cornerstone.AppendRun
import Cornerstone.CommitRule

/-! # Catching a follower up

The leader makes a request for the follower, the follower handles it, the leader
handles the answer: an exchange.  A declined exchange takes the next index of the
follower down, to the end of its log or by one, and leaves its log alone.  From the
first accepted exchange on the two logs agree below the next index, every exchange
is accepted, and the next index goes up until it is the end of the leader's log.

`create_append_entries_req` adds `max_append_size_` to the next index as an
`ulong`, and a sum that wraps around makes the batch empty for ever, so the end of
the leader's log has to stay that far from `2^64`.
-/

namespace Cornerstone
open Handlers Handler Server Splice

/-- One exchange between a leader and a follower: the answer, and what it leaves.
There is none if a handler stops early. -/
def exchange (env : Env × Env) (c : Server × Server) : Option (RespMsg × Server × Server) :=
  let made := createAppendEntriesReq env.1 c.2.id c.1
  match made.res with
  | .error _ => none
  | .ok req =>
    let answered := handleAppendEntries env.2 req c.2
    match answered.res with
    | .error _ => none
    | .ok resp =>
      let handled := handleAppendEntriesResp env.1 resp made.state
      match handled.res with
      | .error _ => none
      | .ok _ => some (resp, handled.state, answered.state)

/-- Exchanges until an accepted one reaches the end of the leader's log: what each
of them left.  There is nothing if `fuel` exchanges do not get there. -/
def catchUp (envs : Nat → Env × Env) : Nat → Server × Server → Option (List (Server × Server))
  | 0, _ => none
  | fuel + 1, c => do
    let (resp, c') ← exchange (envs 0) c
    if resp.accepted ∧ c'.1.logStore.nextSlot ≤ resp.nextIdx then
      return [c']
    else
      let cs ← catchUp (fun i => envs (i + 1)) fuel c'
      return c' :: cs

/-- A leader and a follower of one term, neither compacted, with matching logs, the
follower believed to be at `n`. -/
structure Probing (n : Nat) (L F : Server) : Prop where
  ready : L.Ready
  startIdx : F.logStore.startIdx = 1
  role : F.role ≠ .leader
  term : L.state.term = F.state.term
  matching : Matched LogEntry.term L.logStore.entries F.logStore.entries
  known : F.id ∈ L.peerIds
  next : ∀ p ∈ L.peers, p.id = F.id → p.nextLogIdx = n
  one_le : 1 ≤ n
  le_nextSlot : n ≤ L.logStore.nextSlot
  lt_ulong : L.logStore.nextSlot < ulongSize

namespace Probing
variable {n : Nat} {L F L' F' : Server}

theorem nextSlot_eq (h : Probing n L F) : L.logStore.nextSlot = 1 + L.logStore.entries.length := by
  rw [LogStore.nextSlot, h.ready.startIdx]

theorem findPeer (h : Probing n L F) : ∃ p, L.findPeer F.id = some p ∧ p.nextLogIdx = n := by
  obtain ⟨p, hp⟩ := Option.isSome_iff_exists.mp (findPeer_isSome.mpr h.known)
  exact ⟨p, hp, h.next p (findPeer_mem hp).1 (findPeer_mem hp).2⟩

/-- The request made for the follower. -/
theorem created (h : Probing n L F) (env : Env) :
    createAppendEntriesReq env F.id L = ⟨.ok (L.appendReq F.id n), L.located F.id, []⟩ := by
  obtain ⟨p, hp, hn⟩ := h.findPeer
  have hnext : L.nextOf p = n := by
    have := h.one_le
    rw [Server.nextOf, if_neg (by omega), hn]
  rw [createAppendEntriesReq_run env h.ready hp, hnext]

/-- The batch of a request: the entries from the next index on. -/
theorem logEntries_eq (h : Probing n L F) : (L.appendReq F.id n).logEntries =
    (L.logStore.entries.drop (n - 1)).take (endIdx L (n - 1) - n) := by
  rw [Server.appendReq, LogStore.logEntries, h.ready.startIdx, Nat.sub_add_cancel h.one_le]

/-- A server that has tended its peers stays where it is believed to be. -/
theorem tended (h : Probing n L F) (ht : Tended L L') (hF : F'.logStore = F.logStore)
    (hid : F'.id = F.id) (hrole : F'.role ≠ .leader) (hst : F'.state = F.state) : Probing n L' F' where
  ready := ht.ready h.ready
  startIdx := hF ▸ h.startIdx
  role := hrole
  term := by rw [ht.state_eq, hst, h.term]
  matching := by rw [ht.logStore_eq, hF]; exact h.matching
  known := by rw [ht.ids, hid]; exact h.known
  next q hq hqid := by
    obtain ⟨p, hp, hc, -, hn⟩ := ht.peers q hq
    have hpid : p.id = F.id := by
      rw [← hid, ← hqid, Peer.id, Peer.id, hc]
    have h1 := h.one_le
    have hpn := h.next p hp hpid
    omega
  one_le := h.one_le
  le_nextSlot := by rw [ht.logStore_eq]; exact h.le_nextSlot
  lt_ulong := by rw [ht.logStore_eq]; exact h.lt_ulong

/-- The leader believes the follower to be elsewhere. -/
theorem moved (h : Probing n L F) {n' : Nat} (h1 : 1 ≤ n') (hle : n' ≤ L.logStore.nextSlot)
    {f : Peer → Peer} (hf : ∀ p ∈ L.peers, p.id = F.id → (f p).nextLogIdx = n')
    (hid : ∀ p, (f p).id = p.id) : Probing n' (L.updatePeer F.id f) F where
  ready := by
    refine ⟨h.ready.startIdx, fun q hq => ?_⟩
    obtain ⟨p, hp, rfl⟩ := List.mem_map.mp hq
    split
    · rename_i hpid
      rw [hf p hp hpid]
      exact hle
    · exact h.ready.next_le p hp
  startIdx := h.startIdx
  role := h.role
  term := h.term
  matching := h.matching
  known := by
    obtain ⟨p, hp, -⟩ := h.findPeer
    exact findPeer_isSome.mp (Option.isSome_of_eq_some (findPeer_updatePeer hid hp))
  next q hq hqid := by
    obtain ⟨p, hp, rfl⟩ := List.mem_map.mp hq
    split at hqid
    · rw [if_pos ‹_›]
      exact hf p hp ‹_›
    · exact absurd hqid ‹_›
  one_le := h1
  le_nextSlot := hle
  lt_ulong := h.lt_ulong

/-! ## A declined exchange -/

/-- The answer to a declined request takes the next index down. -/
theorem declines (h : Probing n L F) (env : Env) (resp : RespMsg) (hsrc : resp.src = F.id)
    (hdecl : resp.accepted = false) (hpos : 0 < resp.nextIdx) (hn : 1 < n) :
    ∃ n' < n, Achieves L (handleAppendEntriesResp env resp) fun _ t =>
      t.logStore = L.logStore ∧ t.params = L.params ∧ Probing n' t F := by
  obtain ⟨p, hp, hpn⟩ := h.findPeer
  rw [← hsrc] at hp
  have hle := h.le_nextSlot
  have hsub : ulongSub n 1 = n - 1 := ulongSub_of_le h.one_le (lt_of_le_of_lt hle h.lt_ulong)
  -- the two ways down, for the index they go to
  have hdown : ∀ {f : Peer → Peer} {n' : Nat}, 1 ≤ n' → n' < n → (∀ p, (f p).id = p.id) →
      (∀ p ∈ L.peers, p.id = F.id → (f p).nextLogIdx = n') →
      Achieves (L.updatePeer resp.src f) (continueWith env resp.src true) fun _ t =>
        t.logStore = L.logStore ∧ t.params = L.params ∧ Probing n' t F := by
    intro f n' h1 hlt hid hf
    rw [hsrc]
    have hmoved := h.moved h1 (by omega) hf hid
    refine (continueWith_tends env F.id true hmoved.ready).mono fun _ t ht => ?_
    exact ⟨ht.logStore_eq, ht.params_eq, hmoved.tended ht rfl rfl h.role rfl⟩
  by_cases hjump : resp.nextIdx > 0 ∧ p.nextLogIdx > resp.nextIdx
  · refine ⟨resp.nextIdx, by omega, .look_bind ?_⟩
    have hrun := hdown (f := fun p => { p with nextLogIdx := resp.nextIdx }) hpos (by omega)
      (fun _ => rfl) (fun _ _ _ => rfl)
    simpa [hp, hdecl, declinedAppend, hjump, Achieves] using hrun
  · refine ⟨n - 1, by omega, .look_bind ?_⟩
    have hone : ∀ p ∈ L.peers, p.id = F.id → ulongSub p.nextLogIdx 1 = n - 1 := by
      intro p hp hid
      rw [h.next p hp hid]
      exact hsub
    have hrun := hdown (f := fun p => { p with nextLogIdx := ulongSub p.nextLogIdx 1 })
      (by omega) (by omega) (fun p => Eq.refl p.config.id) hone
    simpa [hp, hdecl, declinedAppend, hjump, Achieves] using hrun

/-! ## An accepted exchange -/

/-- What the leader believes of the follower after an accepted answer. -/
def Matches (pid : Int) (n : Nat) (s : Server) : Prop :=
  ∀ p ∈ s.peers, p.id = pid → p.matchedIdx = n - 1

/-- The answer to an accepted request takes the next index to where it says. -/
theorem accepts (h : Probing n L F) (env : Env) (resp : RespMsg) (hsrc : resp.src = F.id)
    (hacc : resp.accepted = true) (h1 : 1 ≤ resp.nextIdx)
    (hle : resp.nextIdx ≤ L.logStore.nextSlot) :
    Achieves L (handleAppendEntriesResp env resp) fun _ t =>
      t.logStore = L.logStore ∧ t.params = L.params ∧ Probing resp.nextIdx t F ∧ Matches F.id resp.nextIdx t := by
  obtain ⟨p, hp, hpn⟩ := h.findPeer
  rw [← hsrc] at hp
  set f : Peer → Peer := fun p => { p with
    nextLogIdx := resp.nextIdx, matchedIdx := ulongSub resp.nextIdx 1 } with hf
  have hslot : resp.nextIdx < ulongSize := lt_of_le_of_lt hle h.lt_ulong
  have hmoved := h.moved h1 hle (f := f) (fun _ _ _ => rfl) fun _ => rfl
  have hmatched : Matches F.id resp.nextIdx (L.updatePeer F.id f) := by
    intro q hq hqid
    obtain ⟨r, hr, rfl⟩ := List.mem_map.mp hq
    split at hqid
    · rw [if_pos ‹_›]
      exact ulongSub_of_le h1 hslot
    · exact absurd hqid ‹_›
  have hrest : Achieves (L.updatePeer resp.src f) (do
      let s ← look
      commit env (majorityIdx (s.logStore.nextSlot - 1) (s.peers.map Peer.matchedIdx))
      stillLags resp) fun _ t => Tended (L.updatePeer F.id f) t := by
    rw [hsrc]
    refine .look_bind (.bind (commit_tends env _ hmoved.ready) fun _ t ht => ?_)
    exact (stillLags_tends resp).mono fun _ u hu => ht.trans hu
  refine .look_bind ?_
  simp only [hp, hacc, if_true]
  refine .bind (.change_bind hrest) fun more t ht => ?_
  rw [hsrc]
  refine (continueWith_tends env F.id more (ht.ready hmoved.ready)).mono fun _ u hu => ?_
  have htu := ht.trans hu
  refine ⟨htu.logStore_eq, htu.params_eq, hmoved.tended htu rfl rfl h.role rfl, fun q hq hqid => ?_⟩
  obtain ⟨r, hr, hc, hm, -⟩ := htu.peers q hq
  rw [hm]
  refine hmatched r hr ?_
  rw [← hqid, Peer.id, Peer.id, hc]

/-! ## Whole exchanges -/

theorem located (h : Probing n L F) : Probing n (L.located F.id) F :=
  h.tended (tended_located F.id) rfl rfl h.role rfl

/-- The handlers of an exchange, one after the other. -/
theorem exchange_run (h : Probing n L F) (env : Env × Env) {resp : RespMsg} {Q : Server → Prop}
    (hF : (handleAppendEntries env.2 (L.appendReq F.id n) F).res = .ok resp)
    (hL : Achieves (L.located F.id) (handleAppendEntriesResp env.1 resp) fun _ => Q) :
    ∃ L', exchange env (L, F) =
      some (resp, L', (handleAppendEntries env.2 (L.appendReq F.id n) F).state) ∧ Q L' := by
  obtain ⟨u, hres, hQ⟩ := hL
  refine ⟨_, ?_, hQ⟩
  simp only [exchange, h.created, hF, hres]

/-- **A declined exchange** takes the next index down and keeps the log. -/
theorem exchange_declined (h : Probing n L F) (env : Env × Env)
    (hno : F.logStore.hasPrev (L.appendReq F.id n) = false) :
    ∃ resp L' F', exchange env (L, F) = some (resp, L', F') ∧ resp.accepted = false ∧
      L'.logStore = L.logStore ∧ L'.params = L.params ∧ F'.id = F.id ∧
        ∃ n' < n, Probing n' L' F' := by
  have hrun := handleAppendEntries_run env.2 (L.appendReq F.id n) h.startIdx h.role
  rw [if_pos (.inr hno)] at hrun
  obtain ⟨p, j, r, hf, hrole⟩ := followed_rest (s := F)
    (decide ((L.appendReq F.id n).term = F.state.term))
  rw [hf] at hrun
  have hn : 1 < n := by
    have h1 := h.one_le
    by_contra hle
    have h0 : (L.appendReq F.id n).lastLogIdx = 0 := show n - 1 = 0 by omega
    rw [LogStore.hasPrev, h0] at hno
    simp at hno
  have hpos : 0 < F.logStore.nextSlot := by
    rw [LogStore.nextSlot, h.startIdx]
    omega
  obtain ⟨n', hlt, hL⟩ := h.located.declines env.1 (F.appendResp (L.appendReq F.id n)) rfl rfl
    hpos hn
  obtain ⟨L', hex, hlog, hparams, hprobe⟩ := h.exchange_run env (by rw [hrun]) hL
  rw [hrun] at hex
  refine ⟨_, L', _, hex, rfl, hlog, hparams, rfl, n', hlt, ?_⟩
  exact hprobe.tended (.refl L') rfl rfl (hrole h.role) rfl

/-- **An accepted exchange** takes the next index up by what the request holds, and
the logs agree below it. -/
theorem exchange_accepted (h : Probing n L F) (env : Env × Env)
    (hyes : F.logStore.hasPrev (L.appendReq F.id n) = true)
    (hpre : L.logStore.entries.take (n - 1) = F.logStore.entries.take (n - 1)) {k : Nat}
    (hentries : (L.appendReq F.id n).logEntries = (L.logStore.entries.drop (n - 1)).take k)
    (hk : n - 1 + k ≤ L.logStore.entries.length) :
    ∃ resp L' F', exchange env (L, F) = some (resp, L', F') ∧ resp.accepted = true ∧
      resp.nextIdx = n + k ∧ L'.logStore = L.logStore ∧ L'.params = L.params ∧ F'.id = F.id ∧
      Probing (n + k) L' F' ∧ Matches F'.id (n + k) L' ∧
      L.logStore.entries.take (n + k - 1) = F'.logStore.entries.take (n + k - 1) := by
  have h1 := h.one_le
  have hlen : (L.appendReq F.id n).logEntries.length = k := by
    rw [hentries, List.length_take, List.length_drop]
    omega
  have hterm : ¬ ((L.appendReq F.id n).term < F.state.term ∨
      F.logStore.hasPrev (L.appendReq F.id n) = false) := by
    rw [hyes, show (L.appendReq F.id n).term = F.state.term from h.term]
    simp
  have hrun := handleAppendEntries_run env.2 (L.appendReq F.id n) h.startIdx h.role
  rw [if_neg hterm] at hrun
  obtain ⟨p, j, r, hf, hrole⟩ := followed_rest (s := F)
    (decide ((L.appendReq F.id n).term = F.state.term))
  rw [hf] at hrun
  set F₁ : Server := { F with peers := p, srvToJoin := j, role := r } with hF₁
  set F' := F₁.appended (L.appendReq F.id n) with hF'
  -- the log of the follower takes in the batch
  have hlog : F'.logStore.entries = F.logStore.entries.take (n - 1) ++
      Splice.splice LogEntry.term (F.logStore.entries.drop (n - 1))
        ((L.logStore.entries.drop (n - 1)).take k) := by
    have hrep := @replicate_entries F₁ (n - 1) (L.appendReq F.id n).logEntries (by
      rw [show F₁.logStore.startIdx = 1 from h.startIdx]
      omega)
    rw [LogStore.tail, show F₁.logStore.startIdx = 1 from h.startIdx, Nat.add_sub_cancel] at hrep
    rw [← hentries]
    exact hrep
  have hstart : F'.logStore.startIdx = 1 := by
    have hcut : (F₁.replicate (n - 1) (L.appendReq F.id n).logEntries).logStore.startIdx =
        F.logStore.startIdx := by
      simp only [Server.replicate, LogStore.cutAt]
      split <;> rfl
    exact hcut.trans h.startIdx
  have hsplice := h.matching.splice hpre hk
  rw [← hlog] at hsplice
  have hagree : L.logStore.entries.take (n - 1 + k) = F'.logStore.entries.take (n - 1 + k) := by
    rcases hsplice with ⟨hsame, htake⟩ | htake
    · rw [hsame, htake]
    · rw [htake, List.take_take, min_self]
  have hmatch : Matched LogEntry.term L.logStore.entries F'.logStore.entries := by
    rcases hsplice with ⟨hsame, -⟩ | htake
    · rw [hsame]
      exact h.matching
    · rw [htake]
      exact matched_take _ _
  have hslot := h.nextSlot_eq
  have hnext : ((F.appendResp (L.appendReq F.id n)).accept ((L.appendReq F.id n).lastLogIdx +
      (L.appendReq F.id n).logEntries.length + 1)).nextIdx = n + k := by
    rw [hlen]
    exact show n - 1 + k + 1 = n + k by omega
  have hL := h.located.accepts env.1 ((F.appendResp (L.appendReq F.id n)).accept
    ((L.appendReq F.id n).lastLogIdx + (L.appendReq F.id n).logEntries.length + 1)) rfl rfl
    (by omega) (by
      rw [hnext, (tended_located F.id).logStore_eq]
      omega)
  rw [hnext] at hL
  obtain ⟨L', hex, hlogL, hparams, hprobe, hmatched⟩ := h.exchange_run env (by rw [hrun]) hL
  rw [hrun] at hex
  have hto : n + k - 1 = n - 1 + k := by omega
  refine ⟨_, L', F', hex, rfl, hnext, hlogL, hparams, rfl, ?_, hmatched, ?_⟩
  · exact { hprobe with startIdx := hstart, role := hrole h.role, matching := hlogL ▸ hmatch }
  · rw [hto]
    exact hagree

/-- Logs that agree below the next index have the request accepted. -/
theorem hasPrev_of_take (h : Probing n L F)
    (hpre : L.logStore.entries.take (n - 1) = F.logStore.entries.take (n - 1)) :
    F.logStore.hasPrev (L.appendReq F.id n) = true := by
  have hlen := congrArg List.length hpre
  rw [List.length_take, List.length_take] at hlen
  have hle := h.le_nextSlot
  have hslot := h.nextSlot_eq
  have hlt : n - 1 < F.logStore.nextSlot := by
    rw [LogStore.nextSlot, h.startIdx]
    omega
  have hterm : termAtEnd L.logStore.entries (n - 1) = termAtEnd F.logStore.entries (n - 1) := by
    rw [termAtEnd, hpre, termAtEnd]
  simpa [LogStore.hasPrev, Server.appendReq, hlt] using .inr hterm

/-- An accepted request is evidence that the logs agree below it. -/
theorem take_of_hasPrev (h : Probing n L F)
    (hyes : F.logStore.hasPrev (L.appendReq F.id n) = true) :
    L.logStore.entries.take (n - 1) = F.logStore.entries.take (n - 1) := by
  have hle := h.le_nextSlot
  have hslot := h.nextSlot_eq
  cases hi : n - 1 with
  | zero => rw [List.take_zero, List.take_zero]
  | succ i =>
    simp only [LogStore.hasPrev, Server.appendReq, hi, LogStore.nextSlot, h.startIdx,
      decide_eq_true_eq] at hyes
    obtain ⟨hlt, hterm⟩ := hyes.resolve_left (by omega)
    have hl : i < L.logStore.entries.length := by omega
    have hf : i < F.logStore.entries.length := by omega
    have hgl := List.getElem?_eq_getElem hl
    have hgf := List.getElem?_eq_getElem hf
    rw [termAtEnd_succ hgl, termAtEnd_succ hgf] at hterm
    exact h.matching i _ _ hgl hgf hterm

end Probing

/-! ## The exchanges together -/

/-- The follower has the whole log of the leader, and the leader knows. -/
structure CaughtUp (c : Server × Server) : Prop where
  known : ∃ p, c.1.findPeer c.2.id = some p ∧ p.nextLogIdx = c.1.logStore.nextSlot ∧
    p.matchedIdx = c.1.logStore.nextSlot - 1
  entries : ∀ idx e, c.1.logStore.entryAt? idx = some e → c.2.logStore.entryAt? idx = some e

/-- After finitely many exchanges the follower has caught up with the log the leader
had all along, and on the way the next index was never zero. -/
def Converges (envs : Nat → Env × Env) (L F : Server) : Prop :=
  ∃ fuel cs, catchUp envs fuel (L, F) = some cs ∧
    (∀ c ∈ cs, ∃ p, c.1.findPeer F.id = some p ∧ 1 ≤ p.nextLogIdx) ∧
    ∃ c, cs.getLast? = some c ∧ c.1.logStore = L.logStore ∧ c.2.id = F.id ∧ CaughtUp c

/-- There is room for a batch behind the log of the leader. -/
structure Server.Roomy (s : Server) : Prop where
  batch : 1 ≤ s.params.maxAppendSize
  fits : (s.logStore.nextSlot : Int) + s.params.maxAppendSize ≤ ulongSize

namespace Probing
variable {n : Nat} {L F L' F' : Server}

theorem at_pos (h : Probing n L F) : ∃ p, L.findPeer F.id = some p ∧ 1 ≤ p.nextLogIdx := by
  obtain ⟨p, hp, hn⟩ := h.findPeer
  exact ⟨p, hp, hn ▸ h.one_le⟩

/-- An exchange that is not the last one. -/
theorem converges_cons {envs : Nat → Env × Env} {resp : RespMsg} (h : Probing n L' F')
    (hex : exchange (envs 0) (L, F) = some (resp, L', F')) (hlog : L'.logStore = L.logStore)
    (hid : F'.id = F.id) (hgo : ¬ (resp.accepted = true ∧ L'.logStore.nextSlot ≤ resp.nextIdx))
    (hrest : Converges (fun i => envs (i + 1)) L' F') : Converges envs L F := by
  obtain ⟨fuel, cs, hcs, hpos, c, hlast, hlogc, hidc, hc⟩ := hrest
  refine ⟨fuel + 1, (L', F') :: cs, ?_, ?_, c, ?_, hlogc.trans hlog, hidc.trans hid, hc⟩
  · simp [catchUp, hex, hcs, hgo]
  · intro c' hc'
    rcases List.mem_cons.mp hc' with rfl | hc'
    · rw [← hid]
      exact h.at_pos
    · rw [← hid]
      exact hpos c' hc'
  · rw [List.getLast?_cons, hlast]
    rfl

/-- The batch stops at the end of the log, and holds something before it. -/
theorem batch_eq (h : Probing n L F) (hroom : L.Roomy) :
    ∃ k, (L.appendReq F.id n).logEntries = (L.logStore.entries.drop (n - 1)).take k ∧
      n - 1 + k ≤ L.logStore.entries.length ∧ (n < L.logStore.nextSlot → 0 < k) := by
  have h1 := h.one_le
  have hle := h.le_nextSlot
  have hslot := h.nextSlot_eq
  have hb := hroom.batch
  have hf := hroom.fits
  by_cases hn : n < L.logStore.nextSlot
  · have hmod : L.params.maxAppendSize % (ulongSize : Int) = L.params.maxAppendSize :=
      Int.emod_eq_of_lt (by omega) (by omega)
    have hend : endIdx L (n - 1) =
        min L.logStore.nextSlot (n + L.params.maxAppendSize.toNat) := by
      rw [endIdx, ulongOfInt, hmod, Nat.sub_add_cancel h1, Nat.mod_eq_of_lt (by omega)]
    exact ⟨_, h.logEntries_eq, by omega, fun _ => by omega⟩
  · refine ⟨0, ?_, by omega, fun hlt => absurd hlt hn⟩
    rw [h.logEntries_eq, List.drop_eq_nil_of_le (by omega), List.take_nil, List.take_nil]

/-- The exchange after which the leader has nothing more to send. -/
theorem caughtUp (h : Probing n L F) (hn : n = L.logStore.nextSlot) (hm : Matches F.id n L)
    (hpre : L.logStore.entries.take (n - 1) = F.logStore.entries.take (n - 1)) :
    CaughtUp (L, F) := by
  obtain ⟨p, hp, hpn⟩ := h.findPeer
  refine ⟨⟨p, hp, hpn.trans hn, ?_⟩, fun idx e he => ?_⟩
  · rw [hm p (findPeer_mem hp).1 (findPeer_mem hp).2, hn]
  · have hall : L.logStore.entries.take (n - 1) = L.logStore.entries := by
      rw [List.take_of_length_le]
      have := h.nextSlot_eq
      omega
    rw [hall] at hpre
    simp only [LogStore.entryAt?, h.ready.startIdx, h.startIdx] at he ⊢
    split at he
    · cases he
    · rw [if_neg ‹_›]
      rw [hpre, List.getElem?_take] at he
      split at he
      · exact he
      · cases he

/-- Once the logs agree below the next index, it rises to the end. -/
theorem rises (h : Probing n L F) (hroom : L.Roomy)
    (hpre : L.logStore.entries.take (n - 1) = F.logStore.entries.take (n - 1))
    (envs : Nat → Env × Env) : Converges envs L F := by
  -- on what is left of the log
  induction hd : L.logStore.nextSlot - n using Nat.strong_induction_on generalizing n L F envs with
  | _ d ih =>
    obtain ⟨k, hentries, hk, hgrow⟩ := h.batch_eq hroom
    obtain ⟨resp, L', F', hex, hacc, hnext, hlog, hparams, hid, h', hm, hpre'⟩ :=
      h.exchange_accepted (envs 0) (h.hasPrev_of_take hpre) hpre hentries hk
    have hslot := h.nextSlot_eq
    have hle := h'.le_nextSlot
    by_cases hend : L'.logStore.nextSlot ≤ resp.nextIdx
    · have hn : n + k = L'.logStore.nextSlot := by omega
      refine ⟨1, [(L', F')], ?_, ?_, (L', F'), rfl, hlog, hid, h'.caughtUp hn hm (hlog ▸ hpre')⟩
      · simp [catchUp, hex, hacc, hend]
      · intro c hc
        obtain rfl := List.mem_singleton.mp hc
        rw [← hid]
        exact h'.at_pos
    · refine h'.converges_cons hex hlog hid (fun hgo => hend hgo.2) ?_
      have hroom' : L'.Roomy := ⟨hparams ▸ hroom.batch, by rw [hlog, hparams]; exact hroom.fits⟩
      rw [hlog] at hend hle
      refine ih _ ?_ h' hroom' (by rw [hlog]; exact hpre') _ rfl
      have hpos := hgrow (by omega)
      rw [hlog]
      omega

/-- **Catching up**, from any place: down to where the logs agree, and up again. -/
theorem converges (h : Probing n L F) (hroom : L.Roomy) (envs : Nat → Env × Env) :
    Converges envs L F := by
  -- on the place, for as long as exchanges are declined
  induction n using Nat.strong_induction_on generalizing L F envs with
  | _ n ih =>
    cases hyes : F.logStore.hasPrev (L.appendReq F.id n) with
    | true => exact h.rises hroom (h.take_of_hasPrev hyes) envs
    | false =>
      obtain ⟨resp, L', F', hex, hdecl, hlog, hparams, hid, n', hlt, h'⟩ :=
        h.exchange_declined (envs 0) hyes
      refine h'.converges_cons hex hlog hid (fun hgo => ?_) (ih n' hlt h' ?_ _)
      · rw [hdecl] at hgo
        exact Bool.false_ne_true hgo.1
      · exact ⟨hparams ▸ hroom.batch, by rw [hlog, hparams]; exact hroom.fits⟩

end Probing

/-- A leader and a follower of the same term whose logs match, neither of them
compacted.  The leader keeps its peers by id and believes none of them to be beyond
its log, and the follower not before the first index. -/
structure CatchingUp (L F : Server) : Prop where
  leader : L.role = .leader
  follower : F.role ≠ .leader
  term : L.state.term = F.state.term
  leaderStart : L.logStore.startIdx = 1
  followerStart : F.logStore.startIdx = 1
  matching : Matched LogEntry.term L.logStore.entries F.logStore.entries
  indexes : L.logStore.nextSlot < ulongSize
  keyed : L.peerIds.Nodup
  next_le : ∀ p ∈ L.peers, p.nextLogIdx ≤ L.logStore.nextSlot
  next : ∃ p, L.findPeer F.id = some p ∧ 1 ≤ p.nextLogIdx
  batch : 1 ≤ L.params.maxAppendSize

theorem CatchingUp.probing {L F : Server} (h : CatchingUp L F) :
    ∃ p, L.findPeer F.id = some p ∧ Probing p.nextLogIdx L F := by
  obtain ⟨p, hp, h1⟩ := h.next
  obtain ⟨hmem, hid⟩ := findPeer_mem hp
  refine ⟨p, hp, ⟨h.leaderStart, h.next_le⟩, h.followerStart, h.follower, h.term, h.matching,
    findPeer_isSome.mp (Option.isSome_of_eq_some hp), fun q hq hqid => ?_, h1, h.next_le p hmem,
    h.indexes⟩
  have hinj := List.inj_on_of_nodup_map h.keyed
  rw [hinj hq hmem (hqid.trans hid.symm)]

/-- **Log catch-up converges**: while the end of the leader's log is `max_append_size_`
away from where the indexes wrap around, finitely many exchanges bring the follower
to the end of the leader's log, and the next index is never zero. -/
theorem catch_up_converges {L F : Server} (h : CatchingUp L F)
    (hfits : (L.logStore.nextSlot : Int) + L.params.maxAppendSize ≤ ulongSize)
    (envs : Nat → Env × Env) : Converges envs L F := by
  obtain ⟨p, -, hn⟩ := h.probing
  exact hn.converges ⟨h.batch, hfits⟩ envs

/-! ## Close to the end of the indexes -/

/-- An entry of the first term. -/
def firstTermEntry : LogEntry := ⟨1, [], .appLog⟩

/-- A leader whose log has `len` entries, with a follower believed to be at `next`. -/
def longLeader (len next : Nat) : Server where
  id := 1
  role := .leader
  params := { maxAppendSize := 2 }
  state := { term := 1 }
  peers := [{ config := ⟨2, []⟩, currentHbInterval := 75, nextLogIdx := next }]
  logStore := { entries := List.replicate len firstTermEntry }

/-- A follower whose log has `len` entries. -/
def longFollower (len : Nat) : Server where
  id := 2
  state := { term := 1 }
  logStore := { entries := List.replicate len firstTermEntry }

theorem catchingUp_long {len next len' : Nat} (h : 1 ≤ next) (h' : next ≤ len + 1)
    (hlen : len + 1 < ulongSize) : CatchingUp (longLeader len next) (longFollower len') where
  leader := rfl
  follower := show SrvRole.follower ≠ .leader by decide
  term := rfl
  leaderStart := rfl
  followerStart := rfl
  matching := by
    intro i a b ha hb _
    simp only [longLeader, longFollower] at ha hb ⊢
    have hi := (List.getElem?_eq_some_iff.mp ha).1
    have hi' := (List.getElem?_eq_some_iff.mp hb).1
    rw [List.length_replicate] at hi hi'
    rw [List.take_replicate, List.take_replicate, min_eq_left (by omega), min_eq_left (by omega)]
  indexes := by
    simp only [longLeader, LogStore.nextSlot, List.length_replicate]
    omega
  keyed := List.nodup_singleton _
  next_le p hp := by
    obtain rfl := List.mem_singleton.mp hp
    simp only [longLeader, LogStore.nextSlot, List.length_replicate]
    omega
  next := ⟨_, rfl, h⟩
  batch := show (1 : Int) ≤ 2 by decide

theorem catch_up_converges_two : Converges (fun _ => ({}, {})) (longLeader 2 3) (longFollower 0) :=
  catch_up_converges (catchingUp_long (by decide) (by decide) (by decide)) (by decide) _

/-- A leader that makes empty batches goes on for ever. -/
theorem Probing.stuck {n : Nat} {L F : Server} (h : Probing n L F) (hlt : n < L.logStore.nextSlot)
    (hwrap : (n + ulongOfInt L.params.maxAppendSize) % ulongSize ≤ n)
    (hpre : L.logStore.entries.take (n - 1) = F.logStore.entries.take (n - 1)) :
    ∀ (fuel : Nat) (envs : Nat → Env × Env), catchUp envs fuel (L, F) = none := by
  intro fuel
  induction fuel generalizing L F with
  | zero => exact fun _ => rfl
  | succ fuel ih =>
    intro envs
    have h1 := h.one_le
    have hentries : (L.appendReq F.id n).logEntries = (L.logStore.entries.drop (n - 1)).take 0 := by
      have hend : endIdx L (n - 1) - n = 0 := by
        rw [endIdx, Nat.sub_add_cancel h1]
        omega
      rw [h.logEntries_eq, hend]
    have hslot := h.nextSlot_eq
    obtain ⟨resp, L', F', hex, -, hnext, hlog, hparams, -, h', -, hpre'⟩ :=
      h.exchange_accepted (envs 0) (h.hasPrev_of_take hpre) hpre hentries (by omega)
    have hgo : ¬ (resp.accepted = true ∧ L'.logStore.nextSlot ≤ resp.nextIdx) := by
      rw [hlog, hnext]
      omega
    have hrest := ih h' (by rw [hlog]; exact hlt) (by rw [hparams]; exact hwrap)
      (by rw [hlog]; exact hpre') fun i => envs (i + 1)
    simp only [catchUp, hex, Option.bind_eq_bind, Option.bind_some, if_neg hgo]
    rw [hrest]
    rfl

/-- A leader with `2^64 - 2` entries sends its last one never: the sum of the next
index and `max_append_size_` is zero. -/
theorem catch_up_wraps : ¬ ∀ (L F : Server), CatchingUp L F → ∀ envs, Converges envs L F := by
  intro hall
  obtain ⟨N, hN⟩ : ∃ N, N + 2 = ulongSize := ⟨2 ^ 64 - 2, by norm_num [ulongSize]⟩
  have hlt : 2 < ulongSize := by norm_num [ulongSize]
  have hc : CatchingUp (longLeader N N) (longFollower (N - 1)) :=
    catchingUp_long (by omega) (by omega) (by omega)
  obtain ⟨p, hp, hn⟩ := hc.probing
  have hnext : p.nextLogIdx = N := by
    cases hp
    rfl
  rw [hnext] at hn
  have hslot : (longLeader N N).logStore.nextSlot = 1 + N := by
    rw [hn.nextSlot_eq]
    exact congrArg (1 + ·) (List.length_replicate)
  have hbatch : ulongOfInt (longLeader N N).params.maxAppendSize = 2 := show ulongOfInt 2 = 2 by decide
  have hpre : (longLeader N N).logStore.entries.take (N - 1) =
      (longFollower (N - 1)).logStore.entries.take (N - 1) := by
    simp only [longLeader, longFollower, List.take_replicate]
    rw [min_eq_left (by omega), min_self]
  obtain ⟨fuel, cs, hcs, -⟩ := hall _ _ hc fun _ => ({}, {})
  have hnone := hn.stuck (by omega) (by rw [hbatch, hN, Nat.mod_self]; omega) hpre fuel fun _ => ({}, {})
  rw [hnone] at hcs
  cases hcs

end Cornerstone
