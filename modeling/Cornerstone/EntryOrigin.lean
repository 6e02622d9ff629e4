import Cornerstone.Paths

/-! # Where log entries come from

A server appends entries of its own at four places.  The vote comparison and the
reconciliation of logs rest on the terms of a log growing with the index, which
holds as long as an entry of a leader carries the leader's term.  None of the
four places checks the role, except for client requests, and the one that does
takes the term from the client.
-/

namespace Cornerstone
open Handlers Handler Server Splice

/-! ## Logs in order -/

/-- A log whose terms never decrease and do not exceed `term`. -/
structure LogStore.InOrder (l : LogStore) (term : Nat) : Prop where
  start_pos : 0 < l.startIdx
  sorted : l.entries.Pairwise fun a b => a.term ≤ b.term
  le_term : ∀ e ∈ l.entries, e.term ≤ term

/-- Entries that may follow an entry of term `prev` in a log of term `term`. -/
structure Fits (prev term : Nat) (es : List LogEntry) : Prop where
  sorted : es.Pairwise fun a b => a.term ≤ b.term
  ge_prev : ∀ e ∈ es, prev ≤ e.term
  le_term : ∀ e ∈ es, e.term ≤ term

namespace LogStore.InOrder
variable {l : LogStore} {t : Nat}

theorem mono {t' : Nat} (h : l.InOrder t) (ht : t ≤ t') : l.InOrder t' :=
  ⟨h.start_pos, h.sorted, fun e he => (h.le_term e he).trans ht⟩

/-- The last of the first `n` entries has the largest term among them. -/
theorem le_termAtEnd (h : l.InOrder t) {n : Nat} {e : LogEntry} (he : e ∈ l.entries.take n) :
    e.term ≤ termAtEnd l.entries n := by
  rw [termAtEnd]
  have hsorted : (l.entries.take n).Pairwise fun a b => a.term ≤ b.term :=
    h.sorted.sublist (List.take_sublist _ _)
  cases hlast : (l.entries.take n).getLast? with
  | none =>
    rw [List.getLast?_eq_none_iff.mp hlast] at he
    cases he
  | some last =>
    obtain ⟨init, hinit⟩ := List.getLast?_eq_some_iff.mp hlast
    rw [hinit] at he hsorted
    rcases List.mem_append.mp he with he | he
    · exact (List.pairwise_append.mp hsorted).2.2 e he last (List.mem_singleton_self _)
    · rw [List.mem_singleton.mp he]
      exact le_refl _

/-- Entries that fit may take the place of the end of the log. -/
theorem replace (h : l.InOrder t) {n : Nat} {es : List LogEntry}
    (hes : Fits (termAtEnd l.entries n) t es) :
    LogStore.InOrder { l with entries := l.entries.take n ++ es } t := by
  refine ⟨h.start_pos, ?_, fun e he => ?_⟩
  · refine List.pairwise_append.mpr ⟨h.sorted.sublist (List.take_sublist _ _), hes.sorted, ?_⟩
    intro a ha b hb
    exact (h.le_termAtEnd ha).trans (hes.ge_prev b hb)
  · rcases List.mem_append.mp he with he | he
    · exact h.le_term e (List.mem_of_mem_take he)
    · exact hes.le_term e he

theorem append (h : l.InOrder t) {e : LogEntry} (he : e.term = t) : (l.append e).InOrder t := by
  refine ⟨h.start_pos, ?_, fun a ha => ?_⟩
  · refine List.pairwise_append.mpr ⟨h.sorted, List.pairwise_singleton _ _, fun a ha b hb => ?_⟩
    rw [List.mem_singleton.mp hb, he]
    exact h.le_term a ha
  · rcases List.mem_append.mp ha with ha | ha
    · exact h.le_term a ha
    · rw [List.mem_singleton.mp ha, he]

theorem compact (h : l.InOrder t) (n : Nat) : (l.compact n).InOrder t :=
  ⟨Nat.succ_pos n, h.sorted.sublist (List.drop_sublist _ _),
    fun e he => h.le_term e (List.mem_of_mem_drop he)⟩

end LogStore.InOrder

theorem Fits.drop {prev term : Nat} {es : List LogEntry} (h : Fits prev term es) (n : Nat) :
    Fits prev term (es.drop n) :=
  ⟨h.sorted.sublist (List.drop_sublist _ _), fun e he => h.ge_prev e (List.mem_of_mem_drop he),
    fun e he => h.le_term e (List.mem_of_mem_drop he)⟩

/-- Behind some of its own entries a list fits as well. -/
theorem Fits.drop_succ {prev term n : Nat} {es : List LogEntry} (h : Fits prev term es)
    {e : LogEntry} (he : es[n]? = some e) : Fits e.term term (es.drop (n + 1)) := by
  refine ⟨(h.drop _).sorted, fun a ha => ?_, (h.drop _).le_term⟩
  have hcons : es.drop n = e :: es.drop (n + 1) := by
    obtain ⟨hn, rfl⟩ := List.getElem?_eq_some_iff.mp he
    exact List.drop_eq_getElem_cons hn
  have hsorted := (h.drop n).sorted
  rw [hcons] at hsorted
  exact (List.pairwise_cons.mp hsorted).1 a ha

/-- **Splicing keeps a log in order**, when the entries fit behind the entry the
request starts from. -/
theorem LogStore.InOrder.replicate {s : Server} {req : ReqMsg} {term : Nat}
    (h : s.logStore.InOrder term) (hge : s.logStore.startIdx ≤ req.lastLogIdx + 1)
    (hok : LogOkay s.logStore req) (hes : Fits req.lastLogTerm term req.logEntries) :
    (s.replicate req.lastLogIdx req.logEntries).logStore.InOrder term := by
  set old := s.logStore.tail req.lastLogIdx with hold
  set k := overlap LogEntry.term old req.logEntries with hk
  have hlog : (s.replicate req.lastLogIdx req.logEntries).logStore =
      s.logStore.cutAt (req.lastLogIdx + 1 + k) (req.logEntries.drop k) := rfl
  rw [hlog, LogStore.cutAt]
  split
  · exact h
  refine h.replace ?_
  rcases Nat.eq_zero_or_pos k with h0 | hpos
  · rw [h0, Nat.add_zero, List.drop_zero]
    cases hn : req.lastLogIdx + 1 - s.logStore.startIdx with
    | zero =>
      rw [termAtEnd_zero]
      exact ⟨hes.sorted, fun e _ => Nat.zero_le _, hes.le_term⟩
    | succ m =>
      -- the entry before the first one of the request is stored, and `log_okay` saw its term
      have hstart := h.start_pos
      obtain ⟨hlt, hterm⟩ := hok.resolve_left (by omega)
      obtain ⟨e, he, het⟩ := Option.map_eq_some_iff.mp (hterm (by omega))
      rw [LogStore.entryAt?_of_mem (by omega)] at he
      rw [termAtEnd_succ (e := e) (by rw [← he]; congr 1; omega), het]
      exact hes
  · -- the entry before the first fresh one has the term of its counterpart in the request
    obtain ⟨j, hj⟩ : ∃ j, k = j + 1 := ⟨k - 1, by omega⟩
    have hlen := hk ▸ overlap_le_right old req.logEntries
    obtain ⟨e, he⟩ : ∃ e, req.logEntries[j]? = some e :=
      ⟨_, List.getElem?_eq_getElem (by omega)⟩
    have hkey : (old[j]?).map LogEntry.term = (req.logEntries[j]?).map LogEntry.term :=
      key_eq_of_lt_overlap (by omega)
    rw [he, Option.map_some] at hkey
    obtain ⟨e', he', hterm⟩ := Option.map_eq_some_iff.mp hkey
    have hget : s.logStore.entries[req.lastLogIdx + 1 - s.logStore.startIdx + j]? = some e' := by
      rw [← he', hold, LogStore.tail, List.getElem?_drop]
    have hn : req.lastLogIdx + 1 + k - s.logStore.startIdx =
        req.lastLogIdx + 1 - s.logStore.startIdx + j + 1 := by omega
    rw [hn, termAtEnd_succ hget, hterm, hj]
    exact hes.drop_succ he

/-! ## The law of a handler -/

/-- An entry of a server's own is appended by a leader and carries its term. -/
def Effect.ownEntryOkay : Effect → Prop
  | .originate role term _ e => role = .leader ∧ e.term = term
  | _ => True

/-- From a log in order a handler goes to a log in order, and the entries it
appends of its own are a leader's. -/
def KeepsOrder (s : Server) (o : List Effect) (t : Server) : Prop :=
  s.logStore.InOrder s.state.term → t.logStore.InOrder t.state.term ∧ ∀ e ∈ o, e.ownEntryOkay

theorem keepsOrder_law : Law KeepsOrder where
  refl s h := ⟨h, by simp⟩
  trans := by
    intro s t u o o' h h' hs
    obtain ⟨ht, ho⟩ := h hs
    obtain ⟨hu, ho'⟩ := h' ht
    refine ⟨hu, fun e he => ?_⟩
    rcases List.mem_append.mp he with he | he
    · exact ho e he
    · exact ho' e he

theorem ownEntryOkay_of_plain {e : Effect} {m : SrvState} (h : e.plain m) : e.ownEntryOkay := by
  cases e with
  | originate => cases h
  | _ => trivial

/-- The condition under which an event leaves the terms of the log in order: a
leader's client sends entries of the leader's term, a configuration reaches the
log only while the server leads, the entries of other servers fit behind the log
they are sent for, no invitation goes back behind the log, and no timeout comes
at the largest term. -/
def OriginSafely (s : Server) : Event → Prop
  | .request req =>
    (req.type = .clientRequest → s.role = .leader → ∀ e ∈ req.logEntries, e.term = s.state.term) ∧
    (req.type = .appendEntriesRequest → s.state.term ≤ req.term →
      Fits req.lastLogTerm req.term req.logEntries) ∧
    (req.type = .syncLogRequest → s.catchingUp = true → ∀ e, req.logEntries = [e] →
      ∀ es, LogStore.unpack e.buf = some es →
        Fits (termAtEnd s.logStore.entries (req.lastLogIdx + 1 - s.logStore.startIdx))
          s.state.term es) ∧
    (req.type = .joinClusterRequest → s.catchingUp = false →
      ∀ e ∈ s.logStore.entries, e.term ≤ req.term)
  | .electionTimeout => s.role ≠ .leader → s.state.term + 1 < ulongSize
  | ev => ∀ servers, ChangesTo s ev servers → s.role = .leader

/-- Every segment of a safe event keeps the log in order. -/
theorem Segment.keepsOrder {s₀ s t : Server} {ev : Event} {o : List Effect}
    (hsafe : OriginSafely s₀ ev) (h : Segment s₀ ev s o t) : KeepsOrder s o t := by
  intro hs
  cases h with
  | book hb ho =>
    refine ⟨?_, fun e he => ownEntryOkay_of_plain (ho e he)⟩
    rw [hb.rest]
    exact hs
  | newTerm hlt => exact ⟨hs.mono hlt.le, by simp [Effect.ownEntryOkay]⟩
  | campaign he hr =>
    subst he
    have hterm : s₀.state.incTerm.term = s₀.state.term + 1 := Nat.mod_eq_of_lt (hsafe hr)
    have hs' : s₀.logStore.InOrder s₀.state.incTerm.term := hs.mono (by omega)
    exact ⟨hs', by simp [Server.campaignEffects, Effect.ownEntryOkay]⟩
  | leadConfig hm hr hz hc hl hf hst =>
    exact ⟨hs.append rfl, by simp [Effect.ownEntryOkay, Server.firstConfigEntry]⟩
  | @changeConfig _ servers hb hc =>
    have hrole : s.role = .leader := by
      rw [hb.rest]
      cases hc with
      | add h hj ht => exact hsafe _ (.add h hj ht)
      | remove h => exact hsafe _ (.remove h)
      | drop h hf id => exact hsafe _ (.drop h hf id)
    exact ⟨hs.append rfl, by simp [Effect.ownEntryOkay, Server.nextConfig, hrole]⟩
  | client he ht hr hst hr₀ hf hm =>
    subst he
    have hterm := hsafe.1 ht hr₀ _ hm
    rw [← hst] at hterm
    exact ⟨hs.append hterm, by simp [Effect.ownEntryOkay, hr, hterm]⟩
  | replicate he ht hterm hle hl hf hst hge hok ho =>
    subst he
    have hfits := hsafe.2.1 ht (hterm ▸ hle)
    rw [hterm] at hfits
    exact ⟨hs.replicate hge hok hfits, fun e he => ownEntryOkay_of_plain (ho e he)⟩
  | applyPack he ht hm hc hl =>
    subst he
    rw [LogStore.applyPack] at hl
    obtain ⟨es, hes, hl⟩ := Option.bind_eq_some_iff.mp hl
    split at hl
    · cases hl
    · cases hl
      exact ⟨hs.replace (hsafe.2.2.1 ht hc _ hm es hes), by simp⟩
  | join he ht hm hv hc =>
    subst he
    exact ⟨⟨hs.start_pos, hs.sorted, hsafe.2.2.2 ht hc⟩, by simp [Effect.ownEntryOkay]⟩
  | install he ht hm hl hf hst hn hge hb ho =>
    refine ⟨?_, fun e he => ?_⟩
    · rw [hb.rest]
      show LogStore.InOrder (s.logStore.compact _) (s.state.setCommitIdx _).term
      rw [SrvState.setCommitIdx_term]
      exact hs.compact _
    · rcases List.mem_append.mp he with he | he
      · exact ownEntryOkay_of_plain (ho e he)
      · rw [List.mem_singleton.mp he]
        trivial
  | quit hl hb hx ho =>
    refine ⟨?_, fun e he => ownEntryOkay_of_plain (ho e he)⟩
    rw [hb.rest]
    rcases hl with rfl | ⟨n, -, rfl⟩
    · exact hs
    · exact hs.compact n
  | commitEntry he hbg hm hat hc =>
    refine ⟨?_, fun e he => ?_⟩
    · show s₀.logStore.InOrder (s₀.state.setCommitIdx _).term
      rw [SrvState.setCommitIdx_term]
      exact hs
    split at he
    · rw [List.mem_singleton.mp he]
      trivial
    · cases he
  | commitConfig he hbg hm hat hc hd hcfg hb ho =>
    refine ⟨?_, fun e he => ownEntryOkay_of_plain (ho e he)⟩
    rw [hb.rest]
    show s₀.logStore.InOrder (s₀.state.setCommitIdx _).term
    rw [SrvState.setCommitIdx_term]
    exact hs
  | compact hl =>
    refine ⟨?_, by simp⟩
    rcases hl with rfl | ⟨snp, -, -, rfl⟩
    · exact hs
    · exact hs.compact _
  | _ => exact ⟨hs, by simp [Effect.ownEntryOkay]⟩

/-- **Every handler keeps the log in order on a safe event.** -/
theorem handle_keepsOrder (env : Env) {s : Server} {ev : Event} (h : OriginSafely s ev) :
    KeepsOrder s (handle env ev s).out (handle env ev s).state :=
  (handle_path env ev s).lift keepsOrder_law fun _ _ _ hseg => hseg.keepsOrder h

/-- A safe step keeps the log in order. -/
theorem next_keepsOrder (env : Env) {s : Server} {ev : Event} (h : OriginSafely s ev) :
    KeepsOrder s (s.effects env ev) (s.next env ev) := by
  intro hs
  rcases Server.effects_cases env ev s with ⟨hx, ho⟩ | ⟨hx, ho⟩
  · rw [ho, Server.next, if_pos hx]
    exact ⟨hs, by simp⟩
  · obtain ⟨x, hnext⟩ := Server.next_of_live env ev hx
    rw [ho, hnext]
    exact handle_keepsOrder env h hs

/-! ## Runs of one server -/

/-- The origin of the entries along a run, and the order of the log it leaves. -/
structure OriginsOkay (s : Server) (run : List (Env × Event)) : Prop where
  own : ∀ e ∈ s.trace run, e.ownEntryOkay
  order : (s.runFrom run).logStore.InOrder (s.runFrom run).state.term

theorem run_keepsOrder {run : List (Env × Event)} {s : Server}
    (h : s.Along (fun s _ ev => OriginSafely s ev) run) :
    KeepsOrder s (s.trace run) (s.runFrom run) := by
  induction run generalizing s with
  | nil => exact keepsOrder_law.refl s
  | cons step run ih => exact keepsOrder_law.trans (next_keepsOrder step.1 h.1) (ih h.2)

/-- **In every run whose steps are safe, started on a log in order, what a server
appends of its own is a leader's and carries the current term, and the log stays
in order.** -/
theorem origins_okay_of_safe (id : Int) (params : RaftParams) (state : Option SrvState)
    (logStore : LogStore) (config : ClusterConfig)
    (horder : logStore.InOrder (state.getD {}).term) (run : List (Env × Event))
    (hsafe : (start id params state logStore config).Along (fun s _ ev => OriginSafely s ev) run) :
    OriginsOkay (start id params state logStore config) run :=
  have h := run_keepsOrder hsafe horder
  ⟨h.2, h.1⟩

/-- Server 1, alone in its cluster, as it is first started. -/
def loneServer : Server := start 1 {} none {} { servers := [⟨1, [49]⟩] }

/-- A client request with one entry that says `term`. -/
def clientSays (term : Nat) : Env × Event :=
  ({}, .request {
    term := 0, type := .clientRequest, src := 0, dst := 1
    lastLogTerm := 0, lastLogIdx := 0, commitIdx := 0
    logEntries := [⟨term, [7], .appLog⟩] })

/-- A lone server takes office and serves a client that knows its term. -/
theorem origins_okay_of_safe_lone :
    OriginsOkay loneServer [({}, .electionTimeout), clientSays 1] := by
  refine origins_okay_of_safe 1 {} none {} _ ⟨by decide, .nil, by simp⟩ _ ⟨?_, ?_, trivial⟩
  · exact fun _ => by decide
  · refine ⟨fun _ _ => by decide, ?_, ?_, ?_⟩ <;> intro h <;> cases h

/-- **A client's entries keep the term they come with**, and
`raft_server::append_entries` sends them with term 0. -/
theorem origins_okay_fails : ¬ OriginsOkay loneServer [({}, .electionTimeout), clientSays 0] := by
  intro h
  have hmem : Effect.originate .leader 1 2 ⟨0, [7], .appLog⟩ ∈
      loneServer.trace [({}, .electionTimeout), clientSays 0] := by decide +kernel
  exact absurd (h.own _ hmem).2 (by decide)

end Cornerstone
