import Cornerstone.Paths

/-! # One configuration change at a time

`config_changing_` keeps a leader from taking up a membership change while
another one is not committed.  It is read when a request arrives and set when
the configuration reaches the log, several messages later, by steps that do not
read it again.
-/

namespace Cornerstone
open Handlers Handler Server Splice

/-! ## Configurations of a log -/

/-- The configuration that an entry holds. -/
def LogEntry.Holds (e : LogEntry) (c : ClusterConfig) : Prop :=
  ∃ rest, ClusterConfig.deserialize e.buf = some (c, rest)

/-- One server at most tells two lists of servers apart. -/
def DiffersByOne (xs ys : List SrvConfig) : Prop :=
  ∃ id, xs.filter (·.id ≠ id) = ys.filter (·.id ≠ id)

theorem DiffersByOne.refl (xs : List SrvConfig) : DiffersByOne xs xs := ⟨0, rfl⟩

namespace LogStore
variable {l : LogStore} {i j n : Nat} {e e' : LogEntry}

/-- A configuration entry stands at an index. -/
def ConfAt (l : LogStore) (i : Nat) (e : LogEntry) : Prop :=
  l.entryAt? i = some e ∧ e.valType = .conf

/-- No configuration stands between two indexes. -/
def NoConfIn (l : LogStore) (i j : Nat) : Prop := ∀ k e, i < k → k < j → ¬ l.ConfAt k e

theorem ConfAt.unique (h : l.ConfAt i e) (h' : l.ConfAt i e') : e = e' :=
  Option.some.inj (h.1.symm.trans h'.1)

theorem ConfAt.lt (h : l.ConfAt i e) : i < l.nextSlot := by
  obtain ⟨hat, -⟩ := h
  unfold entryAt? at hat
  split at hat
  · cases hat
  · obtain ⟨hlt, -⟩ := List.getElem?_eq_some_iff.mp hat
    rw [nextSlot]
    omega

/-- What a compaction leaves. -/
theorem confAt_compact (hge : l.startIdx ≤ n) :
    (l.compact n).ConfAt i e ↔ n < i ∧ l.ConfAt i e := by
  have hat : n < i → (l.compact n).entryAt? i = l.entryAt? i := by
    intro hi
    rw [entryAt?_of_mem (show (l.compact n).startIdx ≤ i from hi), entryAt?_of_mem (by omega),
      compact, List.getElem?_drop]
    congr 1
    show n + 1 - l.startIdx + (i - (n + 1)) = i - l.startIdx
    omega
  constructor
  · intro h
    by_cases hi : n < i
    · exact ⟨hi, hat hi ▸ h.1, h.2⟩
    · have hnone : (l.compact n).entryAt? i = none := if_pos (show i < n + 1 by omega)
      rw [ConfAt, hnone] at h
      cases h.1
  · rintro ⟨hi, h⟩
    exact ⟨(hat hi).trans h.1, h.2⟩

end LogStore

/-! ## The law of a handler -/

/-- A server in which the next configuration change finds everything in place:
the flag does not hide a pending configuration, at most one is pending, and the
configuration in force is the newest committed one. -/
structure Ready (s : Server) : Prop where
  level : ∀ cur, s.bg = .committing cur → cur = s.state.commitIdx
  stored : s.state.commitIdx < s.logStore.nextSlot
  known : s.config.logIdx < s.logStore.nextSlot
  flagged : s.configChanging = false → ∀ i e, s.state.commitIdx < i → ¬ s.logStore.ConfAt i e
  one : ∀ i j e e', s.state.commitIdx < i → s.state.commitIdx < j → s.logStore.ConfAt i e →
    s.logStore.ConfAt j e' → i = j
  current : ∀ i e, i ≤ s.state.commitIdx → s.logStore.ConfAt i e →
    s.logStore.NoConfIn i (s.state.commitIdx + 1) →
    ∃ c, e.Holds c ∧ c.servers = s.config.servers
  pending : ∀ i e, s.state.commitIdx < i → s.logStore.ConfAt i e →
    ∃ c, e.Holds c ∧ c.logIdx = i ∧ (s.config.logIdx < i ∨ c.servers = s.config.servers)

/-- Each configuration from index `n` on differs by one server at most from the
one before it. -/
def StepwiseFrom (n : Nat) (l : LogStore) : Prop :=
  ∀ i j e e', n ≤ j → i < j → l.NoConfIn i j → l.ConfAt i e → l.ConfAt j e' →
    ∃ c c', e.Holds c ∧ e'.Holds c' ∧ DiffersByOne c.servers c'.servers

/-- What holds along a leader's run that began when the log ended at `n`. -/
structure Steady (n : Nat) (s : Server) : Prop where
  ready : Ready s
  stepwise : StepwiseFrom n s.logStore

theorem ChangesTo.differs {s : Server} {ev : Event} {servers : List SrvConfig}
    (h : ChangesTo s ev servers) : DiffersByOne s.config.servers servers := by
  cases h with
  | @add via reqType resp srv _ _ _ => exact ⟨srv.id, by simp [List.filter_append]⟩
  | @remove via reqType resp _ => exact ⟨resp.src, by simp [List.filter_filter]⟩
  | drop h hf id => exact ⟨id, by simp [List.filter_filter]⟩

/-- Fields that do not matter here. -/
theorem Steady.same {n : Nat} {s t : Server} (hs : Steady n s) (hl : t.logStore = s.logStore)
    (hc : t.state.commitIdx = s.state.commitIdx) (hcfg : t.config = s.config)
    (hbg : ∀ cur, t.bg = .committing cur → s.bg = .committing cur ∨ cur = s.state.commitIdx)
    (hf : t.configChanging = false → s.configChanging = false) : Steady n t := by
  obtain ⟨⟨hlevel, hstored, hknown, hflag, hone, hcur, hpend⟩, hstep⟩ := hs
  rw [← hl, ← hc] at hstored hflag hone hcur hpend
  rw [← hl] at hknown hstep
  rw [← hcfg] at hknown hcur hpend
  rw [← hc] at hlevel hbg
  refine ⟨⟨fun cur h => ?_, hstored, hknown, fun h => hflag (hf h), hone, hcur,
    hpend⟩, hstep⟩
  rcases hbg cur h with h | h
  · exact hlevel cur h
  · exact h

theorem Steady.of_bookkeeping {n : Nat} {s t : Server} (hs : Steady n s) (hb : Bookkeeping s t) :
    Steady n t := by
  rw [hb.rest]
  exact hs.same rfl rfl rfl (fun _ h => .inl h) id

/-- Entries may go from the front. -/
theorem Steady.compact {n m : Nat} {s t : Server} (hs : Steady n s)
    (hge : s.logStore.startIdx ≤ m)
    (ht : t = { s with logStore := s.logStore.compact m, snpPending := none }) : Steady n t := by
  subst ht
  obtain ⟨⟨hlevel, hstored, hknown, hflag, hone, hcur, hpend⟩, hstep⟩ := hs
  have hiff : ∀ i e', (s.logStore.compact m).ConfAt i e' ↔ m < i ∧ s.logStore.ConfAt i e' :=
    fun i e' => LogStore.confAt_compact hge
  have hslot := LogStore.le_nextSlot_compact hge
  have hno : ∀ i j, m < i → (s.logStore.compact m).NoConfIn i j → s.logStore.NoConfIn i j :=
    fun i j hi h k e' hk hk' h' => h k e' hk hk' ((hiff k e').mpr ⟨by omega, h'⟩)
  refine ⟨⟨hlevel, ?_, ?_, ?_, ?_, ?_, ?_⟩, ?_⟩
  · exact lt_of_lt_of_le hstored hslot
  · exact lt_of_lt_of_le hknown hslot
  · exact fun hf i e' hi h => hflag hf i e' hi ((hiff i e').mp h).2
  · exact fun i j e₁ e₂ hi hj h₁ h₂ =>
      hone i j e₁ e₂ hi hj ((hiff i e₁).mp h₁).2 ((hiff j e₂).mp h₂).2
  · intro i e' hi h hn
    obtain ⟨hmi, h⟩ := (hiff i e').mp h
    exact hcur i e' hi h (hno _ _ hmi hn)
  · exact fun i e' hi h => hpend i e' hi ((hiff i e').mp h).2
  · intro i j e₁ e₂ hj hij hn h₁ h₂
    obtain ⟨hmi, h₁⟩ := (hiff i e₁).mp h₁
    exact hstep i j e₁ e₂ hj hij (hno _ _ hmi hn) h₁ ((hiff j e₂).mp h₂).2

/-- The committing thread passes the entry behind the commit index. -/
theorem Steady.commit {n : Nat} {s t : Server} {cur : Nat} {e : LogEntry} (hs : Steady n s)
    (hbg : s.bg = .committing cur) (hm : hasMore s cur = true)
    (hat : s.logStore.entryAt? (cur + 1) = some e) (hl : t.logStore = s.logStore)
    (hc : t.state = s.state.setCommitIdx (cur + 1)) (hbg' : t.bg = .committing (cur + 1))
    (hf : t.configChanging = false → s.configChanging = false ∨ e.valType = .conf)
    (hcfg : (t.config = s.config ∧ e.valType ≠ .conf) ∨
      t.config.logIdx < s.logStore.nextSlot ∧ e.valType = .conf ∧
        ∃ c, e.Holds c ∧ c.servers = t.config.servers) : Steady n t := by
  obtain ⟨⟨hlevel, hstored, hknown, hflag, hone, hcur, hpend⟩, hstep⟩ := hs
  obtain rfl := hlevel cur hbg
  have hidx : t.state.commitIdx = s.state.commitIdx + 1 := by
    rw [hc, SrvState.setCommitIdx_commitIdx]
    omega
  have hmore : s.state.commitIdx + 1 < s.logStore.nextSlot := by
    simp only [hasMore, Bool.and_eq_true, decide_eq_true_eq] at hm
    omega
  rw [← hl] at hflag hone hcur hpend hat hstep hmore hknown
  refine ⟨⟨?_, ?_, ?_, ?_, ?_, ?_, ?_⟩, hstep⟩
  · intro cur' h
    rw [hbg'] at h
    cases h
    exact hidx.symm
  · omega
  · rcases hcfg with ⟨h, -⟩ | ⟨h, -⟩
    · rw [h]
      exact hknown
    · rw [hl]
      exact h
  · intro hfalse i e' hi h
    rw [hidx] at hi
    rcases hf hfalse with hf' | hconf
    · exact hflag hf' i e' (by omega) h
    · have := hone _ i e e' (Nat.lt_succ_self _) (by omega) ⟨hat, hconf⟩ h
      omega
  · intro i j e₁ e₂ hi hj h₁ h₂
    exact hone i j e₁ e₂ (by omega) (by omega) h₁ h₂
  · intro i e' hi h hno
    rw [hidx] at hi hno
    rcases hcfg with ⟨hsame, hother⟩ | ⟨-, hconf, c, hholds, hservers⟩
    · rw [hsame]
      have hne : i ≠ s.state.commitIdx + 1 := by
        rintro rfl
        obtain rfl : e = e' := Option.some.inj (hat.symm.trans h.1)
        exact hother h.2
      exact hcur i e' (by omega) h fun k e'' hk hk' => hno k e'' hk (by omega)
    · obtain rfl : i = s.state.commitIdx + 1 := by
        by_contra hne
        exact hno _ e (by omega) (Nat.lt_succ_self _) ⟨hat, hconf⟩
      obtain rfl := h.unique ⟨hat, hconf⟩
      exact ⟨c, hholds, hservers⟩
  · intro i e' hi h
    rw [hidx] at hi
    rcases hcfg with ⟨hsame, -⟩ | ⟨-, hconf, -⟩
    · rw [hsame]
      exact hpend i e' (by omega) h
    · have := hone _ i e e' (Nat.lt_succ_self _) (by omega) ⟨hat, hconf⟩ h
      omega

/-- What an entry holds is determined. -/
theorem LogEntry.Holds.unique {e : LogEntry} {c c' : ClusterConfig} (h : e.Holds c)
    (h' : e.Holds c') : c = c' := by
  obtain ⟨rest, h⟩ := h
  obtain ⟨rest', h'⟩ := h'
  cases h.symm.trans h'
  rfl

end Cornerstone
