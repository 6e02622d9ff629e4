import Cornerstone.Consensus

/-! # What a quorum has taken in stays

When leaders are elected by quorums, and a quorum has taken in the log of a
leader up to an entry of its own term, every later leader has that part of the
log: some member of the quorum has voted for it, and members vote only for logs
that are as up to date as their own.  The statement that carries the induction
is about parts of a log that a quorum has taken in or still may.
-/

namespace Consensus

variable {ι α : Type} {members : List ι} {epoch : α → Nat} {Fair : Prop} {s s' : State ι α}

/-! ## What never goes back -/

/-- What `s'` keeps of `s`. -/
structure Extends (s s' : State ι α) : Prop where
  term : ∀ q, s.term q ≤ s'.term q
  voted : ∀ q t c, s.voted q t c → s'.voted q t c
  bid : ∀ c t l, s.bid c t l → s'.bid c t l
  leader : ∀ t c, s.leader t = some c → s'.leader t = some c
  record : ∀ t, s.record t <+: s'.record t
  acked : ∀ q t, s.acked q t ≤ s'.acked q t

theorem Extends.refl (s : State ι α) : Extends s s :=
  ⟨fun _ => le_refl _, fun _ _ _ => id, fun _ _ _ => id, fun _ _ => id,
    fun _ => List.prefix_refl _, fun _ _ => le_refl _⟩

theorem Extends.trans {s'' : State ι α} (h : Extends s s') (h' : Extends s' s'') :
    Extends s s'' :=
  ⟨fun q => (h.term q).trans (h'.term q), fun q t c hv => h'.voted q t c (h.voted q t c hv),
    fun c t l hb => h'.bid c t l (h.bid c t l hb), fun t c hl => h'.leader t c (h.leader t c hl),
    fun t => (h.record t).trans (h'.record t), fun q t => (h.acked q t).trans (h'.acked q t)⟩

variable [DecidableEq ι]

theorem Step.extends (hm : Matching epoch s) (hs : Step members epoch Fair s s') : Extends s s' := by
  have hrefl := Extends.refl s
  have hterm : ∀ {q : ι} {t : Nat}, s.term q < t → ∀ p, s.term p ≤ Function.update s.term q t p := by
    intro q t ht p
    by_cases hp : p = q
    · rw [hp, Function.update_self]
      exact ht.le
    · rw [Function.update_of_ne hp]
  cases hs with
  | raise ht => exact { hrefl with term := hterm ht }
  | stand ht => exact { hrefl with
      term := hterm ht, voted := fun _ _ _ => .inl, bid := fun _ _ _ => .inl }
  | grant hb hv hup => exact { hrefl with voted := fun _ _ _ => .inl }
  | @elect c hl hb hq =>
    refine { hrefl with leader := fun t d hd => ?_, record := fun t => ?_ }
    · have htc : t ≠ s.term c := by
        rintro rfl
        rw [hl] at hd
        cases hd
      simpa only [Function.update_of_ne htc] using hd
    · by_cases htc : t = s.term c
      · rw [htc, hm.vacant _ hl]
        exact List.nil_prefix
      · simp only [Function.update_of_ne htc]
        exact List.prefix_refl _
  | @append c e hl he =>
    refine { hrefl with record := fun t => ?_ }
    by_cases htc : t = s.term c
    · simp only [htc, Function.update_self, hm.office c hl]
      exact List.prefix_append _ _
    · simp only [Function.update_of_ne htc]
      exact List.prefix_refl _
  | @accept q c m l hl hq hle ht =>
    refine { hrefl with acked := fun p t => ?_ }
    by_cases hp : p = q
    · by_cases htq : t = s.term q
      · simp only [hp, htq, Function.update_self]
        exact le_max_left _ _
      · simp only [hp, Function.update_self, Function.update_of_ne htq]
        exact le_refl _
    · simp only [Function.update_of_ne hp]
      exact le_refl _

/-! ## What has been taken in -/

omit [DecidableEq ι] in
/-- What both logs have, the new one has. -/
theorem Takes.keeps {told old new x : List α} {m : Nat} (h : Takes (told.take m) old new)
    (hold : x <+: old) (htold : x <+: told) : x <+: new := by
  rcases h with ⟨-, rfl⟩ | ⟨hnot, rfl⟩
  · exact hold
  · rcases Nat.le_total x.length m with hle | hge
    · exact List.prefix_take_iff.mpr ⟨htold, hle⟩
    · have hx : told.take m <+: x := by
        refine List.prefix_of_prefix_length_le (List.take_prefix _ _) htold ?_
        rw [List.length_take]
        omega
      exact absurd (hx.trans hold) hnot

/-- What holds of what members have taken in. -/
structure Acking (s : State ι α) : Prop where
  le : ∀ q t, s.acked q t ≤ (s.record t).length
  led : ∀ q t, 0 < s.acked q t → t ≤ s.term q ∧ ∃ c, s.leader t = some c ∧ c ≠ q
  kept : ∀ q, (s.record (s.term q)).take (s.acked q (s.term q)) <+: s.log q

namespace Acking

theorem raise (h : Acking s) {q : ι} {t : Nat} (ht : s.term q < t)
    (hterm : s'.term = Function.update s.term q t) (hlog : s'.log = s.log)
    (hleader : s'.leader = s.leader) (hrecord : s'.record = s.record)
    (hacked : s'.acked = s.acked) : Acking s' := by
  refine ⟨?_, fun p u hpos => ?_, fun p => ?_⟩
  · rw [hacked, hrecord]
    exact h.le
  · rw [hacked] at hpos
    obtain ⟨hle, hc⟩ := h.led p u hpos
    rw [hleader, hterm]
    refine ⟨?_, hc⟩
    by_cases hp : p = q
    · rw [hp, Function.update_self]
      rw [hp] at hle
      omega
    · rw [Function.update_of_ne hp]
      exact hle
  · rw [hterm, hrecord, hlog, hacked]
    by_cases hp : p = q
    · rw [hp, Function.update_self]
      have hzero : s.acked q t = 0 := by
        by_contra hne
        have := (h.led q t (Nat.pos_of_ne_zero hne)).1
        omega
      rw [hzero, List.take_zero]
      exact List.nil_prefix
    · rw [Function.update_of_ne hp]
      exact h.kept p

theorem step (h : Acking s) (hm : Matching epoch s) (hs : Step members epoch Fair s s') :
    Acking s' := by
  have hext := hs.extends hm
  cases hs with
  | raise ht => exact h.raise ht rfl rfl rfl rfl rfl
  | stand ht => exact h.raise ht rfl rfl rfl rfl rfl
  | grant hb hv hup => exact ⟨h.le, h.led, h.kept⟩
  | @elect c hl hb hq =>
    refine ⟨fun q t => (h.le q t).trans (hext.record t).length_le, fun q t hpos => ?_, fun q => ?_⟩
    · obtain ⟨hle, d, hd, hdq⟩ := h.led q t hpos
      exact ⟨hle, d, hext.leader t d hd, hdq⟩
    · by_cases hqc : s.term q = s.term c
      · have hzero : s.acked q (s.term c) = 0 := by
          have := h.le q (s.term c)
          rw [hm.vacant _ hl, List.length_nil] at this
          omega
        simp only [hqc, hzero, List.take_zero]
        exact List.nil_prefix
      · simp only [Function.update_of_ne hqc]
        exact h.kept q
  | @append c e hl he =>
    refine ⟨fun q t => (h.le q t).trans (hext.record t).length_le, h.led, fun q => ?_⟩
    by_cases hqc : q = c
    · have hzero : s.acked c (s.term c) = 0 := by
        by_contra hne
        obtain ⟨-, d, hd, hdc⟩ := h.led c _ (Nat.pos_of_ne_zero hne)
        rw [hl, Option.some.injEq] at hd
        exact hdc hd.symm
      simp only [hqc, hzero, List.take_zero]
      exact List.nil_prefix
    · simp only [Function.update_of_ne hqc]
      by_cases hterm : s.term q = s.term c
      · have hle := h.le q (s.term c)
        have hkept := h.kept q
        rw [hterm, hm.office c hl] at hkept
        rw [hm.office c hl] at hle
        simp only [hterm, Function.update_self]
        rwa [List.take_append_of_le_length hle]
      · simp only [Function.update_of_ne hterm]
        exact h.kept q
  | @accept q c m l hl hq hle ht =>
    refine ⟨fun p t => ?_, fun p t hpos => ?_, fun p => ?_⟩
    · by_cases hp : p = q
      · by_cases htq : t = s.term q
        · simp only [hp, htq, Function.update_self]
          exact max_le (h.le q _) hle
        · simp only [hp, Function.update_self, Function.update_of_ne htq]
          exact h.le q t
      · simp only [Function.update_of_ne hp]
        exact h.le p t
    · by_cases hp : p = q
      · by_cases htq : t = s.term q
        · rw [hp, htq]
          exact ⟨le_refl _, c, hl, hq.symm⟩
        · simp only [hp, Function.update_self, Function.update_of_ne htq] at hpos ⊢
          exact h.led q t hpos
      · simp only [Function.update_of_ne hp] at hpos
        exact h.led p t hpos
    · by_cases hp : p = q
      · simp only [hp, Function.update_self]
        rcases Nat.le_total (s.acked q (s.term q)) m with hmax | hmax
        · rw [max_eq_right hmax]
          rcases ht with ⟨hpre, rfl⟩ | ⟨-, rfl⟩
          · exact hpre
          · exact List.prefix_refl _
        · rw [max_eq_left hmax]
          exact ht.keeps (h.kept q) (List.take_prefix _ _)
      · simp only [Function.update_of_ne hp]
        exact h.kept p

end Acking

/-! ## Votes -/

/-- What holds of votes and of the logs they are asked for with. -/
structure Voting (epoch : α → Nat) (s : State ι α) : Prop where
  le : ∀ q t c, s.voted q t c → t ≤ s.term q
  unique : ∀ q t c c', s.voted q t c → s.voted q t c' → c = c'
  bid_le : ∀ c t l, s.bid c t l → t ≤ s.term c
  bid_unique : ∀ c t l l', s.bid c t l → s.bid c t l' → l = l'
  bid_log : ∀ c l, s.bid c (s.term c) l → s.leader (s.term c) = none → s.log c = l
  bid_rooted : ∀ c t l, s.bid c t l → Rooted epoch s.record l
  voted_bid : ∀ q t c, s.voted q t c → ∃ l, s.bid c t l

namespace Voting

theorem step (h : Voting epoch s) (hm : Matching epoch s) (hs : Step members epoch Fair s s') :
    Voting epoch s' := by
  have hext := hs.extends hm
  have hrooted : ∀ c t l, s.bid c t l → Rooted epoch s'.record l := fun c t l hb =>
    (h.bid_rooted c t l hb).mono fun u _ => hext.record u
  cases hs with
  | @raise q t ht =>
    refine ⟨fun p u c hv => (h.le p u c hv).trans (hext.term p), h.unique,
      fun c u l hb => (h.bid_le c u l hb).trans (hext.term c), h.bid_unique, fun c l hb hl => ?_,
      hrooted, h.voted_bid⟩
    by_cases hc : c = q
    · simp only [hc, Function.update_self] at hb
      have := h.bid_le q t l hb
      omega
    · simp only [Function.update_of_ne hc] at hb hl
      exact h.bid_log c l hb hl
  | @stand q t ht =>
    have hnew : ∀ l, ¬ s.bid q t l := fun l hb => by
      have := h.bid_le q t l hb
      omega
    refine ⟨?_, ?_, ?_, ?_, ?_, ?_, ?_⟩
    · rintro p u c (hv | ⟨rfl, rfl, rfl⟩)
      · exact (h.le p u c hv).trans (hext.term p)
      · simp only [Function.update_self]
        exact le_refl _
    · rintro p u c c' (hv | ⟨rfl, rfl, rfl⟩) (hv' | ⟨hp, hu, rfl⟩)
      · exact h.unique p u c c' hv hv'
      · have := h.le p u c hv
        rw [hp, hu] at this
        omega
      · have := h.le _ _ c' hv'
        omega
      · rfl
    · rintro c u l (hb | ⟨rfl, rfl, rfl⟩)
      · exact (h.bid_le c u l hb).trans (hext.term c)
      · simp only [Function.update_self]
        exact le_refl _
    · rintro c u l l' (hb | ⟨rfl, rfl, rfl⟩) (hb' | ⟨hc, hu, rfl⟩)
      · exact h.bid_unique c u l l' hb hb'
      · rw [hc, hu] at hb
        exact absurd hb (hnew l)
      · exact absurd hb' (hnew l')
      · rfl
    · intro c l hb hl
      by_cases hc : c = q
      · simp only [hc, Function.update_self] at hb ⊢
        rcases hb with hb | ⟨-, -, rfl⟩
        · exact absurd hb (hnew l)
        · rfl
      · simp only [Function.update_of_ne hc] at hb hl
        rcases hb with hb | ⟨hcq, -, -⟩
        · exact h.bid_log c l hb hl
        · exact absurd hcq hc
    · rintro c u l (hb | ⟨rfl, rfl, rfl⟩)
      · exact hrooted c u l hb
      · exact hm.log c
    · rintro p u c (hv | ⟨rfl, rfl, rfl⟩)
      · obtain ⟨l, hb⟩ := h.voted_bid p u c hv
        exact ⟨l, .inl hb⟩
      · exact ⟨_, .inr ⟨rfl, rfl, rfl⟩⟩
  | @grant q c l hb hv hup =>
    refine ⟨?_, ?_, h.bid_le, h.bid_unique, h.bid_log, h.bid_rooted, ?_⟩
    · rintro p u d (hv' | ⟨rfl, rfl, rfl⟩)
      · exact h.le p u d hv'
      · exact le_refl _
    · rintro p u d d' (hd | ⟨rfl, rfl, rfl⟩) (hd' | ⟨hp, hu, rfl⟩)
      · exact h.unique p u d d' hd hd'
      · rw [hp, hu] at hd
        exact hv d hd
      · exact (hv d' hd').symm
      · rfl
    · rintro p u d (hv' | ⟨rfl, rfl, rfl⟩)
      · exact h.voted_bid p u d hv'
      · exact ⟨l, hb⟩
  | @elect c hl hb hq =>
    refine ⟨h.le, h.unique, h.bid_le, h.bid_unique, fun d l' hb' hl' => ?_, hrooted, h.voted_bid⟩
    by_cases hd : s.term d = s.term c
    · simp only [hd, Function.update_self] at hl'
      cases hl'
    · simp only [Function.update_of_ne hd] at hl'
      exact h.bid_log d l' hb' hl'
  | @append c e hl he =>
    refine ⟨h.le, h.unique, h.bid_le, h.bid_unique, fun d l' hb' hl' => ?_, hrooted, h.voted_bid⟩
    have hd : d ≠ c := by
      rintro rfl
      rw [hl] at hl'
      cases hl'
    simp only [Function.update_of_ne hd]
    exact h.bid_log d l' hb' hl'
  | @accept q c m l hl hq hle ht =>
    refine ⟨h.le, h.unique, h.bid_le, h.bid_unique, fun d l' hb' hl' => ?_, hrooted, h.voted_bid⟩
    have hd : d ≠ q := by
      rintro rfl
      rw [hl] at hl'
      cases hl'
    simp only [Function.update_of_ne hd]
    exact h.bid_log d l' hb' hl'

end Voting

/-! ## Completeness -/

/-- Member `q` has the log of the leader of term `t` up to `k`: it has taken it
in, or it is the leader. -/
def Holds (s : State ι α) (q : ι) (t k : Nat) : Prop :=
  k ≤ s.acked q t ∨ s.leader t = some q ∧ k ≤ (s.record t).length

/-- A quorum has the log of the leader of term `t` up to `k`. -/
def Chosen (members : List ι) (s : State ι α) (t k : Nat) : Prop :=
  Quorum members fun q => Holds s q t k

/-- A quorum has it, or still may have it one day. -/
def Open (members : List ι) (s : State ι α) (t k : Nat) : Prop :=
  Quorum members fun q => s.term q ≤ t ∨ Holds s q t k

/-- The entry at `k` in the log of the leader of term `t` is from that term. -/
def Own (epoch : α → Nat) (s : State ι α) (t k : Nat) : Prop :=
  ∃ a, (s.record t)[k]? = some a ∧ epoch a = t

omit [DecidableEq ι] in
theorem Own.lt {t k : Nat} (h : Own epoch s t k) : k < (s.record t).length := by
  obtain ⟨a, ha, -⟩ := h
  exact (List.getElem?_eq_some_iff.mp ha).1

omit [DecidableEq ι] in
theorem Holds.mono {q : ι} {t k : Nat} (h : Holds s q t k) (hext : Extends s s') :
    Holds s' q t k := by
  rcases h with h | ⟨hl, hk⟩
  · exact .inl (h.trans (hext.acked q t))
  · exact .inr ⟨hext.leader t q hl, hk.trans (hext.record t).length_le⟩

omit [DecidableEq ι] in
theorem Chosen.mono {t k : Nat} (h : Chosen members s t k) (hext : Extends s s') :
    Chosen members s' t k :=
  Quorum.mono h fun _ hq => hq.mono hext

omit [DecidableEq ι] in
theorem Chosen.open {t k : Nat} (h : Chosen members s t k) : Open members s t k :=
  Quorum.mono h fun _ => .inr

omit [DecidableEq ι] in
theorem Own.mono {t k : Nat} (h : Own epoch s t k) (hext : Extends s s') : Own epoch s' t k := by
  obtain ⟨a, ha, he⟩ := h
  have hlt := (List.getElem?_eq_some_iff.mp ha).1
  obtain ⟨rest, hrest⟩ := hext.record t
  exact ⟨a, by rw [← hrest, List.getElem?_append_left hlt, ha], he⟩

omit [DecidableEq ι] in
/-- What is there of a record stays. -/
theorem Extends.take_record (hext : Extends s s') {t n : Nat} (hn : n ≤ (s.record t).length) :
    (s'.record t).take n = (s.record t).take n := by
  obtain ⟨rest, hrest⟩ := hext.record t
  rw [← hrest, List.take_append_of_le_length hn]

/-- A member that has something new of a term's log is in that term. -/
theorem Step.holds (hs : Step members epoch Fair s s') {q : ι} {t k : Nat} (h : Holds s' q t k) :
    s.term q = t ∨ Holds s q t k := by
  cases hs with
  | raise ht => exact .inr h
  | stand ht => exact .inr h
  | grant hb hv hup => exact .inr h
  | @elect c hl hb hq =>
    rcases h with h | ⟨h, hk⟩
    · exact .inr (.inl h)
    · by_cases htc : t = s.term c
      · simp only [htc, Function.update_self, Option.some.injEq] at h
        rw [htc, h]
        exact .inl rfl
      · simp only [Function.update_of_ne htc] at h hk
        exact .inr (.inr ⟨h, hk⟩)
  | @append c e hl he =>
    rcases h with h | ⟨h, hk⟩
    · exact .inr (.inl h)
    · by_cases htc : t = s.term c
      · rw [htc, hl, Option.some.injEq] at h
        rw [htc, h]
        exact .inl rfl
      · simp only [Function.update_of_ne htc] at hk
        exact .inr (.inr ⟨h, hk⟩)
  | @accept p c m l hl hq hle ht =>
    rcases h with h | h
    · by_cases hp : q = p
      · by_cases htp : t = s.term p
        · rw [hp, htp]
          exact .inl rfl
        · simp only [hp, Function.update_self, Function.update_of_ne htp] at h
          rw [hp]
          exact .inr (.inl h)
      · simp only [Function.update_of_ne hp] at h
        exact .inr (.inl h)
    · exact .inr (.inr h)

theorem Step.open (hm : Matching epoch s) (hs : Step members epoch Fair s s') {t k : Nat}
    (h : Open members s' t k) : Open members s t k := by
  refine Quorum.mono h fun q hq => ?_
  rcases hq with hle | hq
  · exact .inl (((hs.extends hm).term q).trans hle)
  · rcases hs.holds hq with heq | hq
    · exact .inl heq.le
    · exact .inr hq

/-- The entries of its own term in a record were there before, or its leader, in
office, has just appended the last one. -/
theorem Step.own (hm : Matching epoch s) (ha : Acking s) (hs : Step members epoch Fair s s')
    {t k : Nat} (h : Own epoch s' t k) :
    Own epoch s t k ∨
      ∃ c, s'.term c = t ∧ s'.log c = s'.record t ∧ ∀ q, Holds s' q t (k + 1) → q = c := by
  have hext := hs.extends hm
  have hback : k < (s.record t).length → Own epoch s t k := by
    intro hlt
    obtain ⟨a, hat, he⟩ := h
    obtain ⟨rest, hrest⟩ := hext.record t
    rw [← hrest, List.getElem?_append_left hlt] at hat
    exact ⟨a, hat, he⟩
  cases hs with
  | raise ht => exact .inl h
  | stand ht => exact .inl h
  | grant hb hv hup => exact .inl h
  | accept hl hq hle ht => exact .inl h
  | @elect c hl hb hq =>
    by_cases htc : t = s.term c
    · -- no entry is from a term that had no leader
      obtain ⟨a, hat, he⟩ := h
      simp only [htc, Function.update_self] at hat he
      have hp := hm.log c k a hat
      rw [he, hm.vacant _ hl, List.prefix_nil] at hp
      have hlt := (List.getElem?_eq_some_iff.mp hat).1
      have hlen := congrArg List.length hp
      rw [List.length_take, List.length_nil] at hlen
      omega
    · obtain ⟨a, hat, he⟩ := h
      simp only [Function.update_of_ne htc] at hat
      exact .inl ⟨a, hat, he⟩
  | @append c e hl he =>
    by_cases hlt : k < (s.record t).length
    · exact .inl (hback hlt)
    · have htc : t = s.term c := by
        by_contra hne
        have hk := h.lt
        simp only [Function.update_of_ne hne] at hk
        exact hlt hk
      refine .inr ⟨c, htc.symm, ?_, fun q hq => ?_⟩
      · simp only [htc, Function.update_self]
      · rcases hq with hq | ⟨hq, -⟩
        · have hle := ha.le q t
          simp only at hq
          omega
        · rw [htc, hl, Option.some.injEq] at hq
          exact hq.symm

/-- What holds when leaders are elected by quorums. -/
structure Complete (members : List ι) (epoch : α → Nat) (s : State ι α) : Prop where
  elected : ∀ t c, s.leader t = some c → Quorum members fun q => s.voted q t c
  /-- Later leaders have it. -/
  record : ∀ t k, Own epoch s t k → Open members s t (k + 1) → ∀ t' c, t < t' →
    s.leader t' = some c → (s.record t).take (k + 1) <+: s.record t'
  /-- Who has taken it in has it still. -/
  log : ∀ t k, Own epoch s t k → Open members s t (k + 1) → ∀ q, Holds s q t (k + 1) →
    (s.record t).take (k + 1) <+: s.log q
  /-- Who has voted since has voted for a log with it. -/
  bid : ∀ t k, Own epoch s t k → Open members s t (k + 1) → ∀ q, Holds s q t (k + 1) →
    ∀ t' c l, t < t' → s.voted q t' c → s.bid c t' l → (s.record t).take (k + 1) <+: l

omit [DecidableEq ι] in
/-- The last entry of a log. -/
theorem lastEpoch_eq {l : List α} {n : Nat} (h : l.length = n + 1) :
    ∃ a, l[n]? = some a ∧ lastEpoch epoch l = epoch a := by
  have hlast : l.getLast? = l[n]? := by
    rw [List.getLast?_eq_getElem?, h, Nat.add_sub_cancel]
  obtain ⟨a, ha⟩ : ∃ a, l[n]? = some a := ⟨_, List.getElem?_eq_getElem (by omega)⟩
  exact ⟨a, ha, by rw [lastEpoch, hlast, ha, Option.map_some, Option.getD_some]⟩

omit [DecidableEq ι] in
/-- **A log as up to date as one with an open part has that part.** -/
theorem Complete.upToDate (h : Complete members epoch s) (hm : Matching epoch s) {t k : Nat}
    (hown : Own epoch s t k) (hopen : Open members s t (k + 1)) {l l' : List α}
    (hl : Rooted epoch s.record l) (hl' : Rooted epoch s.record l') (hup : UpToDate epoch l l')
    (hpre : (s.record t).take (k + 1) <+: l') : (s.record t).take (k + 1) <+: l := by
  obtain ⟨a, hat, hea⟩ := hown
  have hlt : k < (s.record t).length := (List.getElem?_eq_some_iff.mp hat).1
  have hlen : ((s.record t).take (k + 1)).length = k + 1 := by
    rw [List.length_take]
    omega
  have hlen' := hpre.length_le
  rw [hlen] at hlen'
  have hat' : l'[k]? = some a := by
    obtain ⟨rest, rfl⟩ := hpre
    rw [List.getElem?_append_left (by omega), List.getElem?_take, if_pos (by omega), hat]
  obtain ⟨b', hb', hlast'⟩ : ∃ a, l'[l'.length - 1]? = some a ∧ lastEpoch epoch l' = epoch a :=
    lastEpoch_eq (by omega)
  -- the last entry of the voter's log is from term `t` or later
  have hle : t ≤ epoch b' := hea ▸ hm.epoch_le hl' hat' hb' (by omega)
  have hroot' := hl' _ b' hb'
  rw [List.take_of_length_le (by omega)] at hroot'
  rcases Nat.eq_zero_or_pos l.length with hzero | hpos
  · rcases hup with hup | ⟨-, hup⟩
    · rw [List.length_eq_zero_iff.mp hzero] at hup
      exact absurd hup (Nat.not_lt_zero _)
    · omega
  obtain ⟨b, hb, hlast⟩ : ∃ a, l[l.length - 1]? = some a ∧ lastEpoch epoch l = epoch a :=
    lastEpoch_eq (by omega)
  have hroot := hl _ b hb
  rw [List.take_of_length_le (by omega)] at hroot
  rw [UpToDate, hlast, hlast'] at hup
  rcases hup with hup | ⟨heq, hup⟩
  · -- a later leader has the part, and the last entry of `l` lies behind it
    have hleader : ∃ c, s.leader (epoch b) = some c := by
      by_contra hnone
      have hnil := hm.vacant _ (Option.eq_none_iff_forall_ne_some.mpr fun c hc => hnone ⟨c, hc⟩)
      rw [hnil, List.prefix_nil] at hroot
      rw [hroot] at hpos
      exact absurd hpos (Nat.lt_irrefl 0)
    obtain ⟨c, hc⟩ := hleader
    have hrec := h.record t k ⟨a, hat, hea⟩ hopen _ c (show t < epoch b by omega) hc
    refine List.prefix_of_prefix_length_le hrec hroot ?_
    rw [hlen]
    by_contra hshort
    have hb'' : (s.record t)[l.length - 1]? = some b := by
      have hb₁ : (s.record (epoch b))[l.length - 1]? = some b := by
        obtain ⟨rest, hrest⟩ := hroot
        rw [← hrest, List.getElem?_append_left (by omega), hb]
      obtain ⟨rest, hrest⟩ := hrec
      rw [← hrest, List.getElem?_append_left (by omega), List.getElem?_take,
        if_pos (by omega)] at hb₁
      exact hb₁
    have := hm.record_le t b (List.mem_of_getElem? hb'')
    omega
  · -- both logs end in the record of one term, and `l` is the longer one
    rw [heq] at hroot
    exact hpre.trans (List.prefix_of_prefix_length_le hroot' hroot hup)

namespace Complete

theorem elected_step (h : Complete members epoch s) (hm : Matching epoch s)
    (hs : Step members epoch True s s') :
    ∀ t c, s'.leader t = some c → Quorum members fun q => s'.voted q t c := by
  have hext := hs.extends hm
  intro t c hc
  have hold : s.leader t = some c → Quorum members fun q => s'.voted q t c := fun hc =>
    (h.elected t c hc).mono fun q => hext.voted q t c
  cases hs with
  | @elect d hl hb hq =>
    by_cases htd : t = s.term d
    · simp only [htd, Function.update_self, Option.some.injEq] at hc
      rw [htd, ← hc]
      exact hq trivial
    · simp only [Function.update_of_ne htd] at hc
      exact hold hc
  | _ => exact hold hc

/-- Later leaders still have it, and new ones do. -/
theorem record_step (h : Complete members epoch s) (hm : Matching epoch s) (ha : Acking s)
    (hv : Voting epoch s) (hs : Step members epoch True s s') {t k : Nat}
    (hown : Own epoch s' t k) (hopen : Open members s' t (k + 1)) {t' : Nat} {c : ι} (ht : t < t')
    (hc : s'.leader t' = some c) : (s'.record t).take (k + 1) <+: s'.record t' := by
  have hext := hs.extends hm
  -- somebody who has voted for the later leader has the part
  obtain ⟨q, -, hvote, hq⟩ := (h.elected_step hm hs t' c hc).inter hopen
  have hle := (hv.step hm hs).le q t' c hvote
  have hholds := hq.resolve_left (by omega)
  rcases hs.own hm ha hown with hown₀ | ⟨d, hd, -, honly⟩
  · rw [hext.take_record hown₀.lt]
    have hopen₀ := hs.open hm hopen
    cases hs with
    | @elect d hl hb hquorum =>
      by_cases htd : t' = s.term d
      · simp only [htd, Function.update_self, Option.some.injEq] at hc hvote ⊢
        have hne : t ≠ s.term d := by omega
        have hholds₀ : Holds s q t (k + 1) := by
          rcases hholds with hk | ⟨hl', hk⟩
          · exact .inl hk
          · simp only [Function.update_of_ne hne] at hl' hk
            exact .inr ⟨hl', hk⟩
        obtain ⟨l, hb⟩ := hb trivial
        rw [hv.bid_log d l hb hl]
        exact h.bid t k hown₀ hopen₀ q hholds₀ (s.term d) d l (htd ▸ ht) (hc ▸ hvote) hb
      · have hc₀ := hc
        simp only [Function.update_of_ne htd] at hc₀
        exact (h.record t k hown₀ hopen₀ t' c ht hc₀).trans (hext.record t')
    | _ => exact (h.record t k hown₀ hopen₀ t' c ht hc).trans (hext.record t')
  · have hqd := honly q hholds
    rw [← hqd] at hd
    omega

/-- Who has taken it in still has it. -/
theorem log_step (h : Complete members epoch s) (hm : Matching epoch s) (ha : Acking s)
    (hs : Step members epoch True s s') {t k : Nat} (hown : Own epoch s' t k)
    (hopen : Open members s' t (k + 1)) {q : ι} (hq : Holds s' q t (k + 1)) :
    (s'.record t).take (k + 1) <+: s'.log q := by
  have hext := hs.extends hm
  rcases hs.own hm ha hown with hown₀ | ⟨d, -, hlog, honly⟩
  · rw [hext.take_record hown₀.lt]
    have hopen₀ := hs.open hm hopen
    have hkept := (ha.step hm hs).kept q
    have hmono : ∀ hq₀ : Holds s q t (k + 1), (s.record t).take (k + 1) <+: s.log q :=
      h.log t k hown₀ hopen₀ q
    cases hs with
    | raise ht => exact hmono hq
    | stand ht => exact hmono hq
    | grant hb hv hup => exact hmono hq
    | @elect d hl hb hquorum =>
      have htd : t ≠ s.term d := by
        rintro rfl
        have hlt := hown₀.lt
        rw [hm.vacant _ hl, List.length_nil] at hlt
        omega
      refine hmono ?_
      rcases hq with hk | ⟨hl', hk⟩
      · exact .inl hk
      · simp only [Function.update_of_ne htd] at hl' hk
        exact .inr ⟨hl', hk⟩
    | @append d e hl he =>
      have hq₀ : Holds s q t (k + 1) := by
        rcases hq with hk | ⟨hl', -⟩
        · exact .inl hk
        · exact .inr ⟨hl', hown₀.lt⟩
      by_cases hqd : q = d
      · have hp := hmono hq₀
        simp only [hqd, Function.update_self]
        rw [hqd] at hp
        exact hp.trans (List.prefix_append _ _)
      · simp only [Function.update_of_ne hqd]
        exact hmono hq₀
    | @accept p c m l hl hpc hle ht =>
      by_cases hqp : q = p
      · subst hqp
        simp only [Function.update_self] at hkept ⊢
        by_cases htq : t = s.term q
        · -- a new part of the log of its own leader
          have hk : k + 1 ≤ max (s.acked q (s.term q)) m := by
            rcases hq with hk | ⟨hl', -⟩
            · simpa only [htq, Function.update_self] using hk
            · rw [htq, hl, Option.some.injEq] at hl'
              exact absurd hl'.symm hpc
          rw [htq]
          refine List.IsPrefix.trans ?_ hkept
          rw [List.prefix_take_iff]
          refine ⟨List.take_prefix _ _, ?_⟩
          rw [List.length_take]
          omega
        · have hq₀ : Holds s q t (k + 1) := by
            rcases hq with hk | hl'
            · simp only [Function.update_self, Function.update_of_ne htq] at hk
              exact .inl hk
            · exact .inr hl'
          -- the leader it listens to now has the part as well
          have hlt : t < s.term q := by
            have hle' : t ≤ s.term q := by
              rcases hq₀ with hk | ⟨hl', -⟩
              · exact (ha.led q t (by omega)).1
              · exact hm.led t q hl'
            omega
          exact ht.keeps (hmono hq₀) (h.record t k hown₀ hopen₀ _ c hlt hl)
      · simp only [Function.update_of_ne hqp]
        refine hmono ?_
        rcases hq with hk | hl'
        · simp only [Function.update_of_ne hqp] at hk
          exact .inl hk
        · exact .inr hl'
  · rw [honly q hq, hlog]
    exact List.take_prefix _ _

/-- Who votes, votes for a log with it. -/
theorem bid_step (h : Complete members epoch s) (hm : Matching epoch s) (ha : Acking s)
    (hv : Voting epoch s) (hs : Step members epoch True s s') {t k : Nat}
    (hown : Own epoch s' t k) (hopen : Open members s' t (k + 1)) {q : ι}
    (hq : Holds s' q t (k + 1)) {t' : Nat} {c : ι} {l : List α} (ht : t < t')
    (hvote : s'.voted q t' c) (hbid : s'.bid c t' l) : (s'.record t).take (k + 1) <+: l := by
  have hext := hs.extends hm
  have hle := (hv.step hm hs).le q t' c hvote
  rcases hs.own hm ha hown with hown₀ | ⟨d, hd, -, honly⟩
  · rw [hext.take_record hown₀.lt]
    have hopen₀ := hs.open hm hopen
    have hholds := hs.holds hq
    cases hs with
    | raise hr => exact h.bid t k hown₀ hopen₀ q hq t' c l ht hvote hbid
    | @stand p u hr =>
      have hnew : ∀ l, ¬ s.bid p u l := fun l hb => by
        have := hv.bid_le p u l hb
        omega
      rcases hvote with hvote | ⟨rfl, rfl, rfl⟩
      · rcases hbid with hbid | ⟨rfl, rfl, rfl⟩
        · exact h.bid t k hown₀ hopen₀ q hq t' c l ht hvote hbid
        · obtain ⟨l, hb⟩ := hv.voted_bid q t' c hvote
          exact absurd hb (hnew l)
      · rcases hbid with hbid | ⟨-, -, rfl⟩
        · exact absurd hbid (hnew l)
        · exact h.log t k hown₀ hopen₀ c hq
    | @grant p d l₀ hb hv' hup =>
      rcases hvote with hvote | ⟨rfl, rfl, rfl⟩
      · exact h.bid t k hown₀ hopen₀ q hq t' c l ht hvote hbid
      · obtain rfl := hv.bid_unique c _ l l₀ hbid hb
        exact h.upToDate hm hown₀ hopen₀ (hv.bid_rooted c _ l hb) (hm.log q) hup
          (h.log t k hown₀ hopen₀ q hq)
    | @elect d hl hb hquorum =>
      have hne : s.term q ≠ t := by
        simp only at hle
        omega
      exact h.bid t k hown₀ hopen₀ q (hholds.resolve_left hne) t' c l ht hvote hbid
    | @append d e hl he =>
      have hne : s.term q ≠ t := by
        simp only at hle
        omega
      exact h.bid t k hown₀ hopen₀ q (hholds.resolve_left hne) t' c l ht hvote hbid
    | @accept p d m l₀ hl hpd hm' htakes =>
      have hne : s.term q ≠ t := by
        simp only at hle
        omega
      exact h.bid t k hown₀ hopen₀ q (hholds.resolve_left hne) t' c l ht hvote hbid
  · have hqd := honly q hq
    rw [← hqd] at hd
    omega

/-- **Every step with fair elections keeps what a quorum has.** -/
theorem step (h : Complete members epoch s) (hm : Matching epoch s) (ha : Acking s)
    (hv : Voting epoch s) (hs : Step members epoch True s s') : Complete members epoch s' :=
  ⟨h.elected_step hm hs,
    fun _ _ hown hopen _ _ ht hc => h.record_step hm ha hv hs hown hopen ht hc,
    fun _ _ hown hopen _ hq => h.log_step hm ha hs hown hopen hq,
    fun _ _ hown hopen _ hq _ _ _ ht hvote hbid =>
      h.bid_step hm ha hv hs hown hopen hq ht hvote hbid⟩

omit [DecidableEq ι] in
/-- **What quorums have agrees**, whatever terms it is from. -/
theorem agree (h : Complete members epoch s) {t t' k k' n : Nat} (hown : Own epoch s t k)
    (hown' : Own epoch s t' k') (hc : Chosen members s t (k + 1))
    (hc' : Chosen members s t' (k' + 1)) (hm : Matching epoch s) (hn : n ≤ k + 1)
    (hn' : n ≤ k' + 1) : (s.record t).take n = (s.record t').take n := by
  have hlater : ∀ {t t' k k' : Nat}, Own epoch s t k → Own epoch s t' k' →
      Chosen members s t (k + 1) → t < t' → n ≤ k + 1 →
      (s.record t).take n = (s.record t').take n := by
    intro t t' k k' hown hown' hc ht hn
    obtain ⟨c, hleader⟩ : ∃ c, s.leader t' = some c := by
      by_contra hnone
      have hnil := hm.vacant _ (Option.eq_none_iff_forall_ne_some.mpr fun c hc => hnone ⟨c, hc⟩)
      have hlt := hown'.lt
      rw [hnil, List.length_nil] at hlt
      omega
    have hp := h.record t k hown hc.open t' c ht hleader
    have htake : (s.record t).take n = ((s.record t).take (k + 1)).take n := by
      rw [List.take_take, min_eq_left hn]
    rw [htake]
    obtain ⟨rest, hrest⟩ := hp
    have hlen : ((s.record t).take (k + 1)).length = k + 1 := by
      have := hown.lt
      rw [List.length_take]
      omega
    rw [← hrest, List.take_append_of_le_length (by omega)]
  rcases Nat.lt_trichotomy t t' with ht | rfl | ht
  · exact hlater hown hown' hc ht hn
  · rfl
  · exact (hlater hown' hown hc' ht hn').symm

end Complete

end Consensus
