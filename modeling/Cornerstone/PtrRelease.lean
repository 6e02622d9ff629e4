import Cornerstone.Ptr

/-! # What a release does

The counters are those of the handles there are, at every point of a release as well: what
differs then is the handle being released, whose decrement may still be owed, and the
blocks whose objects are being destroyed, each of which counts as one weak handle more.

`LetGo` says beforehand which objects a release destroys: those with no strong handle but
the one released and those that are part of such objects.
-/

namespace Cornerstone.Ptr
namespace Heap

/-! ## Handles to a block -/

/-- The live handles of a kind to a block, but for one. -/
def holders (s : Heap) (but : Option Nat) (weak : Bool) (b : Nat) : Finset Nat :=
  (Finset.range s.handles).filter fun i =>
    (s.handle i).live = true ∧ (s.handle i).weak = weak ∧ (s.handle i).target = some b ∧ some i ≠ but

/-- Their number, with one more where a decrement is owed. -/
def num (s : Heap) (but : Option Nat) (owed : Option (Bool × Nat)) (weak : Bool) (b : Nat) : Nat :=
  (s.holders but weak b).card + if owed = some (weak, b) then 1 else 0

/-- What a handle holds of its block. -/
def holds (s : Heap) (h : Nat) : Option (Bool × Nat) := (s.handle h).target.map fun b => ((s.handle h).weak, b)

variable {s s' : Heap} {but : Option Nat} {owed : Option (Bool × Nat)} {weak : Bool} {b h i : Nat}

theorem mem_holders : i ∈ s.holders but weak b ↔ i < s.handles ∧ (s.handle i).live = true ∧
    (s.handle i).weak = weak ∧ (s.handle i).target = some b ∧ some i ≠ but := by
  rw [holders, Finset.mem_filter, Finset.mem_range]

theorem holds_eq_some : s.holds h = some (weak, b) ↔ (s.handle h).weak = weak ∧ (s.handle h).target = some b := by
  unfold holds
  cases (s.handle h).target with
  | none => simp
  | some c => simp

@[simp] theorem num_setCell {c : Cell} {o : Nat} : (s.setCell o c).num but owed weak b = s.num but owed weak b := rfl

theorem holders_kill (h : Nat) : (s.kill h).holders but weak b = (s.holders but weak b).erase h := by
  ext i
  rw [Finset.mem_erase, mem_holders, mem_holders]
  by_cases hi : i = h
  · subst hi
    simp [kill, setHandle]
  · simp [kill, setHandle, hi]

theorem holders_aside (h : Nat) : s.holders (some h) weak b = (s.holders none weak b).erase h := by
  ext i
  rw [Finset.mem_erase, mem_holders, mem_holders]
  simp only [ne_eq, Option.some.injEq, reduceCtorEq, not_false_eq_true, and_true]
  tauto

/-- A handle that is no longer counted is owed for. -/
theorem card_erase_owed (hlt : h < s.handles) (hlive : (s.handle h).live = true) (hbut : some h ≠ but) :
    ((s.holders but weak b).erase h).card + (if s.holds h = some (weak, b) then 1 else 0) =
      (s.holders but weak b).card := by
  by_cases hh : s.holds h = some (weak, b)
  · obtain ⟨hweak, htarget⟩ := holds_eq_some.mp hh
    have hmem : h ∈ s.holders but weak b := mem_holders.mpr ⟨hlt, hlive, hweak, htarget, hbut⟩
    rw [if_pos hh, Finset.card_erase_add_one hmem]
  · have hnot : h ∉ s.holders but weak b := by
      intro hmem
      obtain ⟨-, -, hweak, htarget, -⟩ := mem_holders.mp hmem
      exact hh (holds_eq_some.mpr ⟨hweak, htarget⟩)
    rw [if_neg hh, Finset.erase_eq_of_notMem hnot, Nat.add_zero]

theorem num_kill (hlt : h < s.handles) (hlive : (s.handle h).live = true) (hbut : some h ≠ but) :
    (s.kill h).num but (s.holds h) weak b = s.num but none weak b := by
  rw [num, num, holders_kill, card_erase_owed hlt hlive hbut]
  simp

theorem num_aside (hlt : h < s.handles) (hlive : (s.handle h).live = true) :
    s.num (some h) (s.holds h) weak b = s.num none none weak b := by
  rw [num, num, holders_aside, card_erase_owed hlt hlive (by simp)]
  simp

/-! ## Objects that are let go -/

/-- The objects no strong handle holds but the one released and those that are part of such
objects. -/
inductive LetGo (s : Heap) (x : Nat) : Nat → Prop
  | all {b : Nat} (hpart : ∀ i ∈ s.holders (some x) false b, (s.handle i).owner ≠ none)
      (hlet : ∀ i ∈ s.holders (some x) false b, ∀ o, (s.handle i).owner = some o → LetGo s x o) : LetGo s x b

end Heap

/-! ## Counters -/

theorem int32_natCast {n : Nat} (h : n < uintSize / 2) : int32 n = n := int32OfUlong_of_lt h

theorem int32_eq_zero {n : Nat} (h : n ≤ uintSize / 2) : int32 n = 0 ↔ n = 0 := by
  simp only [int32, Int.bmod_def, uintSize] at *
  omega

theorem int32_succ (n : Nat) : int32 (int32 n + 1) = int32 ((n + 1 : Nat) : Int) := Int.bmod_add_bmod

theorem int32_pred (n : Nat) : int32 (int32 ((n + 1 : Nat) : Int) - 1) = int32 n := by
  rw [int32, int32, Int.bmod_sub_bmod, Nat.cast_succ, Int.add_sub_cancel]
  rfl

namespace Cell

/-- **The counters of a block with so many handles**, and what has become of it and its object; while
the object is being destroyed its last strong handle counts as a weak one. -/
structure Exact (c : Cell) (strongs weaks : Nat) (inside : Bool) : Prop where
  strong : c.strong = strongs
  weak : c.weak = int32 ((weaks + inside.toNat : Nat) : Int)
  strongs_lt : strongs < uintSize / 2
  weaks_lt : weaks < uintSize / 2
  destroyed : c.destroyed = if strongs = 0 then 1 else 0
  freed : c.freed = if strongs = 0 ∧ weaks = 0 ∧ inside = false then 1 else 0
  within : inside = true → strongs = 0

variable {c : Cell} {n m : Nat} {inside : Bool}

theorem Exact.freed_eq_zero (h : c.Exact n m inside) (hheld : n ≠ 0 ∨ m ≠ 0 ∨ inside = true) : c.freed = 0 := by
  rw [h.freed, if_neg]
  rintro ⟨hn, hm, hinside⟩
  rcases hheld with hne | hne | hne
  · exact hne hn
  · exact hne hm
  · rw [hinside] at hne
    cases hne

/-- One weak handle less. -/
theorem Exact.dec_weak (h : c.Exact n (m + 1) inside) :
    (if int32 (c.weak - 1) = 0 ∧ c.strong = 0 then
      { c with weak := int32 (c.weak - 1), freed := c.freed + 1 } else
      { c with weak := int32 (c.weak - 1) } : Cell).Exact n m inside := by
  have hfreed := h.freed_eq_zero (.inr (.inl (Nat.succ_ne_zero m)))
  have hweak : int32 (c.weak - 1) = int32 ((m + inside.toNat : Nat) : Int) := by
    rw [h.weak, Nat.add_right_comm, int32_pred]
  have hlt : m < uintSize / 2 := (Nat.lt_succ_self m).trans h.weaks_lt
  have hzero : int32 (c.weak - 1) = 0 ↔ m + inside.toNat = 0 := by
    rw [hweak]
    refine int32_eq_zero ?_
    have hle := Bool.toNat_le inside
    omega
  split
  · rename_i hlast
    rw [hzero, h.strong] at hlast
    refine ⟨h.strong, hweak, h.strongs_lt, hlt, h.destroyed, ?_, h.within⟩
    show c.freed + 1 = _
    cases inside with
    | true => simp at hlast
    | false =>
      have hm : m = 0 := by simpa using hlast.1
      have hn : n = 0 := by omega
      simp [hfreed, hm, hn]
  · rename_i hmore
    rw [hzero, h.strong] at hmore
    refine ⟨h.strong, hweak, h.strongs_lt, hlt, h.destroyed, ?_, h.within⟩
    show c.freed = _
    rw [hfreed, if_neg]
    rintro ⟨rfl, rfl, rfl⟩
    exact hmore ⟨rfl, rfl⟩

/-- One strong handle less, with another left. -/
theorem Exact.dec_strong (h : c.Exact (n + 1) m inside) (hn : n ≠ 0) :
    ({ c with strong := int32 (c.strong - 1) } : Cell).Exact n m inside := by
  have hlt : n < uintSize / 2 := (Nat.lt_succ_self n).trans h.strongs_lt
  have hstrong : int32 (c.strong - 1) = n := by
    rw [h.strong, Nat.cast_succ, Int.add_sub_cancel, int32_natCast hlt]
  refine ⟨hstrong, h.weak, hlt, h.weaks_lt, ?_, ?_, fun hin => absurd (h.within hin) (Nat.succ_ne_zero n)⟩
  · exact h.destroyed.trans (by simp [hn])
  · exact h.freed.trans (by simp [hn])

theorem Exact.strong_sub_one (h : c.Exact (n + 1) m inside) : int32 (c.strong - 1) = 0 ↔ n = 0 := by
  have hlt : n < uintSize / 2 := (Nat.lt_succ_self n).trans h.strongs_lt
  rw [h.strong, Nat.cast_succ, Int.add_sub_cancel, int32_natCast hlt]
  omega

/-- The last strong handle goes: the object is destroyed from here on. -/
theorem Exact.enter (h : c.Exact 1 m inside) :
    ({ c with strong := int32 (c.strong - 1), weak := int32 (c.weak + 1), destroyed := c.destroyed + 1 } :
      Cell).Exact 0 m true := by
  have hin : inside = false := by
    cases inside with
    | true => exact absurd (h.within rfl) Nat.one_ne_zero
    | false => rfl
  subst hin
  refine ⟨h.strong_sub_one.mpr rfl, ?_, Nat.two_pow_pos 31, h.weaks_lt, ?_, ?_, fun _ => rfl⟩
  · show int32 (c.weak + 1) = _
    rw [h.weak]
    exact int32_succ m
  · exact congrArg (· + 1) h.destroyed
  · exact h.freed.trans (by simp)

/-- The object is destroyed. -/
theorem Exact.leave (h : c.Exact n m true) :
    (if int32 (c.weak - 1) = 0 then
      { c with weak := int32 (c.weak - 1), freed := c.freed + 1 } else
      { c with weak := int32 (c.weak - 1) } : Cell).Exact n m false := by
  have hfreed := h.freed_eq_zero (.inr (.inr rfl))
  have hn := h.within rfl
  have hweak : int32 (c.weak - 1) = int32 ((m + false.toNat : Nat) : Int) := by
    rw [h.weak]
    exact int32_pred m
  have hzero : int32 (c.weak - 1) = 0 ↔ m = 0 := by
    rw [hweak]
    exact int32_eq_zero h.weaks_lt.le
  split
  · rename_i hlast
    refine ⟨h.strong, hweak, h.strongs_lt, h.weaks_lt, h.destroyed, ?_, fun hin => nomatch hin⟩
    show c.freed + 1 = _
    rw [hfreed, if_pos ⟨hn, hzero.mp hlast, rfl⟩]
  · rename_i hmore
    refine ⟨h.strong, hweak, h.strongs_lt, h.weaks_lt, h.destroyed, ?_, fun hin => nomatch hin⟩
    show c.freed = _
    rw [hfreed, if_neg]
    rintro ⟨-, hm, -⟩
    exact hmore (hzero.mpr hm)

/-- One strong handle more, where there is one. -/
theorem Exact.inc_strong (h : c.Exact n m inside) (hn : n ≠ 0) (hlt : n + 1 < uintSize / 2) :
    ({ c with strong := int32 (c.strong + 1) } : Cell).Exact (n + 1) m inside := by
  have hstrong : int32 (c.strong + 1) = ((n + 1 : Nat) : Int) := by
    rw [h.strong, ← Nat.cast_succ, int32_natCast hlt]
  refine ⟨hstrong, h.weak, hlt, h.weaks_lt, ?_, ?_, fun hin => absurd (h.within hin) hn⟩
  · exact h.destroyed.trans (by simp [hn])
  · exact h.freed.trans (by simp [hn])

/-- One weak handle more, where there is a handle. -/
theorem Exact.inc_weak (h : c.Exact n m inside) (hheld : n ≠ 0 ∨ m ≠ 0) (hlt : m + 1 < uintSize / 2) :
    ({ c with weak := int32 (c.weak + 1) } : Cell).Exact n (m + 1) inside := by
  have hweak : int32 (c.weak + 1) = int32 ((m + 1 + inside.toNat : Nat) : Int) := by
    rw [h.weak, int32_succ, Nat.add_right_comm]
  refine ⟨h.strong, hweak, h.strongs_lt, hlt, h.destroyed, ?_, h.within⟩
  show c.freed = _
  rw [h.freed_eq_zero (hheld.imp_right .inl), if_neg]
  exact fun hnone => Nat.succ_ne_zero m hnone.2.1

/-- A new block, once its first handle counts. -/
theorem Exact.first : ({ strong := int32 (0 + 1) } : Cell).Exact 1 0 false := by
  constructor <;> decide

end Cell

namespace Heap
variable {s s' : Heap} {but : Option Nat} {inside : List Nat} {owed : Option (Bool × Nat)} {b h : Nat}

/-- **Every block has the counters of the handles to it**, but for one handle, a decrement that
is owed, and the blocks whose objects are being destroyed. -/
structure Counted (but : Option Nat) (inside : List Nat) (owed : Option (Bool × Nat)) (s : Heap) : Prop where
  cell : ∀ b < s.cells, (s.cell b).Exact (s.num but owed false b) (s.num but owed true b) (decide (b ∈ inside))
  inside_lt : ∀ b ∈ inside, b < s.cells
  target : ∀ i < s.handles, (s.handle i).live = true → ∀ b, (s.handle i).target = some b → b < s.cells
  owner : ∀ i < s.handles, (s.handle i).live = true → ∀ o, (s.handle i).owner = some o →
    o < s.cells ∧ (s.num but owed false o ≠ 0 ∨ o ∈ inside)

theorem counters_ok (h : (s.cell b).freed = 0) : s.counters b = .ok (s.cell b) := by
  rw [counters, h, if_neg (Nat.lt_irrefl 0)]

theorem p_ok (hfreed : ∀ o, (s.handle h).owner = some o → (s.cell o).freed = 0) :
    s.p h = .ok (s.handle h).target := by
  rw [p]
  cases ho : (s.handle h).owner with
  | none => rfl
  | some o =>
    simp only [counters_ok (hfreed o ho), bind, Except.bind]
    rfl

theorem Counted.freed_eq_zero (h : Counted but inside owed s) (hb : b < s.cells)
    (hheld : (∃ w, s.num but owed w b ≠ 0) ∨ b ∈ inside) : (s.cell b).freed = 0 := by
  refine (h.cell b hb).freed_eq_zero ?_
  rcases hheld with ⟨w, hw⟩ | hin
  · cases w with
    | false => exact .inl hw
    | true => exact .inr (.inl hw)
  · exact .inr (.inr (decide_eq_true hin))

/-- One block with other counters, where what is owed or being destroyed is that block alone. -/
theorem Counted.setCell {inside' : List Nat} {owed' : Option (Bool × Nat)} {c : Cell}
    (h : Counted but inside owed s)
    (hnum : ∀ w, ∀ b' ≠ b, s.num but owed' w b' = s.num but owed w b')
    (hinside : ∀ b' ≠ b, (b' ∈ inside' ↔ b' ∈ inside)) (hb : b < s.cells)
    (hc : c.Exact (s.num but owed' false b) (s.num but owed' true b) (decide (b ∈ inside')))
    (howner : ∀ i < s.handles, (s.handle i).live = true → (s.handle i).owner = some b →
      s.num but owed' false b ≠ 0 ∨ b ∈ inside') :
    Counted but inside' owed' (s.setCell b c) := by
  refine ⟨fun b' hb' => ?_, fun b' hin => ?_, h.target, fun i hi hlive o ho => ?_⟩
  · rw [num_setCell, num_setCell]
    by_cases hbb : b' = b
    · subst hbb
      simpa [Heap.setCell] using hc
    · have hcell := h.cell b' hb'
      rw [← hnum false b' hbb, ← hnum true b' hbb, ← decide_eq_decide.mpr (hinside b' hbb)] at hcell
      simpa [Heap.setCell, hbb] using hcell
  · by_cases hbb : b' = b
    · exact hbb ▸ hb
    · exact h.inside_lt b' ((hinside b' hbb).mp hin)
  · obtain ⟨hlt, hheld⟩ := h.owner i hi hlive o ho
    refine ⟨hlt, ?_⟩
    rw [num_setCell]
    by_cases hob : o = b
    · subst hob
      exact howner i hi hlive ho
    · rwa [hnum false o hob, hinside o hob]

theorem num_owed_ne {w w' : Bool} {b' : Nat} (hne : b' ≠ b) :
    s.num but (some (w, b)) w' b' = s.num but none w' b' := by
  have hsome : ¬ some (w, b) = some (w', b') := by
    rintro ⟨⟩
    exact hne rfl
  rw [num, num, if_neg hsome, if_neg (by simp)]

theorem num_owed_self (w : Bool) : s.num but (some (w, b)) w b = s.num but none w b + 1 := by
  rw [num, num, if_pos rfl, if_neg (by simp)]

theorem num_owed_other (w : Bool) : s.num but (some (w, b)) (!w) b = s.num but none (!w) b := by
  have hsome : ¬ some (w, b) = some (!w, b) := by
    cases w <;> simp
  rw [num, num, if_neg hsome, if_neg (by simp)]

/-- What has been destroyed or freed stays so, and is counted on. -/
structure Later (s s' : Heap) : Prop where
  cells : s.cells ≤ s'.cells
  destroyed : ∀ b < s.cells, (s.cell b).destroyed ≤ (s'.cell b).destroyed
  freed : ∀ b < s.cells, (s.cell b).freed ≤ (s'.cell b).freed

theorem Later.refl (s : Heap) : Later s s := ⟨Nat.le_refl _, fun _ _ => Nat.le_refl _, fun _ _ => Nat.le_refl _⟩

theorem Later.trans {s₁ s₂ s₃ : Heap} (h : Later s₁ s₂) (h' : Later s₂ s₃) : Later s₁ s₃ :=
  ⟨h.cells.trans h'.cells, fun b hb => (h.destroyed b hb).trans (h'.destroyed b (hb.trans_le h.cells)),
    fun b hb => (h.freed b hb).trans (h'.freed b (hb.trans_le h.cells))⟩

theorem later_setCell {c : Cell} (hd : (s.cell b).destroyed ≤ c.destroyed) (hf : (s.cell b).freed ≤ c.freed) :
    Later s (s.setCell b c) := by
  refine ⟨Nat.le_refl _, fun b' _ => ?_, fun b' _ => ?_⟩ <;> by_cases hbb : b' = b
  · subst hbb
    simpa [setCell] using hd
  · simp [setCell, hbb]
  · subst hbb
    simpa [setCell] using hf
  · simp [setCell, hbb]

/-- **The release of a weak handle.** -/
theorem decWeak_run (hc : Counted but inside (some (true, b)) s) (hb : b < s.cells) :
    ∃ c, s.decWeak (fun c => c.weak = 0 ∧ c.strong = 0) b = .ok (s.setCell b c) ∧
      Counted but inside none (s.setCell b c) ∧ c.destroyed = (s.cell b).destroyed ∧ Later s (s.setCell b c) := by
  have hexact := hc.cell b hb
  rw [num_owed_self, show s.num but (some (true, b)) false b = s.num but none false b from num_owed_other true]
    at hexact
  have hfreed : (s.cell b).freed = 0 := hexact.freed_eq_zero (.inr (.inl (Nat.succ_ne_zero _)))
  have hdec := hexact.dec_weak
  have hother : ∀ w, ∀ b' ≠ b, s.num but none w b' = s.num but (some (true, b)) w b' := fun w b' hne =>
    (num_owed_ne hne).symm
  have howner : ∀ i < s.handles, (s.handle i).live = true → (s.handle i).owner = some b →
      s.num but none false b ≠ 0 ∨ b ∈ inside := fun i hi hlive ho =>
    (hc.owner i hi hlive b ho).2.imp_left fun hne =>
      (show s.num but (some (true, b)) false b = s.num but none false b from num_owed_other true) ▸ hne
  have hset := fun c hcell => hc.setCell (c := c) hother (fun _ _ => Iff.rfl) hb hcell howner
  simp only [decWeak, counters_ok hfreed, bind, Except.bind, decide_eq_true_eq]
  split
  · rename_i hlast
    rw [if_pos hlast] at hdec
    exact ⟨_, rfl, hset _ hdec, rfl, later_setCell (Nat.le_refl _) (Nat.le_succ _)⟩
  · rename_i hmore
    rw [if_neg hmore] at hdec
    exact ⟨_, rfl, hset _ hdec, rfl, later_setCell (Nat.le_refl _) (Nat.le_refl _)⟩

/-- The end of a destructor, with no part of the object left. -/
theorem leave_run (hc : Counted but (b :: inside) none s) (hb : b ∉ inside)
    (hparts : ∀ i < s.handles, (s.handle i).live = true → (s.handle i).owner ≠ some b) :
    ∃ c, s.decWeak (fun c => c.weak = 0) b = .ok (s.setCell b c) ∧
      Counted but inside none (s.setCell b c) ∧ c.destroyed = (s.cell b).destroyed ∧ Later s (s.setCell b c) := by
  have hlt := hc.inside_lt b List.mem_cons_self
  have hexact := hc.cell b hlt
  rw [decide_eq_true List.mem_cons_self] at hexact
  have hfreed : (s.cell b).freed = 0 := hexact.freed_eq_zero (.inr (.inr rfl))
  have hdec := hexact.leave
  have hinside : ∀ b' ≠ b, (b' ∈ inside ↔ b' ∈ b :: inside) := fun b' hne => by
    rw [List.mem_cons, or_iff_right hne]
  have hset : ∀ c : Cell, c.Exact (s.num but none false b) (s.num but none true b) false →
      Counted but inside none (s.setCell b c) := fun c hcell => by
    have hout : decide (b ∈ inside) = false := decide_eq_false hb
    exact hc.setCell (fun _ _ _ => rfl) hinside hlt (by rwa [hout]) fun i hi hlive ho => absurd ho (hparts i hi hlive)
  simp only [decWeak, counters_ok hfreed, bind, Except.bind, decide_eq_true_eq]
  split
  · rename_i hlast
    rw [if_pos hlast] at hdec
    exact ⟨_, rfl, hset _ hdec, rfl, later_setCell (Nat.le_refl _) (Nat.le_succ _)⟩
  · rename_i hmore
    rw [if_neg hmore] at hdec
    exact ⟨_, rfl, hset _ hdec, rfl, later_setCell (Nat.le_refl _) (Nat.le_refl _)⟩

/-! ## The course of a release -/

/-- What may have happened since a release of a handle began. -/
structure Since (s₀ : Heap) (x : Nat) (s : Heap) : Prop where
  cells : s.cells = s₀.cells
  handles : s.handles = s₀.handles
  weak : ∀ i, (s.handle i).weak = (s₀.handle i).weak
  target : ∀ i, (s.handle i).target = (s₀.handle i).target
  owner : ∀ i, (s.handle i).owner = (s₀.handle i).owner
  live : ∀ i, (s.handle i).live = true → (s₀.handle i).live = true
  gone : ∀ i, (s₀.handle i).live = true → (s.handle i).live = false →
    ∃ o, (s₀.handle i).owner = some o ∧ LetGo s₀ x o
  destroyed : ∀ b, (s.cell b).destroyed ≠ (s₀.cell b).destroyed → LetGo s₀ x b
  later : Later s₀ s

section
variable {s₀ : Heap} {x : Nat}

theorem Since.refl (s : Heap) (x : Nat) : Since s x s :=
  ⟨rfl, rfl, fun _ => rfl, fun _ => rfl, fun _ => rfl, fun _ hi => hi,
    fun _ hlive hgone => (nomatch hlive.symm.trans hgone), fun _ hne => absurd rfl hne, Later.refl s⟩

theorem Since.setCell {c : Cell} (h : Since s₀ x s) (hc : c.destroyed = (s.cell b).destroyed ∨ LetGo s₀ x b)
    (hlater : Later s (s.setCell b c)) : Since s₀ x (s.setCell b c) := by
  refine ⟨h.cells, h.handles, h.weak, h.target, h.owner, h.live, h.gone, fun b' hne => ?_, h.later.trans hlater⟩
  by_cases hbb : b' = b
  · subst hbb
    rcases hc with hsame | hlet
    · refine h.destroyed b' fun heq => hne ?_
      simpa [Heap.setCell, hsame] using heq
    · exact hlet
  · exact h.destroyed b' (by simpa [Heap.setCell, hbb] using hne)

theorem kill_live (h i : Nat) : ((s.kill h).handle i).live = if i = h then false else (s.handle i).live := by
  by_cases hi : i = h
  · subst hi
    simp [kill, setHandle]
  · simp [kill, setHandle, hi]

theorem kill_same (h i : Nat) : ((s.kill h).handle i).weak = (s.handle i).weak ∧
    ((s.kill h).handle i).target = (s.handle i).target ∧ ((s.kill h).handle i).owner = (s.handle i).owner := by
  by_cases hi : i = h
  · subst hi
    simp [kill, setHandle]
  · simp [kill, setHandle, hi]

theorem kill_holds (h i : Nat) : (s.kill h).holds i = s.holds i := by
  obtain ⟨hweak, htarget, -⟩ := kill_same (s := s) h i
  rw [holds, holds, hweak, htarget]

/-- A part of an object that is let go is destroyed. -/
theorem Since.kill {m o : Nat} (h : Since s₀ x s) (howner : (s.handle m).owner = some o) (hlet : LetGo s₀ x o) :
    Since s₀ x (s.kill m) := by
  have hsame := kill_same (s := s) m
  refine ⟨h.cells, h.handles, fun i => (hsame i).1.trans (h.weak i), fun i => (hsame i).2.1.trans (h.target i),
    fun i => (hsame i).2.2.trans (h.owner i), fun i hi => ?_, fun i hlive hgone => ?_, h.destroyed,
    ⟨h.later.cells, h.later.destroyed, h.later.freed⟩⟩
  · rw [kill_live] at hi
    split at hi
    · cases hi
    · exact h.live i hi
  · rw [kill_live] at hgone
    split at hgone
    · rename_i him
      exact ⟨o, by rw [← h.owner, him, howner], hlet⟩
    · exact h.gone i hlive hgone

/-- **An object whose last strong handle is gone was let go.** -/
theorem Since.letGo (h : Since s₀ x s) (hzero : s.num (some x) none false b = 0) : LetGo s₀ x b := by
  have hempty : s.holders (some x) false b = ∅ := by
    rw [num, if_neg (by simp), Nat.add_zero] at hzero
    exact Finset.card_eq_zero.mp hzero
  have hgone : ∀ i ∈ s₀.holders (some x) false b, ∃ o, (s₀.handle i).owner = some o ∧ LetGo s₀ x o := by
    intro i hi
    obtain ⟨hlt, hlive, hweak, htarget, hne⟩ := mem_holders.mp hi
    refine h.gone i hlive ?_
    by_contra hstill
    have hmem : i ∈ s.holders (some x) false b :=
      mem_holders.mpr ⟨h.handles ▸ hlt, by simpa using hstill, (h.weak i).trans hweak, (h.target i).trans htarget, hne⟩
    rw [hempty] at hmem
    cases hmem
  refine .all (fun i hi => ?_) fun i hi o ho => ?_
  · obtain ⟨o, ho, -⟩ := hgone i hi
    rw [ho]
    exact Option.some_ne_none o
  · obtain ⟨o', ho', hlet⟩ := hgone i hi
    rw [ho] at ho'
    exact Option.some.inj ho' ▸ hlet

/-- The objects there are. -/
def standing (s : Heap) : Nat := ((Finset.range s.cells).filter fun b => (s.cell b).destroyed = 0).card

theorem Later.standing_subset (h : Later s s') (hcells : s'.cells = s.cells) :
    ((Finset.range s'.cells).filter fun b => (s'.cell b).destroyed = 0) ⊆
      (Finset.range s.cells).filter fun b => (s.cell b).destroyed = 0 := by
  intro b hb
  rw [Finset.mem_filter, hcells, Finset.mem_range] at hb
  exact Finset.mem_filter.mpr ⟨Finset.mem_range.mpr hb.1, Nat.le_zero.mp (hb.2 ▸ h.destroyed b hb.1)⟩

theorem Later.standing_le (h : Later s s') (hcells : s'.cells = s.cells) : s'.standing ≤ s.standing :=
  Finset.card_le_card (h.standing_subset hcells)

theorem Later.standing_lt (h : Later s s') (hcells : s'.cells = s.cells) (hb : b < s.cells)
    (hbefore : (s.cell b).destroyed = 0) (hafter : (s'.cell b).destroyed ≠ 0) : s'.standing < s.standing := by
  refine Finset.card_lt_card ⟨h.standing_subset hcells, fun hsub => ?_⟩
  have hmem := hsub (Finset.mem_filter.mpr ⟨Finset.mem_range.mpr hb, hbefore⟩)
  exact hafter (Finset.mem_filter.mp hmem).2

/-- **What a release leaves behind**: exact counters, and the parts of objects that were being destroyed
before as they were, but for some. -/
structure Ran (s₀ : Heap) (x : Nat) (inside but : List Nat) (s s' : Heap) : Prop where
  since : Since s₀ x s'
  counted : Counted (some x) inside none s'
  kept : ∀ i o, (s.handle i).owner = some o → o ∈ inside → i ∉ but → (s'.handle i).live = (s.handle i).live
  later : Later s s'

/-- The handle released is a variable, or part of an object that stays. -/
def Stays (s₀ : Heap) (x : Nat) : Prop :=
  ∀ o, (s₀.handle x).owner = some o → ¬ LetGo s₀ x o ∧ o < s₀.cells ∧ (s₀.cell o).destroyed = 0

/-- The memory of the handle released, and of the parts of objects being destroyed, is there. -/
theorem p_run (hx : Stays s₀ x) (hsince : Since s₀ x s) (hc : Counted (some x) inside owed s)
    (hh : h = x ∨ ∃ o ∈ inside, (s.handle h).owner = some o) : s.p h = .ok (s.handle h).target := by
  refine p_ok fun o ho => ?_
  rcases hh with rfl | ⟨o', hin, ho'⟩
  · obtain ⟨hstays, hlt, hdestroyed⟩ := hx o ((hsince.owner h).symm.trans ho)
    have hsame : (s.cell o).destroyed = 0 := by
      by_contra hne
      exact hstays (hsince.destroyed o fun heq => hne (heq.trans hdestroyed))
    have hlt' : o < s.cells := hsince.cells ▸ hlt
    refine hc.freed_eq_zero hlt' (.inl ⟨false, fun hzero => ?_⟩)
    have hone := (hc.cell o hlt').destroyed
    rw [hsame, if_pos hzero] at hone
    cases hone
  · rw [ho] at ho'
    cases ho'
    exact hc.freed_eq_zero (hc.inside_lt o hin) (.inr hin)

/-- A release with so much fuel. -/
def Releases (order : DestroyOrder) (s₀ : Heap) (x fuel : Nat) : Prop :=
  ∀ {inside : List Nat} {s : Heap} {h : Nat}, Since s₀ x s → Counted (some x) inside (s.holds h) s →
    (∀ b, (s.handle h).target = some b → b < s.cells) → (h = x ∨ ∃ o ∈ inside, (s.handle h).owner = some o) →
    s.standing < fuel → ∃ s', decRefAndFree order fuel s h = .ok s' ∧ Ran s₀ x inside [] s s'

theorem Counted.kill {m : Nat} (hc : Counted but inside none s) (hlt : m < s.handles)
    (hlive : (s.handle m).live = true) (hbut : some m ≠ but) : Counted but inside (s.holds m) (s.kill m) := by
  have hstill : ∀ i, ((s.kill m).handle i).live = true → (s.handle i).live = true := fun i hi => by
    rw [kill_live] at hi
    split at hi
    · cases hi
    · exact hi
  refine ⟨fun b hb => ?_, hc.inside_lt, fun i hi hl b hb => ?_, fun i hi hl o ho => ?_⟩
  · rw [num_kill hlt hlive hbut, num_kill hlt hlive hbut]
    exact hc.cell b hb
  · rw [(kill_same m i).2.1] at hb
    exact hc.target i hi (hstill i hl) b hb
  · rw [(kill_same m i).2.2] at ho
    rw [num_kill hlt hlive hbut]
    exact hc.owner i hi (hstill i hl) o ho

/-- **The parts of an object are destroyed**, each once. -/
theorem members_run {order : DestroyOrder} {fuel : Nat} (hrel : Releases order s₀ x fuel) (hx : Stays s₀ x)
    (hlet : LetGo s₀ x b) : ∀ (ms : List Nat) {s : Heap}, Since s₀ x s → Counted (some x) (b :: inside) none s →
    (∀ m ∈ ms, m < s.handles ∧ (s.handle m).live = true ∧ (s.handle m).owner = some b) → ms.Nodup →
    s.standing < fuel →
    ∃ s', ms.foldlM (fun s m => decRefAndFree order fuel (s.kill m) m) s = .ok s' ∧
      Ran s₀ x (b :: inside) ms s s' ∧ ∀ m ∈ ms, (s'.handle m).live = false
  | [], s, hsince, hc, _, _, _ => ⟨s, rfl, ⟨hsince, hc, fun _ _ _ _ _ => rfl, Later.refl s⟩, fun _ hm => nomatch hm⟩
  | m :: ms, s, hsince, hc, hms, hnodup, hfuel => by
    obtain ⟨hlt, hlive, howner⟩ := hms m List.mem_cons_self
    obtain ⟨hnot, hnodup⟩ := List.nodup_cons.mp hnodup
    have hne : some m ≠ some x := by
      intro heq
      have howner₀ : (s₀.handle x).owner = some b := by rw [← Option.some.inj heq, ← hsince.owner m, howner]
      exact (hx b howner₀).1 hlet
    have hkill := hc.kill hlt hlive hne
    rw [← kill_holds m m] at hkill
    have hsame := kill_same (s := s) m
    obtain ⟨s₁, hrun, hran⟩ := hrel (hsince.kill howner hlet) hkill
      (fun b' hb' => hc.target m hlt hlive b' ((hsame m).2.1.symm.trans hb'))
      (.inr ⟨b, List.mem_cons_self, (hsame m).2.2.trans howner⟩) hfuel
    have hkept : ∀ i, (s.handle i).owner = some b → (s₁.handle i).live = if i = m then false else (s.handle i).live :=
      fun i hi => by
        rw [hran.kept i b ((hsame i).2.2.trans hi) List.mem_cons_self List.not_mem_nil, kill_live]
    have howner₁ : ∀ i, (s₁.handle i).owner = (s.handle i).owner := fun i =>
      (hran.since.owner i).trans (hsince.owner i).symm
    have hms₁ : ∀ m' ∈ ms, m' < s₁.handles ∧ (s₁.handle m').live = true ∧ (s₁.handle m').owner = some b := by
      intro m' hm'
      obtain ⟨hlt', hlive', howner'⟩ := hms m' (List.mem_cons_of_mem _ hm')
      have hne' : m' ≠ m := fun heq => hnot (heq ▸ hm')
      refine ⟨?_, ?_, (howner₁ m').trans howner'⟩
      · rw [hran.since.handles, ← hsince.handles]
        exact hlt'
      · rw [hkept m' howner', if_neg hne', hlive']
    have hcells : s₁.cells = s.cells := hran.since.cells.trans hsince.cells.symm
    have hfuel₁ : s₁.standing < fuel := (Later.standing_le hran.later hcells).trans_lt hfuel
    obtain ⟨s₂, hruns, hran₂, hdead⟩ := members_run hrel hx hlet ms hran.since hran.counted hms₁ hnodup hfuel₁
    have hlater : Later s s₂ := Later.trans ⟨hran.later.cells, hran.later.destroyed, hran.later.freed⟩ hran₂.later
    refine ⟨s₂, ?_, ⟨hran₂.since, hran₂.counted, fun i o ho hin hnotin => ?_, hlater⟩, ?_⟩
    · rw [List.foldlM_cons, hrun]
      exact hruns
    · rw [List.mem_cons, not_or] at hnotin
      rw [hran₂.kept i o ((howner₁ i).trans ho) hin hnotin.2,
        hran.kept i o ((hsame i).2.2.trans ho) hin List.not_mem_nil, kill_live, if_neg hnotin.1]
    · intro m' hm'
      rcases List.mem_cons.mp hm' with rfl | hm'
      · rw [hran₂.kept m' b ((howner₁ m').trans howner) List.mem_cons_self hnot, hkept m' howner, if_pos rfl]
      · exact hdead m' hm'

theorem mem_members {i : Nat} : i ∈ s.members b ↔
    i < s.handles ∧ (s.handle i).live = true ∧ (s.handle i).owner = some b := by
  rw [members, List.mem_filter, List.mem_range, decide_eq_true_eq]

/-- The release of a handle with nothing left to do. -/
theorem ran_setCell {c : Cell} (hsince : Since s₀ x s) (hc : Counted (some x) inside none (s.setCell b c))
    (hdestroyed : c.destroyed = (s.cell b).destroyed) (hlater : Later s (s.setCell b c)) :
    Ran s₀ x inside [] s (s.setCell b c) :=
  ⟨hsince.setCell (.inl hdestroyed) hlater, hc, fun _ _ _ _ _ => rfl, hlater⟩

/-- **The last strong handle goes**: the object is destroyed with all that goes with it. -/
theorem destroy_run {order : DestroyOrder} {fuel : Nat} (hrel : Releases order s₀ x fuel) (hx : Stays s₀ x)
    (hsince : Since s₀ x s) (hc : Counted (some x) inside (some (false, b)) s) (hb : b < s.cells)
    (hzero : s.num (some x) none false b = 0) (hh : h = x ∨ ∃ o ∈ inside, (s.handle h).owner = some o)
    (hfuel : s.standing < fuel + 1) :
    ∃ s', (do
      let s ← (order.1 (s.members b)).foldlM (fun s m => decRefAndFree order fuel (s.kill m) m)
        (s.setCell b { s.cell b with
          strong := int32 ((s.cell b).strong - 1)
          weak := int32 ((s.cell b).weak + 1)
          destroyed := (s.cell b).destroyed + 1 })
      let _ ← s.p h
      s.decWeak (fun c => c.weak = 0) b) = .ok s' ∧ Ran s₀ x inside [] s s' := by
  have hexact := hc.cell b hb
  rw [num_owed_self, hzero, show s.num (some x) (some (false, b)) true b = s.num (some x) none true b from
    num_owed_other false] at hexact
  have hnotin : b ∉ inside := fun hin => Nat.one_ne_zero (hexact.within (decide_eq_true hin))
  have hlet : LetGo s₀ x b := hsince.letGo hzero
  have hbefore : (s.cell b).destroyed = 0 := hexact.destroyed
  set c : Cell := { s.cell b with
    strong := int32 ((s.cell b).strong - 1)
    weak := int32 ((s.cell b).weak + 1)
    destroyed := (s.cell b).destroyed + 1 } with hcdef
  have henter : c.Exact (s.num (some x) none false b) (s.num (some x) none true b) (decide (b ∈ b :: inside)) := by
    rw [hzero, decide_eq_true List.mem_cons_self]
    exact hexact.enter
  have hinside : ∀ b' ≠ b, (b' ∈ b :: inside ↔ b' ∈ inside) := fun b' hne => by
    rw [List.mem_cons, or_iff_right hne]
  have hc₁ : Counted (some x) (b :: inside) none (s.setCell b c) :=
    hc.setCell (fun w b' hne => (num_owed_ne hne).symm) hinside hb henter fun i hi hlive ho =>
      .inr List.mem_cons_self
  have hlater₁ : Later s (s.setCell b c) := later_setCell (Nat.le_succ _) (Nat.le_refl _)
  have hsince₁ := hsince.setCell (.inr hlet) hlater₁
  have hafter : ((s.setCell b c).cell b).destroyed ≠ 0 := by
    rw [Heap.setCell]
    simp [hcdef]
  have hfuel₁ : (s.setCell b c).standing < fuel :=
    (hlater₁.standing_lt rfl hb hbefore hafter).trans_le (Nat.le_of_lt_succ hfuel)
  have hperm := order.2 (s.members b)
  have hmem : ∀ m ∈ order.1 (s.members b), m < s.handles ∧ (s.handle m).live = true ∧ (s.handle m).owner = some b :=
    fun m hm => mem_members.mp (hperm.mem_iff.mp hm)
  have hnodup : (order.1 (s.members b)).Nodup := hperm.nodup_iff.mpr (List.nodup_range.filter _)
  obtain ⟨s₂, hruns, hran, hdead⟩ := members_run hrel hx hlet _ hsince₁ hc₁ hmem hnodup hfuel₁
  have howner₂ : ∀ i, (s₂.handle i).owner = (s.handle i).owner := fun i =>
    (hran.since.owner i).trans (hsince.owner i).symm
  -- the handle is where it was, and the object has no parts any more
  have hh₂ : h = x ∨ ∃ o ∈ b :: inside, (s₂.handle h).owner = some o := by
    refine hh.imp_right ?_
    rintro ⟨o, hin, ho⟩
    exact ⟨o, List.mem_cons_of_mem _ hin, (howner₂ h).trans ho⟩
  have hp := p_run hx hran.since hran.counted hh₂
  have hparts : ∀ i < s₂.handles, (s₂.handle i).live = true → (s₂.handle i).owner ≠ some b := by
    intro i hi hlive ho
    have hlt : i < s.handles := by
      rw [hsince.handles, ← hran.since.handles]
      exact hi
    by_cases hm : i ∈ order.1 (s.members b)
    · rw [hdead i hm] at hlive
      cases hlive
    · have hsame : (s.handle i).live = true := by
        rw [← hlive]
        exact (hran.kept i b ((howner₂ i).symm.trans ho) List.mem_cons_self hm).symm
      exact hm (hperm.mem_iff.mpr (mem_members.mpr ⟨hlt, hsame, (howner₂ i).symm.trans ho⟩))
  obtain ⟨c', hfree, hc', hdestroyed, hlater⟩ := leave_run hran.counted hnotin hparts
  refine ⟨_, ?_, hran.since.setCell (.inl hdestroyed) hlater, hc', fun i o ho hin _ => ?_,
    hlater₁.trans (hran.later.trans hlater)⟩
  · simp only [hruns, hp, bind, Except.bind]
    exact hfree
  · have hne : i ∉ order.1 (s.members b) := fun hm => by
      have hob := (hmem i hm).2.2
      rw [ho] at hob
      cases hob
      exact hnotin hin
    exact hran.kept i o ho (List.mem_cons_of_mem _ hin) hne

/-- **Every release runs to its end**, whatever it destroys on the way. -/
theorem decRefAndFree_run {order : DestroyOrder} (hx : Stays s₀ x) : ∀ fuel, Releases order s₀ x fuel
  | 0, _, _, _, _, _, _, _, hfuel => absurd hfuel (Nat.not_lt_zero _)
  | fuel + 1, inside, s, h, hsince, hc, htarget, hh, hfuel => by
    have hp := p_run hx hsince hc hh
    cases ht : (s.handle h).target with
    | none =>
      have hholds : s.holds h = none := by rw [holds, ht, Option.map_none]
      rw [hholds] at hc
      refine ⟨s, ?_, hsince, hc, fun _ _ _ _ _ => rfl, Later.refl s⟩
      simp only [decRefAndFree, hp, ht, bind, Except.bind]
      rfl
    | some b =>
      have hb := htarget b ht
      cases hw : (s.handle h).weak with
      | true =>
        rw [show s.holds h = some (true, b) from holds_eq_some.mpr ⟨hw, ht⟩] at hc
        obtain ⟨c, hrun, hc', hdestroyed, hlater⟩ := decWeak_run hc hb
        refine ⟨_, ?_, ran_setCell hsince hc' hdestroyed hlater⟩
        simp only [decRefAndFree, hp, ht, hw, bind, Except.bind, if_true]
        exact hrun
      | false =>
        rw [show s.holds h = some (false, b) from holds_eq_some.mpr ⟨hw, ht⟩] at hc
        have hexact := hc.cell b hb
        rw [num_owed_self, show s.num (some x) (some (false, b)) true b = s.num (some x) none true b from
          num_owed_other false] at hexact
        have hcounters := counters_ok (hexact.freed_eq_zero (.inl (Nat.succ_ne_zero _)))
        by_cases hzero : s.num (some x) none false b = 0
        · obtain ⟨s', hrun, hran⟩ := destroy_run (decRefAndFree_run hx fuel) hx hsince hc hb hzero hh hfuel
          refine ⟨s', ?_, hran⟩
          simp only [decRefAndFree, hp, ht, hw, hcounters, bind, Except.bind, Bool.false_eq_true, if_false]
          rw [if_pos (hexact.strong_sub_one.mpr hzero)]
          exact hrun
        · have hne : ¬ int32 ((s.cell b).strong - 1) = 0 := fun h0 => hzero (hexact.strong_sub_one.mp h0)
          have hc' := hc.setCell (fun w b' hne => (num_owed_ne hne).symm) (fun _ _ => Iff.rfl) hb
            (hexact.dec_strong hzero) fun i hi hlive ho => .inl hzero
          refine ⟨_, ?_, ran_setCell hsince hc' rfl (later_setCell (Nat.le_refl _) (Nat.le_refl _))⟩
          simp only [decRefAndFree, hp, ht, hw, hcounters, bind, Except.bind, Bool.false_eq_true, if_false]
          rw [if_neg hne]
          rfl

end

end Heap

end Cornerstone.Ptr
