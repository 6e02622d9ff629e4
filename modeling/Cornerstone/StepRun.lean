import Mathlib.Tactic.Common

/-! # Runs of a step function

A system takes one act after the other, and `next` says what an act makes of its state.
`Along` is a condition on the acts of a run, each judged in the state it is taken in.
What every act keeps that meets the condition holds in each state of such a run.
-/

namespace StepRun

variable {σ α : Type} (next : σ → α → σ)

/-- The state after a run. -/
def run : σ → List α → σ
  | s, [] => s
  | s, a :: acts => run (next s a) acts

/-- Every act of a run meets `P` in the state it is taken in. -/
def Along (P : σ → α → Prop) : σ → List α → Prop
  | _, [] => True
  | s, a :: acts => P s a ∧ Along P (next s a) acts

/-- `I` holds in every state of a run. -/
def Throughout (I : σ → Prop) (s : σ) (acts : List α) : Prop :=
  ∀ pre post, acts = pre ++ post → I (run next s pre)

instance decidableAlong (P : σ → α → Prop) [∀ s a, Decidable (P s a)] :
    (s : σ) → (acts : List α) → Decidable (Along next P s acts)
  | _, [] => inferInstanceAs (Decidable True)
  | s, a :: acts =>
    haveI := decidableAlong P (next s a) acts
    inferInstanceAs (Decidable (P s a ∧ Along next P (next s a) acts))

variable {next} {P Q : σ → α → Prop} {I : σ → Prop} {s : σ}

@[simp] theorem run_nil (s : σ) : run next s [] = s := rfl

@[simp] theorem run_cons (s : σ) (a : α) (acts : List α) :
    run next s (a :: acts) = run next (next s a) acts := rfl

theorem run_append (s : σ) (pre post : List α) :
    run next s (pre ++ post) = run next (run next s pre) post := by
  induction pre generalizing s with
  | nil => rfl
  | cons a pre ih => exact ih (next s a)

theorem along_append {pre post : List α} :
    Along next P s (pre ++ post) ↔ Along next P s pre ∧ Along next P (run next s pre) post := by
  induction pre generalizing s with
  | nil => exact ⟨fun h => ⟨trivial, h⟩, fun h => h.2⟩
  | cons a pre ih =>
    show P s a ∧ Along next P (next s a) (pre ++ post) ↔ _
    rw [ih, ← and_assoc]
    rfl

/-- Acts that meet `P` meet `Q` where what they keep holds. -/
theorem Along.strengthen (hstep : ∀ s a, I s → P s a → I (next s a)) (hPQ : ∀ s a, I s → P s a → Q s a)
    {acts : List α} (hI : I s) (h : Along next P s acts) : Along next Q s acts := by
  induction acts generalizing s with
  | nil => trivial
  | cons a acts ih => exact ⟨hPQ s a hI h.1, ih (hstep s a hI h.1) h.2⟩

/-- What every act keeps holds where the run ends. -/
theorem run_invariant (hstep : ∀ s a, I s → I (next s a)) (acts : List α) (hI : I s) : I (run next s acts) := by
  induction acts generalizing s with
  | nil => exact hI
  | cons a acts ih => exact ih (hstep s a hI)

/-- What every act keeps that meets `P` holds where the run ends. -/
theorem Along.invariant (hstep : ∀ s a, I s → P s a → I (next s a)) {acts : List α} (hI : I s)
    (h : Along next P s acts) : I (run next s acts) := by
  induction acts generalizing s with
  | nil => exact hI
  | cons a acts ih => exact ih (hstep s a hI h.1) h.2

/-- What every act keeps that meets `P` holds in each state of the run. -/
theorem Along.throughout (hstep : ∀ s a, I s → P s a → I (next s a)) {acts : List α} (hI : I s)
    (h : Along next P s acts) : Throughout next I s acts := by
  rintro pre post rfl
  exact (along_append.mp h).1.invariant hstep hI

theorem Throughout.mono {J : σ → Prop} {acts : List α} (h : Throughout next I s acts)
    (hIJ : ∀ s, I s → J s) : Throughout next J s acts :=
  fun pre post heq => hIJ _ (h pre post heq)

theorem Throughout.cons {a : α} {acts : List α} (h : Throughout next I s (a :: acts)) :
    Throughout next I (next s a) acts := by
  rintro pre post rfl
  exact h (a :: pre) post rfl

/-- Where `P` says exactly when an act keeps `I`, and `J` holds anyway, a run meets `P`
exactly if `I` holds in each of its states. -/
theorem along_iff_throughout {J : σ → Prop} (hJ : ∀ s a, J s → J (next s a))
    (hstep : ∀ s a, J s → I s → (I (next s a) ↔ P s a)) {acts : List α} (hJs : J s) (hIs : I s) :
    Along next P s acts ↔ Throughout next I s acts := by
  constructor
  · intro h
    have hboth : Throughout next (fun s => J s ∧ I s) s acts :=
      h.throughout (fun s a hs hP => ⟨hJ s a hs.1, (hstep s a hs.1 hs.2).mpr hP⟩) ⟨hJs, hIs⟩
    exact hboth.mono fun s hs => hs.2
  · intro h
    induction acts generalizing s with
    | nil => trivial
    | cons a acts ih =>
      have hnext : I (next s a) := h [a] acts rfl
      exact ⟨(hstep s a hJs hIs).mp hnext, ih (hJ s a hJs) hnext h.cons⟩

/-- The same where `J` holds only as long as `I` does. -/
theorem along_iff_throughout_of {J : σ → Prop} (hJ : ∀ s a, J s → I s → I (next s a) → J (next s a))
    (hstep : ∀ s a, J s → I s → (I (next s a) ↔ P s a)) {acts : List α} (hJs : J s) (hIs : I s) :
    Along next P s acts ↔ Throughout next I s acts := by
  induction acts generalizing s with
  | nil =>
    refine iff_of_true trivial ?_
    intro pre post heq
    rw [(List.append_eq_nil_iff.mp heq.symm).1]
    exact hIs
  | cons a acts ih =>
    constructor
    · rintro ⟨hP, hacts⟩
      have hI : I (next s a) := (hstep s a hJs hIs).mpr hP
      have hrest := (ih (hJ s a hJs hIs hI) hI).mp hacts
      intro pre post heq
      cases pre with
      | nil => exact hIs
      | cons b pre =>
        obtain ⟨rfl, rfl⟩ := List.cons.inj heq
        exact hrest pre post rfl
    · intro h
      have hI : I (next s a) := h [a] acts rfl
      exact ⟨(hstep s a hJs hIs).mp hI, (ih (hJ s a hJs hIs hI) hI).mpr h.cons⟩

/-! ## What cannot fail to happen -/

/-- However the enabled acts follow one another, a state with `I` is reached: as long as there
was none, some act is enabled. -/
inductive Inevitably (next : σ → α → σ) (enabled : σ → α → Prop) (I : σ → Prop) : σ → Prop
  | now {s : σ} (h : I s) : Inevitably next enabled I s
  | later {s : σ} (hsome : ∃ a, enabled s a) (hall : ∀ a, enabled s a → Inevitably next enabled I (next s a)) :
      Inevitably next enabled I s

namespace Inevitably
variable {enabled : σ → α → Prop}

theorem next_of_not {a : α} (h : Inevitably next enabled I s) (hnot : ¬ I s) (ha : enabled s a) :
    Inevitably next enabled I (next s a) := by
  cases h with
  | now hI => exact absurd hI hnot
  | later hsome hall => exact hall a ha

/-- What is inevitable is possible. -/
theorem exists_run (h : Inevitably next enabled I s) : ∃ acts, Along next enabled s acts ∧ I (run next s acts) := by
  induction h with
  | now hI => exact ⟨[], trivial, hI⟩
  | later hsome _ ih =>
    obtain ⟨a, ha⟩ := hsome
    obtain ⟨acts, hacts, hI⟩ := ih a ha
    exact ⟨a :: acts, ⟨ha, hacts⟩, hI⟩

/-- Where every enabled act keeps `J` and lowers a measure, and one is enabled as long as `I`
does not hold, `I` is inevitable. -/
theorem of_measure {J : σ → Prop} (measure : σ → Nat) (hsome : ∀ s, J s → ¬ I s → ∃ a, enabled s a)
    (hkeep : ∀ s a, J s → ¬ I s → enabled s a → J (next s a))
    (hlower : ∀ s a, J s → ¬ I s → enabled s a → measure (next s a) < measure s) (hs : J s) :
    Inevitably next enabled I s := by
  induction hn : measure s using Nat.strongRecOn generalizing s with
  | ind n ih =>
    by_cases hI : I s
    · exact .now hI
    · apply Inevitably.later (hsome s hs hI)
      intro a ha
      have hlt := hlower s a hs hI ha
      rw [hn] at hlt
      exact ih _ hlt (hkeep s a hs hI ha) rfl

end Inevitably

end StepRun
