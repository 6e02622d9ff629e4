import Mathlib.Tactic.Common

/-! # Handlers of an event-driven server

A handler runs against a state `σ`, performs visible effects `ω` in a definite
order, and either returns a value or stops early with an `ε` (an exception, the
end of the process).  Unlike `Except` over `StateM`, an early stop keeps the
state and the effects reached so far: a server that throws half-way through a
handler has already sent what it sent and written what it wrote.

The second half is the proof side.  A *law* is a relation between the state
before, the effects in between and the state after that holds of doing nothing
and of doing two things in a row (`Law`).  A handler obeys a law (`Obeys`) once
its primitive steps do; the rules below carry that through the control
structure, early stops included.
-/

namespace Handlers

/-- How a handler ended: its result, the state it left, its effects in order. -/
structure Outcome (σ ω ε α : Type) where
  res : Except ε α
  state : σ
  out : List ω

/-- A handler over states `σ`, effects `ω` and early ends `ε`. -/
def Handler (σ ω ε α : Type) : Type := σ → Outcome σ ω ε α

variable {σ ω ε α β : Type}

/-- Continue an outcome with a handler, unless it stopped early. -/
def Outcome.andThen (o : Outcome σ ω ε α) (f : α → Handler σ ω ε β) : Outcome σ ω ε β :=
  match o.res with
  | .ok a => ⟨(f a o.state).res, (f a o.state).state, o.out ++ (f a o.state).out⟩
  | .error e => ⟨.error e, o.state, o.out⟩

namespace Handler

instance : Monad (Handler σ ω ε) where
  pure a := fun s => ⟨.ok a, s, []⟩
  bind x f := fun s => (x s).andThen f

/-- The current state. -/
def look : Handler σ ω ε σ := fun s => ⟨.ok s, s, []⟩

/-- Change the state. -/
def change (f : σ → σ) : Handler σ ω ε Unit := fun s => ⟨.ok (), f s, []⟩

/-- Perform a visible effect. -/
def emit (w : ω) : Handler σ ω ε Unit := fun s => ⟨.ok (), s, [w]⟩

/-- Stop here. -/
def halt (e : ε) : Handler σ ω ε α := fun s => ⟨.error e, s, []⟩

/-- Run `x`; on an early end accepted by `p`, go on with `h`. -/
def rescue (x : Handler σ ω ε α) (p : ε → Bool) (h : Handler σ ω ε α) : Handler σ ω ε α := fun s =>
  match (x s).res with
  | .ok _ => x s
  | .error e => if p e then ⟨(h (x s).state).res, (h (x s).state).state,
      (x s).out ++ (h (x s).state).out⟩ else x s

/-- Run `f` on each element in turn. -/
def forEach (f : α → Handler σ ω ε Unit) : List α → Handler σ ω ε Unit
  | [] => pure ()
  | a :: as => do
    f a
    forEach f as

@[simp] theorem pure_run (a : α) (s : σ) : (pure a : Handler σ ω ε α) s = ⟨.ok a, s, []⟩ := rfl

@[simp] theorem bind_run (x : Handler σ ω ε α) (f : α → Handler σ ω ε β) (s : σ) :
    (x >>= f) s = (x s).andThen f := rfl

@[simp] theorem look_run (s : σ) : (look : Handler σ ω ε σ) s = ⟨.ok s, s, []⟩ := rfl

@[simp] theorem change_run (f : σ → σ) (s : σ) :
    (change f : Handler σ ω ε Unit) s = ⟨.ok (), f s, []⟩ := rfl

@[simp] theorem emit_run (w : ω) (s : σ) :
    (emit w : Handler σ ω ε Unit) s = ⟨.ok (), s, [w]⟩ := rfl

@[simp] theorem halt_run (e : ε) (s : σ) :
    (halt e : Handler σ ω ε α) s = ⟨.error e, s, []⟩ := rfl

@[simp] theorem ite_run (c : Prop) [Decidable c] (x y : Handler σ ω ε α) (s : σ) :
    (if c then x else y) s = if c then x s else y s := by
  split <;> rfl

@[simp] theorem forEach_nil (f : α → Handler σ ω ε Unit) : forEach f [] = pure () := rfl

@[simp] theorem forEach_cons (f : α → Handler σ ω ε Unit) (a : α) (as : List α) :
    forEach f (a :: as) = (f a >>= fun _ => forEach f as) := rfl

end Handler

@[simp] theorem Outcome.andThen_ok (a : α) (s : σ) (o : List ω) (f : α → Handler σ ω ε β) :
    Outcome.andThen ⟨.ok a, s, o⟩ f = ⟨(f a s).res, (f a s).state, o ++ (f a s).out⟩ := rfl

@[simp] theorem Outcome.andThen_error (e : ε) (s : σ) (o : List ω) (f : α → Handler σ ω ε β) :
    Outcome.andThen ⟨.error e, s, o⟩ f = ⟨.error e, s, o⟩ := rfl

theorem Outcome.ext {o o' : Outcome σ ω ε α} (hr : o.res = o'.res) (hs : o.state = o'.state)
    (ho : o.out = o'.out) : o = o' := by
  cases o; cases o'; simp_all

/-- A first part that returns without effects hands over to the rest. -/
theorem Handler.bind_silent {x : Handler σ ω ε α} {a : α} {s t : σ} (h : x s = ⟨.ok a, t, []⟩)
    (f : α → Handler σ ω ε β) : (x >>= f) s = f a t := by
  rw [bind_run, h, Outcome.andThen_ok, List.nil_append]

/-- Sequences of three may be taken either way. -/
theorem Handler.bind_bind {γ : Type} (x : Handler σ ω ε α) (f : α → Handler σ ω ε β)
    (g : β → Handler σ ω ε γ) : (x >>= f) >>= g = x >>= fun a => f a >>= g := by
  funext s
  simp only [Handler.bind_run, Outcome.andThen]
  cases (x s).res with
  | error e => rfl
  | ok a =>
    cases hf : (f a (x s).state).res with
    | error e => simp [hf]
    | ok b => simp [hf, List.append_assoc]

/-- A sequence either stops in its first part or goes on from the state that part
left. -/
theorem Handler.bind_cases (x : Handler σ ω ε α) (f : α → Handler σ ω ε β) (s : σ) :
    (∃ e, (x s).res = .error e ∧ (x >>= f) s = ⟨.error e, (x s).state, (x s).out⟩) ∨
      ∃ a, (x s).res = .ok a ∧ (x >>= f) s =
        ⟨(f a (x s).state).res, (f a (x s).state).state, (x s).out ++ (f a (x s).state).out⟩ := by
  rw [Handler.bind_run, Outcome.andThen]
  cases (x s).res with
  | ok a => exact .inr ⟨a, rfl, rfl⟩
  | error e => exact .inl ⟨e, rfl, rfl⟩

/-- A rescued handler either ends as it is or goes on with the rescue. -/
theorem Handler.rescue_cases (x h : Handler σ ω ε α) (p : ε → Bool) (s : σ) :
    x.rescue p h s = x s ∨ x.rescue p h s =
      ⟨(h (x s).state).res, (h (x s).state).state, (x s).out ++ (h (x s).state).out⟩ := by
  rw [Handler.rescue]
  split
  · exact .inl rfl
  · split
    · exact .inr rfl
    · exact .inl rfl

/-! ## Laws -/

/-- A relation between state, effects and state that holds of doing nothing and
of doing one thing after another. -/
structure Law (R : σ → List ω → σ → Prop) : Prop where
  refl : ∀ s, R s [] s
  trans : ∀ {s t u o o'}, R s o t → R t o' u → R s (o ++ o') u

/-- `x`, run from `s`, does what `R` allows, however it ends. -/
def Obeys (R : σ → List ω → σ → Prop) (s : σ) (x : Handler σ ω ε α) : Prop :=
  R s (x s).out (x s).state

namespace Obeys
open Handler
variable {R : σ → List ω → σ → Prop} {s : σ}

theorem pure (hR : Law R) (a : α) : Obeys R s (pure a : Handler σ ω ε α) := hR.refl s

theorem look (hR : Law R) : Obeys R s (look : Handler σ ω ε σ) := hR.refl s

theorem halt (hR : Law R) (e : ε) : Obeys R s (halt e : Handler σ ω ε α) := hR.refl s

theorem bind (hR : Law R) {x : Handler σ ω ε α} {f : α → Handler σ ω ε β} (hx : Obeys R s x)
    (hf : ∀ a, (x s).res = .ok a → Obeys R (x s).state (f a)) : Obeys R s (x >>= f) := by
  unfold Obeys
  rw [bind_run]
  cases hres : (x s).res with
  | ok a =>
    have hx' : x s = ⟨.ok a, (x s).state, (x s).out⟩ := Outcome.ext hres rfl rfl
    rw [hx', Outcome.andThen_ok]
    exact hR.trans hx (hf a hres)
  | error e =>
    have hx' : x s = ⟨.error e, (x s).state, (x s).out⟩ := Outcome.ext hres rfl rfl
    rw [hx', Outcome.andThen_error]
    exact hx

/-- A handler that first looks at the state sees the state it is run from. -/
theorem look_bind {f : σ → Handler σ ω ε β} (hf : Obeys R s (f s)) :
    Obeys R s (Handler.look >>= f) := hf

theorem change_bind (hR : Law R) {g : σ → σ} {f : Unit → Handler σ ω ε β}
    (hg : R s [] (g s)) (hf : Obeys R (g s) (f ())) : Obeys R s (Handler.change g >>= f) :=
  hR.trans hg hf

theorem emit_bind (hR : Law R) {w : ω} {f : Unit → Handler σ ω ε β}
    (hw : R s [w] s) (hf : Obeys R s (f ())) : Obeys R s (Handler.emit w >>= f) :=
  hR.trans hw hf

theorem ite {c : Prop} [Decidable c] {x y : Handler σ ω ε α} (hx : c → Obeys R s x)
    (hy : ¬ c → Obeys R s y) : Obeys R s (if c then x else y) := by
  split
  · exact hx ‹_›
  · exact hy ‹_›

theorem rescue (hR : Law R) {x h : Handler σ ω ε α} {p : ε → Bool} (hx : Obeys R s x)
    (hh : Obeys R (x s).state h) : Obeys R s (x.rescue p h) := by
  unfold Obeys Handler.rescue
  cases (x s).res with
  | ok a => exact hx
  | error e =>
    by_cases he : p e
    · simp only [he, if_true]
      exact hR.trans hx hh
    · simp only [he]
      exact hx

/-- A loop obeys a law once each round does, from whatever state the rounds
before it left; `I` is what they keep. -/
theorem forEach (hR : Law R) (I : σ → Prop) {f : α → Handler σ ω ε Unit} :
    ∀ {as : List α} {s : σ}, I s →
      (∀ a ∈ as, ∀ s, I s → Obeys R s (f a) ∧ I (f a s).state) → Obeys R s (forEach f as)
  | [], s, _, _ => hR.refl s
  | a :: as, s, hI, hf => by
    have ha := hf a List.mem_cons_self s hI
    rw [forEach_cons]
    exact bind hR ha.1 fun _ _ =>
      forEach hR I ha.2 fun b hb => hf b (List.mem_cons_of_mem _ hb)

end Obeys

/-! ## Paths -/

/-- Going from state to state by steps of `S`, the effects of all in order. -/
inductive Path (S : σ → List ω → σ → Prop) : σ → List ω → σ → Prop
  | refl (s : σ) : Path S s [] s
  | step {s t u : σ} {o o' : List ω} (h : S s o t) (p : Path S t o' u) : Path S s (o ++ o') u

namespace Path
variable {S : σ → List ω → σ → Prop} {s t u : σ} {o o' : List ω}

theorem single (h : S s o t) : Path S s o t := by
  have hp := Path.step h (.refl t)
  rwa [List.append_nil] at hp

theorem trans (h : Path S s o t) (h' : Path S t o' u) : Path S s (o ++ o') u := by
  induction h with
  | refl s => exact h'
  | step hs _ ih =>
    rw [List.append_assoc]
    exact .step hs (ih h')

theorem law : Law (Path S) := ⟨Path.refl, Path.trans⟩

/-- What holds of every step holds of a path. -/
theorem lift {R : σ → List ω → σ → Prop} (hR : Law R) (hS : ∀ s o t, S s o t → R s o t)
    (h : Path S s o t) : R s o t := by
  induction h with
  | refl s => exact hR.refl s
  | step hs _ ih => exact hR.trans (hS _ _ _ hs) ih

end Path

/-! ## Results -/

/-- If `x`, run from `s`, returns, its result and the state it leaves satisfy `Q`. -/
def Returns (s : σ) (x : Handler σ ω ε α) (Q : α → σ → Prop) : Prop :=
  ∀ a, (x s).res = .ok a → Q a (x s).state

namespace Returns
open Handler
variable {s : σ} {Q : α → σ → Prop}

theorem mono {x : Handler σ ω ε α} {P : α → σ → Prop} (h : Returns s x P)
    (hPQ : ∀ a t, P a t → Q a t) : Returns s x Q :=
  fun a ha => hPQ a _ (h a ha)

theorem pure {a : α} (h : Q a s) : Returns s (pure a : Handler σ ω ε α) Q := by
  intro b hb
  cases hb
  exact h

theorem halt (e : ε) : Returns s (halt e : Handler σ ω ε α) Q := by
  intro b hb
  cases hb

theorem look {Q : σ → σ → Prop} (h : Q s s) : Returns s (look : Handler σ ω ε σ) Q := by
  intro b hb
  cases hb
  exact h

/-- A sequence that returns has run its first part to the end. -/
theorem bind {x : Handler σ ω ε α} {f : α → Handler σ ω ε β} {Q : β → σ → Prop}
    (hf : ∀ a, (x s).res = .ok a → Returns (x s).state (f a) Q) : Returns s (x >>= f) Q := by
  intro b hb
  rw [bind_run] at hb ⊢
  cases hres : (x s).res with
  | ok a =>
    have hx' : x s = ⟨.ok a, (x s).state, (x s).out⟩ := Outcome.ext hres rfl rfl
    rw [hx', Outcome.andThen_ok] at hb ⊢
    exact hf a hres b hb
  | error e =>
    have hx' : x s = ⟨.error e, (x s).state, (x s).out⟩ := Outcome.ext hres rfl rfl
    rw [hx', Outcome.andThen_error] at hb
    cases hb

theorem look_bind {f : σ → Handler σ ω ε α} (hf : Returns s (f s) Q) :
    Returns s (Handler.look >>= f) Q :=
  bind fun _ ha => by cases ha; exact hf

theorem change_bind {g : σ → σ} {f : Unit → Handler σ ω ε α} (hf : Returns (g s) (f ()) Q) :
    Returns s (Handler.change g >>= f) Q :=
  bind fun _ _ => hf

theorem emit_bind {w : ω} {f : Unit → Handler σ ω ε α} (hf : Returns s (f ()) Q) :
    Returns s (Handler.emit w >>= f) Q :=
  bind fun _ _ => hf

theorem ite {c : Prop} [Decidable c] {x y : Handler σ ω ε α} (hx : c → Returns s x Q)
    (hy : ¬ c → Returns s y Q) : Returns s (if c then x else y) Q := by
  split
  · exact hx ‹_›
  · exact hy ‹_›

end Returns

/-- `x`, run from `s`, returns, with a result and a state that satisfy `Q`. -/
def Achieves (s : σ) (x : Handler σ ω ε α) (Q : α → σ → Prop) : Prop :=
  ∃ a, (x s).res = .ok a ∧ Q a (x s).state

namespace Achieves
open Handler
variable {s : σ} {Q : α → σ → Prop}

theorem mono {x : Handler σ ω ε α} {P : α → σ → Prop} (h : Achieves s x P)
    (hPQ : ∀ a t, P a t → Q a t) : Achieves s x Q := by
  obtain ⟨a, ha, hP⟩ := h
  exact ⟨a, ha, hPQ a _ hP⟩

theorem pure {a : α} (h : Q a s) : Achieves s (pure a : Handler σ ω ε α) Q := ⟨a, rfl, h⟩

theorem look {Q : σ → σ → Prop} (h : Q s s) : Achieves s (look : Handler σ ω ε σ) Q := ⟨s, rfl, h⟩

theorem bind {x : Handler σ ω ε α} {f : α → Handler σ ω ε β} {P : α → σ → Prop}
    {Q : β → σ → Prop} (hx : Achieves s x P) (hf : ∀ a t, P a t → Achieves t (f a) Q) :
    Achieves s (x >>= f) Q := by
  obtain ⟨a, ha, hP⟩ := hx
  obtain ⟨b, hb, hQ⟩ := hf a _ hP
  have hx' : x s = ⟨.ok a, (x s).state, (x s).out⟩ := Outcome.ext ha rfl rfl
  refine ⟨b, ?_, ?_⟩
  · rw [bind_run, hx', Outcome.andThen_ok]
    exact hb
  · rw [bind_run, hx', Outcome.andThen_ok]
    exact hQ

theorem look_bind {f : σ → Handler σ ω ε α} (hf : Achieves s (f s) Q) :
    Achieves s (Handler.look >>= f) Q := hf

theorem change_bind {g : σ → σ} {f : Unit → Handler σ ω ε α} (hf : Achieves (g s) (f ()) Q) :
    Achieves s (Handler.change g >>= f) Q := hf

theorem emit_bind {w : ω} {f : Unit → Handler σ ω ε α} (hf : Achieves s (f ()) Q) :
    Achieves s (Handler.emit w >>= f) Q := hf

theorem ite {c : Prop} [Decidable c] {x y : Handler σ ω ε α} (hx : c → Achieves s x Q)
    (hy : ¬ c → Achieves s y Q) : Achieves s (if c then x else y) Q := by
  split
  · exact hx ‹_›
  · exact hy ‹_›

/-- A loop returns once each of its rounds does, in any state that satisfies `I`. -/
theorem forEach {I : σ → Prop} {f : α → Handler σ ω ε Unit} :
    ∀ {as : List α} {s : σ}, I s → (∀ a ∈ as, ∀ s, I s → Achieves s (f a) fun _ => I) →
      Achieves s (forEach f as) fun _ => I
  | [], _, hI, _ => pure hI
  | a :: _, s, hI, hf => by
    rw [forEach_cons]
    exact bind (hf a List.mem_cons_self s hI) fun _ _ hI' =>
      forEach hI' fun b hb => hf b (List.mem_cons_of_mem _ hb)

end Achieves

/-- `x` runs to its end from every state. -/
def Total (x : Handler σ ω ε α) : Prop := ∀ s, ∃ a, (x s).res = .ok a

namespace Total
open Handler

theorem pure (a : α) : Total (pure a : Handler σ ω ε α) := fun _ => ⟨a, rfl⟩

theorem change (g : σ → σ) : Total (change g : Handler σ ω ε Unit) := fun _ => ⟨(), rfl⟩

theorem emit (w : ω) : Total (emit w : Handler σ ω ε Unit) := fun _ => ⟨(), rfl⟩

theorem bind {x : Handler σ ω ε α} {f : α → Handler σ ω ε β} (hx : Total x)
    (hf : ∀ a, Total (f a)) : Total (x >>= f) := by
  intro s
  obtain ⟨a, ha⟩ := hx s
  obtain ⟨b, hb⟩ := hf a (x s).state
  refine ⟨b, ?_⟩
  rw [bind_run, Outcome.andThen, ha]
  exact hb

theorem look_bind {f : σ → Handler σ ω ε α} (hf : ∀ s, Total (f s)) :
    Total (Handler.look >>= f) := fun s => hf s s

theorem ite {c : Prop} [Decidable c] {x y : Handler σ ω ε α} (hx : Total x) (hy : Total y) :
    Total (if c then x else y) := by
  split
  · exact hx
  · exact hy

theorem forEach {f : α → Handler σ ω ε Unit} (hf : ∀ a, Total (f a)) :
    ∀ as : List α, Total (forEach f as)
  | [] => pure ()
  | a :: as => bind (hf a) fun _ => forEach hf as

end Total
end Handlers
