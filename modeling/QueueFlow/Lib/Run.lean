-- SUMMARY: Runs of a partial step function, restricted to steps that meet a condition, and the invariant rule.
import Mathlib.Tactic.TypeStar

/-!
# Runs

A system is given by an executable step function `step : σ → α → Option σ`,
where `none` says that the action is not enabled. A `Run` is a finite sequence
of steps, each of which meets a condition `ok` on the state it starts from and
on its action. The condition carries what a theorem assumes of an environment:
which actions may occur at all, and in which states.
-/

namespace Transition

variable {σ α : Type*} {step : σ → α → Option σ} {ok ok' : σ → α → Prop} {s t u : σ}

/-- `t` is reached from `s` by steps that all meet `ok`. -/
inductive Run (step : σ → α → Option σ) (ok : σ → α → Prop) (s : σ) : σ → Prop where
  | refl : Run step ok s s
  | tail {t u : σ} (a : α) : Run step ok s t → ok t a → step t a = some u → Run step ok s u

/-- The condition that every step meets. -/
def always : σ → α → Prop := fun _ _ => True

namespace Run

theorem single {a : α} (hok : ok s a) (h : step s a = some t) : Run step ok s t :=
  .tail a .refl hok h

theorem trans (h : Run step ok s t) (h' : Run step ok t u) : Run step ok s u := by
  induction h' with
  | refl => exact h
  | tail a _ hok hstep ih => exact .tail a ih hok hstep

/-- A run under a stronger condition is a run under a weaker one. -/
theorem mono (hle : ∀ s a, ok s a → ok' s a) (h : Run step ok s t) : Run step ok' s t := by
  induction h with
  | refl => exact .refl
  | tail a _ hok hstep ih => exact .tail a ih (hle _ _ hok) hstep

/-- What the first state has and every step preserves, the last state has. -/
theorem invariant {P : σ → Prop} (h : Run step ok s t) (hs : P s)
    (hstep : ∀ t a u, P t → ok t a → step t a = some u → P u) : P t := by
  induction h with
  | refl => exact hs
  | tail a _ hok hst ih => exact hstep _ a _ ih hok hst

end Run

/-! ## Observers -/

variable {β : Type*} {note : σ → α → σ → β → β} {b c : β}

/-- The system together with an observer, who changes a record at every step and
influences nothing. -/
def observe (step : σ → α → Option σ) (note : σ → α → σ → β → β) :
    σ × β → α → Option (σ × β) :=
  fun p a => (step p.1 a).map fun t => (t, note p.1 a t p.2)

theorem observe_cases {p q : σ × β} {a : α} (h : observe step note p a = some q) :
    step p.1 a = some q.1 ∧ q.2 = note p.1 a q.1 p.2 := by
  obtain ⟨t, ht, rfl⟩ := Option.map_eq_some_iff.mp h
  exact ⟨ht, rfl⟩

/-- The runs of a system whose observer starts from the record `b`. -/
abbrev Observed (step : σ → α → Option σ) (ok : σ → α → Prop) (note : σ → α → σ → β → β)
    (s : σ) (b : β) (t : σ) (c : β) : Prop :=
  Run (observe step note) (fun p a => ok p.1 a) (s, b) (t, c)

/-- Every run can be observed. -/
theorem Run.observed (h : Run step ok s t) (note : σ → α → σ → β → β) (b : β) :
    ∃ c, Observed step ok note s b t c := by
  induction h with
  | refl => exact ⟨b, .refl⟩
  | @tail t u a _ hok hstep ih =>
    obtain ⟨c, hc⟩ := ih
    exact ⟨note t a u c, .tail a hc hok (by simp [observe, hstep])⟩

/-- What is observed is a run. -/
theorem Observed.run (h : Observed step ok note s b t c) : Run step ok s t := by
  have hrun : ∀ p q : σ × β, Run (observe step note) (fun p a => ok p.1 a) p q →
      Run step ok p.1 q.1 := by
    intro p q h
    induction h with
    | refl => exact .refl
    | tail a _ hok hstep ih => exact .tail a ih hok (observe_cases hstep).1
  exact hrun _ _ h

/-- What holds at first and is kept by every step holds of every state and its record. -/
theorem Observed.invariant {P : σ → β → Prop} (h : Observed step ok note s b t c) (hs : P s b)
    (hstep : ∀ t c a u, P t c → ok t a → step t a = some u → P u (note t a u c)) : P t c :=
  Run.invariant (P := fun p => P p.1 p.2) h hs fun p a q hP hok hq => by
    obtain ⟨hst, hnote⟩ := observe_cases hq
    rw [hnote]
    exact hstep p.1 p.2 a q.1 hP hok hst

/-- The observer who writes down what `f` sees of every state, the latest first. -/
def logging (f : σ → β) (_ : σ) (_ : α) (t : σ) (log : List β) : List β := f t :: log

/-! ## Companions -/

variable {γ : Type*} {keep : σ → α × γ → σ → β → Option β}

/-- The system together with an observer who makes a choice of his own at every step, which he may
refuse to make. -/
def accompany (step : σ → α → Option σ) (keep : σ → α × γ → σ → β → Option β) :
    σ × β → α × γ → Option (σ × β) :=
  fun p a => (step p.1 a.1).bind fun t => (keep p.1 a t p.2).map fun c => (t, c)

theorem accompany_cases {p q : σ × β} {a : α × γ} (h : accompany step keep p a = some q) :
    step p.1 a.1 = some q.1 ∧ keep p.1 a q.1 p.2 = some q.2 := by
  obtain ⟨t, ht, h⟩ := Option.bind_eq_some_iff.mp h
  obtain ⟨c, hc, rfl⟩ := Option.map_eq_some_iff.mp h
  exact ⟨ht, hc⟩

/-- Every run can be accompanied where an invariant leaves a choice at every step. -/
theorem Run.accompanied {P : σ → β → Prop} (h : Run step ok s t) (hs : P s b)
    (hkeep : ∀ t c a u, P t c → step t a = some u → ∃ g d, keep t (a, g) u c = some d ∧ P u d) :
    ∃ c, Run (accompany step keep) always (s, b) (t, c) ∧ P t c := by
  induction h with
  | refl => exact ⟨b, .refl, hs⟩
  | @tail t u a _ _ hstep ih =>
    obtain ⟨c, hc, hP⟩ := ih
    obtain ⟨g, d, hd, hPd⟩ := hkeep t c a u hP hstep
    exact ⟨d, .tail (a, g) hc trivial (by simp [accompany, hstep, hd]), hPd⟩

/-! ## Runs to the end -/

/-- A run after which no permitted action is enabled any more. -/
structure Completes (step : σ → α → Option σ) (ok : σ → α → Prop) (s t : σ) : Prop where
  run : Run step ok s t
  ended : ∀ a, ok t a → step t a = none

theorem Completes.of_run (h : Run step ok s t) (h' : Completes step ok t u) :
    Completes step ok s u :=
  ⟨h.trans h'.run, h'.ended⟩

/-- A run that is not empty has a first step. -/
theorem Run.head_cases (h : Run step ok s t) :
    s = t ∨ ∃ a u, ok s a ∧ step s a = some u ∧ Run step ok u t := by
  induction h with
  | refl => exact .inl rfl
  | @tail t u a _ hok hstep ih =>
    rcases ih with rfl | ⟨b, v, hokb, hstepb, hrun⟩
    · exact .inr ⟨a, u, hok, hstep, .refl⟩
    · exact .inr ⟨b, v, hokb, hstepb, .tail a hrun hok hstep⟩

/-- Where every state permits at most one action, of two runs from one state one
continues the other. -/
theorem Run.comparable (hdet : ∀ s a b, ok s a → ok s b → a = b) (h : Run step ok s t)
    (h' : Run step ok s u) : Run step ok t u ∨ Run step ok u t := by
  induction h' with
  | refl => exact .inr h
  | @tail u v a _ hok hstep ih =>
    rcases ih with ih | ih
    · exact .inl (.tail a ih hok hstep)
    · rcases ih.head_cases with rfl | ⟨b, w, hokb, hstepb, hrun⟩
      · exact .inl (.single hok hstep)
      · obtain rfl := hdet _ _ _ hok hokb
        obtain rfl := Option.some.inj (hstep.symm.trans hstepb)
        exact .inr hrun

/-- Where every state permits at most one action, runs to the end meet. -/
theorem Completes.unique (hdet : ∀ s a b, ok s a → ok s b → a = b)
    (h : Completes step ok s t) (h' : Completes step ok s u) : t = u := by
  have hend : ∀ {t u}, (∀ a, ok t a → step t a = none) → Run step ok t u → t = u := by
    intro t u hended hrun
    rcases hrun.head_cases with heq | ⟨a, v, hok, hstep, -⟩
    · exact heq
    · rw [hended a hok] at hstep
      cases hstep
  rcases h.run.comparable hdet h'.run with hrun | hrun
  · exact hend h.ended hrun
  · exact (hend h'.ended hrun).symm

/-! ## Executing a list of actions -/

/-- Take the listed actions in order, refusing a step that does not meet `ok`. -/
def execute (step : σ → α → Option σ) (ok : σ → α → Prop) [∀ s a, Decidable (ok s a)] :
    σ → List α → Option σ
  | s, [] => some s
  | s, a :: as => if ok s a then (step s a).bind fun t => execute step ok t as else none

instance : ∀ (s : σ) (a : α), Decidable (always s a) := fun _ _ => isTrue trivial

theorem Run.of_execute [∀ s a, Decidable (ok s a)] {as : List α}
    (h : execute step ok s as = some t) : Run step ok s t := by
  induction as generalizing s with
  | nil => cases h; exact .refl
  | cons a as ih =>
    simp only [execute] at h
    split at h
    · rename_i hok
      obtain ⟨u, hu, hrest⟩ := Option.bind_eq_some_iff.mp h
      exact (Run.single hok hu).trans (ih hrest)
    · cases h

/-- Two lists of actions, one after the other, with a property of the states they end in. -/
theorem exists_runs_of_execute [∀ s a, Decidable (ok s a)] {P : σ → σ → Prop}
    [∀ t u, Decidable (P t u)] (as bs : List α)
    (h : (execute step ok s as).any (fun t =>
      (execute step ok t bs).any fun u => decide (P t u)) = true) :
    ∃ t u, Run step ok s t ∧ Run step ok t u ∧ P t u := by
  obtain ⟨t, ht, h⟩ := (Option.any_eq_true _ _).mp h
  obtain ⟨u, hu, hP⟩ := (Option.any_eq_true _ _).mp h
  exact ⟨t, u, .of_execute ht, .of_execute hu, of_decide_eq_true hP⟩

/-- Take a list of cues in order, each of which stands for an action in the state it comes to. -/
def perform (step : σ → α → Option σ) (ok : σ → α → Prop) [∀ s a, Decidable (ok s a)]
    (resolve : σ → γ → Option α) : σ → List γ → Option σ
  | s, [] => some s
  | s, g :: gs => (resolve s g).bind fun a =>
      if ok s a then (step s a).bind fun t => perform step ok resolve t gs else none

theorem Run.of_perform [∀ s a, Decidable (ok s a)] {resolve : σ → γ → Option α} {gs : List γ}
    (h : perform step ok resolve s gs = some t) : Run step ok s t := by
  induction gs generalizing s with
  | nil => cases h; exact .refl
  | cons g gs ih =>
    obtain ⟨a, -, h⟩ := Option.bind_eq_some_iff.mp h
    obtain ⟨hok, h⟩ := Option.ite_none_right_eq_some.mp h
    obtain ⟨u, hu, h⟩ := Option.bind_eq_some_iff.mp h
    exact (Run.single hok hu).trans (ih h)

/-- Cues that end in a state with a property are a run to such a state. -/
theorem exists_run_of_perform [∀ s a, Decidable (ok s a)] {f : σ → γ → Option α}
    {P : σ → Prop} [DecidablePred P] (gs : List γ)
    (h : (perform step ok f s gs).any (fun t => decide (P t)) = true) :
    ∃ t, Run step ok s t ∧ P t := by
  obtain ⟨t, ht, hP⟩ := (Option.any_eq_true _ _).mp h
  exact ⟨t, .of_perform ht, of_decide_eq_true hP⟩

/-- The same for a run in two parts, each under a condition of its own. -/
theorem exists_runs_of_perform {ok' : σ → α → Prop} [∀ s a, Decidable (ok s a)] [∀ s a, Decidable (ok' s a)]
    {f : σ → γ → Option α} {P Q : σ → Prop} [DecidablePred P] [DecidablePred Q] (gs gs' : List γ)
    (h : (perform step ok f s gs).any (fun t => decide (P t) &&
      (perform step ok' f t gs').any fun u => decide (Q u)) = true) :
    ∃ t u, Run step ok s t ∧ P t ∧ Run step ok' t u ∧ Q u := by
  obtain ⟨t, ht, h⟩ := (Option.any_eq_true _ _).mp h
  obtain ⟨hP, h⟩ := (Bool.and_eq_true _ _).mp h
  obtain ⟨u, hu, hQ⟩ := (Option.any_eq_true _ _).mp h
  exact ⟨t, u, .of_perform ht, of_decide_eq_true hP, .of_perform hu, of_decide_eq_true hQ⟩

/-- The same for a run in two parts with one action between them. -/
theorem exists_step_of_perform [∀ s a, Decidable (ok s a)] {f : σ → γ → Option α} {a : α}
    {Q : σ → σ → Prop} [∀ t u, Decidable (Q t u)] (gs gs' : List γ)
    (h : (perform step ok f s gs).any (fun t => decide (ok t a) && (step t a).any fun t₁ =>
      (perform step ok f t₁ gs').any fun u => decide (Q t u)) = true) :
    ∃ t t₁ u, Run step ok s t ∧ ok t a ∧ step t a = some t₁ ∧ Run step ok t₁ u ∧ Q t u := by
  obtain ⟨t, ht, h⟩ := (Option.any_eq_true _ _).mp h
  obtain ⟨hok, h⟩ := (Bool.and_eq_true _ _).mp h
  obtain ⟨t₁, ht₁, h⟩ := (Option.any_eq_true _ _).mp h
  obtain ⟨u, hu, hQ⟩ := (Option.any_eq_true _ _).mp h
  exact ⟨t, t₁, u, .of_perform ht, of_decide_eq_true hok, ht₁, .of_perform hu, of_decide_eq_true hQ⟩

end Transition
