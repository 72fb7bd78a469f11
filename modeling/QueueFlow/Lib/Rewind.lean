-- SUMMARY: A system one part of which may be set back to what it was some steps ago.
import QueueFlow.Lib.Run

/-!
# Rewinding

A system keeps part of its state in a store whose last writes may be lost. `rewinding` is the system
together with what its store has held, newest first: `rewind n` sets the store back to what it was `n`
steps ago, and `restore` says what becomes of the rest of the state then.
-/

namespace Transition

variable {σ α β γ : Type*} {step : σ → α → Option σ} {get : σ → β} {restore : σ → β → σ}

inductive Turn (α : Type*) where
  /-- A step of the system. -/
  | act (a : α)
  /-- The store loses what was written in the last `n` steps. -/
  | rewind (n : Nat)

/-- What the store held `n` steps ago. -/
def heldAgo (get : σ → β) (p : σ × List β) (n : Nat) : Option β := (get p.1 :: p.2)[n]?

/-- The system together with what its store has held before, newest first. -/
def rewinding (step : σ → α → Option σ) (get : σ → β) (restore : σ → β → σ) (p : σ × List β) :
    Turn α → Option (σ × List β)
  | .act a => (step p.1 a).map fun t => (t, get p.1 :: p.2)
  | .rewind n => (heldAgo get p n).map fun b => (restore p.1 b, p.2.drop n)

variable {p q : σ × List β} {ok : σ × List β → Turn α → Prop}

theorem rewinding_act {a : α} (h : rewinding step get restore p (.act a) = some q) :
    step p.1 a = some q.1 := by
  obtain ⟨t, ht, rfl⟩ := Option.map_eq_some_iff.mp h
  exact ht

theorem rewinding_rewind {n : Nat} (h : rewinding step get restore p (.rewind n) = some q) :
    ∃ b, heldAgo get p n = some b ∧ q.1 = restore p.1 b := by
  obtain ⟨b, hb, rfl⟩ := Option.map_eq_some_iff.mp h
  exact ⟨b, hb, rfl⟩

/-- What every step keeps and every restart re-establishes holds of the last state. -/
theorem Run.rewound {P : σ → Prop} (h : Run (rewinding step get restore) ok p q) (hp : P p.1)
    (hstep : ∀ p a t, P p.1 → ok p (.act a) → step p.1 a = some t → P t)
    (hrestore : ∀ p n b, P p.1 → ok p (.rewind n) → heldAgo get p n = some b → P (restore p.1 b)) :
    P q.1 := by
  refine h.invariant (P := fun p => P p.1) hp fun p e q hP hok h => ?_
  cases e with
  | act a => exact hstep p a q.1 hP hok (rewinding_act h)
  | rewind n =>
      obtain ⟨b, hb, heq⟩ := rewinding_rewind h
      rw [heq]
      exact hrestore p n b hP hok hb

end Transition
