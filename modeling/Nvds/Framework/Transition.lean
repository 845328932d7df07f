import Mathlib.Logic.Basic

/-! # Runs of a transition relation

    A system is a predicate on initial states and a labelled step relation.
    `Reachable` collects the states of all its finite runs; `invariant` is
    the rule every safety result of the development goes through.
-/

namespace Transition

variable {State Label : Type}

/-- The states reached by a finite run. -/
inductive Reachable (init : State → Prop) (step : State → Label → State → Prop) : State → Prop
  | init {s : State} : init s → Reachable init step s
  | step {s s' : State} (l : Label) :
      Reachable init step s → step s l s' → Reachable init step s'

variable {init : State → Prop} {step : State → Label → State → Prop}

/-- What holds initially and is kept by every step holds in every reachable state. -/
theorem Reachable.invariant (inv : State → Prop) (hinit : ∀ s, init s → inv s)
    (hstep : ∀ s l s', inv s → step s l s' → inv s') {s : State}
    (h : Reachable init step s) : inv s := by
  induction h with
  | init h => exact hinit _ h
  | step l _ hs ih => exact hstep _ l _ ih hs

/-- **Refinement.** If `f` takes initial states to initial states, and the steps from reachable
    states to runs of the other system, it takes reachable states to reachable states. -/
theorem Reachable.refines {State' Label' : Type} {init' : State' → Prop}
    {step' : State' → Label' → State' → Prop} (f : State → State')
    (hinit : ∀ s, init s → init' (f s))
    (hstep : ∀ s l s', Reachable init step s → step s l s' →
      Reachable init' step' (f s) → Reachable init' step' (f s')) {s : State}
    (h : Reachable init step s) : Reachable init' step' (f s) := by
  induction h with
  | init h => exact .init (hinit _ h)
  | step l hs hstp ih => exact hstep _ l _ hs hstp ih

end Transition
