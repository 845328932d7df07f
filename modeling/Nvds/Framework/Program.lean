import Mathlib.Logic.Basic

/-! # Stateful programs that may fault

    A program threads a state and either returns a value or stops with a
    fault. The file collects the rules the developments above it reason
    with:

    * running a sequence step by step (`bind_of_ok`) and taking a
      successful run apart again (`bind_eq_ok`);
    * `Respects R`: every successful run relates its two end states by the
      preorder `R`, a property that composes along `>>=`;
    * `Caught`: programs whose state survives a fault.
-/

namespace Program

/-- A program over states `σ` with faults `ε`. -/
abbrev Prog (σ ε α : Type) := StateT σ (Except ε) α

variable {σ ε α β : Type}

/-! ### Sequencing -/

theorem pure_run (a : α) (s : σ) : (pure a : Prog σ ε α) s = .ok (a, s) := rfl

/-- Run the first half of a sequence. -/
theorem bind_of_ok {c : Prog σ ε α} {f : α → Prog σ ε β} {s s' : σ} {a : α}
    (h : c s = .ok (a, s')) : (c >>= f) s = f a s' := by
  show (c s >>= fun p => f p.1 p.2) = f a s'
  rw [h]
  rfl

theorem bind_of_error {c : Prog σ ε α} {f : α → Prog σ ε β} {s : σ} {e : ε}
    (h : c s = .error e) : (c >>= f) s = .error e := by
  show (c s >>= fun p => f p.1 p.2) = .error e
  rw [h]
  rfl

/-- A sequence succeeds exactly when both halves do. -/
theorem bind_eq_ok {c : Prog σ ε α} {f : α → Prog σ ε β} {s s'' : σ} {b : β} :
    (c >>= f) s = .ok (b, s'') ↔ ∃ a s', c s = .ok (a, s') ∧ f a s' = .ok (b, s'') := by
  constructor
  · intro h
    cases hc : c s with
    | error e => rw [bind_of_error hc] at h; cases h
    | ok p =>
      obtain ⟨a, s'⟩ := p
      rw [bind_of_ok hc] at h
      exact ⟨a, s', rfl, h⟩
  · rintro ⟨a, s', hc, hf⟩
    rw [bind_of_ok hc, hf]

/-! ### Relations kept by every successful run -/

/-- Every successful run of `c` relates its start and end state by `R`. -/
def Respects (R : σ → σ → Prop) (c : Prog σ ε α) : Prop :=
  ∀ ⦃s a s'⦄, c s = .ok (a, s') → R s s'

theorem Respects.pure {R : σ → σ → Prop} (hrefl : ∀ s, R s s) (a : α) :
    Respects R (pure a : Prog σ ε α) := by
  intro s b s' h
  rw [pure_run] at h
  cases h
  exact hrefl s

theorem Respects.bind {R : σ → σ → Prop} (htrans : ∀ s t u, R s t → R t u → R s u)
    {c : Prog σ ε α} {f : α → Prog σ ε β} (hc : Respects R c) (hf : ∀ a, Respects R (f a)) :
    Respects R (c >>= f) := by
  intro s b s'' h
  obtain ⟨a, s', h₁, h₂⟩ := bind_eq_ok.mp h
  exact htrans _ _ _ (hc h₁) (hf a h₂)

theorem Respects.ite {R : σ → σ → Prop} {p : Prop} [Decidable p] {c d : Prog σ ε α}
    (hc : Respects R c) (hd : Respects R d) : Respects R (if p then c else d) := by
  split
  · exact hc
  · exact hd

/-! ### Faults that keep the state -/

/-- A program whose state survives a fault, for callers that catch it. -/
abbrev Caught (σ ε α : Type) := ExceptT ε (StateM σ) α

theorem caught_of_ok {c : Caught σ ε α} {f : α → Caught σ ε β} {s s' : σ} {a : α}
    (h : c s = (.ok a, s')) : (c >>= f) s = f a s' := by
  show ExceptT.bindCont f (c s).1 (c s).2 = f a s'
  rw [h]
  rfl

theorem caught_of_error {c : Caught σ ε α} {f : α → Caught σ ε β} {s s' : σ} {e : ε}
    (h : c s = (.error e, s')) : (c >>= f) s = (.error e, s') := by
  show ExceptT.bindCont f (c s).1 (c s).2 = (.error e, s')
  rw [h]
  rfl

end Program
