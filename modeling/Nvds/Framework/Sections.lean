import Mathlib.Logic.Function.Basic

/-! # Critical sections

    A section is a program of single loads and stores. Several threads are
    inside of sections of their own at the same time, and their accesses are
    interleaved. As long as the sections touch different cells, each of them
    may be taken to have happened in one go when its thread entered it:
    `Pending` relates the memory as it is to the memory with all sections
    done, and says what entering, an access and leaving do to the two.
-/

namespace Sections

variable {Loc Val α ι : Type}

/-! ### Programs of accesses -/

/-- What is left of a section, with the result in the end. -/
inductive Code (Loc Val α : Type) where
  | ret (a : α)
  | load (x : Loc) (k : Val → Code Loc Val α)
  | store (x : Loc) (v : Val) (k : Code Loc Val α)

namespace Code

variable [DecidableEq Loc]

/-- The result and the memory when nobody interferes. -/
def run (m : Loc → Val) : Code Loc Val α → α × (Loc → Val)
  | .ret a => (a, m)
  | .load x k => (k (m x)).run m
  | .store x v k => k.run (Function.update m x v)

/-- The cells that are accessed on the way, in this order. -/
def footprint (m : Loc → Val) : Code Loc Val α → List Loc
  | .ret _ => []
  | .load x k => x :: (k (m x)).footprint m
  | .store x v k => x :: k.footprint (Function.update m x v)

/-- One access. -/
inductive Access (m : Loc → Val) : Code Loc Val α → (Loc → Val) → Code Loc Val α → Prop
  | load {x : Loc} {k : Val → Code Loc Val α} : Access m (.load x k) m (k (m x))
  | store {x : Loc} {v : Val} {k : Code Loc Val α} :
      Access m (.store x v k) (Function.update m x v) k

variable {m m' : Loc → Val} {k k' : Code Loc Val α}

/-- A section leaves all cells alone that it does not access. -/
theorem run_of_notMem {x : Loc} (h : x ∉ k.footprint m) : (k.run m).2 x = m x := by
  induction k generalizing m with
  | ret a => rfl
  | load y k ih => exact ih (m y) (List.not_mem_of_not_mem_cons h)
  | store y v k ih =>
    have hy : x ≠ y := List.ne_of_not_mem_cons h
    calc (k.run (Function.update m y v)).2 x
      _ = Function.update m y v x := ih (List.not_mem_of_not_mem_cons h)
      _ = m x := Function.update_of_ne hy v m

/-- Memories that agree on a list of cells still do so after a store. -/
theorem update_congr {xs : List Loc} {y : Loc} {v : Val} (h : ∀ x ∈ y :: xs, m' x = m x) :
    ∀ x ∈ xs, Function.update m' y v x = Function.update m y v x := by
  intro x hx
  by_cases hy : x = y
  · subst hy
    rw [Function.update_self, Function.update_self]
  · rw [Function.update_of_ne hy, Function.update_of_ne hy]
    exact h x (List.mem_cons_of_mem y hx)

theorem footprint_congr (h : ∀ x ∈ k.footprint m, m' x = m x) :
    k.footprint m' = k.footprint m := by
  induction k generalizing m m' with
  | ret a => rfl
  | load y k ih =>
    have hy : m' y = m y := h y List.mem_cons_self
    simp only [footprint, hy]
    rw [ih (m y) fun x hx => h x (List.mem_cons_of_mem y hx)]
  | store y v k ih =>
    simp only [footprint]
    rw [ih (update_congr h)]

/-- The result depends on the cells only that are accessed. -/
theorem result_congr (h : ∀ x ∈ k.footprint m, m' x = m x) : (k.run m').1 = (k.run m).1 := by
  induction k generalizing m m' with
  | ret a => rfl
  | load y k ih =>
    have hy : m' y = m y := h y List.mem_cons_self
    simp only [run, hy]
    exact ih (m y) fun x hx => h x (List.mem_cons_of_mem y hx)
  | store y v k ih => exact ih (update_congr h)

/-- So do the values that are left in them. -/
theorem run_congr (h : ∀ x ∈ k.footprint m, m' x = m x) {x : Loc} (hx : x ∈ k.footprint m) :
    (k.run m').2 x = (k.run m).2 x := by
  induction k generalizing m m' with
  | ret a => simp [footprint] at hx
  | load y k ih =>
    have hy : m' y = m y := h y List.mem_cons_self
    have hrest : ∀ z ∈ (k (m y)).footprint m, m' z = m z :=
      fun z hz => h z (List.mem_cons_of_mem y hz)
    simp only [run, hy]
    by_cases hmem : x ∈ (k (m y)).footprint m
    · exact ih (m y) hrest hmem
    · -- the cell is not accessed again
      have hmem' : x ∉ (k (m y)).footprint m' := by rwa [footprint_congr hrest]
      rw [run_of_notMem hmem, run_of_notMem hmem', h x hx]
  | store y v k ih =>
    have hrest := update_congr (v := v) h
    simp only [run]
    by_cases hmem : x ∈ k.footprint (Function.update m y v)
    · exact ih hrest hmem
    · have hmem' : x ∉ k.footprint (Function.update m' y v) := by rwa [footprint_congr hrest]
      have hxy : x = y := (List.mem_cons.mp hx).resolve_right hmem
      rw [run_of_notMem hmem, run_of_notMem hmem', hxy, Function.update_self, Function.update_self]

namespace Access

variable {m₁ : Loc → Val} {k₁ : Code Loc Val α}

theorem run_eq (h : Access m k m₁ k₁) : k₁.run m₁ = k.run m := by
  cases h with
  | load => rfl
  | store => rfl

/-- An access takes the first cell off the footprint. -/
theorem footprint_eq (h : Access m k m₁ k₁) : ∃ x, k.footprint m = x :: k₁.footprint m₁ ∧
    ∀ y, y ≠ x → m₁ y = m y := by
  cases h with
  | @load x k => exact ⟨x, rfl, fun _ _ => rfl⟩
  | @store x v k => exact ⟨x, rfl, fun y hy => Function.update_of_ne hy v m⟩

theorem frame (h : Access m k m₁ k₁) {x : Loc} (hx : x ∉ k.footprint m) : m₁ x = m x := by
  obtain ⟨y, hy, hrest⟩ := h.footprint_eq
  apply hrest
  rintro rfl
  simp [hy] at hx

end Access

end Code

/-! ### Sections that are pending -/

variable [DecidableEq Loc]

/-- The threads are inside of `code`, which touch different cells, and `m'` is the memory `m`
    with all of them done. -/
structure Pending (m : Loc → Val) (code : ι → Option (Code Loc Val α)) (m' : Loc → Val) : Prop where
  apart : ∀ i j k k', i ≠ j → code i = some k → code j = some k' →
    ∀ x ∈ k.footprint m, x ∉ k'.footprint m
  done : ∀ i k, code i = some k → ∀ x ∈ k.footprint m, m' x = (k.run m).2 x
  rest : ∀ x, (∀ i k, code i = some k → x ∉ k.footprint m) → m' x = m x

namespace Pending

variable {m m' : Loc → Val} {code : ι → Option (Code Loc Val α)} {i : ι} {k : Code Loc Val α}

/-- When no thread is inside of a section there is nothing to be done. -/
theorem eq_of_none (h : Pending m code m') (hnone : ∀ i, code i = none) : m' = m := by
  funext x
  apply h.rest
  intro i k hk
  rw [hnone i] at hk
  cases hk

theorem idle (hnone : ∀ i, code i = none) : Pending m code m where
  apart i j k k' _ hk := by rw [hnone i] at hk; cases hk
  done i k hk := by rw [hnone i] at hk; cases hk
  rest _ _ := rfl

/-- Memory that changes outside of all sections. -/
theorem change {m₁ m₁' : Loc → Val} (h : Pending m code m')
    (hin : ∀ i k, code i = some k → ∀ x ∈ k.footprint m, m₁ x = m x ∧ m₁' x = m' x)
    (hout : ∀ x, (∀ i k, code i = some k → x ∉ k.footprint m) → m₁' x = m₁ x) :
    Pending m₁ code m₁' := by
  have hfoot : ∀ i k, code i = some k → k.footprint m₁ = k.footprint m := fun i k hk =>
    Code.footprint_congr fun x hx => (hin i k hk x hx).1
  refine ⟨?_, ?_, ?_⟩
  · intro i j k k' hij hk hk'
    rw [hfoot i k hk, hfoot j k' hk']
    exact h.apart i j k k' hij hk hk'
  · intro i k hk x hx
    rw [hfoot i k hk] at hx
    rw [(hin i k hk x hx).2, h.done i k hk x hx]
    exact (Code.run_congr (fun y hy => (hin i k hk y hy).1) hx).symm
  · intro x hx
    apply hout
    intro i k hk
    rw [← hfoot i k hk]
    exact hx i k hk

/-- The accesses of one thread do not change what the others are about to do. -/
theorem others (h : Pending m code m') {m₁ : Loc → Val} {k₁ : Code Loc Val α}
    (hk : code i = some k) (hstep : k.Access m m₁ k₁) {j : ι} {k' : Code Loc Val α} (hj : j ≠ i)
    (hk' : code j = some k') : ∀ x ∈ k'.footprint m, m₁ x = m x :=
  fun x hx => hstep.frame (h.apart j i k' k hj hk' hk x hx)

/-- The section that a thread enters touches no cell that another one is about to touch, so the
    thread finds there what it would find if all sections were done. -/
theorem begin_agrees (h : Pending m code m')
    (hapart : ∀ j k', code j = some k' → ∀ x ∈ k.footprint m', x ∉ k'.footprint m) :
    ∀ x ∈ k.footprint m', m x = m' x := by
  intro x hx
  refine (h.rest x ?_).symm
  intro j k' hk'
  exact hapart j k' hk' x hx

variable [DecidableEq ι]

/-- A thread inside of its section makes an access. -/
theorem access (h : Pending m code m') {m₁ : Loc → Val} {k₁ : Code Loc Val α}
    (hk : code i = some k) (hstep : k.Access m m₁ k₁) :
    Pending m₁ (Function.update code i (some k₁)) m' := by
  obtain ⟨x₀, hfoot, _⟩ := hstep.footprint_eq
  -- what the other threads are about to touch is as before
  have hother : ∀ j k', j ≠ i → code j = some k' → k'.footprint m₁ = k'.footprint m :=
    fun j k' hj hk' => Code.footprint_congr (h.others hk hstep hj hk')
  have hsub : ∀ x ∈ k₁.footprint m₁, x ∈ k.footprint m := by
    intro x hx
    rw [hfoot]
    exact List.mem_cons_of_mem x₀ hx
  refine ⟨?_, ?_, ?_⟩
  -- footprints only shrink, so they stay apart
  · intro j j' l l' hjj' hl hl' x hx
    by_cases hj : j = i
    · subst hj
      rw [Function.update_self] at hl
      cases hl
      rw [Function.update_of_ne hjj'.symm] at hl'
      rw [hother j' l' hjj'.symm hl']
      exact h.apart j j' k l' hjj' hk hl' x (hsub x hx)
    · rw [Function.update_of_ne hj] at hl
      rw [hother j l hj hl] at hx
      by_cases hj' : j' = i
      · subst hj'
        rw [Function.update_self] at hl'
        cases hl'
        intro hmem
        exact h.apart j j' l k hjj' hl hk x hx (hsub x hmem)
      · rw [Function.update_of_ne hj'] at hl'
        rw [hother j' l' hj' hl']
        exact h.apart j j' l l' hjj' hl hl' x hx
  · intro j l hl x hx
    by_cases hj : j = i
    · subst hj
      rw [Function.update_self] at hl
      cases hl
      rw [hstep.run_eq]
      exact h.done j k hk x (hsub x hx)
    · rw [Function.update_of_ne hj] at hl
      rw [hother j l hj hl] at hx
      rw [Code.run_congr (h.others hk hstep hj hl) hx]
      exact h.done j l hl x hx
  · intro x hx
    have hx₁ : x ∉ k₁.footprint m₁ := hx i k₁ (Function.update_self ..)
    by_cases hmem : x ∈ k.footprint m
    · -- the cell has been accessed for the last time
      rw [h.done i k hk x hmem, ← hstep.run_eq, Code.run_of_notMem hx₁]
    · rw [hstep.frame hmem]
      apply h.rest
      intro j l hl
      by_cases hj : j = i
      · subst hj
        rw [hk] at hl
        cases hl
        exact hmem
      · rw [← hother j l hj hl]
        exact hx j l (by rw [Function.update_of_ne hj]; exact hl)

/-- A thread enters a section. -/
theorem begin (h : Pending m code m') (hi : code i = none)
    (hapart : ∀ j k', code j = some k' → ∀ x ∈ k.footprint m', x ∉ k'.footprint m) :
    Pending m (Function.update code i (some k)) (k.run m').2 := by
  have hagree := h.begin_agrees hapart
  have hfoot := Code.footprint_congr hagree
  have hne : ∀ {j k'}, code j = some k' → j ≠ i := by
    rintro j k' hk' rfl
    rw [hi] at hk'
    cases hk'
  -- only thread `i` runs something new, on cells that nobody else is to touch
  refine ⟨?_, ?_, ?_⟩
  · intro j j' l l' hjj' hl hl' x hx
    by_cases hj : j = i
    · subst hj
      rw [Function.update_self] at hl
      cases hl
      rw [Function.update_of_ne hjj'.symm] at hl'
      rw [hfoot] at hx
      exact hapart j' l' hl' x hx
    · rw [Function.update_of_ne hj] at hl
      by_cases hj' : j' = i
      · subst hj'
        rw [Function.update_self] at hl'
        cases hl'
        rw [hfoot]
        intro hmem
        exact hapart j l hl x hmem hx
      · rw [Function.update_of_ne hj'] at hl'
        exact h.apart j j' l l' hjj' hl hl' x hx
  · intro j l hl x hx
    by_cases hj : j = i
    · subst hj
      rw [Function.update_self] at hl
      cases hl
      rw [hfoot] at hx
      exact (Code.run_congr hagree hx).symm
    · rw [Function.update_of_ne hj] at hl
      have hmem : x ∉ k.footprint m' := fun hmem => hapart j l hl x hmem hx
      rw [Code.run_of_notMem hmem]
      exact h.done j l hl x hx
  · intro x hx
    have hmem : x ∉ k.footprint m' := by
      rw [← hfoot]
      exact hx i k (Function.update_self ..)
    rw [Code.run_of_notMem hmem]
    apply h.rest
    intro j l hl
    exact hx j l (by rw [Function.update_of_ne (hne hl)]; exact hl)

/-- A thread leaves its section. -/
theorem finish (h : Pending m code m') {a : α} (hi : code i = some (.ret a)) :
    Pending m (Function.update code i none) m' := by
  have hsome : ∀ {j k}, Function.update code i none j = some k → code j = some k := by
    intro j k hk
    by_cases hj : j = i
    · subst hj
      rw [Function.update_self] at hk
      cases hk
    · rwa [Function.update_of_ne hj] at hk
  refine ⟨?_, ?_, ?_⟩
  · intro j j' l l' hjj' hl hl'
    exact h.apart j j' l l' hjj' (hsome hl) (hsome hl')
  · intro j l hl
    exact h.done j l (hsome hl)
  · intro x hx
    apply h.rest
    intro j l hl
    by_cases hj : j = i
    · subst hj
      rw [hi] at hl
      cases hl
      simp [Code.footprint]
    · exact hx j l (by rw [Function.update_of_ne hj]; exact hl)

end Pending

end Sections
