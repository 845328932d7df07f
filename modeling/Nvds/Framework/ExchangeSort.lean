import Mathlib.Data.List.Basic
import Mathlib.Order.Lattice

/-! # Exchange sort

    The sort of two nested loops: in round `i` the element at position `i` is
    exchanged with every later element that is smaller. Elements are compared
    by a key, so equal keys keep no particular order.
-/

namespace ExchangeSort

variable {α κ : Type} [LinearOrder κ] (key : α → κ)

/-- One round: `x` is at the position of the round and `ys` behind it. The result
    is what ends up at the position and what ends up behind it. -/
def sweep : α → List α → α × List α
  | x, [] => (x, [])
  | x, y :: ys =>
    if key y < key x then
      ((sweep y ys).1, x :: (sweep y ys).2)
    else
      ((sweep x ys).1, y :: (sweep x ys).2)

/-- The first `n` rounds. -/
def sort : Nat → List α → List α
  | n + 1, x :: xs => (sweep key x xs).1 :: sort n (sweep key x xs).2
  | 0, xs => xs
  | _ + 1, [] => []

/-- A round moves elements around. -/
theorem sweep_perm (x : α) (xs : List α) :
    ((sweep key x xs).1 :: (sweep key x xs).2).Perm (x :: xs) := by
  induction xs generalizing x with
  | nil => exact List.Perm.refl _
  | cons y ys ih =>
    rw [sweep]
    split
    · exact (List.Perm.swap _ _ _).trans ((ih y).cons x)
    · exact (List.Perm.swap _ _ _).trans (((ih x).cons y).trans (List.Perm.swap _ _ _))

/-- A round leaves a smallest element at its position. -/
theorem sweep_le (x : α) (xs : List α) : ∀ y ∈ x :: xs, key (sweep key x xs).1 ≤ key y := by
  induction xs generalizing x with
  | nil =>
    intro y hy
    rw [List.mem_singleton.mp hy]
    exact le_rfl
  | cons z zs ih =>
    intro y hy
    rw [sweep]
    split
    · next hlt =>
      have hz := ih z z List.mem_cons_self
      rcases List.mem_cons.mp hy with rfl | hy
      · exact hz.trans hlt.le
      · exact ih z y hy
    · next hge =>
      have hx := ih x x List.mem_cons_self
      rcases List.mem_cons.mp hy with rfl | hy
      · exact hx
      · rcases List.mem_cons.mp hy with rfl | hy
        · exact hx.trans (not_lt.mp hge)
        · exact ih x y (List.mem_cons_of_mem _ hy)

theorem sort_perm (n : Nat) (xs : List α) : (sort key n xs).Perm xs := by
  induction n generalizing xs with
  | zero => cases xs <;> exact List.Perm.refl _
  | succ n ih =>
    cases xs with
    | nil => exact List.Perm.refl _
    | cons x xs => exact ((ih _).cons _).trans (sweep_perm key x xs)

/-- As many rounds as there are elements sort the list. -/
theorem sort_sorted {n : Nat} {xs : List α} (h : xs.length ≤ n) :
    (sort key n xs).Pairwise fun x y => key x ≤ key y := by
  induction n generalizing xs with
  | zero =>
    rw [List.length_eq_zero_iff.mp (Nat.le_zero.mp h)]
    exact List.Pairwise.nil
  | succ n ih =>
    cases xs with
    | nil => exact List.Pairwise.nil
    | cons x xs =>
      have hperm := sweep_perm key x xs
      have hlen := hperm.length_eq
      simp only [List.length_cons] at hlen h
      refine List.pairwise_cons.mpr ⟨?_, ih (by omega)⟩
      intro y hy
      have hy' := (sort_perm key n _).mem_iff.mp hy
      exact sweep_le key x xs y (hperm.mem_iff.mp (List.mem_cons_of_mem _ hy'))

end ExchangeSort
