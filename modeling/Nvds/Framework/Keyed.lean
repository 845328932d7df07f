import Mathlib.Data.List.Infix
import Mathlib.Logic.Function.Basic

/-! # Operations on one key at a time

    An object that keeps a value for each key, with operations that read and
    write the value of one key only. Operations on other keys can be left out
    of a run: the results of those that stay are the same. So the object may
    be split up by key, and each part may run for itself.
-/

namespace Keyed

variable {Op K V R : Type}

/-- An operation has a key, and gives a result and a new value for the old one. -/
structure Object (Op K V R : Type) where
  key : Op → K
  act : Op → V → R × V

namespace Object

variable [DecidableEq K] (obj : Object Op K V R)

/-- One operation on all values. -/
def step (M : K → V) (op : Op) : R × (K → V) :=
  ((obj.act op (M (obj.key op))).1,
    Function.update M (obj.key op) (obj.act op (M (obj.key op))).2)

/-- The operations of a run, each with its result. -/
def history (M : K → V) : List Op → List (Op × R)
  | [] => []
  | op :: ops => (op, (obj.step M op).1) :: history (obj.step M op).2 ops

/-- The values after a run. -/
def after (M : K → V) (ops : List Op) : K → V := ops.foldl (fun M op => (obj.step M op).2) M

variable {obj} {M M' : K → V} {ops : List Op}

theorem map_fst_history : (obj.history M ops).map Prod.fst = ops := by
  induction ops generalizing M with
  | nil => rfl
  | cons op ops ih => rw [history, List.map_cons, ih]

/-- What comes later does not change what came before. -/
theorem history_prefix {ops' : List Op} (h : ops <+: ops') :
    obj.history M ops <+: obj.history M ops' := by
  obtain ⟨rest, rfl⟩ := h
  induction ops generalizing M with
  | nil => exact List.nil_prefix
  | cons op ops ih =>
    rw [List.cons_append, history, history]
    exact List.prefix_cons_inj _ |>.mpr ih

/-- One more operation. -/
theorem history_append (ops : List Op) (op : Op) : obj.history M (ops ++ [op]) =
    obj.history M ops ++ [(op, (obj.step (obj.after M ops) op).1)] := by
  induction ops generalizing M with
  | nil => rfl
  | cons op' ops ih =>
    rw [List.cons_append, history, ih]
    rfl

theorem after_append (ops : List Op) (op : Op) :
    obj.after M (ops ++ [op]) = (obj.step (obj.after M ops) op).2 := by
  rw [after, List.foldl_append]
  rfl

/-- An operation keeps the values of other keys. -/
theorem step_of_ne {op : Op} {k : K} (h : k ≠ obj.key op) : (obj.step M op).2 k = M k :=
  Function.update_of_ne h _ _

/-- **Locality.** The operations on the keys in `p` have the results that they have in a run
    of their own. -/
theorem history_filter {p : K → Prop} [DecidablePred p] (h : ∀ k, p k → M k = M' k) :
    (obj.history M ops).filter (fun x => p (obj.key x.1)) =
      obj.history M' (ops.filter fun op => p (obj.key op)) := by
  induction ops generalizing M M' with
  | nil => rfl
  | cons op ops ih =>
    rw [history, List.filter_cons, List.filter_cons]
    -- an operation on a key outside `p` leaves all keys in `p` as they are
    by_cases hp : p (obj.key op)
    · have heq := h _ hp
      have hstep : ∀ k, p k → (obj.step M op).2 k = (obj.step M' op).2 k := by
        intro k hk
        by_cases hkey : k = obj.key op
        · rw [hkey]
          simp only [step, Function.update_self, heq]
        · rw [step_of_ne hkey, step_of_ne hkey]
          exact h k hk
      rw [if_pos (decide_eq_true hp), if_pos (decide_eq_true hp), history, ih hstep]
      simp only [step, heq]
    · have hstep : ∀ k, p k → (obj.step M op).2 k = M' k := by
        intro k hk
        have hkey : k ≠ obj.key op := fun hkey => hp (hkey ▸ hk)
        rw [step_of_ne hkey]
        exact h k hk
      rw [if_neg (by simpa using hp), if_neg (by simpa using hp)]
      exact ih hstep

end Object

end Keyed
