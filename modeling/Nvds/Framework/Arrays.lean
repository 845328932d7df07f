import Mathlib.Data.List.Nodup
import Mathlib.Data.Vector.Defs
import Mathlib.Tactic.Ring

/-! # Arrays of fixed length with checked accesses

    Reading and updating an array of `n` elements by a natural number, with a
    fault where the index is out of bounds; row-major indices; and loops over
    a list of indices in which every round establishes a fact of its own.
-/

namespace Arrays

variable {α β ε σ : Type} {n : Nat}

/-! ### Accesses -/

/-- Element `i`; `oob` is the fault of an access out of bounds. -/
def read (oob : ε) (v : Vector α n) (i : Nat) : Except ε α :=
  if h : i < n then .ok v[i] else .error oob

/-- Update element `i` by `f`. -/
def update (oob : ε) (v : Vector α n) (i : Nat) (f : α → Except ε α) : Except ε (Vector α n) :=
  if h : i < n then do
    let a ← f v[i]
    pure (v.set i a)
  else
    .error oob

/-- Store `a` to element `i`. -/
def write (oob : ε) (v : Vector α n) (i : Nat) (a : α) : Except ε (Vector α n) :=
  update oob v i fun _ => .ok a

variable {oob : ε} {v v' : Vector α n} {i : Nat} {f : α → Except ε α}

theorem read_of_lt (h : i < n) : read oob v i = .ok v[i] := dif_pos h

/-- The element of index `i` of an array that is given by its elements. -/
theorem get_ofFn (f : Fin n → α) (i : Fin n) : (Vector.ofFn f).get i = f i :=
  Vector.getElem_ofFn i.isLt

theorem read_of_not_lt (h : ¬ i < n) : read oob v i = .error oob := dif_neg h

theorem exists_read (oob : ε) (v : Vector α n) (h : i < n) : ∃ a, read oob v i = .ok a :=
  ⟨_, read_of_lt h⟩

theorem lt_of_read {a : α} (h : read oob v i = .ok a) : i < n := by
  by_contra hn
  unfold read at h
  rw [dif_neg hn] at h
  cases h

/-- An update in bounds, and what is read afterwards. -/
theorem update_of_read {a b : α} (h : read oob v i = .ok b) (hf : f b = .ok a) :
    ∃ v', update oob v i f = .ok v' ∧
      ∀ x, read oob v' x = if x = i then .ok a else read oob v x := by
  have hi := lt_of_read h
  rw [read_of_lt hi] at h
  cases h
  refine ⟨v.set i a, ?_, ?_⟩
  · unfold update
    rw [dif_pos hi, hf]
    rfl
  · intro x
    unfold read
    by_cases hx : x < n
    · rw [dif_pos hx, dif_pos hx, Vector.getElem_set]
      by_cases hxi : x = i
      · rw [if_pos hxi, if_pos hxi.symm]
      · rw [if_neg hxi, if_neg fun heq => hxi heq.symm]
    · rw [dif_neg hx, dif_neg hx, if_neg fun hxi : x = i => hx (hxi ▸ hi)]

theorem write_of_lt (h : i < n) (oob : ε) (v : Vector α n) (a : α) :
    ∃ v', write oob v i a = .ok v' ∧
      ∀ x, read oob v' x = if x = i then .ok a else read oob v x := by
  obtain ⟨b, hb⟩ := exists_read oob v h
  exact update_of_read hb rfl

/-- Update the elements one after another, element `i` by `f i`. -/
def updateAll (oob : ε) (f : Nat → α → Except ε α) (v : Vector α n) : Except ε (Vector α n) :=
  (List.range n).foldlM (fun v i => update oob v i (f i)) v

theorem update_eq_ok (h : i < n) :
    update oob v i f = .ok v' ↔ ∃ a, f v[i] = .ok a ∧ v' = v.set i a := by
  unfold update
  rw [dif_pos h]
  cases hf : f v[i] with
  | error e =>
    constructor
    · intro h
      cases h
    · rintro ⟨a, ha, _⟩
      cases ha
  | ok a =>
    constructor
    · intro h
      cases h
      exact ⟨a, rfl, rfl⟩
    · rintro ⟨b, hb, rfl⟩
      cases hb
      rfl

/-- What holds of all elements, and is kept by the update, holds of all of them afterwards. -/
theorem forall_update {P : α → Prop} (h : update oob v i f = .ok v') (hv : ∀ x, P (v.get x))
    (hf : ∀ a b, f a = .ok b → P a → P b) : ∀ x, P (v'.get x) := by
  by_cases hi : i < n
  · obtain ⟨a, ha, rfl⟩ := (update_eq_ok hi).mp h
    intro x
    show P (v.set i a)[x.val]
    rw [Vector.getElem_set]
    split
    · exact hf _ a ha (hv ⟨i, hi⟩)
    · exact hv x
  · unfold update at h
    rw [dif_neg hi] at h
    cases h

theorem forall_write {P : α → Prop} {a : α} (h : write oob v i a = .ok v')
    (hv : ∀ x, P (v.get x)) (ha : P a) : ∀ x, P (v'.get x) := by
  refine forall_update h hv ?_
  intro _ b hb _
  cases hb
  exact ha

/-- The first `m` updates. -/
theorem foldlM_update {f : Nat → α → Except ε α} {m : Nat} (hm : m ≤ n) :
    (List.range m).foldlM (fun v i => update oob v i (f i)) v = .ok v' ↔
      ∀ i (hi : i < n), if i < m then f i v[i] = .ok v'[i] else v'[i] = v[i] := by
  -- on the number of updates, the last of which is taken off
  induction m generalizing v' with
  | zero =>
    constructor
    · intro h i hi
      cases h
      rw [if_neg (Nat.not_lt_zero i)]
    · intro h
      have heq : v = v' := Vector.ext fun i hi => (h i hi).symm
      rw [heq]
      rfl
  | succ m ih =>
    rw [List.range_succ, List.foldlM_append]
    constructor
    · intro h i hi
      cases hv : (List.range m).foldlM (fun v i => update oob v i (f i)) v with
      | error e =>
        rw [hv] at h
        cases h
      | ok v₁ =>
        rw [hv] at h
        have hlast : update oob v₁ m (f m) = .ok v' := by
          rw [← h]
          exact (bind_pure _).symm
        obtain ⟨a, ha, rfl⟩ := (update_eq_ok hm).mp hlast
        have hold := (ih (Nat.le_of_succ_le hm)).mp hv
        rw [Vector.getElem_set]
        -- the last update writes element `m`, which the earlier ones leave alone
        by_cases him : m = i
        · subst him
          have hmm := hold m hi
          rw [if_neg (Nat.lt_irrefl m)] at hmm
          rw [if_pos (Nat.lt_succ_self m), if_pos rfl, ← hmm]
          exact ha
        · rw [if_neg him]
          have := hold i hi
          by_cases hlt : i < m
          · rw [if_pos hlt] at this
            rw [if_pos (by omega)]
            exact this
          · rw [if_neg hlt] at this
            rw [if_neg (by omega)]
            exact this
    · intro h
      have hm' := h m hm
      rw [if_pos (Nat.lt_succ_self m)] at hm'
      -- before the last update element `m` is as it was
      have hprev : (List.range m).foldlM (fun v i => update oob v i (f i)) v =
          .ok (v'.set m v[m]) := by
        apply (ih (Nat.le_of_succ_le hm)).mpr
        intro i hi
        rw [Vector.getElem_set]
        have := h i hi
        by_cases him : m = i
        · subst him
          rw [if_neg (Nat.lt_irrefl m), if_pos rfl]
        · rw [if_neg him]
          by_cases hlt : i < m
          · rw [if_pos hlt]
            rwa [if_pos (by omega)] at this
          · rw [if_neg hlt]
            rwa [if_neg (by omega)] at this
      rw [hprev]
      show (update oob _ m (f m) >>= pure) = _
      rw [bind_pure]
      refine (update_eq_ok hm).mpr ⟨v'[m], ?_, ?_⟩
      · rw [Vector.getElem_set_self]
        exact hm'
      · rw [Vector.set_set, Vector.set_getElem_self]

/-- **Updating every element.** -/
theorem updateAll_eq_ok {f : Nat → α → Except ε α} :
    updateAll oob f v = .ok v' ↔ ∀ i (hi : i < n), f i v[i] = .ok v'[i] := by
  unfold updateAll
  rw [foldlM_update le_rfl]
  constructor
  · intro h i hi
    have := h i hi
    rwa [if_pos hi] at this
  · intro h i hi
    rw [if_pos hi]
    exact h i hi

/-- Computing every element by itself. -/
theorem ofFnM_of_ok {f : Fin n → Except ε α} (h : ∀ i : Fin n, f i = .ok (v.get i)) :
    Vector.ofFnM f = .ok v := by
  have hf : f = fun i => pure (v.get i) := funext h
  have hv : Vector.ofFn v.get = v := by
    ext i hi
    rw [Vector.getElem_ofFn]
    rfl
  rw [hf, Vector.ofFnM_pure, hv]
  rfl

/-- Every element has been computed by itself. -/
theorem ok_of_ofFnM {f : Fin n → Except ε α} (h : Vector.ofFnM f = .ok v) :
    ∀ i : Fin n, f i = .ok (v.get i) := by
  induction n with
  | zero => exact fun i => i.elim0
  | succ n ih =>
    rw [Vector.ofFnM_succ] at h
    cases hinit : Vector.ofFnM fun i : Fin n => f i.castSucc with
    | error e =>
      rw [hinit] at h
      cases h
    | ok as =>
      rw [hinit] at h
      cases hlast : f (Fin.last n) with
      | error e =>
        change (f (Fin.last n) >>= _) = _ at h
        rw [hlast] at h
        cases h
      | ok a =>
        change (f (Fin.last n) >>= _) = _ at h
        rw [hlast] at h
        cases h
        intro i
        show f i = .ok (as.push a)[i.val]
        rw [Vector.getElem_push]
        -- the last element was computed last, the others by induction
        refine Fin.lastCases ?_ ?_ i
        · rw [dif_neg (by simp)]
          exact hlast
        · intro j
          rw [dif_pos (show j.castSucc.val < n from j.isLt)]
          exact ih hinit j

/-! ### Row-major indices -/

theorem row_lt {m a b : Nat} (ha : a < m) (hb : b < n) : a * n + b < m * n := by
  calc a * n + b < a * n + n := Nat.add_lt_add_left hb _
    _ = (a + 1) * n := by ring
    _ ≤ m * n := Nat.mul_le_mul_right n ha

theorem row_inj {a b a' b' : Nat} (hb : b < n) (hb' : b' < n) (h : a * n + b = a' * n + b') :
    a = a' ∧ b = b' := by
  have hn : 0 < n := Nat.zero_lt_of_lt hb
  have hdiv : (a * n + b) / n = a := by
    rw [Nat.add_comm, Nat.add_mul_div_right _ _ hn, Nat.div_eq_of_lt hb, Nat.zero_add]
  have hdiv' : (a' * n + b') / n = a' := by
    rw [Nat.add_comm, Nat.add_mul_div_right _ _ hn, Nat.div_eq_of_lt hb', Nat.zero_add]
  have haa : a = a' := by
    rw [← hdiv, h, hdiv']
  subst haa
  exact ⟨rfl, Nat.add_left_cancel h⟩

/-- Every index is the index of a row and a column. -/
theorem exists_row {m x : Nat} (hx : x < m * n) : ∃ a b, a < m ∧ b < n ∧ x = a * n + b := by
  have hn : 0 < n := by
    rcases Nat.eq_zero_or_pos n with rfl | h
    · rw [Nat.mul_zero] at hx
      exact absurd hx (Nat.not_lt_zero x)
    · exact h
  refine ⟨x / n, x % n, Nat.div_lt_of_lt_mul (by rwa [Nat.mul_comm]), Nat.mod_lt _ hn, ?_⟩
  rw [Nat.mul_comm]
  exact (Nat.div_add_mod x n).symm

/-- Row `a` of the rows of a list, written one behind the other. -/
theorem getElem?_flatMap_row (ts : List β) (f : β → Vector α n) (a b : Nat) (hb : b < n) :
    (ts.flatMap fun t => (f t).toList)[a * n + b]? = ts[a]?.map fun t => (f t)[b] := by
  induction ts generalizing a with
  | nil => rfl
  | cons t ts ih =>
    rw [List.flatMap_cons]
    cases a with
    | zero =>
      rw [Nat.zero_mul, Nat.zero_add, List.getElem?_append_left (by simpa using hb)]
      simp [hb]
    | succ a =>
      have hskip : (a + 1) * n + b - n = a * n + b := by
        rw [Nat.add_mul, Nat.one_mul]
        omega
      have hle : n ≤ (a + 1) * n + b := by
        rw [Nat.add_mul, Nat.one_mul]
        omega
      rw [List.getElem?_append_right (by simpa using hle), Vector.length_toList, hskip, ih,
        List.getElem?_cons_succ]

/-! ### Loops -/

variable {step : σ → β → Except ε σ} {l : List β}

/-- What every round keeps, the loop keeps. -/
theorem foldlM_keeps {Q : σ → Prop} (hstep : ∀ b ∈ l, ∀ s s', step s b = .ok s' → Q s → Q s')
    {s s' : σ} (h : l.foldlM step s = .ok s') (hQ : Q s) : Q s' := by
  induction l generalizing s with
  | nil =>
    cases h
    exact hQ
  | cons b l ih =>
    rw [List.foldlM_cons] at h
    cases hb : step s b with
    | error e =>
      rw [hb] at h
      cases h
    | ok s₁ =>
      rw [hb] at h
      exact ih (fun x hx => hstep x (List.mem_cons_of_mem _ hx)) h
        (hstep b List.mem_cons_self s s₁ hb hQ)

/-- **Loops.** Every round establishes its own fact, and no other round spoils it: at the end
    all facts hold. -/
theorem foldlM_establishes {P : β → σ → Prop} (hnd : l.Nodup)
    (hstep : ∀ b ∈ l, ∀ s, ∃ s', step s b = .ok s' ∧ P b s')
    (hkeep : ∀ b ∈ l, ∀ b' ∈ l, b' ≠ b → ∀ s s', step s b = .ok s' → P b' s → P b' s') (s : σ) :
    ∃ s', l.foldlM step s = .ok s' ∧ ∀ b ∈ l, P b s' := by
  induction l generalizing s with
  | nil => exact ⟨s, rfl, fun b hb => absurd hb List.not_mem_nil⟩
  | cons b l ih =>
    obtain ⟨hb, hl⟩ := List.nodup_cons.mp hnd
    obtain ⟨s₁, hrun, hP⟩ := hstep b List.mem_cons_self s
    obtain ⟨s', hrest, hall⟩ := ih hl (fun x hx => hstep x (List.mem_cons_of_mem _ hx))
      (fun x hx y hy => hkeep x (List.mem_cons_of_mem _ hx) y (List.mem_cons_of_mem _ hy)) s₁
    refine ⟨s', ?_, ?_⟩
    · rw [List.foldlM_cons, hrun]
      exact hrest
    · intro x hx
      rcases List.mem_cons.mp hx with rfl | hx
      · -- the later rounds are for other indices
        refine foldlM_keeps ?_ hrest hP
        intro y hy s s' hs
        exact hkeep y (List.mem_cons_of_mem _ hy) x List.mem_cons_self
          (fun heq => hb (heq ▸ hy)) s s' hs
      · exact hall x hx

end Arrays
