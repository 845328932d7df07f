import Mathlib.Data.List.Basic
import Mathlib.Order.Interval.Finset.Nat
import Mathlib.Algebra.Order.BigOperators.Group.Finset

/-! # Merging intervals

    Half-open intervals of numbers, sorted by their lower ends, are merged
    from left to right when the gap between them is at most `gap`.
-/

namespace Intervals

/-- The numbers from `lo` up to, but not including, `hi`. -/
@[ext] structure Interval where
  lo : Nat
  hi : Nat

/-- `a` lies in `v`. -/
def Interval.Has (v : Interval) (a : Nat) : Prop := v.lo ≤ a ∧ a < v.hi

/-- Merge the intervals `vs` into `cur`, giving out `cur` whenever the next
    interval is too far away. -/
def mergeFrom (gap : Nat) : Interval → List Interval → List Interval
  | cur, [] => [cur]
  | cur, v :: vs =>
    if cur.hi + gap < v.lo then
      cur :: mergeFrom gap v vs
    else
      mergeFrom gap ⟨cur.lo, max cur.hi v.hi⟩ vs

variable {gap : Nat} {cur : Interval} {vs : List Interval}

/-- The intervals stay sorted when the second is merged into the first. -/
theorem sorted_enlarge {u : Interval} (hsort : (cur :: u :: vs).Pairwise fun x y => x.lo ≤ y.lo)
    (hi : Nat) : ((⟨cur.lo, hi⟩ : Interval) :: vs).Pairwise fun x y => x.lo ≤ y.lo := by
  obtain ⟨hcur, hu⟩ := List.pairwise_cons.mp hsort
  refine List.pairwise_cons.mpr ⟨?_, (List.pairwise_cons.mp hu).2⟩
  intro y hy
  exact hcur y (List.mem_cons_of_mem _ hy)

/-- Each interval is inside a merged one. -/
theorem exists_mem_mergeFrom (hsort : (cur :: vs).Pairwise fun x y => x.lo ≤ y.lo) {v : Interval}
    (hv : v ∈ cur :: vs) : ∃ w ∈ mergeFrom gap cur vs, w.lo ≤ v.lo ∧ v.hi ≤ w.hi := by
  induction vs generalizing cur v with
  | nil =>
    rw [List.mem_singleton.mp hv]
    exact ⟨cur, List.mem_singleton.mpr rfl, le_refl _, le_refl _⟩
  | cons u us ih =>
    obtain ⟨hcur, hus⟩ := List.pairwise_cons.mp hsort
    rw [mergeFrom]
    split
    · rcases List.mem_cons.mp hv with rfl | hv
      · exact ⟨v, List.mem_cons_self, le_refl _, le_refl _⟩
      · obtain ⟨w, hw, hwv⟩ := ih hus hv
        exact ⟨w, List.mem_cons_of_mem _ hw, hwv⟩
    · have hsort' := sorted_enlarge hsort (max cur.hi u.hi)
      obtain ⟨w, hw, hlo, hhi⟩ := ih hsort' List.mem_cons_self
      -- `cur` and `u` are both inside the enlarged interval
      rcases List.mem_cons.mp hv with rfl | hv
      · exact ⟨w, hw, hlo, (le_max_left _ _).trans hhi⟩
      · rcases List.mem_cons.mp hv with rfl | hv
        · exact ⟨w, hw, hlo.trans (hcur v List.mem_cons_self), (le_max_right _ _).trans hhi⟩
        · exact ih hsort' (List.mem_cons_of_mem _ hv)

/-- Merged intervals stay below any bound of the given ones. -/
theorem mem_mergeFrom {B : Nat} (hB : ∀ v ∈ cur :: vs, v.lo ≤ v.hi ∧ v.hi ≤ B) {w : Interval}
    (hw : w ∈ mergeFrom gap cur vs) : w.lo ≤ w.hi ∧ w.hi ≤ B := by
  induction vs generalizing cur with
  | nil =>
    rw [List.mem_singleton.mp hw]
    exact hB cur List.mem_cons_self
  | cons u us ih =>
    obtain ⟨hlo, hhi⟩ := hB cur List.mem_cons_self
    have hu := hB u (by simp)
    rw [mergeFrom] at hw
    split at hw
    · rcases List.mem_cons.mp hw with rfl | hw
      · exact ⟨hlo, hhi⟩
      · exact ih (fun v hv => hB v (List.mem_cons_of_mem _ hv)) hw
    · refine ih ?_ hw
      intro v hv
      rcases List.mem_cons.mp hv with rfl | hv
      · exact ⟨hlo.trans (le_max_left _ _), max_le hhi hu.2⟩
      · exact hB v (by simp [hv])

/-- The first merged interval `w`: it ends where one of the intervals given does, every number
    in it is less than `gap` behind one that starts before, and those outside are more than
    `gap` away. -/
structure First (gap : Nat) (vs : List Interval) (w : Interval) : Prop where
  stop : ∃ v ∈ vs, w.hi = v.hi
  near : ∀ a, w.Has a → ∃ v ∈ vs, v.lo ≤ a ∧ a < v.hi + gap
  apart : ∀ v ∈ vs, v.hi ≤ w.hi ∨ w.hi + gap < v.lo

theorem exists_first_mergeFrom (gap : Nat) (hsort : (cur :: vs).Pairwise fun x y => x.lo ≤ y.lo) :
    ∃ w ws, mergeFrom gap cur vs = w :: ws ∧ w.lo = cur.lo ∧ cur.hi ≤ w.hi ∧
      First gap (cur :: vs) w := by
  have halone : ∀ a, cur.Has a → ∃ v ∈ cur :: vs, v.lo ≤ a ∧ a < v.hi + gap := fun a ha =>
    ⟨cur, List.mem_cons_self, ha.1, Nat.lt_add_right gap ha.2⟩
  -- the first interval of the result grows from `cur` until the first that is far away
  induction vs generalizing cur with
  | nil =>
    refine ⟨cur, [], rfl, rfl, le_refl _, ⟨cur, List.mem_cons_self, rfl⟩, halone, ?_⟩
    intro v hv
    rw [List.mem_singleton.mp hv]
    exact Or.inl (le_refl _)
  | cons u us ih =>
    obtain ⟨hcur, hus⟩ := List.pairwise_cons.mp hsort
    obtain ⟨hu, hus'⟩ := List.pairwise_cons.mp hus
    rw [mergeFrom]
    by_cases hfar : cur.hi + gap < u.lo
    · rw [if_pos hfar]
      refine ⟨cur, _, rfl, rfl, le_refl _, ⟨cur, List.mem_cons_self, rfl⟩, halone, ?_⟩
      intro v hv
      -- all others start behind `u`
      rcases List.mem_cons.mp hv with rfl | hv
      · exact Or.inl (le_refl _)
      · rcases List.mem_cons.mp hv with rfl | hv
        · exact Or.inr hfar
        · exact Or.inr (lt_of_lt_of_le hfar (hu v hv))
    · rw [if_neg hfar]
      have hle := hcur u List.mem_cons_self
      obtain ⟨w, ws, heq, hlo, hhi, hfirst⟩ := ih (sorted_enlarge hsort (max cur.hi u.hi))
        fun a ha => ⟨_, List.mem_cons_self, ha.1, Nat.lt_add_right gap ha.2⟩
      change max cur.hi u.hi ≤ w.hi at hhi
      refine ⟨w, ws, heq, hlo, (le_max_left _ _).trans hhi, ?_, ?_, ?_⟩
      · obtain ⟨v, hv, hstop⟩ := hfirst.stop
        rcases List.mem_cons.mp hv with rfl | hv
        · change w.hi = max cur.hi u.hi at hstop
          rcases le_total cur.hi u.hi with hc | hc
          · exact ⟨u, by simp, by rw [hstop, max_eq_right hc]⟩
          · exact ⟨cur, by simp, by rw [hstop, max_eq_left hc]⟩
        · exact ⟨v, by simp [hv], hstop⟩
      · intro a ha
        obtain ⟨v, hv, h₁, h₂⟩ := hfirst.near a ha
        rcases List.mem_cons.mp hv with rfl | hv
        · -- behind the enlarged interval is behind one of its two parts
          change cur.lo ≤ a at h₁
          change a < max cur.hi u.hi + gap at h₂
          by_cases hc : a < cur.hi + gap
          · exact ⟨cur, by simp, h₁, hc⟩
          · exact ⟨u, by simp, by omega, by omega⟩
        · exact ⟨v, by simp [hv], h₁, h₂⟩
      · intro v hv
        rcases List.mem_cons.mp hv with rfl | hv
        · exact Or.inl ((le_max_left _ _).trans hhi)
        · rcases List.mem_cons.mp hv with rfl | hv
          · exact Or.inl ((le_max_right _ _).trans hhi)
          · exact hfirst.apart v (List.mem_cons_of_mem _ hv)

/-- Each merged interval starts with a given one that is more than `gap` behind all that start
    before it. -/
theorem start_of_mem_mergeFrom (hsort : (cur :: vs).Pairwise fun x y => x.lo ≤ y.lo) {w : Interval}
    (hw : w ∈ mergeFrom gap cur vs) :
    ∃ v ∈ cur :: vs, w.lo = v.lo ∧ ∀ x ∈ cur :: vs, x.lo < v.lo → x.hi + gap < v.lo := by
  -- on the intervals that are still to be merged into `cur`
  induction vs generalizing cur with
  | nil =>
    rw [List.mem_singleton.mp hw]
    refine ⟨cur, List.mem_cons_self, rfl, ?_⟩
    intro x hx hlt
    rw [List.mem_singleton.mp hx] at hlt
    omega
  | cons u us ih =>
    obtain ⟨hcur, hus⟩ := List.pairwise_cons.mp hsort
    obtain ⟨hu, hus'⟩ := List.pairwise_cons.mp hus
    have hlow : ∀ x ∈ cur :: u :: us, ¬ x.lo < cur.lo := by
      intro x hx
      rcases List.mem_cons.mp hx with rfl | hx
      · exact lt_irrefl _
      · exact Nat.not_lt.mpr (hcur x hx)
    rw [mergeFrom] at hw
    split at hw
    · next hfar =>
      rcases List.mem_cons.mp hw with rfl | hw
      · exact ⟨w, List.mem_cons_self, rfl, fun x hx hlt => absurd hlt (hlow x hx)⟩
      · obtain ⟨v, hv, hlo, hfirst⟩ := ih hus hw
        refine ⟨v, List.mem_cons_of_mem _ hv, hlo, ?_⟩
        intro x hx hlt
        rcases List.mem_cons.mp hx with rfl | hx
        · -- `v` starts at `u` or behind it
          rcases List.mem_cons.mp hv with rfl | hv
          · exact hfar
          · exact lt_of_lt_of_le hfar (hu v hv)
        · exact hfirst x hx hlt
    · obtain ⟨v, hv, hlo, hfirst⟩ := ih (sorted_enlarge hsort (max cur.hi u.hi)) hw
      rcases List.mem_cons.mp hv with rfl | hv
      · exact ⟨cur, List.mem_cons_self, hlo, fun x hx hlt => absurd hlt (hlow x hx)⟩
      · refine ⟨v, List.mem_cons_of_mem _ (List.mem_cons_of_mem _ hv), hlo, ?_⟩
        intro x hx hlt
        have hle := hcur u List.mem_cons_self
        have henl : cur.lo < v.lo → max cur.hi u.hi + gap < v.lo := hfirst _ List.mem_cons_self
        rcases List.mem_cons.mp hx with rfl | hx
        · have := henl hlt
          omega
        · rcases List.mem_cons.mp hx with rfl | hx
          · have := henl (by omega)
            omega
          · exact hfirst x (List.mem_cons_of_mem _ hx) hlt

/-- Merged intervals lie one behind the other, more than `gap` apart. -/
theorem pairwise_mergeFrom (hsort : (cur :: vs).Pairwise fun x y => x.lo ≤ y.lo)
    (hle : ∀ v ∈ cur :: vs, v.lo ≤ v.hi) :
    (mergeFrom gap cur vs).Pairwise fun x y => x.lo < y.lo ∧ x.hi + gap < y.lo := by
  induction vs generalizing cur with
  | nil => exact List.pairwise_singleton _ _
  | cons u us ih =>
    obtain ⟨hcur, hus⟩ := List.pairwise_cons.mp hsort
    have hcur' := hle cur List.mem_cons_self
    rw [mergeFrom]
    split
    · next hfar =>
      refine List.pairwise_cons.mpr
        ⟨?_, ih hus fun v hv => hle v (List.mem_cons_of_mem _ hv)⟩
      intro w hw
      -- every later interval starts where one of the inputs does
      obtain ⟨v, hv, hlo, _⟩ := start_of_mem_mergeFrom hus hw
      have : u.lo ≤ v.lo := by
        rcases List.mem_cons.mp hv with rfl | hv
        · exact le_refl _
        · exact (List.pairwise_cons.mp hus).1 v hv
      omega
    · apply ih (sorted_enlarge hsort (max cur.hi u.hi))
      intro v hv
      rcases List.mem_cons.mp hv with rfl | hv
      · exact hcur'.trans (le_max_left _ _)
      · exact hle v (List.mem_cons_of_mem _ (List.mem_cons_of_mem _ hv))

/-- `a` lies in a gap of at most `gap` numbers between two of the intervals, into which no other
    one reaches. -/
def InGap (gap : Nat) (vs : List Interval) (a : Nat) : Prop :=
  ∃ u ∈ vs, ∃ v ∈ vs, u.hi ≤ a ∧ a < v.lo ∧ v.lo ≤ u.hi + gap ∧
    ∀ x ∈ vs, x.hi ≤ u.hi ∨ v.lo ≤ x.lo

theorem InGap.perm {us : List Interval} {a : Nat} (h : InGap gap vs a) (hperm : vs.Perm us) :
    InGap gap us a := by
  obtain ⟨u, hu, v, hv, hua, hav, hle, hnone⟩ := h
  exact ⟨u, hperm.mem_iff.mp hu, v, hperm.mem_iff.mp hv, hua, hav, hle,
    fun x hx => hnone x (hperm.mem_iff.mpr hx)⟩

/-- A gap behind an interval that `u` was merged into is a gap behind one of its two parts. -/
theorem InGap.of_enlarge {u : Interval} {a : Nat}
    (hsort : (cur :: u :: vs).Pairwise fun x y => x.lo ≤ y.lo)
    (h : InGap gap (⟨cur.lo, max cur.hi u.hi⟩ :: vs) a) : InGap gap (cur :: u :: vs) a := by
  obtain ⟨p, hp, q, hq, hpa, haq, hgap, hnone⟩ := h
  have hlo : cur.lo ≤ u.lo := (List.pairwise_cons.mp hsort).1 u List.mem_cons_self
  have hstart : ∃ p' ∈ cur :: u :: vs, p'.hi = p.hi := by
    rcases List.mem_cons.mp hp with rfl | hp
    · rcases le_total cur.hi u.hi with hc | hc
      · exact ⟨u, by simp, (max_eq_right hc).symm⟩
      · exact ⟨cur, by simp, (max_eq_left hc).symm⟩
    · exact ⟨p, by simp [hp], rfl⟩
  have hend : ∃ q' ∈ cur :: u :: vs, q'.lo = q.lo := by
    rcases List.mem_cons.mp hq with rfl | hq
    · exact ⟨cur, by simp, rfl⟩
    · exact ⟨q, by simp [hq], rfl⟩
  obtain ⟨p', hp', heqp⟩ := hstart
  obtain ⟨q', hq', heqq⟩ := hend
  refine ⟨p', hp', q', hq', heqp ▸ hpa, heqq ▸ haq, by omega, ?_⟩
  intro x hx
  rw [heqp, heqq]
  -- the gap is behind the enlarged interval or in front of it
  have hboth : max cur.hi u.hi ≤ p.hi ∨ q.lo ≤ cur.lo := hnone _ List.mem_cons_self
  rcases List.mem_cons.mp hx with rfl | hx
  · omega
  · rcases List.mem_cons.mp hx with rfl | hx
    · omega
    · exact hnone x (List.mem_cons_of_mem _ hx)

/-- Merging adds only the numbers of small gaps. -/
theorem has_or_inGap_of_mem_mergeFrom (hsort : (cur :: vs).Pairwise fun x y => x.lo ≤ y.lo)
    (hle : ∀ v ∈ cur :: vs, v.lo ≤ v.hi) {w : Interval} (hw : w ∈ mergeFrom gap cur vs) {a : Nat}
    (ha : w.Has a) : (∃ v ∈ cur :: vs, v.Has a) ∨ InGap gap (cur :: vs) a := by
  -- an address of the result lies in an input or in a short gap that the merge has filled
  induction vs generalizing cur with
  | nil =>
    rw [List.mem_singleton.mp hw] at ha
    exact Or.inl ⟨cur, List.mem_cons_self, ha⟩
  | cons u us ih =>
    obtain ⟨hcur, hus⟩ := List.pairwise_cons.mp hsort
    have hu := (List.pairwise_cons.mp hus).1
    have hle' : ∀ v ∈ u :: us, v.lo ≤ v.hi := fun v hv => hle v (List.mem_cons_of_mem _ hv)
    rw [mergeFrom] at hw
    split at hw
    · next hfar =>
      rcases List.mem_cons.mp hw with rfl | hw
      · exact Or.inl ⟨w, List.mem_cons_self, ha⟩
      · rcases ih hus hle' hw with ⟨v, hv, hva⟩ | ⟨p, hp, q, hq, hpa, haq, hgap, hnone⟩
        · exact Or.inl ⟨v, List.mem_cons_of_mem _ hv, hva⟩
        · have hp' := List.mem_cons_of_mem cur hp
          refine Or.inr ⟨p, hp', q, List.mem_cons_of_mem _ hq, hpa, haq, hgap, ?_⟩
          intro x hx
          rcases List.mem_cons.mp hx with rfl | hx
          · -- `cur` ends before all others start
            left
            have := hle' p hp
            have : u.lo ≤ p.lo := by
              rcases List.mem_cons.mp hp with rfl | hp
              · exact le_refl _
              · exact hu p hp
            omega
          · exact hnone x hx
    · next hnear =>
      have henl : ∀ v ∈ (⟨cur.lo, max cur.hi u.hi⟩ : Interval) :: us, v.lo ≤ v.hi := by
        intro v hv
        rcases List.mem_cons.mp hv with rfl | hv
        · exact (hle cur List.mem_cons_self).trans (le_max_left _ _)
        · exact hle' v (List.mem_cons_of_mem _ hv)
      rcases ih (sorted_enlarge hsort (max cur.hi u.hi)) henl hw with ⟨v, hv, hva⟩ | hgap
      · rcases List.mem_cons.mp hv with rfl | hv
        · -- in `cur`, in `u` or between them
          have h₁ : cur.lo ≤ a := hva.1
          have h₂ : a < max cur.hi u.hi := hva.2
          by_cases hin : a < cur.hi
          · exact Or.inl ⟨cur, by simp, h₁, hin⟩
          · by_cases hin' : u.lo ≤ a
            · exact Or.inl ⟨u, by simp, hin', by omega⟩
            · refine Or.inr ⟨cur, by simp, u, by simp, by omega, by omega, by omega, ?_⟩
              intro x hx
              rcases List.mem_cons.mp hx with rfl | hx
              · exact Or.inl (le_refl _)
              · rcases List.mem_cons.mp hx with rfl | hx
                · exact Or.inr (le_refl _)
                · exact Or.inr (hu x hx)
        · exact Or.inl ⟨v, by simp [hv], hva⟩
      · exact Or.inr (hgap.of_enlarge hsort)

/-- An interval of numbers that are all less than `n` behind one of the points `xs` has at most
    `n` numbers for each of them. -/
theorem length_le_of_near {xs : List Nat} {n lo hi : Nat}
    (h : ∀ a, lo ≤ a → a < hi → ∃ x ∈ xs, x ≤ a ∧ a < x + n) : hi - lo ≤ xs.length * n := by
  have hsub : Finset.Ico lo hi ⊆ xs.toFinset.biUnion fun x => Finset.Ico x (x + n) := by
    intro a ha
    obtain ⟨h₁, h₂⟩ := Finset.mem_Ico.mp ha
    obtain ⟨x, hx, hxa⟩ := h a h₁ h₂
    exact Finset.mem_biUnion.mpr ⟨x, List.mem_toFinset.mpr hx, Finset.mem_Ico.mpr hxa⟩
  calc hi - lo = (Finset.Ico lo hi).card := (Nat.card_Ico lo hi).symm
    _ ≤ _ := Finset.card_le_card hsub
    _ ≤ xs.toFinset.card * n := Finset.card_biUnion_le_card_mul _ _ n fun x _ => by
      rw [Nat.card_Ico, Nat.add_sub_cancel_left]
    _ ≤ xs.length * n := Nat.mul_le_mul_right n (List.toFinset_card_le xs)

/-- A list that hits each of the first `k` cells has `k` elements or more. -/
theorem le_length_of_hits {α : Type*} {xs : List α} {k : Nat} (cell : α → Nat)
    (h : ∀ j, j < k → ∃ x ∈ xs, cell x = j) : k ≤ xs.length := by
  have hsub : Finset.range k ⊆ (xs.map cell).toFinset := by
    intro j hj
    obtain ⟨x, hx, hcell⟩ := h j (Finset.mem_range.mp hj)
    exact List.mem_toFinset.mpr (List.mem_map.mpr ⟨x, hx, hcell⟩)
  calc k = (Finset.range k).card := (Finset.card_range k).symm
    _ ≤ _ := Finset.card_le_card hsub
    _ ≤ (xs.map cell).length := List.toFinset_card_le _
    _ = xs.length := List.length_map _

end Intervals
