import Mathlib.Algebra.BigOperators.Group.Finset.Basic
import Mathlib.Algebra.BigOperators.Intervals

/-! # Tilings of an interval

    An interval `[lo, hi)` is cut into consecutive tiles. `size b` is the
    length of the tile that starts at `b`, and 0 where no tile starts. The
    two edits are `fuse`, which replaces all tiles between two cuts by one,
    and `split`, which cuts a tile in two.
-/

namespace Tiling

/-- Tiles of the lengths `size` cover `[lo, hi)` without gap or overlap. -/
structure Tiled (lo hi : Nat) (size : Nat → Nat) : Prop where
  first : size lo ≠ 0
  bounds : ∀ b, size b ≠ 0 → lo ≤ b ∧ b + size b ≤ hi
  next : ∀ b, size b ≠ 0 → b + size b = hi ∨ size (b + size b) ≠ 0
  inside : ∀ b x, size b ≠ 0 → b < x → x < b + size b → size x = 0

variable {lo hi : Nat} {size : Nat → Nat}

/-- `b` is a place where a tile ends or starts. -/
def IsCut (hi : Nat) (size : Nat → Nat) (b : Nat) : Prop := b = hi ∨ size b ≠ 0

theorem Tiled.le_of_cut (h : Tiled lo hi size) {b : Nat} (hb : IsCut hi size b) :
    lo ≤ b ∧ b ≤ hi := by
  have h₀ := h.bounds lo h.first
  rcases hb with rfl | hb
  · omega
  · have := h.bounds b hb
    omega

/-- A cut is not inside a tile. -/
theorem Tiled.end_le_of_lt (h : Tiled lo hi size) {a b : Nat} (ha : size a ≠ 0)
    (hb : IsCut hi size b) (hab : a < b) : a + size a ≤ b := by
  rcases hb with rfl | hb
  · exact (h.bounds a ha).2
  · by_contra hlt
    exact hb (h.inside a b ha hab (by omega))

/-- Two tiles do not overlap. -/
theorem Tiled.disjoint (h : Tiled lo hi size) {a b : Nat} (ha : size a ≠ 0) (hb : size b ≠ 0)
    (hab : a ≠ b) : a + size a ≤ b ∨ b + size b ≤ a := by
  rcases Nat.lt_or_gt_of_ne hab with hlt | hgt
  · exact Or.inl (h.end_le_of_lt ha (Or.inr hb) hlt)
  · exact Or.inr (h.end_le_of_lt hb (Or.inr ha) hgt)

/-- Every cut but the first is the end of a tile. -/
theorem Tiled.exists_prev (h : Tiled lo hi size) {b : Nat} (hb : IsCut hi size b) (hlo : b ≠ lo) :
    ∃ a, size a ≠ 0 ∧ a + size a = b := by
  -- walk from the first tile towards `b`; the distance to `b` shrinks
  have key : ∀ n a, b - a = n → size a ≠ 0 → a < b → ∃ a, size a ≠ 0 ∧ a + size a = b := by
    intro n
    induction n using Nat.strong_induction_on with
    | _ n ih =>
      intro a hn ha hab
      have hle := h.end_le_of_lt ha hb hab
      by_cases heq : a + size a = b
      · exact ⟨a, ha, heq⟩
      · have hhi := (h.le_of_cut hb).2
        rcases h.next a ha with hend | hstart
        · omega
        · exact ih (b - (a + size a)) (by omega) (a + size a) rfl hstart (by omega)
  have := (h.le_of_cut hb).1
  exact key _ lo rfl h.first (by omega)

/-- The tile that ends at a cut is unique. -/
theorem Tiled.prev_unique (h : Tiled lo hi size) {a a' : Nat} (ha : size a ≠ 0)
    (ha' : size a' ≠ 0) (heq : a + size a = a' + size a') : a = a' := by
  by_contra hne
  rcases h.disjoint ha ha' hne with hle | hle
  · omega
  · omega

/-- If all lengths are multiples of `k`, so are the distances of the tiles from `lo`. -/
theorem Tiled.dvd_sub (h : Tiled lo hi size) {k : Nat} (hk : ∀ b, k ∣ size b) {b : Nat}
    (hb : IsCut hi size b) : k ∣ b - lo := by
  induction b using Nat.strong_induction_on with
  | _ b ih =>
    by_cases hlo : b = lo
    · simp [hlo]
    · obtain ⟨a, ha, rfl⟩ := h.exists_prev hb hlo
      have hloa := (h.bounds a ha).1
      have hdvd := ih a (by omega) (Or.inr ha)
      rw [Nat.add_comm a, Nat.add_sub_assoc hloa]
      exact Nat.dvd_add (hk a) hdvd

/-- The lengths of the tiles before a cut add up to its distance from `lo`. -/
theorem Tiled.sum_range (h : Tiled lo hi size) {b : Nat} (hb : IsCut hi size b) :
    ∑ x ∈ Finset.range b, size x = b - lo := by
  induction b using Nat.strong_induction_on with
  | _ b ih =>
    by_cases hlo : b = lo
    · subst hlo
      rw [Nat.sub_self]
      apply Finset.sum_eq_zero
      intro x hx
      by_contra hx0
      have h₁ := h.bounds x hx0
      have h₂ := Finset.mem_range.mp hx
      omega
    · obtain ⟨a, ha, rfl⟩ := h.exists_prev hb hlo
      have hloa := (h.bounds a ha).1
      have htail : ∑ x ∈ Finset.Ico (a + 1) (a + size a), size x = 0 := by
        apply Finset.sum_eq_zero
        intro x hx
        have hx' := Finset.mem_Ico.mp hx
        exact h.inside a x ha (by omega) (by omega)
      rw [← Finset.sum_range_add_sum_Ico size (show a + 1 ≤ a + size a by omega),
        Finset.sum_range_succ, ih a (by omega) (Or.inr ha), htail]
      omega

/-- The lengths of all tiles add up to the length of the interval. -/
theorem Tiled.sum_eq (h : Tiled lo hi size) : ∑ x ∈ Finset.range hi, size x = hi - lo :=
  h.sum_range (Or.inl rfl)

/-! ### Fusing and splitting -/

/-- One tile from `a` to `b` in place of all tiles there. -/
def fuse (size : Nat → Nat) (a b : Nat) : Nat → Nat :=
  fun x => if x = a then b - a else if a < x ∧ x < b then 0 else size x

/-- The tile at `a` cut into `r` bytes and the rest. -/
def split (size : Nat → Nat) (a r : Nat) : Nat → Nat :=
  fun x => if x = a then r else if x = a + r then size a - r else size x

theorem fuse_self (size : Nat → Nat) (a b : Nat) : fuse size a b a = b - a := by
  simp [fuse]

theorem fuse_of_outside {a b x : Nat} (h : x < a ∨ b ≤ x) (hab : a < b) :
    fuse size a b x = size x := by
  unfold fuse
  rw [if_neg (by omega), if_neg (by omega)]

theorem fuse_of_inside {a b x : Nat} (h₁ : a < x) (h₂ : x < b) : fuse size a b x = 0 := by
  unfold fuse
  rw [if_neg (by omega), if_pos ⟨h₁, h₂⟩]

theorem split_self (size : Nat → Nat) (a r : Nat) : split size a r a = r := by
  simp [split]

theorem split_rest (size : Nat → Nat) {a r : Nat} (hr : 0 < r) :
    split size a r (a + r) = size a - r := by
  unfold split
  rw [if_neg (by omega), if_pos rfl]

theorem split_other {a r x : Nat} (h₁ : x ≠ a) (h₂ : x ≠ a + r) : split size a r x = size x := by
  unfold split
  rw [if_neg h₁, if_neg h₂]

/-- A tile starts at `x` after fusing only if one did before. -/
theorem fuse_ne_zero_cases {a b x : Nat} (hx : fuse size a b x ≠ 0) :
    x = a ∨ ((x < a ∨ b ≤ x) ∧ size x ≠ 0) := by
  unfold fuse at hx
  split at hx
  · left; assumption
  · split at hx
    · exact absurd rfl hx
    · right; exact ⟨by omega, hx⟩

theorem split_ne_zero_cases {a r x : Nat} (hx : split size a r x ≠ 0) :
    x = a ∨ x = a + r ∨ (x ≠ a ∧ x ≠ a + r ∧ size x ≠ 0) := by
  unfold split at hx
  split at hx
  · left; assumption
  · split at hx
    · right; left; assumption
    · right; right; exact ⟨by assumption, by assumption, hx⟩

/-- Fusing the tiles between two cuts keeps a tiling. -/
theorem Tiled.fuse (h : Tiled lo hi size) {a b : Nat} (ha : size a ≠ 0) (hb : IsCut hi size b)
    (hab : a < b) : Tiled lo hi (fuse size a b) := by
  have hla := (h.bounds a ha).1
  have hbhi := (h.le_of_cut hb).2
  have hself := fuse_self size a b
  -- a tile outside `[a, b)` ends outside `(a, b)`
  have hout : ∀ x, (x < a ∨ b ≤ x) → size x ≠ 0 → x + size x ≤ a ∨ b ≤ x := by
    intro x hx hx0
    rcases hx with hx | hx
    · exact Or.inl (h.end_le_of_lt hx0 (Or.inr ha) hx)
    · exact Or.inr hx
  refine ⟨?_, ?_, ?_, ?_⟩
  · rcases Nat.eq_or_lt_of_le hla with heq | hlt
    · rw [heq, hself]; omega
    · rw [fuse_of_outside (Or.inl hlt) hab]; exact h.first
  · intro x hx
    rcases fuse_ne_zero_cases hx with rfl | ⟨hxo, hx0⟩
    · rw [hself]; omega
    · rw [fuse_of_outside hxo hab]; exact h.bounds x hx0
  · intro x hx
    rcases fuse_ne_zero_cases hx with rfl | ⟨hxo, hx0⟩
    · rw [hself, Nat.add_sub_cancel' (Nat.le_of_lt hab), fuse_of_outside (Or.inr le_rfl) hab]
      exact hb
    · rw [fuse_of_outside hxo hab]
      rcases h.next x hx0 with hend | hstart
      · exact Or.inl hend
      · right
        -- a tile that ends at `a` is followed by the fused one, any other by the tile it had
        rcases hout x hxo hx0 with hle | hle
        · rcases Nat.eq_or_lt_of_le hle with heq | hlt
          · rw [heq, hself]; omega
          · rw [fuse_of_outside (Or.inl hlt) hab]; exact hstart
        · rw [fuse_of_outside (Or.inr (by omega)) hab]; exact hstart
  · intro x y hx hxy hyx
    rcases fuse_ne_zero_cases hx with rfl | ⟨hxo, hx0⟩
    · rw [hself] at hyx
      exact fuse_of_inside hxy (by omega)
    · rw [fuse_of_outside hxo hab] at hyx
      have hy0 := h.inside x y hx0 hxy hyx
      rcases hout x hxo hx0 with hle | hle
      · rw [fuse_of_outside (Or.inl (by omega)) hab]; exact hy0
      · rw [fuse_of_outside (Or.inr (by omega)) hab]; exact hy0

/-- Splitting a tile keeps a tiling. -/
theorem Tiled.split (h : Tiled lo hi size) {a r : Nat} (ha : size a ≠ 0) (hr : 0 < r)
    (hlt : r < size a) : Tiled lo hi (split size a r) := by
  obtain ⟨hla, hahi⟩ := h.bounds a ha
  have hself := split_self size a r
  have hrest := split_rest size (a := a) hr
  have hnone : size (a + r) = 0 := h.inside a (a + r) ha (by omega) (by omega)
  have hne : ∀ x, size x ≠ 0 → x ≠ a + r := fun x hx hxr => hx (hxr ▸ hnone)
  -- a start of the old tiling is a start of the new one
  have hkeep : ∀ x, size x ≠ 0 → Tiling.split size a r x ≠ 0 := by
    intro x hx
    by_cases hxa : x = a
    · rw [hxa, hself]; omega
    · rw [split_other hxa (hne x hx)]; exact hx
  refine ⟨hkeep lo h.first, ?_, ?_, ?_⟩
  · intro x hx
    rcases split_ne_zero_cases hx with rfl | rfl | ⟨hxa, hxr, hx0⟩
    · rw [hself]; omega
    · rw [hrest]; omega
    · rw [split_other hxa hxr]; exact h.bounds x hx0
  · intro x hx
    rcases split_ne_zero_cases hx with rfl | rfl | ⟨hxa, hxr, hx0⟩
    · right; rw [hself, hrest]; omega
    · have hend : a + r + (size a - r) = a + size a := by omega
      rw [hrest, hend]
      exact (h.next a ha).imp id (hkeep _)
    · rw [split_other hxa hxr]
      exact (h.next x hx0).imp id (hkeep _)
  · intro x y hx hxy hyx
    rcases split_ne_zero_cases hx with rfl | rfl | ⟨hxa, hxr, hx0⟩
    · rw [hself] at hyx
      rw [split_other (by omega) (by omega)]
      exact h.inside x y ha hxy (by omega)
    · rw [hrest] at hyx
      rw [split_other (by omega) (by omega)]
      exact h.inside a y ha (by omega) (by omega)
    · rw [split_other hxa hxr] at hyx
      have hy0 := h.inside x y hx0 hxy hyx
      have hya : y ≠ a := fun hya => ha (hya ▸ hy0)
      -- the tile at `x` ends before `a` or starts behind the tile at `a`
      have hyr : y ≠ a + r := by
        rcases h.disjoint hx0 ha hxa with hle | hle
        · omega
        · omega
      rw [split_other hya hyr]
      exact hy0

end Tiling
