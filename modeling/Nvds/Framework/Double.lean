import Mathlib.Algebra.Order.Floor.Ring
import Mathlib.Data.Rat.Floor
import Mathlib.Data.Int.Log
import Mathlib.Tactic.Linarith
import Mathlib.Tactic.NormNum

/-! # Double-precision values

    A double is taken as the rational number it stands for. An arithmetic
    operation is the exact one followed by `toDouble`, which rounds to 53
    significant bits, to nearest with ties to even. The range of the exponent
    is not bounded: it is for values far from overflow and underflow.
-/

namespace Double

/-- The nearest integer, the even one if there are two. -/
def roundTiesEven (x : ℚ) : ℤ :=
  if x - ⌊x⌋ < 1 / 2 then
    ⌊x⌋
  else if 1 / 2 < x - ⌊x⌋ then
    ⌊x⌋ + 1
  else if ⌊x⌋ % 2 = 0 then
    ⌊x⌋
  else
    ⌊x⌋ + 1

/-- The weight of the last of 53 significant bits of `x`. -/
def ulp (x : ℚ) : ℚ := 2 ^ (Int.log 2 |x| - 52)

/-- The double nearest to `x`. -/
def toDouble (x : ℚ) : ℚ :=
  if x = 0 then 0 else roundTiesEven (x / ulp x) * ulp x

/-- Conversion to an unsigned integer type that can hold the result: the fraction is cut off. -/
def toNat (x : ℚ) : Nat := ⌊x⌋₊

/-! ### Rounding to an integer -/

theorem floor_le_roundTiesEven (x : ℚ) : ⌊x⌋ ≤ roundTiesEven x := by
  unfold roundTiesEven
  split_ifs <;> omega

theorem roundTiesEven_le_floor (x : ℚ) : roundTiesEven x ≤ ⌊x⌋ + 1 := by
  unfold roundTiesEven
  split_ifs <;> omega

/-- Integers are kept. -/
theorem roundTiesEven_intCast (n : ℤ) : roundTiesEven n = n := by
  have hfrac : (n : ℚ) - ⌊(n : ℚ)⌋ < 1 / 2 := by
    rw [Int.floor_intCast, sub_self]
    norm_num
  unfold roundTiesEven
  rw [if_pos hfrac, Int.floor_intCast]

theorem roundTiesEven_mono {x y : ℚ} (h : x ≤ y) : roundTiesEven x ≤ roundTiesEven y := by
  have hfloor : ⌊x⌋ ≤ ⌊y⌋ := Int.floor_le_floor h
  rcases hfloor.lt_or_eq with hlt | heq
  · have h₁ := roundTiesEven_le_floor x
    have h₂ := floor_le_roundTiesEven y
    omega
  · -- between the same two integers the choice is monotone
    have hfrac : x - ⌊x⌋ ≤ y - ⌊y⌋ := by
      rw [heq]
      exact sub_le_sub_right h _
    unfold roundTiesEven
    rw [heq] at hfrac ⊢
    split_ifs <;> first | omega | (exfalso; linarith)

/-! ### Rounding to 53 bits -/

theorem ulp_pos (x : ℚ) : 0 < ulp x := by
  unfold ulp
  exact zpow_pos (by norm_num) _

theorem toDouble_of_pos {x : ℚ} (h : 0 < x) : toDouble x = roundTiesEven (x / ulp x) * ulp x :=
  if_neg h.ne'

theorem ulp_of_pos {x : ℚ} (h : 0 < x) : ulp x = 2 ^ (Int.log 2 x - 52) := by
  rw [ulp, abs_of_pos h]

/-- A positive number has 53 bits before the point, counted in its `ulp`. -/
theorem significand_bounds {x : ℚ} (h : 0 < x) : 2 ^ 52 ≤ x / ulp x ∧ x / ulp x < 2 ^ 53 := by
  have hle := Int.zpow_log_le_self (b := 2) (by decide) h
  have hlt := Int.lt_zpow_succ_log_self (b := 2) (by decide) x
  rw [ulp_of_pos h]
  have hu : (0 : ℚ) < 2 ^ (Int.log 2 x - 52) := zpow_pos (by norm_num) _
  constructor
  · rw [le_div_iff₀ hu]
    calc (2 : ℚ) ^ 52 * 2 ^ (Int.log 2 x - 52)
        = 2 ^ ((52 : ℤ) + (Int.log 2 x - 52)) := by rw [zpow_add₀ (by norm_num)]; norm_num
      _ = 2 ^ Int.log 2 x := by congr 1; omega
      _ ≤ x := by exact_mod_cast hle
  · rw [div_lt_iff₀ hu]
    calc x < 2 ^ (Int.log 2 x + 1) := by exact_mod_cast hlt
      _ = 2 ^ ((53 : ℤ) + (Int.log 2 x - 52)) := by congr 1; omega
      _ = (2 : ℚ) ^ 53 * 2 ^ (Int.log 2 x - 52) := by rw [zpow_add₀ (by norm_num)]; norm_num

/-- So has its rounded value; it may be the next power of two. -/
theorem rounded_bounds {x : ℚ} (h : 0 < x) :
    2 ^ 52 ≤ roundTiesEven (x / ulp x) ∧ roundTiesEven (x / ulp x) ≤ 2 ^ 53 := by
  obtain ⟨hlo, hhi⟩ := significand_bounds h
  constructor
  · have := roundTiesEven_mono (x := ((2 ^ 52 : ℤ) : ℚ)) (y := x / ulp x) (by exact_mod_cast hlo)
    rwa [roundTiesEven_intCast] at this
  · have := roundTiesEven_mono (x := x / ulp x) (y := ((2 ^ 53 : ℤ) : ℚ)) (by exact_mod_cast hhi.le)
    rwa [roundTiesEven_intCast] at this

/-- An integral multiple of a power of two that has at most 53 bits is a double. -/
theorem toDouble_exact {n : ℤ} {e : ℤ} (hlo : 0 < n) (hhi : n ≤ 2 ^ 53) :
    toDouble (n * 2 ^ e) = n * 2 ^ e := by
  have hn : (0 : ℚ) < n := by exact_mod_cast hlo
  have hp : (0 : ℚ) < 2 ^ e := zpow_pos (by norm_num) _
  have hx : (0 : ℚ) < n * 2 ^ e := mul_pos hn hp
  -- the last place is not above the given power of two, or the number is itself a power of two
  have hlog : Int.log 2 ((n : ℚ) * 2 ^ e) - 52 ≤ e ∨ n = 2 ^ 53 := by
    rcases hhi.lt_or_eq with hlt | heq
    · left
      have : (n : ℚ) * 2 ^ e < ((2 : ℕ) : ℚ) ^ (53 + e) := by
        have hn' : (n : ℚ) < 2 ^ 53 := by exact_mod_cast hlt
        calc (n : ℚ) * 2 ^ e < 2 ^ 53 * 2 ^ e := mul_lt_mul_of_pos_right hn' hp
          _ = ((2 : ℕ) : ℚ) ^ (53 + e) := by
              rw [zpow_add₀ (by norm_num)]
              norm_num
      have := (Int.lt_zpow_iff_log_lt (by decide) hx).mp this
      omega
    · exact Or.inr heq
  obtain ⟨k, hk⟩ : ∃ k : ℤ, (n : ℚ) * 2 ^ e / ulp (n * 2 ^ e) = k := by
    rw [ulp_of_pos hx]
    rcases hlog with hle | heq
    · refine ⟨n * 2 ^ (e - (Int.log 2 ((n : ℚ) * 2 ^ e) - 52)).toNat, ?_⟩
      rw [mul_div_assoc, ← zpow_sub₀ (by norm_num)]
      push_cast
      rw [← zpow_natCast (2 : ℚ), Int.toNat_of_nonneg (by omega)]
    · refine ⟨2 ^ 52, ?_⟩
      have hpow : (n : ℚ) * 2 ^ e = ((2 : ℕ) : ℚ) ^ (53 + e) := by
        rw [heq, zpow_add₀ (by norm_num)]
        norm_num
      rw [hpow, Int.log_zpow (by decide)]
      push_cast
      rw [← zpow_sub₀ (by norm_num), show 53 + e - (53 + e - 52) = 52 by omega]
      norm_num
  rw [toDouble_of_pos hx, hk, roundTiesEven_intCast, ← hk, div_mul_cancel₀ _ (ulp_pos _).ne']

theorem toDouble_nonneg {x : ℚ} (h : 0 ≤ x) : 0 ≤ toDouble x := by
  rcases h.lt_or_eq with hpos | rfl
  · rw [toDouble_of_pos hpos]
    have := (rounded_bounds hpos).1
    have hr : (0 : ℚ) ≤ roundTiesEven (x / ulp x) := by
      exact_mod_cast le_trans (by norm_num) this
    exact mul_nonneg hr (ulp_pos x).le
  · simp [toDouble]

/-- **Rounding is monotone**, also where the last place changes its weight. -/
theorem toDouble_mono {x y : ℚ} (hx : 0 ≤ x) (h : x ≤ y) : toDouble x ≤ toDouble y := by
  rcases hx.lt_or_eq with hx | rfl
  · have hy : 0 < y := lt_of_lt_of_le hx h
    rw [toDouble_of_pos hx, toDouble_of_pos hy]
    have hlog : Int.log 2 x ≤ Int.log 2 y := Int.log_mono_right hx h
    rcases hlog.lt_or_eq with hlt | heq
    · -- the next power of two is between them
      have h₁ : (roundTiesEven (x / ulp x) : ℚ) ≤ 2 ^ 53 := by exact_mod_cast (rounded_bounds hx).2
      have h₂ : (2 : ℚ) ^ 52 ≤ roundTiesEven (y / ulp y) := by exact_mod_cast (rounded_bounds hy).1
      have hu : 2 * ulp x ≤ ulp y := by
        rw [ulp_of_pos hx, ulp_of_pos hy]
        calc (2 : ℚ) * 2 ^ (Int.log 2 x - 52) = 2 ^ (1 + (Int.log 2 x - 52)) := by
              rw [zpow_add₀ (by norm_num), zpow_one]
          _ ≤ 2 ^ (Int.log 2 y - 52) := zpow_le_zpow_right₀ (by norm_num) (by omega)
      calc (roundTiesEven (x / ulp x) : ℚ) * ulp x ≤ 2 ^ 53 * ulp x :=
            mul_le_mul_of_nonneg_right h₁ (ulp_pos x).le
        _ = 2 ^ 52 * (2 * ulp x) := by ring
        _ ≤ 2 ^ 52 * ulp y := mul_le_mul_of_nonneg_left hu (by norm_num)
        _ ≤ roundTiesEven (y / ulp y) * ulp y := mul_le_mul_of_nonneg_right h₂ (ulp_pos y).le
    · have hu : ulp x = ulp y := by rw [ulp_of_pos hx, ulp_of_pos hy, heq]
      -- with one spacing the quotients are rounded monotonically
      rw [hu]
      refine mul_le_mul_of_nonneg_right ?_ (ulp_pos y).le
      exact_mod_cast roundTiesEven_mono (div_le_div_of_nonneg_right h (ulp_pos y).le)
  · rw [toDouble, if_pos rfl]
    exact toDouble_nonneg h

/-- A double scaled by a power of two is a double. -/
theorem toDouble_scale {x : ℚ} (hx : 0 ≤ x) (e : ℤ) :
    toDouble (toDouble x * 2 ^ e) = toDouble x * 2 ^ e := by
  rcases hx.lt_or_eq with hx | rfl
  · obtain ⟨hlo, hhi⟩ := rounded_bounds hx
    have hform : toDouble x * 2 ^ e =
        roundTiesEven (x / ulp x) * 2 ^ (Int.log 2 x - 52 + e) := by
      rw [toDouble_of_pos hx, mul_assoc, zpow_add₀ (by norm_num), ← ulp_of_pos hx]
    rw [hform]
    exact toDouble_exact (by omega) hhi
  · simp [toDouble]

theorem toDouble_natCast {n : ℕ} (h : n ≤ 2 ^ 53) : toDouble n = n := by
  rcases Nat.eq_zero_or_pos n with rfl | hpos
  · simp [toDouble]
  · have := toDouble_exact (n := n) (e := 0) (by omega) (by exact_mod_cast h)
    simpa using this

/-- Truncation is monotone. -/
theorem toNat_mono {x y : ℚ} (h : x ≤ y) : toNat x ≤ toNat y := Nat.floor_le_floor h

end Double
