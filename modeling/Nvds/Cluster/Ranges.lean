import Nvds.Cluster.Backups

/-! # The ranges of key hashes

    `GetTabletId` divides the key hash by the width of a range, in doubles.
    With a power of two of tablets the width is exact and so is the division;
    what is lost is lost in the conversion of the hash itself. The last 1024
    hashes round up to `2 ^ 64` and get an index behind the end of the map.
-/

open Double

namespace Nvds.Cluster

variable {c : Config} {t : Nat}

/-- `kMaxKeyHash` as a double, which is also `1.0 + kMaxKeyHash`. -/
theorem toDouble_kMaxKeyHash : toDouble 18446744073709551615 = 2 ^ 64 ∧
    toDouble (1 + 2 ^ 64) = 2 ^ 64 := by
  constructor <;> decide +kernel

theorem tablets_le (ht : c.kNumTablets = 2 ^ t) : t < 32 := by
  have hlt : c.kNumTablets < 4294967296 := u32_lt _
  rw [ht] at hlt
  exact (Nat.pow_lt_pow_iff_right (by decide)).mp (lt_of_lt_of_le hlt (by decide))

/-- The index of a key hash, with the divisions carried out. -/
theorem keyIndex_eq (ht : c.kNumTablets = 2 ^ t) (keyHash : Nat) :
    keyIndex c keyHash = Double.toNat (toDouble keyHash / 2 ^ (64 - t)) := by
  have hlt := tablets_le ht
  have hnum : toDouble (c.kNumTablets : ℚ) = 2 ^ t := by
    rw [toDouble_natCast, ht]
    · push_cast
      rfl
    · rw [ht]
      exact Nat.pow_le_pow_right (by decide) (by omega)
  have hwidth : (2 : ℚ) ^ 64 / 2 ^ t = 2 ^ (64 - t) := by
    rw [eq_comm, eq_div_iff (by norm_num), ← pow_add]
    congr 1
    omega
  have hexact : toDouble ((2 : ℚ) ^ (64 - t)) = 2 ^ (64 - t) := by
    have := toDouble_exact (n := 1) (e := ((64 - t : ℕ) : ℤ)) (by decide) (by decide)
    rwa [Int.cast_one, one_mul, zpow_natCast] at this
  have hquot : toDouble (toDouble keyHash / 2 ^ (64 - t)) = toDouble keyHash / 2 ^ (64 - t) := by
    have := toDouble_scale (x := keyHash) (Nat.cast_nonneg _) (-((64 - t : ℕ) : ℤ))
    rwa [zpow_neg, zpow_natCast, ← div_eq_mul_inv] at this
  unfold keyIndex
  simp only [toDouble_kMaxKeyHash.1, toDouble_kMaxKeyHash.2, hnum, hwidth, hexact, hquot]

/-- The index is non-decreasing. -/
theorem keyIndex_mono (ht : c.kNumTablets = 2 ^ t) {h₁ h₂ : Nat} (h : h₁ ≤ h₂) :
    keyIndex c h₁ ≤ keyIndex c h₂ := by
  rw [keyIndex_eq ht, keyIndex_eq ht]
  apply Double.toNat_mono
  apply div_le_div_of_nonneg_right _ (by positivity)
  apply toDouble_mono (Nat.cast_nonneg _)
  exact_mod_cast h

/-- The first hash of a range has its index. -/
theorem keyIndex_first (ht : c.kNumTablets = 2 ^ t) {i : Nat} (hi : i < 2 ^ t) :
    keyIndex c (i * 2 ^ (64 - t)) = i := by
  have hlt := tablets_le ht
  have hsmall : i ≤ 2 ^ 53 := hi.le.trans (Nat.pow_le_pow_right (by decide) (by omega))
  have hexact : toDouble ((i * 2 ^ (64 - t) : Nat) : ℚ) = i * 2 ^ (64 - t) := by
    have := toDouble_scale (x := i) (Nat.cast_nonneg _) ((64 - t : ℕ) : ℤ)
    rw [toDouble_natCast hsmall, zpow_natCast] at this
    exact_mod_cast this
  rw [keyIndex_eq ht, hexact, mul_div_cancel_right₀ _ (by positivity), Double.toNat, Nat.floor_natCast]

/-- The last hash that does not round up to `2 ^ 64`, and the first that does. -/
theorem toDouble_last : toDouble 18446744073709550591 = 2 ^ 64 - 2 ^ 11 ∧
    toDouble 18446744073709550592 = 2 ^ 64 := by
  constructor <;> decide +kernel

/-- The index is inside the map exactly for the hashes that do not round up to `2 ^ 64`. -/
theorem keyIndex_lt_iff (ht : c.kNumTablets = 2 ^ t) {keyHash : Nat} :
    keyIndex c keyHash < c.kNumTablets ↔ keyHash < 2 ^ 64 - 1024 := by
  have hle := tablets_le ht
  have hp : (0 : ℚ) < 2 ^ (64 - t) := by positivity
  have hall : (2 : ℚ) ^ t * 2 ^ (64 - t) = 2 ^ 64 := by
    rw [← pow_add]
    congr 1
    omega
  rw [keyIndex_eq ht, ht, Double.toNat,
    Nat.floor_lt (div_nonneg (toDouble_nonneg (Nat.cast_nonneg _)) hp.le),
    div_lt_iff₀ hp]
  push_cast
  rw [hall]
  -- the rounding takes the last 1024 hashes to `2 ^ 64`, and no other
  constructor
  · intro hlt
    by_contra hge
    have hmono : toDouble 18446744073709550592 ≤ toDouble keyHash := by
      apply toDouble_mono (by norm_num)
      have : 18446744073709550592 ≤ keyHash := by omega
      exact_mod_cast this
    rw [toDouble_last.2] at hmono
    exact absurd hlt (not_lt.mpr hmono)
  · intro hlt
    have hmono : toDouble keyHash ≤ toDouble 18446744073709550591 := by
      apply toDouble_mono (Nat.cast_nonneg _)
      have : keyHash ≤ 18446744073709550591 := by omega
      exact_mod_cast this
    rw [toDouble_last.1] at hmono
    exact lt_of_le_of_lt hmono (by norm_num)

/-- **Ranges.** With a power of two of tablets, a 64-bit hash has an index inside the map exactly
    if it is not among the last 1024. The index is non-decreasing, and every index is hit. -/
theorem keyIndex_ranges (c : Config) (t : Nat) (ht : c.kNumTablets = 2 ^ t) :
    (∀ keyHash, keyHash < 2 ^ 64 →
      (keyIndex c keyHash < c.kNumTablets ↔ keyHash < 2 ^ 64 - 1024)) ∧
    (∀ h₁ h₂, h₁ ≤ h₂ → h₂ < 2 ^ 64 → keyIndex c h₁ ≤ keyIndex c h₂) ∧
    ∀ i, i < c.kNumTablets → ∃ keyHash, keyHash < 2 ^ 64 ∧ keyIndex c keyHash = i := by
  refine ⟨fun keyHash _ => keyIndex_lt_iff ht, fun h₁ h₂ h _ => keyIndex_mono ht h, ?_⟩
  intro i hi
  rw [ht] at hi
  have hlt := tablets_le ht
  refine ⟨i * 2 ^ (64 - t), ?_, keyIndex_first ht hi⟩
  calc i * 2 ^ (64 - t) < 2 ^ t * 2 ^ (64 - t) := Nat.mul_lt_mul_of_pos_right hi (by positivity)
    _ = 2 ^ 64 := by rw [← pow_add]; congr 1; omega

theorem keyIndex_ranges_shipped : shipped.kNumTablets = 2 ^ 1 ∧
    keyIndex shipped (2 ^ 64 - 1025) < shipped.kNumTablets :=
  ⟨by decide, ((keyIndex_ranges shipped 1 (by decide)).1 _ (by decide)).mpr (by decide)⟩

/-- The largest hash has an index behind the end of the map: `GetTabletId` reads past it. -/
theorem keyIndex_behind_end :
    ∃ keyHash, keyHash < 2 ^ 64 ∧ ¬ keyIndex shipped keyHash < shipped.kNumTablets ∧
      ∀ im : IndexManager shipped, im.getTabletId keyHash = .error .outOfBounds := by
  have hidx : keyIndex shipped 18446744073709551615 = shipped.kNumTablets := by decide +kernel
  refine ⟨18446744073709551615, by decide, by rw [hidx]; exact lt_irrefl _, ?_⟩
  intro im
  unfold IndexManager.getTabletId
  rw [hidx]
  exact Arrays.read_of_not_lt (lt_irrefl _)

end Nvds.Cluster
