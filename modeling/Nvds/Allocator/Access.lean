import Mathlib.Data.Nat.Bitwise
import Nvds.Allocator.Model

/-! # Running the allocator's accesses

    What the primitive accesses do when they stay inside the tablet and, if
    it is checked, do not go to offset 0; and the arithmetic behind the tag
    bits.
-/

open ByteMemory Program

namespace Nvds

/-- The state after the word `v` was written and recorded at `off`. -/
def Nvm.wr (s : Nvm) (off v : Nat) : Nvm := s.write off (leBytes 4 v)

@[simp] theorem Nvm.wr_mem (s : Nvm) (off v : Nat) :
    (s.wr off v).mem = storeNat s.mem off 4 v := rfl

@[simp] theorem Nvm.wr_base (s : Nvm) (off v : Nat) : (s.wr off v).base = s.base := rfl

namespace Allocator

/-! ### The tag bit -/

theorem and_kSizeMask (w : Nat) : w &&& kSizeMask = w % 2147483648 :=
  Nat.and_two_pow_sub_one_eq_mod w 31

theorem and_kFreeMask {w : Nat} (h : w < 4294967296) :
    w &&& kFreeMask = w / 2147483648 * 2147483648 := by
  have hmask : kFreeMask = 2 ^ 31 := rfl
  rw [hmask, Nat.and_two_pow, Nat.testBit_eq_decide_div_mod_eq]
  have hq : w / 2147483648 < 2 := by omega
  by_cases h1 : w / 2147483648 = 1
  · simp [h1]
  · have h0 : w / 2147483648 = 0 := by omega
    simp [h0]

theorem and_kFreeMask_ne_zero {w : Nat} (h : w < 4294967296) :
    w &&& kFreeMask ≠ 0 ↔ 2147483648 ≤ w := by
  rw [and_kFreeMask h]
  omega

/-- A tag joined with a size. -/
theorem tag_or_size {q n : Nat} (hn : n < 2147483648) :
    q * 2147483648 ||| n = q * 2147483648 + n := by
  have h := Nat.two_pow_add_eq_or_of_lt (i := 31) (show n < 2 ^ 31 by omega) q
  rw [show (2 : Nat) ^ 31 * q = q * 2147483648 by omega] at h
  exact h.symm

theorem kFreeMask_or {n : Nat} (hn : n < 2147483648) : kFreeMask ||| n = 2147483648 + n := by
  have h := tag_or_size (q := 1) hn
  simpa [kFreeMask] using h

theorem or_kFreeMask {w : Nat} (h : w < 4294967296) :
    w ||| kFreeMask = 2147483648 + w % 2147483648 := by
  have hr : w % 2147483648 < 2147483648 := Nat.mod_lt _ (by decide)
  have hw : w = w / 2147483648 * 2147483648 ||| w % 2147483648 := by
    rw [tag_or_size hr]
    omega
  have hq : w / 2147483648 = 0 ∨ w / 2147483648 = 1 := by omega
  rcases hq with hq | hq
  · have hw' : w % 2147483648 = w := by omega
    rw [hw', Nat.or_comm, kFreeMask_or (by omega)]
  · calc w ||| kFreeMask
        = (1 * 2147483648 ||| w % 2147483648) ||| kFreeMask := by rw [← hq, ← hw]
      _ = kFreeMask ||| w % 2147483648 := by
          rw [one_mul, Nat.or_comm 2147483648, Nat.or_assoc]
          rw [show (2147483648 ||| kFreeMask) = kFreeMask from rfl, Nat.or_comm]
      _ = 2147483648 + w % 2147483648 := kFreeMask_or hr

/-! ### Accesses inside the tablet -/

variable {chk : Bool} {s s' : Nvm} {off v : Nat}

theorem read_ok {w : Nat} (h : off + w ≤ kNVMTabletSize) (h0 : chk = true → off ≠ 0) :
    read chk w off s = .ok (loadNat s.mem off w, s) := by
  have hu : u32 off = off := u32_of_lt (by simp at h; omega)
  have ha : chk = true → u32 off ≠ 0 := by rwa [hu]
  simp only [read, assert_of ha, hu, access_of_le h]
  rfl

theorem read32_ok (h : off + 4 ≤ kNVMTabletSize) (h0 : chk = true → off ≠ 0) :
    read32 chk off s = .ok (word s.mem off, s) := read_ok h h0

/-- Offset 0 fails the assertion. -/
theorem read32_zero : read32 true 0 s = .error .assertion := rfl

theorem write_ok {bs : List UInt8} (h : off + bs.length ≤ kNVMTabletSize)
    (h' : off < kNVMTabletSize) (h0 : chk = true → off ≠ 0) :
    write chk off bs s = .ok ((), s.write off bs) := by
  have hu : u32 off = off := u32_of_lt (by simp at h'; omega)
  have ha : chk = true → u32 off ≠ 0 := by rwa [hu]
  simp only [write, assert_of ha, hu, access_of_le h]
  rfl

/-- What a read that returns has read. -/
theorem read_result {w : Nat} (h : read chk w off s = .ok (v, s')) :
    v = loadNat s.mem (u32 off) w ∧ s = s' := by
  unfold read at h
  obtain ⟨_, s₁, hassert, h⟩ := bind_eq_ok.mp h
  obtain ⟨_, s₂, haccess, h⟩ := bind_eq_ok.mp h
  obtain ⟨_, rfl⟩ := assert_result hassert
  obtain rfl := access_result haccess
  cases h
  exact ⟨rfl, rfl⟩

/-- What a write that returns has written. -/
theorem write_result {bs : List UInt8} {u : Unit} (h : write chk off bs s = .ok (u, s')) :
    s' = s.write (u32 off) bs := by
  unfold write at h
  obtain ⟨_, s₁, hassert, h⟩ := bind_eq_ok.mp h
  obtain ⟨_, s₂, haccess, h⟩ := bind_eq_ok.mp h
  obtain ⟨_, rfl⟩ := assert_result hassert
  obtain rfl := access_result haccess
  cases h
  rfl

theorem write32_ok (h : off + 4 ≤ kNVMTabletSize) (h0 : chk = true → off ≠ 0) :
    write32 chk off v s = .ok ((), s.wr off v) :=
  write_ok (by simpa using h) (by omega) h0

theorem readTheSizeTag_ok (h : off + 4 ≤ kNVMTabletSize) (h0 : chk = true → off ≠ 0) :
    readTheSizeTag chk off s = .ok (word s.mem off % 2147483648, s) := by
  rw [readTheSizeTag, bind_of_ok (read32_ok h h0), and_kSizeMask, pure_run]

theorem readThePrevFreeTag_ok (h : off + 4 ≤ kNVMTabletSize) (h0 : chk = true → off ≠ 0) :
    readThePrevFreeTag chk off s = .ok (word s.mem off &&& kFreeMask, s) := by
  rw [readThePrevFreeTag, bind_of_ok (read32_ok h h0), pure_run]

theorem readTheFreeTag_ok {blk n : Nat} (h : blk + n + 4 ≤ kNVMTabletSize)
    (h0 : chk = true → blk + n ≠ 0) :
    readTheFreeTag chk blk n s = .ok (word s.mem (blk + n) &&& kFreeMask, s) := by
  rw [readTheFreeTag, bind_of_ok (read32_ok h h0), pure_run]

theorem setTheFreeTag_ok {blk n : Nat} (h : blk + n + 4 ≤ kNVMTabletSize)
    (h0 : chk = true → blk + n ≠ 0) :
    setTheFreeTag chk blk n s =
      .ok ((), s.wr (blk + n) (2147483648 + word s.mem (blk + n) % 2147483648)) := by
  have hu : u32 (blk + n) = blk + n := u32_of_lt (by simp at h; omega)
  rw [setTheFreeTag, hu, bind_of_ok (read32_ok h h0), or_kFreeMask (word_lt _ _),
    write32_ok h h0]

theorem resetTheFreeTag_ok {blk n : Nat} (h : blk + n + 4 ≤ kNVMTabletSize)
    (h0 : chk = true → blk + n ≠ 0) :
    resetTheFreeTag chk blk n s =
      .ok ((), s.wr (blk + n) (word s.mem (blk + n) % 2147483648)) := by
  have hu : u32 (blk + n) = blk + n := u32_of_lt (by simp at h; omega)
  rw [resetTheFreeTag, hu, bind_of_ok (read32_ok h h0), and_kSizeMask, write32_ok h h0]

/-- The index of the free list for blocks of `n` bytes. -/
def classOf (n : Nat) : Nat := if n ≤ kMaxBlockSize then n / 16 - 1 else kNumFreeLists - 1

theorem classOf_lt (n : Nat) : classOf n < kNumFreeLists := by
  unfold classOf
  simp only [kMaxBlockSize_eq, kNumFreeLists_eq]
  by_cases h : n ≤ 1152
  · rw [if_pos h]; omega
  · rw [if_neg h]; omega

theorem classOf_of_le {n : Nat} (h : n ≤ 1152) : classOf n = n / 16 - 1 := by
  unfold classOf
  rw [if_pos (by simpa using h)]

theorem classOf_of_gt {n : Nat} (h : 1152 < n) : classOf n = 72 := by
  unfold classOf
  rw [if_neg (by simp; omega)]
  simp

/-- A block whose class is at least that of the request is at least as large. -/
theorem le_of_classOf_le {n k : Nat} (hn : n ≤ 1152) (hn16 : 16 ∣ n) (hk16 : 16 ∣ k) (hk : 16 ≤ k)
    (h : classOf n ≤ classOf k) : n ≤ k := by
  rcases Nat.lt_or_ge 1152 k with hlt | hge
  · omega
  · rw [classOf_of_le hn, classOf_of_le hge] at h
    omega

/-- Only 16-byte blocks are on the list at offset 0. -/
theorem classOf_ne_zero {n : Nat} (h : 32 ≤ n) : classOf n ≠ 0 := by
  rcases Nat.lt_or_ge 1152 n with hlt | hge
  · rw [classOf_of_gt hlt]
    omega
  · rw [classOf_of_le hge]
    omega

theorem getFreeListByBlockSize_ok {n : Nat} (h : 16 ≤ n) :
    getFreeListByBlockSize n s = .ok (4 * classOf n, s) := by
  rw [getFreeListByBlockSize, assert_of h, bind_of_ok (pure_run _ _)]
  unfold classOf
  split
  · rw [pure_run, Nat.mul_comm]
  · rw [getLastFreeList, pure_run, Nat.mul_comm]

end Allocator

end Nvds
