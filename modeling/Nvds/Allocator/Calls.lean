import Nvds.Allocator.Acquire

/-! # `Format`, `Alloc` and `Free`

    The three calls a client of the allocator makes, on a heap that satisfies
    the invariant. `Format` sets up one free block; `Alloc` and `Free` are
    `allocBlock` and `freeBlock` behind a rounding of the size and a header
    of four bytes.
-/

open ByteMemory Program LinkedList Tiling

namespace Nvds.Allocator

variable {chk : Bool} {σ : Shape} {m m' : Mem} {s : Nvm}

/-! ### `Format` -/

/-- The heap of one free block. -/
def Shape.fresh : Shape where
  size b := if b = kHeapBegin then kHeapEnd - kHeapBegin else 0
  free _ := true

theorem fresh_eq_of_ne {b : Nat} (h : Shape.fresh.size b ≠ 0) : b = kHeapBegin := by
  by_contra hne
  exact h (if_neg hne)

theorem fresh_size : Shape.fresh.size 292 = 67108560 := by decide

theorem fresh_roomy (chk : Bool) : Shape.fresh.Roomy chk := by
  intro _ b hb
  have hne : Shape.fresh.size b ≠ 0 := by omega
  rw [fresh_eq_of_ne hne] at hb
  exact absurd hb (by decide)

theorem fresh_wf : Shape.fresh.WF := by
  refine ⟨⟨by decide, ?_, ?_, ?_⟩, ?_⟩
  · intro b hb
    rw [fresh_eq_of_ne hb]
    decide
  · intro b hb
    rw [fresh_eq_of_ne hb]
    exact Or.inl (by decide)
  · intro b x hb h₁ h₂
    rw [fresh_eq_of_ne hb] at h₁
    exact if_neg (by omega)
  · intro b
    by_cases hb : b = kHeapBegin
    · rw [hb]
      decide
    · rw [show Shape.fresh.size b = 0 from if_neg hb]
      exact Nat.dvd_zero 16

/-- The words `Format` leaves behind, all others being 0. -/
def formatWord (w : Nat) : Nat :=
  if w = kHeapEnd then 2147483648
  else if w = kHeapEnd - 4 then kHeapEnd - kHeapBegin
  else if w = kHeapBegin then kHeapEnd - kHeapBegin
  else if w = getLastFreeList then kHeapBegin
  else 0

/-- Memory with the words of a fresh heap represents the fresh heap. -/
theorem heapInv_fresh (h : ∀ w, w % 4 = 0 → w + 4 ≤ kSize → word m w = formatWord w) :
    HeapInv m Shape.fresh ∧ Complete (lists m) Shape.fresh.Free Shape.fresh.cls := by
  have hnode : IsNode 292 := by decide
  -- only the last list has a block, at the beginning of the heap
  have hhead : ∀ c, (lists m).head c = if c = 72 then 292 else 0 := by
    intro c
    by_cases hc : c < kNumFreeLists
    · have hc' : c < 73 := by simpa using hc
      rw [lists_head_eq hc, h _ (by omega) (by simp; omega)]
      simp only [formatWord, kHeapEnd_eq, kHeapBegin_eq, getLastFreeList, kNumFreeLists_eq]
      rw [if_neg (by omega), if_neg (by omega), if_neg (by omega)]
      by_cases h72 : c = 72
      · rw [if_pos (by omega), if_pos h72]
      · rw [if_neg (by omega), if_neg h72]
    · have hc' : ¬ c < 73 := by simpa using hc
      rw [if_neg (by omega)]
      exact if_neg hc
  have hprev : (lists m).prev 292 = 0 := by
    rw [lists_prev_eq hnode, h _ (by omega) (by simp)]
    decide
  have hnext : (lists m).next 292 = 0 := by
    rw [lists_next_eq hnode, h _ (by omega) (by simp)]
    decide
  have hcls : Shape.fresh.cls 292 = 72 := by decide
  have hfree : Shape.fresh.Free 292 := ⟨by decide, rfl⟩
  have honly : ∀ b, Shape.fresh.size b ≠ 0 → b = 292 := by
    intro b hb
    have := fresh_eq_of_ne hb
    simpa using this
  refine ⟨⟨fresh_wf, ⟨?_, ?_, ?_, ?_, ?_⟩, ⟨?_, ?_, ?_, ?_⟩⟩, ?_⟩
  · intro b hb
    rw [honly b hb, h _ (by omega) (by simp)]
    decide
  · rw [h _ (by simp) (by simp)]
    decide
  · rw [h _ (by simp) (by simp)]
    decide
  · intro b hb
    rw [honly b hb, fresh_size, h _ (by omega) (by simp)]
    decide
  · intro b hb _
    rw [honly b hb, fresh_size, h _ (by omega) (by simp)]
    decide
  · intro b hb
    rw [honly b hb.1]
    decide
  · intro c hc
    rw [hhead] at hc ⊢
    by_cases h72 : c = 72
    · rw [if_pos h72]
      exact ⟨hfree, hcls.trans h72.symm, hprev⟩
    · rw [if_neg h72] at hc
      exact absurd rfl hc
  · intro b hb hn
    rw [honly b hb.1] at hn
    exact absurd hnext hn
  · intro b hb hp
    rw [honly b hb.1] at hp
    exact absurd hprev hp
  · intro c
    by_cases h72 : c = 72
    · refine ⟨[292], ⟨by rw [hhead, if_pos h72], by decide, hnext⟩, ?_⟩
      intro b hb _
      simp [honly b hb.1]
    · refine ⟨[], by rw [seg_nil, hhead, if_neg h72], ?_⟩
      intro b hb hbc
      rw [honly b hb.1, hcls] at hbc
      exact absurd hbc.symm h72

/-- **Formatting.** `Format` returns with the heap of one free block; the bytes
    behind the heap stay as they are. -/
theorem format_run (chk : Bool) (s : Nvm) :
    ∃ s', format chk s = .ok ((), s') ∧ s'.base = s.base ∧ s'.modifications = [] ∧
      HeapInv s'.mem Shape.fresh ∧
      Complete (lists s'.mem) Shape.fresh.Free Shape.fresh.cls ∧
      ∀ a, kSize ≤ a → s'.mem a = s.mem a := by
  -- the `memset` of the heap
  obtain ⟨s₀, hs₀⟩ : ∃ s₀ : Nvm, s₀ =
      { s with mem := fun a => if a < kSize then 0 else s.mem a, modifications := [] } := ⟨_, rfl⟩
  have hzero : ∀ w, w + 4 ≤ kSize → word s₀.mem w = 0 := by
    intro w hw
    have : ∀ a, w ≤ a → a < w + 4 → s₀.mem a = (fun _ => 0 : Mem) a := by
      intro a _ h₂
      rw [hs₀]
      exact if_pos (by omega)
    rw [word_congr this]
    rfl
  -- the head of the last list, and the size in the first and the last word of the block
  obtain ⟨s₃, hs₃⟩ : ∃ s₃, s₃ = ((s₀.wr 288 292).wr 292 67108560).wr 67108848 67108560 := ⟨_, rfl⟩
  have hw₃ : ∀ w, w % 4 = 0 → w + 4 ≤ kSize → word s₃.mem w =
      if w = 67108848 then 67108560 else if w = 292 then 67108560
      else if w = 288 then 292 else 0 := by
    intro w hw hle
    rw [hs₃, Nvm.wr_mem, word_storeNat (by omega) hw (by omega), Nvm.wr_mem,
      word_storeNat (by omega) hw (by omega), Nvm.wr_mem, word_storeNat (by omega) hw (by omega),
      hzero w hle]
  have hsent : word s₃.mem 67108852 = 0 := by
    rw [hw₃ _ (by omega) (by simp)]
    decide
  -- the tag behind the heap, which says that the block before it is free
  obtain ⟨s₄, hs₄⟩ : ∃ s₄, s₄ = s₃.wr 67108852 2147483648 := ⟨_, rfl⟩
  have hw₄ : ∀ w, w % 4 = 0 → w + 4 ≤ kSize → word s₄.mem w = formatWord w := by
    intro w hw hle
    rw [hs₄, Nvm.wr_mem, word_storeNat (by omega) hw (by omega), hw₃ w hw hle]
    rfl
  have htag : setTheFreeTag chk 292 67108560 s₃ = .ok ((), s₄) := by
    rw [setTheFreeTag_ok (by simp) (by omega), hs₄]
    show Except.ok ((), s₃.wr 67108852 (2147483648 + word s₃.mem 67108852 % 2147483648)) = _
    rw [hsent]
  obtain ⟨hheap, hcomp⟩ := heapInv_fresh hw₄
  refine ⟨{ s₄ with modifications := [] }, ?_, ?_, rfl, hheap, hcomp, ?_⟩
  · have hmod : ∀ f : Nvm → Nvm, ∀ t, (modify f : NvmM Unit) t = .ok ((), f t) := fun _ _ => rfl
    have hlast : getLastFreeList = 288 := by decide
    have hsize : (kSize - 292 - 4) / 16 * 16 = 67108560 := by decide
    have hmask : (67108560 &&& kSizeMask) = 67108560 := by decide
    rw [format, bind_of_ok (hmod _ _), ← hs₀]
    simp only [kHeapBegin_eq, hlast, hsize, hmask]
    rw [bind_of_ok (write32_ok (by simp) (by omega)), bind_of_ok (write32_ok (by simp) (by omega)),
      bind_of_ok (write32_ok (by simp) (by omega)), ← hs₃, bind_of_ok htag, hmod]
  · rw [hs₄, hs₃, hs₀]
    rfl
  · intro a ha
    have ha' : 67108864 ≤ a := by simpa using ha
    show s₄.mem a = s.mem a
    rw [hs₄, Nvm.wr_mem, storeNat_of_not_mem (by omega), hs₃, Nvm.wr_mem,
      storeNat_of_not_mem (by omega), Nvm.wr_mem, storeNat_of_not_mem (by omega), Nvm.wr_mem,
      storeNat_of_not_mem (by omega), hs₀]
    exact if_neg (by omega)

theorem format_formatted (chk : Bool) :
    format chk ⟨0, fun _ => 0, []⟩ = .ok ((), formatted chk) := by
  obtain ⟨s, hs, _⟩ := format_run chk ⟨0, fun _ => 0, []⟩
  rw [hs]
  unfold formatted
  rw [hs]

/-! ### `Alloc` -/

/-- The block size `Alloc` asks for. -/
def blockSize (n : Nat) : Nat := (n + 4 + 15) / 16 * 16

theorem blockSize_bounds {n : Nat} (h₁ : 13 ≤ n) (h₂ : n + 4 ≤ kMaxBlockSize) :
    n + 4 ≤ blockSize n ∧ 32 ≤ blockSize n ∧ blockSize n ≤ kMaxBlockSize ∧ 16 ∣ blockSize n := by
  simp only [kMaxBlockSize_eq] at h₂ ⊢
  unfold blockSize
  omega

/-- The request is rounded up and passes the assertions on its size. -/
theorem alloc_eq (chk : Bool) (s : Nvm) {n : Nat} (hn : 13 ≤ n) (hmax : n + 4 ≤ kMaxBlockSize) :
    alloc chk n s = (do
      let blk ← allocBlock chk (blockSize n)
      pure (if blk = 0 then 0 else u32 (blk + 4)) : NvmM Nat) s := by
  obtain ⟨hb₁, hb₂, hb₃, hb₄⟩ := blockSize_bounds hn hmax
  simp only [kMaxBlockSize_eq] at hmax hb₃
  have hu : u32 (n + 4) = n + 4 := u32_of_lt (by omega)
  have hround : roundupBlockSize (n + 4) = pure (blockSize n) :=
    if_pos (by simp only [kMaxBlockSize_eq]; omega)
  rw [alloc, hu, hround, bind_of_ok (pure_run _ _), assert_of (Nat.mod_eq_zero_of_dvd hb₄),
    bind_of_ok (pure_run _ _), assert_of (by simpa using hb₃), bind_of_ok (pure_run _ _)]

/-- **`Alloc`.** No block and nothing changed, or the failure on the list at
    offset 0, or the offset behind the header of a new live block. -/
theorem alloc_run (chk : Bool) (h : HeapCore s.mem σ) {n : Nat} (hn : 13 ≤ n)
    (hmax : n + 4 ≤ kMaxBlockSize) :
    (NoFit (lists s.mem) (classOf (blockSize n)) ∧ alloc chk n s = .ok (0, s)) ∨
    (chk = true ∧ LeavesTiny s.mem (blockSize n) ∧ alloc chk n s = .error .assertion) ∨
    ((chk = true → ¬ LeavesTiny s.mem (blockSize n)) ∧ ∃ s' σ' blk,
      alloc chk n s = .ok (blk + 4, s') ∧ AllocCore chk s σ (blockSize n) s' σ' blk ∧
      FromFirstFit s.mem σ (blockSize n) blk) := by
  obtain ⟨hb₁, hb₂, hb₃, hb₄⟩ := blockSize_bounds hn hmax
  simp only [kMaxBlockSize_eq] at hb₃
  rw [alloc_eq chk s hn hmax]
  rcases allocBlock_run h hb₄ hb₂ (by simpa using hb₃) with
    ⟨hno, hrun⟩ | ⟨hchk, ht, hrun⟩ | ⟨ht, s', σ', blk, hrun, hok, hfirst⟩
  · left
    exact ⟨hno, by rw [bind_of_ok hrun, if_pos rfl, pure_run]⟩
  · right; left
    exact ⟨hchk, ht, bind_of_error hrun⟩
  · right; right
    refine ⟨ht, s', σ', blk, ?_, hok, hfirst⟩
    have hlive := (hok.acquired.live blk).mpr (Or.inr rfl)
    have hlo := (hok.heap.wf.node hlive.1).1
    have hend := hok.heap.wf.end_le hlive.1
    simp only [kHeapBegin_eq, kHeapEnd_eq] at hlo hend
    rw [bind_of_ok hrun, if_neg (by omega), u32_of_lt (by omega), pure_run]

/-! ### `Free` -/

/-- What freeing the block `blk` does to the heap; its last word is in order if it is freed
    cleanly. -/
structure Released (chk : Bool) (s : Nvm) (σ : Shape) (blk : Nat) (s' : Nvm) (σ' : Shape) :
    Prop where
  base : s'.base = s.base
  heap : HeapCore s'.mem σ'
  footers : FreesCleanly s.mem blk → Footers s'.mem σ'
  roomy : σ.Roomy chk → σ'.Roomy chk
  live : ∀ x, σ'.Live x ↔ σ.Live x ∧ x ≠ blk
  same : ∀ x, σ.Live x → x ≠ blk → σ'.size x = σ.size x
  keeps : Keeps σ blk s.mem s'.mem
  complete : Complete (lists s.mem) σ.Free σ.cls → Complete (lists s'.mem) σ'.Free σ'.cls

/-- The other live blocks lie outside the fused one. -/
theorem Merged.outside (hσ : σ.WF) {blk lo hi : Nat} (hm : Merged m σ blk lo hi)
    (hb : σ.Live blk) {x : Nat} (hx : σ.Live x) (hne : x ≠ blk) : x < lo ∨ hi ≤ x := by
  by_contra hin
  have hin' : lo ≤ x ∧ x < hi := by omega
  -- inside there are only `blk` and the two free neighbours
  rcases Nat.lt_or_ge x blk with hlt | hge'
  · rcases hm.left with ⟨h₁, _⟩ | ⟨hF, h₁, _⟩
    · omega
    · by_cases hxl : x = lo
      · rw [hxl] at hx
        exact Bool.noConfusion (hF.2.symm.trans hx.2)
      · exact hx.1 (hσ.tiled.inside lo x hF.1 (by omega) (by omega))
  · by_cases hxb : x < blk + σ.size blk
    · exact hx.1 (hσ.tiled.inside blk x hb.1 (by omega) hxb)
    · rcases hm.right with ⟨h₁, _⟩ | ⟨hF, h₁, _⟩
      · omega
      · by_cases hxe : x = blk + σ.size blk
        · rw [hxe] at hx
          exact Bool.noConfusion (hF.2.symm.trans hx.2)
        · exact hx.1 (hσ.tiled.inside _ x hF.1 (by omega) (by omega))

theorem Merged.bounds {blk lo hi : Nat} (hm : Merged m σ blk lo hi) :
    lo ≤ blk ∧ blk + σ.size blk ≤ hi := by
  constructor
  · rcases hm.left with ⟨h₁, _⟩ | ⟨_, h₁, _⟩
    · omega
    · omega
  · rcases hm.right with ⟨h₁, _⟩ | ⟨_, h₁, _⟩
    · omega
    · omega

/-- The offset passes the assertion on it. -/
theorem free_eq (chk : Bool) (s : Nvm) (hσ : σ.WF) {blk : Nat} (hb : σ.size blk ≠ 0) :
    free chk (blk + 4) s = freeBlock chk blk s := by
  obtain ⟨hlo, _, hge, _, hend⟩ := hσ.layout hb
  rw [free, assert_of (by simp; omega), bind_of_ok (pure_run _ _)]
  rfl

/-- **`Free`** of a live block returns, unless a neighbour to merge is the first of the list
    at offset 0. -/
theorem free_run (chk : Bool) (h : HeapInv s.mem σ) {blk : Nat} (hb : σ.Live blk)
    (h16 : chk = true → σ.size blk ≠ 16) :
    (Blocked chk s.mem σ blk ∧ free chk (blk + 4) s = .error .assertion) ∨
    ¬ Blocked chk s.mem σ blk ∧ ∃ s' σ', free chk (blk + 4) s = .ok ((), s') ∧ Released chk s σ blk s' σ' := by
  have hσ := h.wf
  obtain ⟨hlo, _, hge, _, hend⟩ := hσ.layout hb.1
  rw [free_eq chk s hσ hb.1]
  -- the merged block runs from `lo` to `hi`, and holds `blk` and free bytes only
  rcases freeBlock_cases h hb h16 with ⟨hbad, hrun⟩ |
    ⟨hok, s', lo, hi, hrun, hbase, hm, hheap, hfoot, hcomp, hk, _⟩
  · exact Or.inl ⟨hbad, hrun⟩
  refine Or.inr ⟨hok, ?_⟩
  obtain ⟨hlob, hhib⟩ := hm.bounds
  have hlt : lo < hi := by omega
  refine ⟨s', σ.fuse lo hi, hrun, hbase, hheap, hfoot, ?_, ?_, ?_, hk, hcomp⟩
  · intro hr hchk x hx
    have hne : (σ.fuse lo hi).size x ≠ 0 := by omega
    -- it is no smaller than `blk`, whose size is not 16
    rcases fuse_ne_zero_cases hne with rfl | ⟨ho, _⟩
    · have hself : (σ.fuse x hi).size x = hi - x := fuse_self _ _ _
      have := hr hchk blk
      obtain ⟨k, hk⟩ := hσ.aligned blk
      omega
    · apply hr hchk x
      rw [← hx]
      exact (fuse_of_outside ho hlt).symm
  · intro x
    rw [σ.fuse_live hlt]
    constructor
    · intro hx
      refine ⟨hx.1, fun heq => hx.2 ?_⟩
      omega
    · intro hx
      refine ⟨hx.1, ?_⟩
      have := hm.outside hσ hb hx.1 hx.2
      omega
  · intro x hx hne
    exact fuse_of_outside (hm.outside hσ hb hx hne) hlt

/-- **`Free`** of a live block whose last word is in order, or gets written. -/
theorem free_clean (h : HeapInv s.mem σ) (hr : σ.Roomy chk) {blk : Nat} (hb : σ.Live blk)
    (hclean : FreesCleanly s.mem blk) :
    ∃ s' σ', free chk (blk + 4) s = .ok ((), s') ∧ Released chk s σ blk s' σ' ∧
      HeapInv s'.mem σ' ∧ σ'.Roomy chk := by
  rcases free_run chk h hb (fun hchk => hr hchk blk) with ⟨⟨b, _, hbad, _⟩, _⟩ | ⟨_, s', σ', hrun, hrel⟩
  · exact absurd hbad.2.2 (hr hbad.1 b)
  · exact ⟨s', σ', hrun, hrel, hrel.heap.inv (hrel.footers hclean), hrel.roomy hr⟩

end Nvds.Allocator
