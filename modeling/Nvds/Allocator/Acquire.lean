import Nvds.Allocator.Release

/-! # Acquiring a block

    `allocBlock` scans the free lists from the class of the request upwards
    and takes the head of the first non-empty one: as it is when it fits
    exactly, else its upper end (`splitBlock`).

    When the block taken was the only one on its list, the exact-fit path
    still stores 0 to the `prev` field of "the next block", which is then the
    word at offset 4: the head of the list of 32-byte blocks. The heap stays
    well-formed, but the blocks of that list are lost to later requests;
    `KeepsLists` is the condition under which they are not.
-/

open ByteMemory Program LinkedList Tiling

namespace Nvds.Allocator

variable {chk : Bool} {σ : Shape} {m m' : Mem} {s : Nvm}

/-! ### The scan -/

/-- `c'` is the first class from `c` on with a non-empty list. -/
structure FirstFit (l : Lists) (c c' : Nat) : Prop where
  le : c ≤ c'
  lt : c' < kNumFreeLists
  head : l.head c' ≠ 0
  skip : ∀ d, c ≤ d → d < c' → l.head d = 0

/-- All lists from class `c` on are empty. -/
def NoFit (l : Lists) (c : Nat) : Prop := ∀ d, c ≤ d → d < kNumFreeLists → l.head d = 0

/-- The scan stops at the first non-empty list, or behind the last one. -/
theorem scanFreeLists_run (chk : Bool) (s : Nvm) (c rounds : Nat) (hc0 : chk = true → c ≠ 0)
    (hr : kNumFreeLists ≤ c + rounds) :
    (∃ c', FirstFit (lists s.mem) c c' ∧
      scanFreeLists chk rounds (4 * c) s = .ok ((4 * c', (lists s.mem).head c'), s)) ∨
    (NoFit (lists s.mem) c ∧
      ∃ fl, scanFreeLists chk rounds (4 * c) s = .ok ((fl, 0), s)) := by
  -- the walk goes up the list heads, one round for each
  induction rounds generalizing c with
  | zero =>
    right
    refine ⟨?_, 4 * c, by rw [scanFreeLists, pure_run]⟩
    intro d hd hlt
    omega
  | succ rounds ih =>
    rw [scanFreeLists]
    by_cases hc : c < kNumFreeLists
    · have hB : 4 * c + 4 ≤ kNVMTabletSize := by
        simp only [kNumFreeLists_eq] at hc
        simp
        omega
      have hhd : word s.mem (4 * c) = (lists s.mem).head c := (lists_head_eq hc).symm
      rw [if_pos (by omega), bind_of_ok (read32_ok hB fun hchk => by have := hc0 hchk; omega), hhd]
      by_cases h0 : (lists s.mem).head c = 0
      · rw [if_pos h0]
        have hstep : 4 * c + 4 = 4 * (c + 1) := by omega
        rw [hstep]
        have hskip : ∀ d, c ≤ d → ¬ c + 1 ≤ d → (lists s.mem).head d = 0 := by
          intro d h₁ h₂
          have : d = c := by omega
          rw [this]
          exact h0
        -- an empty list is passed over, and what is found behind it is found from here
        rcases ih (c + 1) (fun _ => by omega) (by omega) with ⟨c', hf, hrun⟩ | ⟨hno, fl, hrun⟩
        · left
          refine ⟨c', ⟨by have := hf.le; omega, hf.lt, hf.head, ?_⟩, hrun⟩
          intro d h₁ h₂
          by_cases hd : c + 1 ≤ d
          · exact hf.skip d hd h₂
          · exact hskip d h₁ hd
        · right
          refine ⟨?_, fl, hrun⟩
          intro d h₁ h₂
          by_cases hd : c + 1 ≤ d
          · exact hno d hd h₂
          · exact hskip d h₁ hd
      · left
        rw [if_neg h0, pure_run]
        exact ⟨c, ⟨le_rfl, hc, h0, fun d h₁ h₂ => by omega⟩, rfl⟩
    · right
      rw [if_neg (by omega), pure_run]
      exact ⟨fun d h₁ h₂ => by omega, 4 * c, rfl⟩

/-! ### Cutting and taking blocks -/

/-- The free block at `b` cut into a free block of `r` bytes and a live rest. -/
def Shape.split (σ : Shape) (b r : Nat) : Shape where
  size := Tiling.split σ.size b r
  free := Function.update σ.free (b + r) false

/-- The block at `b` made live. -/
def Shape.take (σ : Shape) (b : Nat) : Shape where
  size := σ.size
  free := Function.update σ.free b false

/-- `σ'` is `σ` with one more live block, of `n` bytes at `blk`. -/
structure Acquired (σ : Shape) (blk n : Nat) (σ' : Shape) : Prop where
  size : σ'.size blk = n
  live : ∀ x, σ'.Live x ↔ σ.Live x ∨ x = blk
  fresh : ¬ σ.Live blk
  same : ∀ x, σ.Live x → σ'.size x = σ.size x

theorem Shape.WF.split (hσ : σ.WF) {b r : Nat} (hb : σ.size b ≠ 0) (hr : 0 < r)
    (hlt : r < σ.size b) (h16 : 16 ∣ r) : (σ.split b r).WF := by
  refine ⟨hσ.tiled.split hb hr hlt, ?_⟩
  intro x
  show 16 ∣ Tiling.split σ.size b r x
  unfold Tiling.split
  split
  · exact h16
  · split
    · exact Nat.dvd_sub (hσ.aligned b) h16
    · exact hσ.aligned x

theorem acquired_split (hσ : σ.WF) {b r : Nat} (hb : σ.Free b) (hr : 0 < r)
    (hlt : r < σ.size b) : Acquired σ (b + r) (σ.size b - r) (σ.split b r) := by
  -- nothing began inside of `b`, so no live block is at either piece
  have hnone : σ.size (b + r) = 0 := hσ.tiled.inside b (b + r) hb.1 (by omega) (by omega)
  have hne : ∀ x, σ.Live x → x ≠ b ∧ x ≠ b + r := by
    intro x hx
    constructor
    · intro heq
      rw [heq] at hx
      exact Bool.noConfusion (hb.2.symm.trans hx.2)
    · intro heq
      exact hx.1 (heq ▸ hnone)
  refine ⟨split_rest σ.size hr, ?_, fun hx => hx.1 hnone, ?_⟩
  · intro x
    constructor
    · intro hx
      -- the first piece stays free, the rest is the new live block
      rcases split_ne_zero_cases hx.1 with heq | heq | ⟨h₁, h₂, h₃⟩
      · have hf := hx.2
        rw [heq] at hf
        simp only [Shape.split, Function.update_apply, show ¬ b = b + r by omega, if_false] at hf
        exact Bool.noConfusion (hb.2.symm.trans hf)
      · exact Or.inr heq
      · have hf := hx.2
        simp only [Shape.split, Function.update_apply, h₂, if_false] at hf
        exact Or.inl ⟨h₃, hf⟩
    · intro hx
      rcases hx with hx | hx
      · obtain ⟨h₁, h₂⟩ := hne x hx
        constructor
        · show Tiling.split σ.size b r x ≠ 0
          rw [split_other h₁ h₂]
          exact hx.1
        · simp only [Shape.split, Function.update_apply, h₂, if_false]
          exact hx.2
      · constructor
        · show Tiling.split σ.size b r x ≠ 0
          rw [hx, split_rest σ.size hr]
          omega
        · simp [Shape.split, hx]
  · intro x hx
    obtain ⟨h₁, h₂⟩ := hne x hx
    exact split_other h₁ h₂

/-- The free blocks after a split are those of before. -/
theorem split_free (hσ : σ.WF) {b r : Nat} (hb : σ.Free b) (hr : 0 < r) (hlt : r < σ.size b)
    (x : Nat) : (σ.split b r).Free x ↔ (σ.Free x ∧ x ≠ b) ∨ x = b := by
  have hnone : σ.size (b + r) = 0 := hσ.tiled.inside b (b + r) hb.1 (by omega) (by omega)
  constructor
  · intro hx
    -- `b` is free as before, the rest behind it is not
    rcases split_ne_zero_cases hx.1 with heq | heq | ⟨h₁, h₂, h₃⟩
    · exact Or.inr heq
    · have hf := hx.2
      simp [Shape.split, heq] at hf
    · have hf := hx.2
      simp only [Shape.split, Function.update_apply, h₂, if_false] at hf
      exact Or.inl ⟨⟨h₃, hf⟩, h₁⟩
  · intro hx
    rcases hx with ⟨hx, hne⟩ | hx
    · have hne' : x ≠ b + r := fun heq => hx.1 (heq ▸ hnone)
      constructor
      · show Tiling.split σ.size b r x ≠ 0
        rw [split_other hne hne']
        exact hx.1
      · simp only [Shape.split, Function.update_apply, hne', if_false]
        exact hx.2
    · constructor
      · show Tiling.split σ.size b r x ≠ 0
        rw [hx, split_self]
        omega
      · simp only [Shape.split, Function.update_apply, hx, show ¬ b = b + r by omega, if_false]
        exact hb.2

theorem acquired_take {b : Nat} (hb : σ.Free b) : Acquired σ b (σ.size b) (σ.take b) := by
  refine ⟨rfl, ?_, fun hx => Bool.noConfusion (hb.2.symm.trans hx.2), fun _ _ => rfl⟩
  intro x
  by_cases hx : x = b
  · simp [Shape.take, Shape.Live, hx, hb.1]
  · simp [Shape.take, Shape.Live, hx]

theorem take_free {b : Nat} (x : Nat) : (σ.take b).Free x ↔ σ.Free x ∧ x ≠ b := by
  by_cases hx : x = b
  · simp [Shape.take, Shape.Free, hx]
  · simp [Shape.take, Shape.Free, hx]

/-- The headers after a split: those of the two pieces, and the free bit behind the piece
    split off. -/
theorem Headers.split (hσ : σ.WF) (ht : Headers m σ) {b r : Nat} (hb : σ.Free b) (hr : 0 < r)
    (hlt : r < σ.size b)
    (hsize : word m' b % 2147483648 = r)
    (htag : 2147483648 ≤ word m' b ↔ 2147483648 ≤ word m b)
    (hrest : word m' (b + r) = 2147483648 + (σ.size b - r))
    (hend : word m' (b + σ.size b) = word m (b + σ.size b) % 2147483648)
    (hcut : ∀ w, IsCut kHeapEnd σ.size w → w ≠ b → w ≠ b + σ.size b → word m' w = word m w) :
    Headers m' (σ.split b r) := by
  have hself : (σ.split b r).size b = r := split_self _ _ _
  have hsz : (σ.split b r).size (b + r) = σ.size b - r := split_rest _ hr
  have hoth : ∀ x, x ≠ b → x ≠ b + r → (σ.split b r).size x = σ.size x := fun x => split_other
  have hfree : ∀ x, x ≠ b + r → (σ.split b r).free x = σ.free x := by
    intro x hx
    simp [Shape.split, hx]
  have hbe := hσ.end_le hb.1
  simp only [kHeapEnd_eq] at hbe
  have hjoin : b + r + (σ.size b - r) = b + σ.size b := by omega
  -- the words that changed are the headers of `b`, of the rest and of what follows it
  refine ⟨?_, ?_, ?_, ?_⟩
  · intro x hx
    -- the sizes
    rcases split_ne_zero_cases hx with rfl | rfl | ⟨h₁, h₂, h₃⟩
    · rw [hself]; exact hsize
    · rw [hsz, hrest]; omega
    · rw [hoth x h₁ h₂, ← ht.size x h₃]
      by_cases hxe : x = b + σ.size b
      · rw [hxe, hend, Nat.mod_mod]
      · rw [hcut x (Or.inr h₃) h₁ hxe]
  -- the rest may end at the sentinel
  · by_cases hE : kHeapEnd = b + σ.size b
    · rw [hE, hend, Nat.mod_mod, ← hE]; exact ht.sentinel
    · rw [hcut _ (Or.inl rfl) (by simp; omega) hE]; exact ht.sentinel
  · have hle := (hσ.node hb.1).1
    -- and the first block may be `b` itself, whose bit was kept
    by_cases hB : kHeapBegin = b
    · have hfirst := ht.first
      rw [hB] at hfirst ⊢
      omega
    · rw [hcut _ (Or.inr hσ.tiled.first) hB (by omega)]; exact ht.first
  · intro x hx
    -- the bits: that of `b` is in the header of the rest, that of the rest behind it
    rcases split_ne_zero_cases hx with rfl | rfl | ⟨h₁, h₂, h₃⟩
    · rw [hself, hrest, hfree x (by omega), hb.2]
      simp
    · rw [hsz, hjoin, hend]
      simp only [Shape.split, Function.update_self]
      have := Nat.mod_lt (word m (b + σ.size b)) (show 0 < 2147483648 by omega)
      simp
      omega
    · rw [hoth x h₁ h₂, hfree x h₂, ← ht.free x h₃]
      by_cases hxb : x + σ.size x = b
      · rw [hxb]; exact htag
      · have hxe : x + σ.size x ≠ b + σ.size b := fun heq =>
          h₁ (hσ.tiled.prev_unique h₃ hb.1 heq)
        rw [hcut _ (hσ.end_cut h₃) hxb hxe]

/-- The last words after a split: that of the rest holds its size. -/
theorem Footers.split (hσ : σ.WF) (hf : Footers m σ) {b r : Nat} (hb : σ.Free b) (hr : 0 < r)
    (hlt : r < σ.size b) (hfoot : word m' (b + r - 4) = r)
    (hlast : ∀ x, σ.Free x → x ≠ b →
      word m' (x + σ.size x - 4) = word m (x + σ.size x - 4)) :
    Footers m' (σ.split b r) := by
  intro x hx
  rcases (split_free hσ hb hr hlt x).mp hx with ⟨hxF, hxb⟩ | rfl
  · have hxr : x ≠ b + r := by
      intro heq
      exact hxF.1 (hσ.tiled.inside b x hb.1 (by omega) (by omega))
    have hsize : (σ.split b r).size x = σ.size x := split_other hxb hxr
    rw [hsize, hlast x hxF hxb]
    exact hf x hxF
  · have hself : (σ.split x r).size x = r := split_self _ _ _
    rw [hself]
    exact hfoot

/-! ### `splitBlock` -/

/-- The last part of `splitBlock`: the tags of the piece split off. -/
theorem carve_run (chk : Bool) (hσ : σ.WF) {b r : Nat} (hb : σ.Free b) (hr0 : 0 < r)
    (hr16 : 16 ∣ r) (hlt : r < σ.size b) (e : Nat) :
    ∃ s', (do
        write32 chk (b + r) (kFreeMask ||| (σ.size b - r))
        write32 chk (sub32 (u32 (b + σ.size b)) 4) (σ.size b - r)
        resetTheFreeTag chk (u32 (b + r)) (σ.size b - r)
        pure (u32 (b + r)) : NvmM Nat) s = .ok (b + r, s') ∧
      s'.base = s.base ∧ lists s'.mem = lists s.mem ∧
      word s'.mem (b + r) = 2147483648 + (σ.size b - r) ∧
      word s'.mem (b + σ.size b - 4) = σ.size b - r ∧
      word s'.mem (b + σ.size b) = word s.mem (b + σ.size b) % 2147483648 ∧
      (∀ w, w % 4 = 0 → w ≠ b + r → w ≠ b + σ.size b - 4 → w ≠ b + σ.size b →
        word s'.mem w = word s.mem w) ∧
      Keeps σ e s.mem s'.mem := by
  obtain ⟨hlo, hmod⟩ := hσ.node hb.1
  have hend := hσ.end_le hb.1
  obtain ⟨k, hk⟩ := hσ.aligned b
  simp only [kHeapBegin_eq, kHeapEnd_eq] at hlo hend
  have hsub : sub32 (u32 (b + σ.size b)) 4 = b + σ.size b - 4 := by
    rw [u32_of_lt (by omega), sub32_of_le (by omega) (by omega)]
  have hu : u32 (b + r) = b + r := u32_of_lt (by omega)
  have hjoin : b + r + (σ.size b - r) = b + σ.size b := by omega
  -- header and footer of the rest, then the bit behind it
  obtain ⟨s₁, hs₁⟩ : ∃ s₁, s₁ = (s.wr (b + r) (2147483648 + (σ.size b - r))).wr
      (b + σ.size b - 4) (σ.size b - r) := ⟨_, rfl⟩
  have hw₁ : ∀ w, w % 4 = 0 → word s₁.mem w =
      if w = b + σ.size b - 4 then σ.size b - r else if w = b + r then
        2147483648 + (σ.size b - r) else word s.mem w := by
    intro w hw
    rw [hs₁, Nvm.wr_mem, word_storeNat (by omega) hw (by omega), Nvm.wr_mem,
      word_storeNat (by omega) hw (by omega)]
  -- neither of the first two stores meets the header behind the rest
  have hend₁ : word s₁.mem (b + σ.size b) = word s.mem (b + σ.size b) := by
    rw [hw₁ _ (by omega), if_neg (by omega), if_neg (by omega)]
  have hw : ∀ w, w % 4 = 0 →
      word (s₁.wr (b + σ.size b) (word s₁.mem (b + σ.size b) % 2147483648)).mem w =
      if w = b + σ.size b then word s.mem (b + σ.size b) % 2147483648 else word s₁.mem w := by
    intro w hw
    rw [hend₁, Nvm.wr_mem, word_storeNat (by omega) hw (by omega)]
  refine ⟨s₁.wr (b + σ.size b) (word s₁.mem (b + σ.size b) % 2147483648), ?_, by rw [hs₁]; rfl,
    ?_, ?_, ?_, ?_, ?_, ?_⟩
  · rw [kFreeMask_or (by omega), hsub, hu, bind_of_ok (write32_ok (by simp; omega) (by omega)),
      bind_of_ok (write32_ok (by simp; omega) (by omega)), ← hs₁,
      bind_of_ok (resetTheFreeTag_ok (by simp; omega) (by omega)), pure_run, hjoin]
  · rw [Nvm.wr_mem, lists_store_tag (by omega) (by simp only [kHeapBegin_eq]; omega)
      (Or.inl (by omega)), hs₁, Nvm.wr_mem,
      lists_store_tag (by omega) (by simp only [kHeapBegin_eq]; omega) (Or.inr (by omega)),
      Nvm.wr_mem,
      lists_store_tag (by omega) (by simp only [kHeapBegin_eq]; omega) (Or.inl (by omega))]
  · rw [hw _ (by omega), if_neg (by omega), hw₁ _ (by omega), if_neg (by omega), if_pos rfl]
  · rw [hw _ (by omega), if_neg (by omega), hw₁ _ (by omega), if_pos rfl]
  · rw [hw _ (by omega), if_pos rfl]
  · intro w hw4 h₁ h₂ h₃
    rw [hw w hw4, if_neg h₃, hw₁ w hw4, if_neg h₂, if_neg h₁]
  · rw [hs₁]
    exact ((Keeps.store (scratch_inside hσ (Or.inl hb) (by omega) (by omega))).trans
      (Keeps.store (scratch_inside hσ (Or.inl hb) (by omega) (by omega)))).trans
      (Keeps.store (scratch_cut hσ (hσ.end_cut hb.1)))

/-- `splitBlock` from where the list of the rest is looked up, for a block `b` of
    `n` bytes of which `r` are kept. -/
def splitTail (chk : Bool) (b n r : Nat) : NvmM Nat := do
  let head ← read32 chk (4 * classOf r)
  write32 chk (b + offsetofPrev) 0
  write32 chk (b + offsetofNext) head
  write32 chk (4 * classOf r) b
  (if head ≠ 0 then write32 chk (head + offsetofPrev) b else pure ())
  write32 chk (b + r) (kFreeMask ||| (n - r))
  write32 chk (sub32 (u32 (b + n)) 4) (n - r)
  resetTheFreeTag chk (u32 (b + r)) (n - r)
  pure (u32 (b + r))

/-- The first part of `splitBlock`: the block has left its list and is `r` bytes
    long. -/
theorem detach_run (chk : Bool) (h : HeapCore s.mem σ) {b r : Nat} (hb : σ.Free b)
    (hp : (lists s.mem).prev b = 0) (hr0 : 0 < r) (hr16 : 16 ∣ r) (hlt : r < σ.size b) :
    ∃ s', splitBlock chk b (σ.size b) (σ.size b - r) s = splitTail chk b (σ.size b) r s' ∧
      s'.base = s.base ∧ lists s'.mem = (lists s.mem).remove (σ.cls b) b ∧
      word s'.mem b % 2147483648 = r ∧
      (2147483648 ≤ word s'.mem b ↔ 2147483648 ≤ word s.mem b) ∧
      word s'.mem (b + r - 4) = r ∧
      (∀ w, kHeapBegin ≤ w → w % 16 = 4 ∨ w % 16 = 0 → w ≠ b → w ≠ b + r - 4 →
        word s'.mem w = word s.mem w) ∧
      Keeps σ 0 s.mem s'.mem := by
  have hσ := h.wf
  have hn := hσ.node hb.1
  obtain ⟨hlo, hmod, hge, h16, hend⟩ := hσ.layout hb.1
  have hrest : σ.size b - (σ.size b - r) = r := by omega
  -- `b` leaves its list before its size changes, and with the size its class
  obtain ⟨s₀, s₁, hrun₀, hrun₁, hrel₁⟩ := unlinkHead_run chk hσ h.linked hb hp (by omega) 0
  obtain ⟨s₂, hrun₂, hbase₂, hlists₂, hsize₂, htag₂, hfoot₂, hrest₂, hk₂⟩ :=
    setSize_run chk (s := s₁) (e := 0) hn hr16 hr0 (by rw [kHeapEnd_eq]; omega)
      (scratch_inside hσ (Or.inl hb) le_rfl (by omega))
      (scratch_inside hσ (Or.inl hb) (by omega) (by omega))
  -- `SetTheSizeTag` is inlined between the reads of the list heads
  have hseq : ∀ f : NvmM Nat, (do
      let tag ← readThePrevFreeTag chk b
      write32 chk b (tag ||| r)
      write32 chk (sub32 (u32 (b + r)) 4) r
      f) s₁ = f s₂ := by
    intro f
    have := bind_of_ok (f := fun _ => f) hrun₂
    simpa only [bind_assoc] using this
  refine ⟨s₂, ?_, hbase₂.trans hrel₁.base, hlists₂.trans hrel₁.eq, hsize₂, ?_, hfoot₂, ?_,
    hrel₁.keeps.trans hk₂⟩
  · rw [splitBlock, bind_of_ok (readNext_run hσ hb.1), bind_of_ok (getFreeListByBlockSize_ok hge),
      assert_of (by omega), bind_of_ok (pure_run _ _)]
    show (write32 chk (4 * σ.cls b) _ >>= _) s = _
    rw [bind_of_ok hrun₀, bind_of_ok hrun₁, hrest, hseq,
      bind_of_ok (getFreeListByBlockSize_ok (by omega)), splitTail]
  · rw [htag₂, hrel₁.tags b hn.1 (Or.inl hmod)]
  · intro w hw hwk h₁ h₂
    rw [hrest₂ w (by omega) h₁ h₂, hrel₁.tags w hw hwk]

/-- The classes of the free blocks after a split. -/
theorem split_cls (hσ : σ.WF) {b r : Nat} (hb : σ.Free b) (hr : 0 < r) (hlt : r < σ.size b)
    {x : Nat} (hx : (σ.Free x ∧ x ≠ b) ∨ x = b) :
    (σ.split b r).cls x = Function.update σ.cls b (classOf r) x := by
  by_cases hxb : x = b
  · rw [hxb, Function.update_self]
    simp only [Shape.cls, Shape.split, split_self]
  · have hxr : x ≠ b + r := by
      intro heq
      rcases hx with hx | hx
      · exact hx.1.1 (hσ.tiled.inside b x hb.1 (by omega) (by omega))
      · exact hxb hx
    rw [Function.update_of_ne hxb]
    simp only [Shape.cls, Shape.split, split_other hxb hxr]

/-- **Splitting.** `splitBlock` gives the upper end of the free block `b` and
    keeps the rest free. With a rest of 16 bytes it looks up the list at
    offset 0, which the code does not survive. -/
theorem splitBlock_run (chk : Bool) (h : HeapCore s.mem σ) {b r : Nat} (hb : σ.Free b)
    (hp : (lists s.mem).prev b = 0) (hr0 : 0 < r) (hr16 : 16 ∣ r) (hlt : r < σ.size b) :
    (chk = true ∧ r = 16 ∧ splitBlock chk b (σ.size b) (σ.size b - r) s = .error .assertion) ∨
    ((chk = true → r ≠ 16) ∧
      ∃ s', splitBlock chk b (σ.size b) (σ.size b - r) s = .ok (b + r, s') ∧ s'.base = s.base ∧
        HeapCore s'.mem (σ.split b r) ∧
        (Footers s.mem σ → Footers s'.mem (σ.split b r)) ∧
        (Complete (lists s.mem) σ.Free σ.cls →
          Complete (lists s'.mem) (σ.split b r).Free (σ.split b r).cls) ∧
        FooterIntact s'.mem (b + r) ∧ Keeps σ 0 s.mem s'.mem ∧
        (lists s'.mem).head (classOf r) = b) := by
  have hσ := h.wf
  have hn := hσ.node hb.1
  obtain ⟨hlo, hmod, hge, h16, hend⟩ := hσ.layout hb.1
  obtain ⟨s₁, hrun₁, hbase₁, hlists₁, hsize₁, htag₁, hfoot₁, hsame₁, hk₁⟩ :=
    detach_run chk h hb hp hr0 hr16 hlt
  rw [hrun₁]
  by_cases hbad : chk = true ∧ r = 16
  · -- `GetFreeListByBlockSize(16)` is offset 0
    left
    obtain ⟨rfl, rfl⟩ := hbad
    exact ⟨rfl, rfl, bind_of_error read32_zero⟩
  right
  have hr' : chk = true → r ≠ 16 := fun hchk heq => hbad ⟨hchk, heq⟩
  have hc0 : chk = true → classOf r ≠ 0 := by
    intro hchk
    have := hr' hchk
    exact classOf_ne_zero (by omega)
  -- the rest goes to the list of its new class
  have hl₁ : Linked (lists s₁.mem) (fun x => σ.Free x ∧ x ≠ b) σ.cls := by
    rw [hlists₁]
    exact h.linked.remove hb rfl
  obtain ⟨s₂, hrel₂, hrun₂⟩ := pushRest_run (e := 0) (α := Nat) hσ (Or.inl hb) hc0
    fun h0 => (hl₁.head _ h0).1.1
  -- the tags of the piece split off
  obtain ⟨s₃, hrun₃, hbase₃, hlists₃, hnew₃, hlast₃, hend₃, hrest₃, hk₃⟩ :=
    carve_run chk (s := s₂) hσ hb hr0 hr16 hlt 0
  have hsame : ∀ w, kHeapBegin ≤ w → w % 16 = 4 ∨ w % 16 = 0 → w ≠ b + r →
      w ≠ b + σ.size b - 4 → w ≠ b + σ.size b → word s₃.mem w = word s₁.mem w := by
    intro w hw hwk h₁ h₂ h₃
    rw [hrest₃ w (by omega) h₁ h₂ h₃, hrel₂.tags w hw hwk]
  have hb₃ : word s₃.mem b = word s₁.mem b :=
    hsame b hn.1 (Or.inl hmod) (by omega) (by omega) (by omega)
  -- of the words that `detach_run` and `carve_run` have changed, those of the list are no tags
  have hheaders : Headers s₃.mem (σ.split b r) := by
    refine h.headers.split hσ hb hr0 hlt (by rw [hb₃, hsize₁]) (by rw [hb₃, htag₁]) hnew₃ ?_ ?_
    · have hcut := (hσ.node_of_cut (hσ.end_cut hb.1)).1
      rw [hend₃, hrel₂.tags _ hcut.1 (Or.inl hcut.2),
        hsame₁ _ hcut.1 (Or.inl hcut.2) (by omega) (by omega)]
    · intro w hw h₁ h₂
      obtain ⟨⟨hwlo, hwm⟩, _⟩ := hσ.node_of_cut hw
      have hwr : w ≠ b + r := by
        intro heq
        have hwend := hσ.end_le hb.1
        rcases hw with hw | hw
        · omega
        · exact hw (hσ.tiled.inside b w hb.1 (by omega) (by omega))
      rw [hsame w hwlo (Or.inl hwm) hwr (by omega) h₂,
        hsame₁ w hwlo (Or.inl hwm) h₁ (by omega)]
  have hfooters : Footers s.mem σ → Footers s₃.mem (σ.split b r) := by
    intro hf
    refine hf.split hσ hb hr0 hlt ?_ ?_
    · rw [hsame _ (by rw [kHeapBegin_eq]; omega) (Or.inr (by omega)) (by omega) (by omega)
        (by omega), hfoot₁]
    · intro x hx hxb
      obtain ⟨hxlo, hxm, hxg, hx16, _⟩ := hσ.layout hx.1
      have hdis := hσ.tiled.disjoint hx.1 hb.1 hxb
      have hw : kHeapBegin ≤ x + σ.size x - 4 := by rw [kHeapBegin_eq]; omega
      rw [hsame _ hw (Or.inr (by omega)) (by omega) (by omega) (by omega),
        hsame₁ _ hw (Or.inr (by omega)) (by omega) (by omega)]
  have hb1 : b ≠ 0 := by omega
  -- `b` left its list and entered the one of its new class
  have hpush : Linked (lists s₃.mem) (fun x => (σ.Free x ∧ x ≠ b) ∨ x = b)
      (Function.update σ.cls b (classOf r)) := by
    rw [hlists₃, hrel₂.eq]
    exact hl₁.push (fun hx => hx.2 rfl) hb1
  have hfree := fun x => split_free hσ hb hr0 hlt x
  have hcls := fun x => split_cls (x := x) hσ hb hr0 hlt
  refine ⟨hr', s₃, ?_, ?_, ⟨hσ.split hb.1 hr0 hlt hr16, hheaders, ?_⟩, hfooters, ?_, ?_, ?_, ?_⟩
  · rw [splitTail, hrun₂, hrun₃]
  · rw [hbase₃, hrel₂.base, hbase₁]
  · exact hpush.congr hfree hcls (fun _ => rfl) (fun _ _ => rfl) fun _ _ => rfl
  · intro hcomp
    have hc₁ := hcomp.remove h.linked hb rfl
    rw [← hlists₁] at hc₁
    have hc₂ := hc₁.push hl₁ (c := classOf r) (b := b) (fun hx => hx.2 rfl) hb1
    rw [← hrel₂.eq, ← hlists₃] at hc₂
    exact hc₂.congr hpush hfree hcls (fun _ => rfl) fun _ _ => rfl
  · have htag : sizeTag s₃.mem (b + r) = σ.size b - r := by
      rw [sizeTag, hnew₃]
      omega
    have hlast : b + r + (σ.size b - r) - 4 = b + σ.size b - 4 := by omega
    rw [FooterIntact, htag, hlast, hlast₃]
  · exact (hk₁.trans hrel₂.keeps).trans hk₃
  · rw [hlists₃, hrel₂.eq]
    exact Function.update_self _ _ _

/-! ### The exact fit -/

/-- The headers after a block was taken: only the free bit behind it is gone. -/
theorem Headers.take (hσ : σ.WF) (ht : Headers m σ) {b : Nat} (hb : σ.Free b)
    (hend : word m' (b + σ.size b) = word m (b + σ.size b) % 2147483648)
    (hrest : ∀ w, kHeapBegin ≤ w → w % 16 = 4 ∨ w % 16 = 0 → w ≠ b + σ.size b →
      word m' w = word m w) : Headers m' (σ.take b) := by
  have hfree : ∀ x, x ≠ b → (σ.take b).free x = σ.free x := by
    intro x hx
    simp [Shape.take, hx]
  -- a header keeps its size
  have hcut : ∀ w, IsCut kHeapEnd σ.size w → word m' w % 2147483648 = word m w % 2147483648 := by
    intro w hw
    obtain ⟨⟨hlo, hmod⟩, _⟩ := hσ.node_of_cut hw
    by_cases hwe : w = b + σ.size b
    · rw [hwe, hend, Nat.mod_mod]
    · rw [hrest w hlo (Or.inl hmod) hwe]
  refine ⟨?_, ?_, ?_, ?_⟩
  · intro x hx
    rw [hcut x (Or.inr hx)]
    exact ht.size x hx
  · rw [hcut _ (Or.inl rfl)]
    exact ht.sentinel
  · obtain ⟨hlo, hmod⟩ := hσ.node hσ.tiled.first
    have hle := (hσ.node hb.1).1
    have hge := hσ.size_ge hb.1
    rw [hrest _ hlo (Or.inl hmod) (by omega)]
    exact ht.first
  · intro x hx
    show 2147483648 ≤ word m' (x + σ.size x) ↔ _
    obtain ⟨⟨hlo, hmod⟩, _⟩ := hσ.node_of_cut (hσ.end_cut hx)
    -- the bit behind `b` is gone, and bits behind other blocks lie elsewhere
    by_cases hxb : x = b
    · rw [hxb, hend]
      have := Nat.mod_lt (word m (b + σ.size b)) (show 0 < 2147483648 by omega)
      simp [Shape.take]
      omega
    · rw [hfree x hxb, hrest _ hlo (Or.inl hmod) fun heq =>
        hxb (hσ.tiled.prev_unique hx hb.1 heq)]
      exact ht.free x hx

/-- The last words of the other blocks after a block was taken. -/
theorem Footers.take (hσ : σ.WF) (hf : Footers m σ) {b : Nat} (hb : σ.Free b)
    (hrest : ∀ w, kHeapBegin ≤ w → w % 16 = 4 ∨ w % 16 = 0 → w ≠ b + σ.size b →
      word m' w = word m w) : Footers m' (σ.take b) := by
  intro x hx
  obtain ⟨hxF, _⟩ := (take_free x).mp hx
  obtain ⟨hlo, hmod, hge, h16, _⟩ := hσ.layout hxF.1
  obtain ⟨_, hbmod, _, hb16, _⟩ := hσ.layout hb.1
  show word m' (x + σ.size x - 4) = σ.size x
  rw [hrest _ (by rw [kHeapBegin_eq]; omega) (Or.inr (by omega)) (by omega)]
  exact hf x hxF

/-- An exact fit for blocks of `n` bytes empties their list and, by the store to
    the `prev` field of a block that is not there, the list at offset 4. -/
def DropsList (m : Mem) (n : Nat) : Prop :=
  word m (4 * classOf n) ≠ 0 ∧ word m (word m (4 * classOf n) + offsetofNext) = 0 ∧
    classOf n ≠ 1 ∧ word m 4 ≠ 0

instance (m : Mem) (n : Nat) : Decidable (DropsList m n) := inferInstanceAs (Decidable (_ ∧ _))

/-- **Exact fit.** The block becomes live; its last word still holds its size. -/
theorem takeBlock_run (chk : Bool) (h : HeapCore s.mem σ) {b : Nat} (hb : σ.Free b)
    (hp : (lists s.mem).prev b = 0) (hb16 : σ.size b ≠ 16) :
    ∃ s', (do
        let nextBlk ← read32 chk (b + offsetofNext)
        resetTheFreeTag chk b (σ.size b)
        write32 chk (4 * σ.cls b) nextBlk
        write32 chk (nextBlk + offsetofPrev) 0
        pure b : NvmM Nat) s = .ok (b, s') ∧ s'.base = s.base ∧ HeapCore s'.mem (σ.take b) ∧
      (Footers s.mem σ → Footers s'.mem (σ.take b) ∧ FooterIntact s'.mem b) ∧
      (Complete (lists s.mem) σ.Free σ.cls →
        ((lists s.mem).next b = 0 → σ.cls b ≠ 1 → (lists s.mem).head 1 = 0) →
        Complete (lists s'.mem) (σ.take b).Free (σ.take b).cls) ∧
      Keeps σ 0 s.mem s'.mem := by
  have hσ := h.wf
  have hn := hσ.node hb.1
  obtain ⟨hlo, hmod, hge, h16, hend⟩ := hσ.layout hb.1
  have hcut := (hσ.node_of_cut (hσ.end_cut hb.1)).1
  -- the free bit behind the block
  obtain ⟨s₁, hs₁⟩ : ∃ s₁, s₁ =
      s.wr (b + σ.size b) (word s.mem (b + σ.size b) % 2147483648) := ⟨_, rfl⟩
  have hw₁ : ∀ w, w % 4 = 0 → word s₁.mem w =
      if w = b + σ.size b then word s.mem (b + σ.size b) % 2147483648 else word s.mem w := by
    intro w hw
    rw [hs₁, Nvm.wr_mem, word_storeNat (by omega) hw (by omega)]
  have hlists₁ : lists s₁.mem = lists s.mem := by
    rw [hs₁, Nvm.wr_mem, lists_store_tag (by omega) hcut.1 (Or.inl hcut.2)]
  have hk₁ : Keeps σ 0 s.mem s₁.mem := by
    rw [hs₁]
    exact Keeps.store (scratch_cut hσ (hσ.end_cut hb.1))
  -- the free list
  have hl₁ : Linked (lists s₁.mem) σ.Free σ.cls := by
    rw [hlists₁]
    exact h.linked
  obtain ⟨s₂, s₃, l, hrun₂, hrun₃, hrel, hl⟩ :=
    popHead_run chk hσ hl₁ hb (by rw [hlists₁]; exact hp) hb16 0
  rw [hlists₁] at hrun₂ hrun₃ hl
  have hlinked : Linked l (fun x => σ.Free x ∧ x ≠ b) σ.cls := by
    rcases hl with rfl | ⟨_, rfl⟩
    · exact h.linked.remove hb rfl
    · exact (h.linked.remove hb rfl).drop 1
  have hcomplete : Complete (lists s.mem) σ.Free σ.cls →
      ((lists s.mem).next b = 0 → σ.cls b ≠ 1 → (lists s.mem).head 1 = 0) →
      Complete l (fun x => σ.Free x ∧ x ≠ b) σ.cls := by
    intro hcomp hkeep
    have hrem := hcomp.remove h.linked hb rfl
    rcases hl with rfl | ⟨hnx, rfl⟩
    · exact hrem
    · -- the list of class 1 is dropped, but it is empty
      apply hrem.drop
      rw [remove_of_head hp, hnx]
      by_cases hc1 : σ.cls b = 1
      · simp [hc1]
      · show Function.update (lists s.mem).head (σ.cls b) 0 1 = 0
        rw [Function.update_of_ne (by omega)]
        exact hkeep hnx hc1
  have hend₃ : word s₃.mem (b + σ.size b) = word s.mem (b + σ.size b) % 2147483648 := by
    rw [hrel.tags _ hcut.1 (Or.inl hcut.2), hw₁ _ (by omega), if_pos rfl]
  have hrest₃ : ∀ w, kHeapBegin ≤ w → w % 16 = 4 ∨ w % 16 = 0 → w ≠ b + σ.size b →
      word s₃.mem w = word s.mem w := by
    intro w hw hwk hne
    rw [hrel.tags w hw hwk, hw₁ w (by omega), if_neg hne]
  refine ⟨s₃, ?_, ?_, ⟨⟨hσ.tiled, hσ.aligned⟩, h.headers.take hσ hb hend₃ hrest₃, ?_⟩,
    fun hf => ⟨hf.take hσ hb hrest₃, ?_⟩, ?_, hk₁.trans hrel.keeps⟩
  · rw [bind_of_ok (readNext_run hσ hb.1),
      bind_of_ok (resetTheFreeTag_ok (by simp; omega) (by omega)), ← hs₁, bind_of_ok hrun₂,
      bind_of_ok hrun₃, pure_run]
  · rw [hrel.base, hs₁, Nvm.wr_base]
  · rw [hrel.eq]
    exact hlinked.congr take_free (fun _ _ => rfl) (fun _ => rfl) (fun _ _ => rfl) fun _ _ => rfl
  · have htag : sizeTag s₃.mem b = σ.size b := by
      rw [sizeTag, hrest₃ b hn.1 (Or.inl hmod) (by omega)]
      exact h.headers.size b hb.1
    rw [FooterIntact, htag, hrest₃ _ (by rw [kHeapBegin_eq]; omega) (Or.inr (by omega)) (by omega)]
    exact hf b hb
  · intro hcomp hkeep
    rw [hrel.eq]
    exact (hcomplete hcomp hkeep).congr hlinked take_free (fun _ _ => rfl) (fun _ => rfl)
      fun _ _ => rfl

/-! ### `allocBlock` -/

/-- The head of the first list that serves a request for `n` bytes is 16 bytes
    too large, so that splitting it would leave a block of 16 bytes. -/
def LeavesTiny (m : Mem) (n : Nat) : Prop :=
  word m (4 * classOf n) = 0 ∧ word m (4 * classOf (n + 16)) ≠ 0 ∧
    sizeTag m (word m (4 * classOf (n + 16))) = n + 16

instance (m : Mem) (n : Nat) : Decidable (LeavesTiny m n) := inferInstanceAs (Decidable (_ ∧ _))

/-- The outcome of a request for a block of `n` bytes that finds one: `blk` is
    live in the new heap, its last word holds its size, and the bytes of the
    other live blocks are untouched. -/
structure AllocOk (chk : Bool) (s : Nvm) (σ : Shape) (n : Nat) (s' : Nvm) (σ' : Shape)
    (blk : Nat) : Prop where
  base : s'.base = s.base
  heap : HeapInv s'.mem σ'
  roomy : σ'.Roomy chk
  acquired : Acquired σ blk n σ'
  footer : FooterIntact s'.mem blk
  keeps : Keeps σ 0 s.mem s'.mem
  complete : Complete (lists s.mem) σ.Free σ.cls → ¬ DropsList s.mem n →
    Complete (lists s'.mem) σ'.Free σ'.cls

/-- The same on a heap whose last words may not all be in order: those that are stay so. -/
structure AllocCore (chk : Bool) (s : Nvm) (σ : Shape) (n : Nat) (s' : Nvm) (σ' : Shape)
    (blk : Nat) : Prop where
  base : s'.base = s.base
  heap : HeapCore s'.mem σ'
  footers : Footers s.mem σ → Footers s'.mem σ' ∧ FooterIntact s'.mem blk
  roomy : σ.Roomy chk → σ'.Roomy chk
  acquired : Acquired σ blk n σ'
  keeps : Keeps σ 0 s.mem s'.mem
  complete : Complete (lists s.mem) σ.Free σ.cls → ¬ DropsList s.mem n →
    Complete (lists s'.mem) σ'.Free σ'.cls

theorem AllocCore.ok {n : Nat} {s' : Nvm} {σ' : Shape} {blk : Nat}
    (h : AllocCore chk s σ n s' σ' blk) (hf : Footers s.mem σ) (hr : σ.Roomy chk) :
    AllocOk chk s σ n s' σ' blk :=
  ⟨h.base, h.heap.inv (h.footers hf).1, h.roomy hr, h.acquired, (h.footers hf).2, h.keeps,
    h.complete⟩

theorem next_class {n : Nat} (h16 : 16 ∣ n) (hn : 16 ≤ n) (hmax : n ≤ 1152) :
    classOf (n + 16) = classOf n + 1 := by
  rw [classOf_of_le hmax]
  by_cases h : n + 16 ≤ 1152
  · rw [classOf_of_le h]
    omega
  · rw [classOf_of_gt (by omega)]
    omega

/-- A request that finds no list would not have left a block of 16 bytes. -/
theorem NoFit.not_leavesTiny {n : Nat} (h16 : 16 ∣ n) (hn : 16 ≤ n) (hmax : n ≤ 1152)
    (hno : NoFit (lists m) (classOf n)) : ¬ LeavesTiny m n := by
  intro ht
  apply ht.2.1
  have hlt := classOf_lt (n + 16)
  rw [← lists_head_eq hlt]
  exact hno _ (by rw [next_class h16 hn hmax]; omega) hlt

/-- The block found is 16 bytes too large exactly if the request `LeavesTiny`. -/
theorem leavesTiny_iff (h : HeapCore m σ) {n c : Nat} (h16 : 16 ∣ n) (hn : 16 ≤ n)
    (hmax : n ≤ 1152) (hf : FirstFit (lists m) (classOf n) c) :
    LeavesTiny m n ↔ σ.size ((lists m).head c) = n + 16 := by
  obtain ⟨hF, hcls, _⟩ := h.linked.head c hf.head
  have hsz := h.headers.size _ hF.1
  have hnc := next_class h16 hn hmax
  have hlt := classOf_lt (n + 16)
  have hhead : ∀ d, d < kNumFreeLists → word m (4 * d) = (lists m).head d :=
    fun d hd => (lists_head_eq hd).symm
  unfold LeavesTiny
  rw [hhead _ (classOf_lt n), hhead _ hlt, sizeTag]
  constructor
  · rintro ⟨hempty, hne, hsize⟩
    have hle := hf.le
    -- the first list that fits is the next one, since the list of class `n` is empty
    have hc : c = classOf (n + 16) := by
      by_contra hcne
      by_cases hc : c = classOf n
      · exact hf.head (hc ▸ hempty)
      · exact hne (hf.skip (classOf (n + 16)) (by omega) (by omega))
    rw [hc] at hsz ⊢
    omega
  · intro hsize
    have hc : classOf (n + 16) = c := by
      rw [← hcls, Shape.cls, hsize]
    rw [hc]
    exact ⟨hf.skip _ le_rfl (by omega), hf.head, by omega⟩

/-- The exact fit: the first block of a list is taken. -/
theorem takeFirst_run (chk : Bool) (h : HeapCore s.mem σ) {n c : Nat} (hn : 32 ≤ n)
    (hc : c < kNumFreeLists) (hhead : (lists s.mem).head c ≠ 0)
    (hexact : σ.size ((lists s.mem).head c) = n) :
    ∃ s', (do
        let nextBlk ← read32 chk ((lists s.mem).head c + offsetofNext)
        resetTheFreeTag chk ((lists s.mem).head c) n
        write32 chk (4 * c) nextBlk
        write32 chk (nextBlk + offsetofPrev) 0
        pure ((lists s.mem).head c) : NvmM Nat) s = .ok ((lists s.mem).head c, s') ∧
      AllocCore chk s σ n s' (σ.take ((lists s.mem).head c)) ((lists s.mem).head c) := by
  obtain ⟨hb, hcls, hprev⟩ := h.linked.head c hhead
  obtain ⟨b, hbdef⟩ : ∃ b, b = (lists s.mem).head c := ⟨_, rfl⟩
  rw [← hbdef] at hb hcls hprev hexact hhead ⊢
  -- the block has just the size that is asked for
  subst hexact
  obtain ⟨s', hrun, hbase, hheap, hfoot, hcomp, hk⟩ :=
    takeBlock_run chk h hb hprev (by omega)
  rw [hcls] at hrun
  refine ⟨s', hrun, hbase, hheap, hfoot, fun hr => hr, acquired_take hb, hk,
    fun hcm hno => hcomp hcm ?_⟩
  intro hnx hc1
  -- were the list at offset 4 not empty, it would be lost
  by_contra h1
  have hword : word s.mem (4 * σ.cls b) = b := by
    rw [hcls, ← lists_head_eq hc, ← hbdef]
  have hnext : word s.mem (b + offsetofNext) = 0 := by
    rw [← hnx]
    exact (lists_next_eq (h.wf.node hb.1)).symm
  refine hno ⟨?_, ?_, hc1, ?_⟩
  · show word s.mem (4 * σ.cls b) ≠ 0
    rw [hword]
    exact hhead
  · show word s.mem (word s.mem (4 * σ.cls b) + offsetofNext) = 0
    rw [hword, hnext]
  · rwa [lists_head_eq (by simp)] at h1

/-- A larger block: its upper end is split off, unless a rest of 16 bytes would remain. -/
theorem splitFirst_run (chk : Bool) (h : HeapCore s.mem σ) {n b : Nat} (h16 : 16 ∣ n) (hn : 32 ≤ n)
    (hb : σ.Free b) (hprev : (lists s.mem).prev b = 0) (hlt : n < σ.size b) :
    (chk = true ∧ σ.size b = n + 16 ∧ splitBlock chk b (σ.size b) n s = .error .assertion) ∨
    ((chk = true → σ.size b ≠ n + 16) ∧ ∃ s', splitBlock chk b (σ.size b) n s =
      .ok (b + (σ.size b - n), s') ∧
      AllocCore chk s σ n s' (σ.split b (σ.size b - n)) (b + (σ.size b - n)) ∧
      (lists s'.mem).head (classOf (σ.size b - n)) = b) := by
  have hσ := h.wf
  obtain ⟨k, hk⟩ := hσ.aligned b
  have hback : σ.size b - (σ.size b - n) = n := by omega
  have hsplit := splitBlock_run chk h hb hprev (r := σ.size b - n) (by omega) (by omega)
    (by omega)
  rw [hback] at hsplit
  rcases hsplit with ⟨hchk, h1, hrun⟩ |
    ⟨hno, s', hrun, hbase, hheap, hfoot, hcomp, hint, hk, hhead⟩
  · exact Or.inl ⟨hchk, by omega, hrun⟩
  · right
    have hacq := acquired_split hσ hb (r := σ.size b - n) (by omega) (by omega)
    rw [hback] at hacq
    refine ⟨fun hchk heq => hno hchk (by omega), s', hrun, ⟨hbase, hheap,
      fun hf => ⟨hfoot hf, hint⟩, ?_, hacq, hk, fun hc _ => hcomp hc⟩, hhead⟩
    -- no block of 16 bytes comes into being
    intro hr hchk x hx
    have hne : (σ.split b (σ.size b - n)).size x ≠ 0 := by omega
    rcases split_ne_zero_cases hne with rfl | rfl | ⟨h₁, h₂, _⟩
    · exact hno hchk (by rw [← hx]; exact (split_self _ _ _).symm)
    · have := hacq.size
      omega
    · apply hr hchk x
      rw [← hx]
      exact (split_other h₁ h₂).symm

/-- `blk` is the upper end, of `n` bytes, of the head of the first list that serves a request for
    `n` bytes. -/
def FromFirstFit (m : Mem) (σ : Shape) (n blk : Nat) : Prop :=
  ∃ c, FirstFit (lists m) (classOf n) c ∧
    blk + n = (lists m).head c + σ.size ((lists m).head c)

/-- `allocBlock` from where it has found a block, or found that there is none. -/
theorem allocBlock_eq (chk : Bool) (h : HeapCore s.mem σ) {n : Nat} (h16 : 16 ∣ n) (hn : 32 ≤ n)
    (hmax : n ≤ 1152) :
    (∃ c, FirstFit (lists s.mem) (classOf n) c ∧ n ≤ σ.size ((lists s.mem).head c) ∧
      allocBlock chk n s = (if σ.size ((lists s.mem).head c) = n then do
          let nextBlk ← read32 chk ((lists s.mem).head c + offsetofNext)
          resetTheFreeTag chk ((lists s.mem).head c) (σ.size ((lists s.mem).head c))
          write32 chk (4 * c) nextBlk
          write32 chk (nextBlk + offsetofPrev) 0
          pure ((lists s.mem).head c)
        else
          splitBlock chk ((lists s.mem).head c) (σ.size ((lists s.mem).head c)) n : NvmM Nat) s) ∨
    (NoFit (lists s.mem) (classOf n) ∧ allocBlock chk n s = .ok (0, s)) := by
  have hσ := h.wf
  rw [allocBlock, bind_of_ok (getFreeListByBlockSize_ok (by omega))]
  -- what the scan finds is free and, by its class, large enough
  rcases scanFreeLists_run chk s (classOf n) kNumFreeLists
      (fun _ => classOf_ne_zero hn) (by omega) with ⟨c, hf, hscan⟩ | ⟨hno, fl, hscan⟩
  · left
    obtain ⟨hb, hcls, _⟩ := h.linked.head c hf.head
    obtain ⟨b, hbdef⟩ : ∃ b, b = (lists s.mem).head c := ⟨_, rfl⟩
    rw [← hbdef] at hb hcls
    obtain ⟨hlo, _, hge, _, hend⟩ := hσ.layout hb.1
    have hfit : n ≤ σ.size b := le_of_classOf_le hmax h16 (hσ.aligned b) hge
      (by show classOf n ≤ σ.cls b; rw [hcls]; exact hf.le)
    -- so neither assertion about the block fails
    have htag : word s.mem (b + σ.size b) &&& kFreeMask ≠ 0 :=
      (and_kFreeMask_ne_zero (word_lt _ _)).mpr ((h.headers.free b hb.1).mpr hb.2)
    refine ⟨c, hf, by rw [← hbdef]; exact hfit, ?_⟩
    rw [bind_of_ok hscan]
    simp only []
    rw [← hbdef, if_neg (by omega), bind_of_ok (readTheSizeTag_ok (by simp; omega) (by omega)),
      h.headers.size b hb.1, bind_of_ok (readTheFreeTag_ok (by simp; omega) (by omega)),
      assert_of htag, bind_of_ok (pure_run _ _), assert_of hfit, bind_of_ok (pure_run _ _)]
  · right
    rw [bind_of_ok hscan]
    exact ⟨hno, rfl⟩

/-- **Allocating a block.** The request finds no block and changes nothing, or
    it would leave a block of 16 bytes and fails on the list at offset 0, or it
    succeeds. -/
theorem allocBlock_run (h : HeapCore s.mem σ) {n : Nat} (h16 : 16 ∣ n) (hn : 32 ≤ n)
    (hmax : n ≤ kMaxBlockSize) :
    (NoFit (lists s.mem) (classOf n) ∧ allocBlock chk n s = .ok (0, s)) ∨
    (chk = true ∧ LeavesTiny s.mem n ∧ allocBlock chk n s = .error .assertion) ∨
    ((chk = true → ¬ LeavesTiny s.mem n) ∧ ∃ s' σ' blk,
      allocBlock chk n s = .ok (blk, s') ∧ AllocCore chk s σ n s' σ' blk ∧
      FromFirstFit s.mem σ n blk) := by
  have hmax' : n ≤ 1152 := by simpa using hmax
  rcases allocBlock_eq chk h h16 hn hmax' with ⟨c, hf, hfit, heq⟩ | hno
  · right
    have htiny := leavesTiny_iff h h16 (by omega) hmax' hf
    obtain ⟨hb, _, hprev⟩ := h.linked.head c hf.head
    rw [heq]
    by_cases hexact : σ.size ((lists s.mem).head c) = n
    · right
      obtain ⟨s', hrun, hok⟩ := takeFirst_run chk h hn hf.lt hf.head hexact
      rw [if_pos hexact, hexact]
      exact ⟨fun _ ht => by have := htiny.mp ht; omega, s', _, _, hrun, hok, c, hf, by omega⟩
    · rw [if_neg hexact]
      rcases splitFirst_run chk h h16 hn hb hprev (by omega) with
        ⟨hchk, h1, hrun⟩ | ⟨hno, s', hrun, hok, _⟩
      · exact Or.inl ⟨hchk, htiny.mpr h1, hrun⟩
      · exact Or.inr ⟨fun hchk ht => hno hchk (htiny.mp ht), s', _, _, hrun, hok, c, hf, by omega⟩
  · exact Or.inl hno

end Nvds.Allocator
