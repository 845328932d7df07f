import Nvds.Allocator.Links

/-! # Releasing a block

    `freeBlock` on a heap that satisfies the invariant. Freeing a live block
    `blk` fuses it with the free neighbours the two coalescing branches accept
    into one free block `[lo, hi)`; the other blocks, and the bytes of the
    other live blocks, stay as they are. It fails an assertion exactly if a
    neighbour to merge is the first of the list at offset 0 (`Blocked`).

    `freeBlock` writes the size into the last word of the resulting block
    only if a neighbour was merged. Otherwise the last word keeps what the
    client left there, which is why the result needs `FreesCleanly`.
-/

open ByteMemory Program LinkedList Tiling

namespace Nvds.Allocator

variable {chk : Bool} {σ : Shape} {m m' : Mem} {s : Nvm}

/-! ### Fusing blocks -/

/-- One free block from `lo` to `hi` in place of all blocks there. -/
def Shape.fuse (σ : Shape) (lo hi : Nat) : Shape where
  size := Tiling.fuse σ.size lo hi
  free := Function.update σ.free lo true

theorem Shape.WF.fuse (hσ : σ.WF) {lo hi : Nat} (hlo : σ.size lo ≠ 0)
    (hhi : IsCut kHeapEnd σ.size hi) (hlt : lo < hi) : (σ.fuse lo hi).WF := by
  refine ⟨hσ.tiled.fuse hlo hhi hlt, ?_⟩
  intro b
  have h₁ := (hσ.node hlo).2
  have h₂ := (hσ.node_of_cut hhi).1.2
  show 16 ∣ Tiling.fuse σ.size lo hi b
  unfold Tiling.fuse
  split
  · omega
  · split
    · exact Nat.dvd_zero 16
    · exact hσ.aligned b

/-- What becomes of a place: the new block starts there, it is inside the new
    block, or it is outside and as it was. -/
theorem Shape.fuse_cases (σ : Shape) {lo hi : Nat} (hlt : lo < hi) (x : Nat) :
    x = lo ∨ (lo < x ∧ x < hi) ∧ (σ.fuse lo hi).size x = 0 ∨
    ¬ (lo ≤ x ∧ x < hi) ∧ (σ.fuse lo hi).size x = σ.size x ∧ (σ.fuse lo hi).free x = σ.free x := by
  by_cases hx : x = lo
  · exact Or.inl hx
  · by_cases hin : lo < x ∧ x < hi
    · exact Or.inr (Or.inl ⟨hin, fuse_of_inside hin.1 hin.2⟩)
    · refine Or.inr (Or.inr ⟨by omega, fuse_of_outside (by omega) hlt, ?_⟩)
      simp only [Shape.fuse, Function.update_of_ne hx]

/-- The free blocks after fusing: those outside, and the new one. -/
theorem Shape.fuse_free (σ : Shape) {lo hi : Nat} (hlt : lo < hi) (x : Nat) :
    (σ.fuse lo hi).Free x ↔ (σ.Free x ∧ ¬ (lo ≤ x ∧ x < hi)) ∨ x = lo := by
  rcases σ.fuse_cases hlt x with rfl | ⟨hin, h0⟩ | ⟨hout, hsize, hfree⟩
  · simp [Shape.fuse, Shape.Free, fuse_self]
    omega
  · have hx : x ≠ lo := by omega
    have hle : lo ≤ x := by omega
    simp [Shape.Free, h0, hx, hle, hin.2]
  · have hx : x ≠ lo := by omega
    simp only [Shape.Free, hsize, hfree, hout, hx, not_false_eq_true, and_true, or_false]

/-- The live blocks after fusing: those outside. -/
theorem Shape.fuse_live (σ : Shape) {lo hi : Nat} (hlt : lo < hi) (x : Nat) :
    (σ.fuse lo hi).Live x ↔ σ.Live x ∧ ¬ (lo ≤ x ∧ x < hi) := by
  rcases σ.fuse_cases hlt x with rfl | ⟨hin, h0⟩ | ⟨hout, hsize, hfree⟩
  · simp [Shape.fuse, Shape.Live]
    omega
  · have hle : lo ≤ x := by omega
    simp [Shape.Live, h0, hle, hin.2]
  · simp only [Shape.Live, hsize, hfree, hout, not_false_eq_true, and_true]

/-- The classes of the free blocks after fusing. -/
theorem Shape.fuse_cls (σ : Shape) {lo hi : Nat} (hlt : lo < hi) {x : Nat}
    (hx : (σ.Free x ∧ ¬ (lo ≤ x ∧ x < hi)) ∨ x = lo) :
    (σ.fuse lo hi).cls x = Function.update σ.cls lo (classOf (hi - lo)) x := by
  by_cases hxl : x = lo
  · rw [hxl, Function.update_self]
    simp only [Shape.cls, Shape.fuse, fuse_self]
  · rw [Function.update_of_ne hxl]
    have ho : x < lo ∨ hi ≤ x := by
      rcases hx with hx | hx
      · omega
      · exact absurd hx hxl
    simp only [Shape.cls, Shape.fuse, fuse_of_outside ho hlt]

/-- The headers that describe the heap after fusing: that of the new block, and the
    free bit behind it. -/
theorem Headers.fuse (hσ : σ.WF) (ht : Headers m σ) {lo hi : Nat} (hlo : σ.size lo ≠ 0)
    (hlt : lo < hi)
    (hsize : word m' lo % 2147483648 = hi - lo)
    (htag : 2147483648 ≤ word m' lo ↔ 2147483648 ≤ word m lo)
    (hnsize : word m' hi % 2147483648 = word m hi % 2147483648)
    (hntag : 2147483648 ≤ word m' hi)
    (hcut : ∀ w, IsCut kHeapEnd σ.size w → w ≠ lo → w ≠ hi → word m' w = word m w) :
    Headers m' (σ.fuse lo hi) := by
  have hself : (σ.fuse lo hi).size lo = hi - lo := fuse_self _ _ _
  have hout : ∀ b, b < lo ∨ hi ≤ b → (σ.fuse lo hi).size b = σ.size b :=
    fun b hb => fuse_of_outside hb hlt
  have hfree : ∀ b, b ≠ lo → (σ.fuse lo hi).free b = σ.free b := by
    intro b hb
    simp [Shape.fuse, hb]
  have hlohi : lo + (hi - lo) = hi := by omega
  refine ⟨?_, ?_, ?_, ?_⟩
  · intro b hb
    -- the sizes
    rcases fuse_ne_zero_cases hb with rfl | ⟨hbo, hb0⟩
    · rw [hself]; exact hsize
    · rw [hout b hbo, ← ht.size b hb0]
      by_cases hbh : b = hi
      · rw [hbh]; exact hnsize
      · rw [hcut b (Or.inr hb0) (by omega) hbh]
  -- the merged block may end at the sentinel, whose size stays 0
  · by_cases hh : kHeapEnd = hi
    · rw [hh, hnsize, ← hh]; exact ht.sentinel
    · have hle := hσ.end_le hlo
      have hge := hσ.size_ge hlo
      rw [hcut _ (Or.inl rfl) (by omega) hh]; exact ht.sentinel
  · have hle := (hσ.node hlo).1
    -- or begin the heap, whose bit was kept
    by_cases hl : kHeapBegin = lo
    · have hfirst := ht.first
      rw [hl] at hfirst ⊢
      omega
    · rw [hcut _ (Or.inr hσ.tiled.first) hl (by omega)]; exact ht.first
  · intro b hb
    -- the bits: nothing but the merged block ends at `hi`
    rcases fuse_ne_zero_cases hb with rfl | ⟨hbo, hb0⟩
    · rw [hself, hlohi]
      simp [Shape.fuse, hntag]
    · have hblo : b ≠ lo := by omega
      rw [hout b hbo, hfree b hblo, ← ht.free b hb0]
      by_cases hbl : b + σ.size b = lo
      · rw [hbl]; exact htag
      · have hbh : b + σ.size b ≠ hi := by
          rcases hbo with hb1 | hb1
          · have := hσ.tiled.end_le_of_lt hb0 (Or.inr hlo) hb1
            omega
          · omega
        rw [hcut _ (hσ.end_cut hb0) hbl hbh]

/-- The last words after fusing: that of the new block holds its size. -/
theorem Footers.fuse (hf : Footers m σ) {lo hi : Nat} (hlt : lo < hi)
    (hfoot : word m' (hi - 4) = hi - lo)
    (hlast : ∀ b, σ.Free b → b < lo ∨ hi ≤ b →
      word m' (b + σ.size b - 4) = word m (b + σ.size b - 4)) :
    Footers m' (σ.fuse lo hi) := by
  intro b hb
  rcases (σ.fuse_free hlt b).mp hb with ⟨hbF, hbo⟩ | rfl
  · have hbo' : b < lo ∨ hi ≤ b := by omega
    have hsize : (σ.fuse lo hi).size b = σ.size b := fuse_of_outside hbo' hlt
    rw [hsize, hlast b hbF hbo']
    exact hf b hbF
  · have hself : (σ.fuse b hi).size b = hi - b := fuse_self _ _ _
    rw [hself, Nat.add_sub_cancel' hlt.le]
    exact hfoot

/-! ### The two coalescing branches -/

/-- `ReadTheSizeTag` as a function of the bytes. -/
def sizeTag (m : Mem) (b : Nat) : Nat := word m b % 2147483648

/-- `FreeBlock` merges the block before `blk`. -/
def CoalescesPrev (m : Mem) (blk : Nat) : Prop :=
  2147483648 ≤ word m blk ∧ sizeTag m blk ≤ kMaxBlockSize ∧ word m (blk - 4) ≤ kMaxBlockSize

/-- `FreeBlock` merges the block behind `blk`, if it has not merged the one before. -/
def CoalescesNext (m : Mem) (blk : Nat) : Prop :=
  2147483648 ≤ word m (blk + sizeTag m blk + sizeTag m (blk + sizeTag m blk)) ∧
    sizeTag m blk ≤ kMaxBlockSize ∧ sizeTag m (blk + sizeTag m blk) ≤ kMaxBlockSize

/-- The last word of `blk` holds its size. -/
def FooterIntact (m : Mem) (blk : Nat) : Prop :=
  word m (blk + sizeTag m blk - 4) = sizeTag m blk

/-- Freeing `blk` leaves the size of the resulting block in its last word:
    `FreeBlock` writes it there, or it is there already. -/
def FreesCleanly (m : Mem) (blk : Nat) : Prop :=
  CoalescesPrev m blk ∨ CoalescesNext m blk ∨ FooterIntact m blk

/-- Taking the block `b` off its list is stopped by the check of the offset: it is the first
    block of the list at offset 0. -/
def Unremovable (chk : Bool) (m : Mem) (σ : Shape) (b : Nat) : Prop :=
  chk = true ∧ (lists m).prev b = 0 ∧ σ.size b = 16

/-- A neighbour that `FreeBlock` merges with `blk` cannot be taken off its list. The one
    behind is merged if the two blocks before it are not too large together. -/
def Blocked (chk : Bool) (m : Mem) (σ : Shape) (blk : Nat) : Prop :=
  ∃ b, σ.Free b ∧ Unremovable chk m σ b ∧ σ.size blk ≤ kMaxBlockSize ∧
    (b + σ.size b = blk ∨ b = blk + σ.size blk ∧
      (CoalescesPrev m blk → σ.size blk + word m (blk - 4) ≤ kMaxBlockSize))

instance (m : Mem) (blk : Nat) : Decidable (CoalescesPrev m blk) :=
  inferInstanceAs (Decidable (_ ∧ _))

instance (m : Mem) (blk : Nat) : Decidable (CoalescesNext m blk) :=
  inferInstanceAs (Decidable (_ ∧ _))

instance (m : Mem) (blk : Nat) : Decidable (FooterIntact m blk) :=
  inferInstanceAs (Decidable (_ = _))

instance (m : Mem) (blk : Nat) : Decidable (FreesCleanly m blk) :=
  inferInstanceAs (Decidable (_ ∨ _))

/-- Freeing the live block `blk` of `σ` gives one free block `[lo, hi)`. -/
structure Merged (m : Mem) (σ : Shape) (blk lo hi : Nat) : Prop where
  left : (lo = blk ∧ ¬ CoalescesPrev m blk) ∨
    (σ.Free lo ∧ lo + σ.size lo = blk ∧ σ.size blk ≤ kMaxBlockSize ∧ σ.size lo ≤ kMaxBlockSize)
  right : (hi = blk + σ.size blk ∧ (lo = blk → ¬ CoalescesNext m blk)) ∨
    (σ.Free (blk + σ.size blk) ∧ hi = blk + σ.size blk + σ.size (blk + σ.size blk) ∧
      blk + σ.size blk - lo ≤ kMaxBlockSize ∧ σ.size (blk + σ.size blk) ≤ kMaxBlockSize)

/-- The header at a cut holds the size of the block there, 0 for the sentinel. -/
theorem Headers.size_of_cut (hσ : σ.WF) (ht : Headers m σ) {b : Nat} (hb : IsCut kHeapEnd σ.size b) :
    word m b % 2147483648 = σ.size b := by
  rcases hb with rfl | hb
  · rw [ht.sentinel, hσ.size_end]
  · exact ht.size b hb

/-- The first branch of `freeBlock`, for a block `blk` of `n` bytes. -/
def coalescePrev (chk : Bool) (blk n tag prevSize : Nat) : NvmM (Nat × Nat) :=
  if tag ≠ 0 ∧ n ≤ kMaxBlockSize ∧ prevSize ≤ kMaxBlockSize then do
    removeBlock chk (sub32 blk prevSize) prevSize
    pure (sub32 blk prevSize, u32 (n + prevSize))
  else
    pure (blk, n)

/-- A free block before `blk` is merged if neither is too large. -/
theorem Tags.coalescesPrev (ht : Tags m σ) {blk p : Nat} (hb : σ.size blk ≠ 0) (hp : σ.Free p)
    (hpb : p + σ.size p = blk) (hle : σ.size blk ≤ kMaxBlockSize) (hple : σ.size p ≤ kMaxBlockSize) :
    CoalescesPrev m blk ∧ word m (blk - 4) = σ.size p := by
  have hw : word m (blk - 4) = σ.size p := by
    rw [← hpb]
    exact ht.footer p hp.1 hp.2
  have hbit := (ht.free p hp.1).mpr hp.2
  rw [hpb] at hbit
  refine ⟨⟨hbit, ?_, ?_⟩, hw⟩
  · rwa [sizeTag, ht.size blk hb]
  · rwa [hw]

/-- Whether a neighbour is in the way is told by the bytes of the heap. -/
theorem Blocked.congr (hσ : σ.WF) (hag : ∀ a, a + 4 ≤ kHeapEnd → word m' a = word m a) {blk : Nat}
    (hb : σ.Live blk) (h : Blocked chk m σ blk) : Blocked chk m' σ blk := by
  obtain ⟨_, _, hge, _, hend⟩ := hσ.layout hb.1
  have hblk := hag blk (by rw [kHeapEnd_eq]; omega)
  have hfoot := hag (blk - 4) (by rw [kHeapEnd_eq]; omega)
  obtain ⟨b, hF, ⟨hchk, hprev, h16⟩, hle, hbb⟩ := h
  obtain ⟨_, _, _, _, hbend⟩ := hσ.layout hF.1
  refine ⟨b, hF, ⟨hchk, ?_, h16⟩, hle, ?_⟩
  · rw [lists_prev_eq (hσ.node hF.1)] at hprev ⊢
    rw [hag (b + 4) (by rw [kHeapEnd_eq]; omega), hprev]
  · rw [CoalescesPrev, sizeTag, hblk, hfoot]
    exact hbb

theorem removeBlock_cases (hσ : σ.WF) (ht : Headers s.mem σ) {L : Nat → Prop}
    (hl : Linked (lists s.mem) L σ.cls) (hL : ∀ x, L x → σ.Free x) {b : Nat} (hb : L b) (e : Nat) :
    (Unremovable chk s.mem σ b ∧ removeBlock chk b (σ.size b) s = .error .assertion) ∨
    (¬ Unremovable chk s.mem σ b ∧ ∃ s', removeBlock chk b (σ.size b) s = .ok ((), s') ∧
      Relinked σ e s ((lists s.mem).remove (σ.cls b) b) s') := by
  by_cases hbad : Unremovable chk s.mem σ b
  · left
    refine ⟨hbad, ?_⟩
    obtain ⟨rfl, hp, h16⟩ := hbad
    exact removeBlock_fails hσ ht (hL b hb) hp h16
  · right
    exact ⟨hbad, removeBlock_run hσ ht hl hL hb (fun hchk hp h16 => hbad ⟨hchk, hp, h16⟩) e⟩

/-- Taking a block off its list makes no other block the first of the list at offset 0,
    unless it was that itself. -/
theorem unremovable_remove (hσ : σ.WF) (hl : Linked (lists m) σ.Free σ.cls) {p b : Nat}
    (hp : σ.Free p) (hno : ¬ Unremovable chk m σ p)
    (hlists : lists m' = (lists m).remove (σ.cls p) p) :
    Unremovable chk m' σ b ↔ Unremovable chk m σ b := by
  unfold Unremovable at hno ⊢
  rw [hlists]
  unfold Lists.remove
  by_cases hn : (lists m).next p = 0
  · simp only [hn, if_true]
  · simp only [hn, if_false]
    by_cases hbn : b = (lists m).next p
    · -- `p` was before `b`, so both are of one class
      obtain ⟨_, hcls, hprev⟩ := hl.next p hp hn
      rw [← hbn] at hcls hprev ⊢
      rw [Function.update_self, hprev]
      have hp0 := hl.ne_zero p hp
      refine ⟨fun ⟨hchk, h0, h16⟩ => absurd ⟨hchk, h0, ?_⟩ hno, fun ⟨_, h0, _⟩ => absurd h0 hp0⟩
      by_contra hne
      apply hσ.cls_ne_zero hp.1 hne
      rw [← hcls, Shape.cls, h16]
      rfl
    · rw [Function.update_of_ne hbn]

/-- The first branch: afterwards `lo` is `blk` or the free block before it, and
    `lo` is on no list. -/
theorem coalescePrev_run (chk : Bool) (h : HeapInv s.mem σ) {blk : Nat} (hb : σ.Live blk) :
    (Blocked chk s.mem σ blk ∧ coalescePrev chk blk (σ.size blk) (word s.mem blk &&& kFreeMask)
        (word s.mem (blk - 4)) s = .error .assertion) ∨
    ∃ s' lo, coalescePrev chk blk (σ.size blk) (word s.mem blk &&& kFreeMask)
        (word s.mem (blk - 4)) s = .ok ((lo, blk + σ.size blk - lo), s') ∧
      s'.base = s.base ∧ σ.size lo ≠ 0 ∧ lo ≤ blk ∧
      ((lo = blk ∧ ¬ CoalescesPrev s.mem blk) ∨
        (σ.Free lo ∧ lo + σ.size lo = blk ∧ σ.size blk ≤ kMaxBlockSize ∧
          σ.size lo ≤ kMaxBlockSize)) ∧
      Linked (lists s'.mem) (fun x => σ.Free x ∧ x ≠ lo) σ.cls ∧
      (Complete (lists s.mem) σ.Free σ.cls →
        Complete (lists s'.mem) (fun x => σ.Free x ∧ x ≠ lo) σ.cls) ∧
      (∀ b, σ.Free b → (b + σ.size b = blk → σ.size blk ≤ kMaxBlockSize →
        ¬ Unremovable chk s.mem σ b) ∧
        (Unremovable chk s'.mem σ b ↔ Unremovable chk s.mem σ b)) ∧
      SameTags s.mem s'.mem ∧ Keeps σ blk s.mem s'.mem := by
  have hσ := h.wf
  have hn := hσ.node hb.1
  have hsz := h.tags.size blk hb.1
  have hend := hσ.end_le hb.1
  simp only [kHeapEnd_eq] at hend
  have hcond : (word s.mem blk &&& kFreeMask ≠ 0 ∧ σ.size blk ≤ kMaxBlockSize ∧
      word s.mem (blk - 4) ≤ kMaxBlockSize) ↔ CoalescesPrev s.mem blk := by
    rw [and_kFreeMask_ne_zero (word_lt _ _), CoalescesPrev, sizeTag, hsz]
  unfold coalescePrev
  by_cases hC : CoalescesPrev s.mem blk
  · rw [if_pos (hcond.mpr hC)]
    obtain ⟨hbit, hle, hple⟩ := hcond.mpr hC
    rw [and_kFreeMask_ne_zero (word_lt _ _)] at hbit
    -- the free bit of the header tells that there is a free block before
    have hne : blk ≠ kHeapBegin := by
      intro heq
      have := h.tags.first
      rw [← heq] at this
      omega
    obtain ⟨p, hp, hpb⟩ := hσ.tiled.exists_prev (Or.inr hb.1) hne
    have hpf : σ.free p = true := (h.tags.free p hp).mp (by rw [hpb]; exact hbit)
    have hw : word s.mem (blk - 4) = σ.size p := by
      rw [← hpb]
      exact h.tags.footer p hp hpf
    have hsub : sub32 blk (word s.mem (blk - 4)) = p := by
      rw [sub32_of_le (by omega) (by omega)]
      omega
    rw [hsub, hw]
    rcases removeBlock_cases hσ h.tags.headers h.linked (fun _ hx => hx) ⟨hp, hpf⟩
      blk with ⟨hbad, hrun⟩ | ⟨hok, s', hrun, hbase, hlists, htags, hkeeps⟩
    · exact Or.inl ⟨⟨p, ⟨hp, hpf⟩, hbad, hle, Or.inl hpb⟩, bind_of_error hrun⟩
    have hu : u32 (σ.size blk + σ.size p) = blk + σ.size blk - p := by
      rw [u32_of_lt (by omega)]
      omega
    refine Or.inr ⟨s', p, ?_, hbase, hp, by omega, Or.inr ⟨⟨hp, hpf⟩, hpb, hle, by omega⟩, ?_, ?_,
      fun b hbF => ⟨?_, ?_⟩, htags, hkeeps⟩
    · rw [bind_of_ok hrun, hu, pure_run]
    · rw [hlists]
      exact h.linked.remove ⟨hp, hpf⟩ rfl
    · intro hcomp
      rw [hlists]
      exact hcomp.remove h.linked ⟨hp, hpf⟩ rfl
    · intro hbb _
      rwa [hσ.tiled.prev_unique hbF.1 hp (hbb.trans hpb.symm)]
    · exact unremovable_remove hσ h.linked ⟨hp, hpf⟩ hok hlists
  · rw [if_neg (fun hc => hC (hcond.mp hc))]
    -- nothing is removed, and `blk` is in no list
    have hset : ∀ x, (σ.Free x ∧ x ≠ blk) ↔ σ.Free x := by
      intro x
      refine ⟨fun hx => hx.1, fun hx => ⟨hx, ?_⟩⟩
      intro heq
      rw [heq] at hx
      exact Bool.noConfusion (hx.2.symm.trans hb.2)
    refine Or.inr ⟨s, blk, ?_, rfl, hb.1, le_rfl, Or.inl ⟨rfl, hC⟩, ?_, ?_,
      fun b hbF => ⟨?_, Iff.rfl⟩, SameTags.refl _, Keeps.refl _ _ _⟩
    · rw [pure_run, Nat.add_sub_cancel_left]
    · exact h.linked.congr hset (fun _ _ => rfl) (fun _ => rfl) (fun _ _ => rfl) fun _ _ => rfl
    · intro hcomp
      exact hcomp.congr h.linked hset (fun _ _ => rfl) (fun _ => rfl) fun _ _ => rfl
    · intro hbb hle h16
      refine hC (h.tags.coalescesPrev hb.1 hbF hbb hle ?_).1
      rw [h16.2.2, kMaxBlockSize_eq]
      decide

/-- The free blocks inside `[lo, hi)` are `lo` and the merged successor. -/
theorem free_inside (hσ : σ.WF) {blk lo hi x : Nat} (hb : σ.Live blk)
    (hlo : lo = blk ∨ σ.size lo ≠ 0 ∧ lo + σ.size lo = blk)
    (hhi : hi = blk + σ.size blk ∨
      σ.Free (blk + σ.size blk) ∧ hi = blk + σ.size blk + σ.size (blk + σ.size blk))
    (hx : σ.Free x) (hin : lo ≤ x ∧ x < hi) :
    x = lo ∨ x = blk + σ.size blk ∧ hi ≠ blk + σ.size blk := by
  have hxb : x ≠ blk := by
    intro heq
    rw [heq] at hx
    exact Bool.noConfusion (hx.2.symm.trans hb.2)
  by_contra hcon
  rw [not_or, not_and_or, not_not] at hcon
  obtain ⟨hxlo, hxn⟩ := hcon
  -- a block lies inside of none of the three
  rcases Nat.lt_or_ge x blk with hlt | hge
  · rcases hlo with rfl | ⟨hlo0, hloe⟩
    · omega
    · exact hx.1 (hσ.tiled.inside lo x hlo0 (by omega) (by omega))
  · rcases Nat.lt_or_ge x (blk + σ.size blk) with hlt' | hge'
    · exact hx.1 (hσ.tiled.inside blk x hb.1 (by omega) hlt')
    · rcases hhi with rfl | ⟨hnF, rfl⟩
      · omega
      · have hne : x ≠ blk + σ.size blk := by
          rcases hxn with hxn | hxn
          · exact hxn
          · exact absurd hxn (by have := hσ.size_ge hnF.1; omega)
        exact hx.1 (hσ.tiled.inside _ x hnF.1 (by omega) (by omega))

/-- The second branch of `freeBlock`: the new size, for `n` bytes before a block `next`. -/
def coalesceNext (chk : Bool) (next n tag nextSize : Nat) : NvmM Nat :=
  if tag ≠ 0 ∧ n ≤ kMaxBlockSize ∧ nextSize ≤ kMaxBlockSize then do
    removeBlock chk next nextSize
    pure (u32 (n + nextSize))
  else
    pure n

/-- The free blocks outside of a live block and a free one before it. -/
theorem free_outside (hσ : σ.WF) {blk lo : Nat} (hb : σ.Live blk)
    (hlo : lo = blk ∨ σ.size lo ≠ 0 ∧ lo + σ.size lo = blk) (x : Nat) :
    (σ.Free x ∧ ¬ (lo ≤ x ∧ x < blk + σ.size blk)) ↔ (σ.Free x ∧ x ≠ lo) := by
  have hbge := hσ.size_ge hb.1
  constructor
  · intro hx
    exact ⟨hx.1, by omega⟩
  · intro hx
    refine ⟨hx.1, ?_⟩
    intro hin
    rcases free_inside hσ hb hlo (Or.inl rfl) hx.1 hin with heq | ⟨_, hne⟩
    · exact hx.2 heq
    · exact hne rfl

/-- The free blocks outside of these two and the free one behind them. -/
theorem free_outside_next (hσ : σ.WF) {blk lo : Nat} (hb : σ.Live blk)
    (hlo : lo = blk ∨ σ.size lo ≠ 0 ∧ lo + σ.size lo = blk) (hn : σ.Free (blk + σ.size blk))
    (x : Nat) :
    (σ.Free x ∧ ¬ (lo ≤ x ∧ x < blk + σ.size blk + σ.size (blk + σ.size blk))) ↔
      ((σ.Free x ∧ x ≠ lo) ∧ x ≠ blk + σ.size blk) := by
  have hbge := hσ.size_ge hb.1
  have hnge := hσ.size_ge hn.1
  constructor
  · intro hx
    exact ⟨⟨hx.1, by omega⟩, by omega⟩
  · intro hx
    refine ⟨hx.1.1, ?_⟩
    intro hin
    rcases free_inside hσ hb hlo (Or.inr ⟨hn, rfl⟩) hx.1.1 hin with heq | ⟨heq, _⟩
    · exact hx.1.2 heq
    · exact hx.2 heq

/-- The second branch: afterwards no block inside `[lo, hi)` is on a list. -/
theorem coalesceNext_run (chk : Bool) (hσ : σ.WF) (ht : Headers s.mem σ) {blk lo : Nat}
    (hb : σ.Live blk)
    (hlo : lo = blk ∨ σ.size lo ≠ 0 ∧ lo + σ.size lo = blk)
    (hl : Linked (lists s.mem) (fun x => σ.Free x ∧ x ≠ lo) σ.cls) :
    (σ.Free (blk + σ.size blk) ∧ Unremovable chk s.mem σ (blk + σ.size blk) ∧
      blk + σ.size blk - lo ≤ kMaxBlockSize ∧
      coalesceNext chk (blk + σ.size blk) (blk + σ.size blk - lo)
        (word s.mem (blk + σ.size blk + σ.size (blk + σ.size blk)) &&& kFreeMask)
        (σ.size (blk + σ.size blk)) s = .error .assertion) ∨
    (σ.Free (blk + σ.size blk) → blk + σ.size blk - lo ≤ kMaxBlockSize →
      ¬ Unremovable chk s.mem σ (blk + σ.size blk)) ∧
    ∃ s' hi, coalesceNext chk (blk + σ.size blk) (blk + σ.size blk - lo)
        (word s.mem (blk + σ.size blk + σ.size (blk + σ.size blk)) &&& kFreeMask)
        (σ.size (blk + σ.size blk)) s = .ok (hi - lo, s') ∧
      s'.base = s.base ∧ IsCut kHeapEnd σ.size hi ∧ blk + σ.size blk ≤ hi ∧
      ((hi = blk + σ.size blk ∧ (lo = blk → ¬ CoalescesNext s.mem blk)) ∨
        (σ.Free (blk + σ.size blk) ∧ hi = blk + σ.size blk + σ.size (blk + σ.size blk) ∧
          blk + σ.size blk - lo ≤ kMaxBlockSize ∧
          σ.size (blk + σ.size blk) ≤ kMaxBlockSize)) ∧
      Linked (lists s'.mem) (fun x => σ.Free x ∧ ¬ (lo ≤ x ∧ x < hi)) σ.cls ∧
      (Complete (lists s.mem) (fun x => σ.Free x ∧ x ≠ lo) σ.cls →
        Complete (lists s'.mem) (fun x => σ.Free x ∧ ¬ (lo ≤ x ∧ x < hi)) σ.cls) ∧
      SameTags s.mem s'.mem ∧ Keeps σ blk s.mem s'.mem ∧
      (hi = blk + σ.size blk → σ.Free (blk + σ.size blk) →
        blk + σ.size blk - lo ≤ kMaxBlockSize → kMaxBlockSize < σ.size (blk + σ.size blk)) := by
  have hcut := hσ.end_cut hb.1
  have hloB : lo ≤ blk := by omega
  have hend := hσ.end_le hb.1
  simp only [kHeapEnd_eq] at hend
  have hsz := ht.size_of_cut hσ (Or.inr hb.1)
  have hnsz := ht.size_of_cut hσ hcut
  have hbge := hσ.size_ge hb.1
  unfold coalesceNext
  -- the condition of the source, in which the bit is that behind the right neighbour
  by_cases hC : word s.mem (blk + σ.size blk + σ.size (blk + σ.size blk)) &&& kFreeMask ≠ 0 ∧
      blk + σ.size blk - lo ≤ kMaxBlockSize ∧ σ.size (blk + σ.size blk) ≤ kMaxBlockSize
  · rw [if_pos hC]
    obtain ⟨hbit, hle, hnle⟩ := hC
    rw [and_kFreeMask_ne_zero (word_lt _ _)] at hbit
    -- the sentinel has size 0, and its bit says that `blk` is live
    have hn0 : σ.size (blk + σ.size blk) ≠ 0 := by
      intro h0
      rw [h0, Nat.add_zero] at hbit
      exact Bool.noConfusion (((ht.free blk hb.1).mp hbit).symm.trans hb.2)
    have hnF : σ.Free (blk + σ.size blk) := ⟨hn0, (ht.free _ hn0).mp hbit⟩
    have hnge := hσ.size_ge hn0
    have hnend := hσ.end_le hn0
    simp only [kHeapEnd_eq] at hnend
    -- the neighbour is still in its list after the one to the left was removed
    have hmem : σ.Free (blk + σ.size blk) ∧ blk + σ.size blk ≠ lo := ⟨hnF, by omega⟩
    rcases removeBlock_cases hσ ht hl (fun _ hx => hx.1) hmem blk with
      ⟨hbad, hrun⟩ | ⟨hok, s', hrun, hbase, hlists, htags, hkeeps⟩
    · exact Or.inl ⟨hnF, hbad, hle, bind_of_error hrun⟩
    have hset := free_outside_next hσ hb hlo hnF
    refine Or.inr ⟨fun _ _ => hok, s', blk + σ.size blk + σ.size (blk + σ.size blk), ?_, hbase,
      hσ.end_cut hn0, by omega, Or.inr ⟨hnF, rfl, hle, hnle⟩, ?_, ?_, htags, hkeeps,
      fun heq => by omega⟩
    · rw [bind_of_ok hrun, pure_run, u32_of_lt (by omega)]
      congr 2
      omega
    · rw [hlists]
      exact (hl.remove hmem rfl).congr hset (fun _ _ => rfl) (fun _ => rfl) (fun _ _ => rfl)
        fun _ _ => rfl
    · intro hcomp
      rw [hlists]
      exact (hcomp.remove hl hmem rfl).congr (hl.remove hmem rfl) hset (fun _ _ => rfl)
        (fun _ => rfl) fun _ _ => rfl
  · rw [if_neg hC]
    -- nothing is merged: one of the three parts of the condition fails
    have hset := free_outside hσ hb hlo
    refine Or.inr ⟨fun hF hle h16 => hC ⟨?_, hle, ?_⟩, s, blk + σ.size blk, by rw [pure_run], rfl,
      hcut, le_rfl, Or.inl ⟨rfl, ?_⟩,
      hl.congr hset (fun _ _ => rfl) (fun _ => rfl) (fun _ _ => rfl) fun _ _ => rfl,
      fun hcomp => hcomp.congr hl hset (fun _ _ => rfl) (fun _ => rfl) fun _ _ => rfl,
      SameTags.refl _, Keeps.refl _ _ _, ?_⟩
    · exact (and_kFreeMask_ne_zero (word_lt _ _)).mpr ((ht.free _ hF.1).mpr hF.2)
    · rw [h16.2.2, kMaxBlockSize_eq]
      decide
    · intro heq hN
      rw [CoalescesNext, sizeTag, hsz, sizeTag, hnsz] at hN
      refine hC ⟨(and_kFreeMask_ne_zero (word_lt _ _)).mpr hN.1, ?_, hN.2.2⟩
      rw [heq, Nat.add_sub_cancel_left]
      exact hN.2.1
    · intro _ hF hle
      by_contra hge
      refine hC ⟨?_, hle, not_lt.mp hge⟩
      exact (and_kFreeMask_ne_zero (word_lt _ _)).mpr ((ht.free _ hF.1).mpr hF.2)

/-! ### `freeBlock` -/

/-- The block at `b` made `n` bytes long: header and last word hold the size,
    and nothing else changes. -/
theorem setSize_run (chk : Bool) {b n e : Nat} (hb : IsNode b) (hn16 : 16 ∣ n) (hn : 0 < n)
    (hend : b + n ≤ kHeapEnd) (hs₁ : Scratch σ e b) (hs₂ : Scratch σ e (b + n - 4)) :
    ∃ s', (do
        let tag ← readThePrevFreeTag chk b
        write32 chk b (tag ||| n)
        write32 chk (sub32 (u32 (b + n)) 4) n : NvmM Unit) s = .ok ((), s') ∧
      s'.base = s.base ∧ lists s'.mem = lists s.mem ∧
      word s'.mem b % 2147483648 = n ∧
      (2147483648 ≤ word s'.mem b ↔ 2147483648 ≤ word s.mem b) ∧
      word s'.mem (b + n - 4) = n ∧
      (∀ w, w % 4 = 0 → w ≠ b → w ≠ b + n - 4 → word s'.mem w = word s.mem w) ∧
      Keeps σ e s.mem s'.mem := by
  obtain ⟨hlo, hmod⟩ := hb
  simp only [kHeapBegin_eq, kHeapEnd_eq] at hlo hend
  have hwl := word_lt s.mem b
  have htag : word s.mem b &&& kFreeMask ||| n =
      word s.mem b / 2147483648 * 2147483648 + n := by
    rw [and_kFreeMask hwl, tag_or_size (by omega)]
  have hsub : sub32 (u32 (b + n)) 4 = b + n - 4 := by
    rw [u32_of_lt (by omega), sub32_of_le (by omega) (by omega)]
  -- the footer is written after the header, and both are words of the block
  have hw : ∀ w, w % 4 = 0 → word ((s.wr b
      (word s.mem b / 2147483648 * 2147483648 + n)).wr (b + n - 4) n).mem w =
      if w = b + n - 4 then n else if w = b then
        word s.mem b / 2147483648 * 2147483648 + n else word s.mem w := by
    intro w hw
    rw [Nvm.wr_mem, word_storeNat (by omega) hw (by omega), Nvm.wr_mem,
      word_storeNat (by omega) hw (by omega)]
  refine ⟨(s.wr b (word s.mem b / 2147483648 * 2147483648 + n)).wr (b + n - 4) n, ?_, rfl, ?_, ?_,
    ?_, ?_, ?_, (Keeps.store hs₁).trans (Keeps.store hs₂)⟩
  · rw [bind_of_ok (readThePrevFreeTag_ok (by simp; omega) (by omega)), htag,
      bind_of_ok (write32_ok (by simp; omega) (by omega)), hsub]
    exact write32_ok (by simp; omega) (by omega)
  · rw [Nvm.wr_mem, lists_store_tag (by omega) (by simp only [kHeapBegin_eq]; omega)
      (Or.inr (by omega)), Nvm.wr_mem,
      lists_store_tag (by omega) (by simp only [kHeapBegin_eq]; omega) (Or.inl hmod)]
  · rw [hw b (by omega), if_neg (by omega), if_pos rfl]
    omega
  · rw [hw b (by omega), if_neg (by omega), if_pos rfl]
    omega
  · rw [hw _ (by omega), if_pos rfl]
  · intro w hw4 h₁ h₂
    rw [hw w hw4, if_neg h₂, if_neg h₁]

/-- Writing the size of the fused block: afterwards its header holds it, and its last
    word too unless nothing was merged; no other tag has changed. -/
theorem resize_run (chk : Bool) (hσ : σ.WF) (ht : Headers s.mem σ) {blk lo hi : Nat}
    (hb : σ.Live blk) (hlo0 : σ.size lo ≠ 0) (hlob : lo ≤ blk)
    (hhi : IsCut kHeapEnd σ.size hi) (hhib : blk + σ.size blk ≤ hi) (hhiF : hi = blk + σ.size blk ∨
      σ.Free (blk + σ.size blk) ∧ hi = blk + σ.size blk + σ.size (blk + σ.size blk)) :
    ∃ s',
      (if hi - lo ≠ σ.size blk then do
          let tag ← readThePrevFreeTag chk lo
          write32 chk lo (tag ||| (hi - lo))
          write32 chk (sub32 (u32 (lo + (hi - lo))) 4) (hi - lo)
        else pure () : NvmM Unit) s = .ok ((), s') ∧
      s'.base = s.base ∧ lists s'.mem = lists s.mem ∧
      word s'.mem lo % 2147483648 = hi - lo ∧
      (2147483648 ≤ word s'.mem lo ↔ 2147483648 ≤ word s.mem lo) ∧
      ((lo = blk → hi = blk + σ.size blk → FooterIntact s.mem blk) →
        word s'.mem (hi - 4) = hi - lo) ∧
      (∀ w, w % 4 = 0 → w ≠ lo → w ≠ hi - 4 → word s'.mem w = word s.mem w) ∧
      Keeps σ blk s.mem s'.mem := by
  have hlon := hσ.node hlo0
  have hbge := hσ.size_ge hb.1
  obtain ⟨⟨_, hhim⟩, hhiE⟩ := hσ.node_of_cut hhi
  have hlohi : lo + (hi - lo) = hi := by omega
  by_cases hne : hi - lo ≠ σ.size blk
  · rw [if_pos hne]
    -- the last word lies in `blk` or in the merged successor
    have hlast : Scratch σ blk (hi - 4) := by
      rcases hhiF with heq | ⟨hnF, heq⟩
      · exact scratch_inside hσ (Or.inr ⟨rfl, hb.1⟩) (by omega) (by omega)
      · have := hσ.size_ge hnF.1
        exact scratch_inside hσ (Or.inl hnF) (by omega) (by omega)
    have h16 : 16 ∣ hi - lo := by
      have := hlon.2
      omega
    -- something was merged: header and footer get the new size
    obtain ⟨s', hrun, hbase, hlists, hsize, htag, hlast', hrest, hk⟩ :=
      setSize_run chk (s := s) hlon h16 (by omega) (by omega) (scratch_cut hσ (Or.inr hlo0))
        (by rwa [hlohi])
    rw [hlohi] at hlast' hrest
    exact ⟨s', hrun, hbase, hlists, hsize, htag, fun _ => hlast', hrest, hk⟩
  · -- nothing was merged: the last word is what the client left there
    rw [not_not] at hne
    have hlob' : lo = blk := by omega
    have hhib' : hi = blk + σ.size blk := by omega
    have hsz := ht.size blk hb.1
    refine ⟨s, by rw [if_neg (by simp [hne]), pure_run], rfl, rfl, ?_, Iff.rfl, ?_,
      fun _ _ _ _ => rfl, Keeps.refl _ _ _⟩
    · rw [hlob', hsz]
      omega
    · intro hfoot
      have hint := hfoot hlob' hhib'
      rw [FooterIntact, sizeTag, hsz] at hint
      rw [hhib', hlob', hint, Nat.add_sub_cancel_left]

/-- The size and the free bit of the fused block are written: the headers describe
    the heap after fusing, and the lists are as before. -/
theorem markFree_run (chk : Bool) (hσ : σ.WF) (ht : Headers s.mem σ) {blk lo hi : Nat}
    (hb : σ.Live blk) (hlo0 : σ.size lo ≠ 0) (hlob : lo ≤ blk) (hhi : IsCut kHeapEnd σ.size hi)
    (hhib : blk + σ.size blk ≤ hi) (hhiF : hi = blk + σ.size blk ∨
      σ.Free (blk + σ.size blk) ∧ hi = blk + σ.size blk + σ.size (blk + σ.size blk)) :
    ∃ s₁ s',
      (if hi - lo ≠ σ.size blk then do
          let tag ← readThePrevFreeTag chk lo
          write32 chk lo (tag ||| (hi - lo))
          write32 chk (sub32 (u32 (lo + (hi - lo))) 4) (hi - lo)
        else pure () : NvmM Unit) s = .ok ((), s₁) ∧
      setTheFreeTag chk lo (hi - lo) s₁ = .ok ((), s') ∧
      s'.base = s.base ∧ lists s'.mem = lists s.mem ∧ Headers s'.mem (σ.fuse lo hi) ∧
      (Footers s.mem σ → (lo = blk → hi = blk + σ.size blk → FooterIntact s.mem blk) →
        Footers s'.mem (σ.fuse lo hi)) ∧
      Keeps σ blk s.mem s'.mem := by
  obtain ⟨s₁, hrun₁, hbase₁, hlists₁, hsize₁, htag₁, hfoot₁, hrest₁, hk₁⟩ :=
    resize_run chk hσ ht hb hlo0 hlob hhi hhib hhiF
  obtain ⟨hlo, hlom, hloge, _, _⟩ := hσ.layout hlo0
  obtain ⟨hhin, hhie⟩ := hσ.node_of_cut hhi
  obtain ⟨hhlo, hhim⟩ := isNode_iff.mp hhin
  rw [kHeapEnd_eq] at hhie
  have hbge := hσ.size_ge hb.1
  have hlohi : lo + (hi - lo) = hi := by omega
  have hlt : lo < hi := by omega
  have hB : 2147483648 + word s₁.mem hi % 2147483648 < 4294967296 := by omega
  have hw : ∀ w, w % 4 = 0 →
      word (s₁.wr hi (2147483648 + word s₁.mem hi % 2147483648)).mem w =
      if w = hi then 2147483648 + word s₁.mem hi % 2147483648 else word s₁.mem w := by
    intro w hw
    rw [Nvm.wr_mem, word_storeNat (by omega) hw hB]
  refine ⟨s₁, s₁.wr hi (2147483648 + word s₁.mem hi % 2147483648), hrun₁, ?_, hbase₁, ?_, ?_,
    ?_, hk₁.trans (Keeps.store (scratch_cut hσ hhi))⟩
  · rw [setTheFreeTag_ok (by simp; omega) (by omega), hlohi]
  · rw [Nvm.wr_mem, lists_store_tag hB hhin.1 (Or.inl hhim), hlists₁]
  -- the headers of the merged block: its own, the one at its end, all others
  · refine ht.fuse hσ hlo0 hlt ?_ ?_ ?_ ?_ ?_
    · rw [hw lo (by omega), if_neg (by omega), hsize₁]
    · rw [hw lo (by omega), if_neg (by omega), htag₁]
    · rw [hw hi (by omega), if_pos rfl, hrest₁ hi (by omega) (by omega) (by omega)]
      omega
    · rw [hw hi (by omega), if_pos rfl]
      omega
    · intro w hcut hwlo hwhi
      have hwm := (hσ.node_of_cut hcut).1.2
      rw [hw w (by omega), if_neg hwhi, hrest₁ w (by omega) hwlo (by omega)]
  · intro hf hclean
    refine hf.fuse hlt ?_ ?_
    · rw [hw _ (by omega), if_neg (by omega), hfoot₁ hclean]
    · intro b hbF hbo
      obtain ⟨hbl, hbm, hbg, hb16, _⟩ := hσ.layout hbF.1
      -- the last word of a block outside is not the one of the new block
      have hne : b + σ.size b ≠ hi := by
        rcases hbo with hb1 | hb1
        · have := hσ.tiled.end_le_of_lt hbF.1 (Or.inr hlo0) hb1
          omega
        · omega
      rw [hw _ (by omega), if_neg (by omega), hrest₁ _ (by omega) (by omega) (by omega)]

/-- The decision of the second branch reads tags only. -/
theorem coalescesNext_congr (hσ : σ.WF) (ht : Headers m σ) (hs : SameTags m m') {blk : Nat}
    (hb : σ.Live blk) : CoalescesNext m' blk ↔ CoalescesNext m blk := by
  have ht' := ht.of_same hσ hs
  have hcut := hσ.end_cut hb.1
  have hnode := (hσ.node_of_cut (hσ.cut_next hcut)).1
  simp only [CoalescesNext, sizeTag]
  rw [ht'.size_of_cut hσ (Or.inr hb.1), ht.size_of_cut hσ (Or.inr hb.1),
    ht'.size_of_cut hσ hcut, ht.size_of_cut hσ hcut, hs _ hnode.1 (Or.inl hnode.2)]

/-- If nothing was merged, a clean `FreeBlock` finds the size in the last word. -/
theorem Merged.footer (hσ : σ.WF) {blk lo hi : Nat} (hM : Merged m σ blk lo hi)
    (hb : σ.Live blk) (hclean : FreesCleanly m blk) (hlo : lo = blk)
    (hhi : hi = blk + σ.size blk) : FooterIntact m blk := by
  rcases hclean with hc | hc | hc
  · rcases hM.left with ⟨_, hno⟩ | ⟨hF, _⟩
    · exact absurd hc hno
    · rw [hlo] at hF
      exact Bool.noConfusion (hF.2.symm.trans hb.2)
  · rcases hM.right with ⟨_, hno⟩ | ⟨hF, heq, _⟩
    · exact absurd hc (hno hlo)
    · have := hσ.size_ge hF.1
      omega
  · exact hc

/-- Whether the last word holds the size is told by tags. -/
theorem FooterIntact.of_same (hσ : σ.WF) (ht : Headers m σ) (hs : SameTags m m') {blk : Nat}
    (hb : σ.Live blk) (h : FooterIntact m blk) : FooterIntact m' blk := by
  obtain ⟨hlo, hmod, hge, h16, _⟩ := hσ.layout hb.1
  simp only [FooterIntact, sizeTag] at h ⊢
  rw [ht.size blk hb.1] at h
  rw [(ht.of_same hσ hs).size blk hb.1,
    hs _ (by rw [kHeapBegin_eq]; omega) (Or.inr (by omega)), h]

/-- The bytes up to the end of `blk` that are merged. -/
theorem Tags.merged_size (ht : Tags m σ) {blk lo : Nat} (hb : σ.Live blk)
    (hleft : (lo = blk ∧ ¬ CoalescesPrev m blk) ∨
      (σ.Free lo ∧ lo + σ.size lo = blk ∧ σ.size blk ≤ kMaxBlockSize ∧
        σ.size lo ≤ kMaxBlockSize)) :
    blk + σ.size blk - lo =
      σ.size blk + if CoalescesPrev m blk then word m (blk - 4) else 0 := by
  rcases hleft with ⟨rfl, hC⟩ | ⟨hF, hlo, hle, hple⟩
  · rw [if_neg hC]
    omega
  · obtain ⟨hC, hw⟩ := ht.coalescesPrev hb.1 hF hlo hle hple
    rw [if_pos hC, hw]
    omega

/-- `freeBlock` on a block: the tags that are read before anything is written. -/
theorem freeBlock_eq (h : HeapInv s.mem σ) {blk : Nat} (hb : σ.Live blk) :
    freeBlock chk blk s = (do
      let x ← coalescePrev chk blk (σ.size blk) (word s.mem blk &&& kFreeMask)
        (word s.mem (blk - 4))
      let nextTag ← readTheFreeTag chk (blk + σ.size blk) (σ.size (blk + σ.size blk))
      let n ← coalesceNext chk (blk + σ.size blk) x.2 nextTag (σ.size (blk + σ.size blk))
      (if n ≠ σ.size blk then do
        let tag ← readThePrevFreeTag chk x.1
        write32 chk x.1 (tag ||| n)
        write32 chk (sub32 (u32 (x.1 + n)) 4) n
      else
        pure ())
      setTheFreeTag chk x.1 n
      let freeList ← getFreeListByBlockSize n
      let head ← read32 chk freeList
      write32 chk freeList x.1
      write32 chk (x.1 + offsetofPrev) 0
      write32 chk (x.1 + offsetofNext) head
      if head ≠ 0 then write32 chk (head + offsetofPrev) x.1 else pure () : NvmM Unit) s := by
  have hσ := h.wf
  obtain ⟨hnlo, hnm, hbge, hb16, hend⟩ := hσ.layout hb.1
  have hcut := hσ.end_cut hb.1
  have hsub : sub32 blk 4 = blk - 4 := sub32_of_le (by omega) (by omega)
  have hu : u32 (blk + σ.size blk) = blk + σ.size blk := u32_of_lt (by omega)
  -- the reads before the first branch all succeed
  rw [freeBlock, bind_of_ok (readTheSizeTag_ok (by simp; omega) (by omega)),
    h.tags.size blk hb.1, bind_of_ok (read32_ok (by simp; omega) (by omega)), hsub, hu]
  rw [bind_of_ok (readTheSizeTag_ok (by simp; omega) (by omega)),
    h.tags.headers.size_of_cut hσ hcut,
    bind_of_ok (readThePrevFreeTag_ok (by simp; omega) (by omega))]
  rfl

/-- **Freeing.** On a well-formed heap `freeBlock` returns, unless a neighbour to merge is
    the first of the list at offset 0. Then `blk` is fused into one free block; its last word
    is in order if it is freed cleanly. The block behind is left out only if one of the two
    is too large. -/
theorem freeBlock_cases (h : HeapInv s.mem σ) {blk : Nat} (hb : σ.Live blk)
    (h16 : chk = true → σ.size blk ≠ 16) :
    (Blocked chk s.mem σ blk ∧ freeBlock chk blk s = .error .assertion) ∨
    ¬ Blocked chk s.mem σ blk ∧
    ∃ s' lo hi, freeBlock chk blk s = .ok ((), s') ∧ s'.base = s.base ∧
      Merged s.mem σ blk lo hi ∧ HeapCore s'.mem (σ.fuse lo hi) ∧
      (FreesCleanly s.mem blk → Footers s'.mem (σ.fuse lo hi)) ∧
      (Complete (lists s.mem) σ.Free σ.cls →
        Complete (lists s'.mem) (σ.fuse lo hi).Free (σ.fuse lo hi).cls) ∧
      Keeps σ blk s.mem s'.mem ∧
      (hi = blk + σ.size blk → σ.Free (blk + σ.size blk) →
        blk + σ.size blk - lo ≤ kMaxBlockSize → kMaxBlockSize < σ.size (blk + σ.size blk)) := by
  have hσ := h.wf
  obtain ⟨hnlo, hnm, hbge, hb16, hend⟩ := hσ.layout hb.1
  have hcut := hσ.end_cut hb.1
  rw [freeBlock_eq h hb]
  -- the block before
  rcases coalescePrev_run chk h hb with ⟨hbad, hrun₁⟩ |
    ⟨s₁, lo, hrun₁, hbase₁, hlo0, hlob, hleft, hl₁, hcomp₁, hfirst, hst₁, hk₁⟩
  · exact Or.inl ⟨hbad, bind_of_error hrun₁⟩
  rw [bind_of_ok hrun₁]
  have ht₁ : Headers s₁.mem σ := h.tags.headers.of_same hσ hst₁
  have hloc : lo = blk ∨ σ.size lo ≠ 0 ∧ lo + σ.size lo = blk :=
    hleft.imp (fun hx => hx.1) fun hx => ⟨hx.1.1, hx.2.1⟩
  have hnB : blk + σ.size blk + σ.size (blk + σ.size blk) + 4 ≤ kNVMTabletSize := by
    have := (hσ.node_of_cut (hσ.cut_next hcut)).2
    rw [kHeapEnd_eq] at this
    rw [kNVMTabletSize_eq]
    omega
  show (Blocked _ _ _ _ ∧ (readTheFreeTag chk _ _ >>= _) s₁ = _) ∨
    ¬ Blocked _ _ _ _ ∧ ∃ s' lo hi, (readTheFreeTag chk _ _ >>= _) s₁ = _ ∧ _
  rw [bind_of_ok (readTheFreeTag_ok hnB (by omega))]
  -- the block behind
  rcases coalesceNext_run chk hσ ht₁ hb hloc hl₁ with ⟨hF, hbad, hle, hrun₂⟩ |
    ⟨hok, s₂, hi, hrun₂, hbase₂, hhi, hhib, hright, hl₂, hcomp₂, hst₂, hk₂, hexact⟩
  · refine Or.inl ⟨⟨_, hF, ((hfirst _ hF).2).mp hbad, by omega, Or.inr ⟨rfl, ?_⟩⟩,
      bind_of_error hrun₂⟩
    intro hC
    have := h.tags.merged_size hb hleft
    rw [if_pos hC] at this
    omega
  have hfree : ¬ Blocked chk s.mem σ blk := by
    rintro ⟨b, hbF, hbad, hle, hbb | ⟨rfl, hsum⟩⟩
    · exact (hfirst b hbF).1 hbb hle hbad
    · have := h.tags.merged_size hb hleft
      refine hok hbF ?_ ((hfirst _ hbF).2.mpr hbad)
      by_cases hC : CoalescesPrev s.mem blk
      · rw [if_pos hC] at this
        have := hsum hC
        omega
      · rw [if_neg hC] at this
        omega
  refine Or.inr ⟨hfree, ?_⟩
  have hst : SameTags s.mem s₂.mem := hst₁.trans hst₂
  have hM : Merged s.mem σ blk lo hi := by
    rw [coalescesNext_congr hσ h.tags.headers hst₁ hb] at hright
    exact ⟨hleft, hright⟩
  have hlt : lo < hi := by omega
  -- the tags of the fused block
  obtain ⟨s₃, s₄, hrun₃, hrun₄, hbase₄, hlists₄, hheaders₄, hfooters₄, hk₄⟩ :=
    markFree_run chk hσ (h.tags.headers.of_same hσ hst) hb hlo0 hlob hhi hhib
      (hright.imp (fun hx => hx.1) fun hx => ⟨hx.1, hx.2.1⟩)
  -- the free list
  have hl₄ : Linked (lists s₄.mem) (fun x => σ.Free x ∧ ¬ (lo ≤ x ∧ x < hi)) σ.cls := by
    rw [hlists₄]
    exact hl₂
  have hlo : σ.Free lo ∨ lo = blk ∧ σ.size lo ≠ 0 :=
    hleft.elim (fun hx => Or.inr ⟨hx.1, hlo0⟩) fun hx => Or.inl hx.1
  have hc0 : chk = true → classOf (hi - lo) ≠ 0 := by
    intro hchk
    have := h16 hchk
    exact classOf_ne_zero (by omega)
  obtain ⟨s₅, hrun₅, hrel₅⟩ := pushBlock_run hσ hlo hc0
    (fun h0 => (hl₄.head _ h0).1.1) (show 16 ≤ hi - lo by omega)
  have hnew : ¬ (σ.Free lo ∧ ¬ (lo ≤ lo ∧ lo < hi)) := fun hx => hx.2 ⟨le_rfl, hlt⟩
  have hlo1 : lo ≠ 0 := by
    have := (hσ.layout hlo0).1
    omega
  have hpush : Linked (lists s₅.mem) (fun x => (σ.Free x ∧ ¬ (lo ≤ x ∧ x < hi)) ∨ x = lo)
      (Function.update σ.cls lo (classOf (hi - lo))) := by
    rw [hrel₅.eq]
    exact hl₄.push hnew hlo1
  have hwf := hσ.fuse hlo0 hhi hlt
  refine ⟨s₅, lo, hi, ?_, ?_, hM, ⟨hwf, hheaders₄.of_same hwf hrel₅.tags, ?_⟩, ?_, ?_, ?_, hexact⟩
  · rw [bind_of_ok hrun₂, bind_of_ok hrun₃, bind_of_ok hrun₄]
    exact hrun₅
  · rw [hrel₅.base, hbase₄, hbase₂, hbase₁]
  · exact hpush.congr (σ.fuse_free hlt) (fun _ => σ.fuse_cls hlt) (fun _ => rfl) (fun _ _ => rfl)
      fun _ _ => rfl
  · intro hclean
    refine (hfooters₄ (h.footers.of_same hσ hst) ?_).of_same hwf hrel₅.tags
    intro h₁ h₂
    exact (hM.footer hσ hb hclean h₁ h₂).of_same hσ h.tags.headers hst hb
  · intro hcomp
    have hcp := hcomp₂ (hcomp₁ hcomp)
    rw [← hlists₄] at hcp
    have hcp' := hcp.push hl₄ (c := classOf (hi - lo)) (b := lo) hnew hlo1
    rw [← hrel₅.eq] at hcp'
    exact hcp'.congr hpush (σ.fuse_free hlt) (fun _ => σ.fuse_cls hlt) (fun _ => rfl) fun _ _ => rfl
  · exact ((hk₁.trans hk₂).trans hk₄).trans hrel₅.keeps

end Nvds.Allocator
