import Nvds.Allocator.Access
import Nvds.Modification

/-! # Recorded modifications of the allocator

    Every store goes through `Write` or `Memcpy`, which record it. `LoggedBy`
    relates the states before and after a call by what was recorded in
    between. It composes, so that it holds for every call that returns, on
    any memory.
-/

open ByteMemory Program Intervals

namespace Nvds

/-! ### The relation -/

/-- `L` has been recorded between `s` and `s'`, and no other byte has changed. -/
structure LoggedBy (s : Nvm) (L : List Modification) (s' : Nvm) : Prop where
  base : s'.base = s.base
  log : s'.modifications = s.modifications ++ L
  recorded : ∀ m ∈ L, Recorded s.base m
  same : ∀ a, (∀ m ∈ L, ¬ m.range.Has a) → s'.mem a = s.mem a

/-- All changes between `s` and `s'` have been recorded. -/
def Logged (s s' : Nvm) : Prop := ∃ L, LoggedBy s L s'

theorem LoggedBy.refl (s : Nvm) : LoggedBy s [] s :=
  ⟨rfl, (List.append_nil _).symm, fun _ hm => absurd hm List.not_mem_nil, fun _ _ => rfl⟩

theorem LoggedBy.trans {s t u : Nvm} {L₁ L₂ : List Modification} (h₁ : LoggedBy s L₁ t)
    (h₂ : LoggedBy t L₂ u) : LoggedBy s (L₁ ++ L₂) u := by
  refine ⟨h₂.base.trans h₁.base, by rw [h₂.log, h₁.log, List.append_assoc], ?_, ?_⟩
  · intro m hm
    rcases List.mem_append.mp hm with hm | hm
    · exact h₁.recorded m hm
    · rw [← h₁.base]
      exact h₂.recorded m hm
  · intro a ha
    rw [h₂.same a fun m hm => ha m (List.mem_append_right _ hm),
      h₁.same a fun m hm => ha m (List.mem_append_left _ hm)]

theorem Logged.refl (s : Nvm) : Logged s s := ⟨[], LoggedBy.refl s⟩

theorem Logged.trans (s t u : Nvm) (h₁ : Logged s t) (h₂ : Logged t u) : Logged s u := by
  obtain ⟨L₁, h₁⟩ := h₁
  obtain ⟨L₂, h₂⟩ := h₂
  exact ⟨L₁ ++ L₂, h₁.trans h₂⟩

/-- What is recorded of a store inside the tablet. -/
theorem LoggedBy.write (s : Nvm) {off : Nat} {bs : List UInt8}
    (h : off + bs.length < 4294967296) :
    LoggedBy s [⟨off, s.base + off, bs.length⟩] (s.write off bs) := by
  refine ⟨rfl, rfl, ?_, ?_⟩
  · intro m hm
    rw [List.mem_singleton.mp hm]
    exact ⟨rfl, h⟩
  · intro a ha
    have hout := ha _ List.mem_cons_self
    apply store_of_not_mem
    by_contra hcon
    exact hout ⟨by show off ≤ a; omega, by show a < off + bs.length; omega⟩

/-- The call records all it changes. -/
def Tracks {α : Type} (c : NvmM α) : Prop := Respects Logged c

namespace Tracks

variable {α β : Type}

theorem pure (a : α) : Tracks (pure a) := Respects.pure Logged.refl a

theorem bind {c : NvmM α} {f : α → NvmM β} (hc : Tracks c) (hf : ∀ a, Tracks (f a)) :
    Tracks (c >>= f) := Respects.bind Logged.trans hc hf

theorem ite {p : Prop} [Decidable p] {c d : NvmM α} (hc : Tracks c) (hd : Tracks d) :
    Tracks (if p then c else d) := Respects.ite hc hd

theorem throw (e : Fault) : Tracks (throw e : NvmM α) := by
  intro s a s' h
  cases h

theorem get : Tracks (MonadState.get : NvmM Nvm) := by
  intro s a s' h
  cases h
  exact Logged.refl s

theorem assert (p : Prop) [Decidable p] : Tracks (assert p) := by
  unfold Nvds.assert
  exact ite (pure ()) (throw _)

theorem access (off len : Nat) : Tracks (access off len) := by
  unfold Nvds.access
  exact ite (pure ()) (throw _)

/-- A recorded store, behind the check that it stays inside the tablet. -/
theorem write_step {off : Nat} (hoff : off < 4294967296) (bs : List UInt8) :
    Tracks (do
      Nvds.access off bs.length
      modify fun s => s.write off bs : NvmM Unit) := by
  intro s a s' h
  obtain ⟨_, s₁, hacc, hmod⟩ := bind_eq_ok.mp h
  have hin : bs.length = 0 ∨ off + bs.length ≤ kNVMTabletSize := by
    by_contra hout
    rw [Nvds.access, if_neg hout] at hacc
    cases hacc
  obtain rfl : s = s₁ := by
    rw [Nvds.access, if_pos hin, pure_run] at hacc
    injection hacc with hacc
    exact (Prod.mk.inj hacc).2
  obtain rfl : s.write off bs = s' := by
    injection hmod with hmod
    exact (Prod.mk.inj hmod).2
  refine ⟨_, LoggedBy.write s ?_⟩
  simp only [kNVMTabletSize_eq] at hin
  omega

end Tracks

/-! ### The allocator -/

namespace Allocator

variable (chk : Bool)

theorem read_tracks (w off : Nat) : Tracks (read chk w off) :=
  .bind (.assert _) fun _ => .bind (.access _ _) fun _ => .bind .get fun _ => .pure _

theorem read32_tracks (off : Nat) : Tracks (read32 chk off) := read_tracks chk 4 off

theorem read16_tracks (off : Nat) : Tracks (read16 chk off) := read_tracks chk 2 off

theorem write_tracks (off : Nat) (bs : List UInt8) : Tracks (write chk off bs) :=
  .bind (.assert _) fun _ => Tracks.write_step (u32_lt off) bs

theorem write32_tracks (off v : Nat) : Tracks (write32 chk off v) := write_tracks chk off _

theorem write16_tracks (off v : Nat) : Tracks (write16 chk off v) := write_tracks chk off _

theorem memcpy_tracks (des : Nat) (bs : List UInt8) : Tracks (memcpy des bs) :=
  Tracks.write_step (u32_lt des) bs

theorem memcmp_tracks (lhs : Nat) (rhs : List UInt8) (len : Nat) :
    Tracks (memcmp lhs rhs len) :=
  .bind (.access _ _) fun _ => .bind .get fun _ => .pure _

theorem memcpyOut_tracks (src len : Nat) : Tracks (memcpyOut src len) :=
  .bind (.access _ _) fun _ => .bind .get fun _ => .pure _

theorem getFreeListByBlockSize_tracks (n : Nat) : Tracks (getFreeListByBlockSize n) :=
  .bind (.assert _) fun _ => Tracks.ite (.pure _) (.pure _)

theorem roundupBlockSize_tracks (n : Nat) : Tracks (roundupBlockSize n) :=
  Tracks.ite (.pure _) (.throw _)

theorem setTheFreeTag_tracks (blk n : Nat) : Tracks (setTheFreeTag chk blk n) :=
  .bind (read32_tracks chk _) fun _ => write32_tracks chk _ _

theorem resetTheFreeTag_tracks (blk n : Nat) : Tracks (resetTheFreeTag chk blk n) :=
  .bind (read32_tracks chk _) fun _ => write32_tracks chk _ _

theorem readTheFreeTag_tracks (blk n : Nat) : Tracks (readTheFreeTag chk blk n) :=
  .bind (read32_tracks chk _) fun _ => .pure _

theorem readThePrevFreeTag_tracks (blk : Nat) : Tracks (readThePrevFreeTag chk blk) :=
  .bind (read32_tracks chk _) fun _ => .pure _

theorem readTheSizeTag_tracks (blk : Nat) : Tracks (readTheSizeTag chk blk) :=
  .bind (read32_tracks chk _) fun _ => .pure _

theorem removeBlock_tracks (blk n : Nat) : Tracks (removeBlock chk blk n) := by
  unfold removeBlock
  refine .bind (readTheFreeTag_tracks chk _ _) fun tag => .bind (.assert _) ?_
  intro _
  refine .bind (read32_tracks chk _) fun prevBlk => .bind (read32_tracks chk _) ?_
  intro nextBlk
  refine .bind (Tracks.ite ?_ ?_) fun _ => Tracks.ite ?_ (.pure _)
  · exact .bind (read32_tracks chk _) fun _ => write32_tracks chk _ _
  · exact .bind (getFreeListByBlockSize_tracks _) fun _ =>
      .bind (read32_tracks chk _) fun _ => write32_tracks chk _ _
  · exact .bind (read32_tracks chk _) fun _ => write32_tracks chk _ _

theorem splitBlock_tracks (blk n needed : Nat) : Tracks (splitBlock chk blk n needed) := by
  unfold splitBlock
  -- off the old list
  refine .bind (read32_tracks chk _) fun nextBlk => .bind (getFreeListByBlockSize_tracks _)
    fun freeList => .bind (.assert _) fun _ => .bind (write32_tracks chk _ _) fun _ =>
    .bind (Tracks.ite (write32_tracks chk _ _) (.pure _)) ?_
  intro _
  -- the new size
  refine .bind (readThePrevFreeTag_tracks chk _) fun tag => .bind (write32_tracks chk _ _)
    fun _ => .bind (write32_tracks chk _ _) ?_
  intro _
  -- onto the new list
  refine .bind (getFreeListByBlockSize_tracks _) fun freeList => .bind (read32_tracks chk _)
    fun head => .bind (write32_tracks chk _ _) fun _ => .bind (write32_tracks chk _ _) fun _ =>
    .bind (write32_tracks chk _ _) fun _ => .bind (Tracks.ite (write32_tracks chk _ _) (.pure _)) ?_
  intro _
  -- the piece split off
  exact .bind (write32_tracks chk _ _) fun _ => .bind (write32_tracks chk _ _) fun _ =>
    .bind (resetTheFreeTag_tracks chk _ _) fun _ => .pure _

theorem scanFreeLists_tracks (rounds freeList : Nat) :
    Tracks (scanFreeLists chk rounds freeList) := by
  induction rounds generalizing freeList with
  | zero => exact .pure _
  | succ rounds ih =>
    rw [scanFreeLists]
    refine Tracks.ite (.bind (read32_tracks chk _) ?_) (.pure _)
    intro head
    exact Tracks.ite (ih _) (.pure _)

theorem allocBlock_tracks (n : Nat) : Tracks (allocBlock chk n) := by
  unfold allocBlock
  refine .bind (getFreeListByBlockSize_tracks _) fun start =>
    .bind (scanFreeLists_tracks chk _ _) fun found => Tracks.ite (.pure _) ?_
  refine .bind (readTheSizeTag_tracks chk _) fun headSize =>
    .bind (readTheFreeTag_tracks chk _ _) fun tag => .bind (.assert _) fun _ =>
    .bind (.assert _) fun _ => Tracks.ite ?_ (splitBlock_tracks chk _ _ _)
  exact .bind (read32_tracks chk _) fun nextBlk => .bind (resetTheFreeTag_tracks chk _ _) fun _ =>
    .bind (write32_tracks chk _ _) fun _ => .bind (write32_tracks chk _ _) fun _ => .pure _

theorem freeBlock_tracks (blk : Nat) : Tracks (freeBlock chk blk) := by
  unfold freeBlock
  refine .bind (readTheSizeTag_tracks chk _) fun blkSizeOld => .bind (read32_tracks chk _)
    fun prevBlkSize => .bind (readTheSizeTag_tracks chk _) fun nextBlkSize =>
    .bind (readThePrevFreeTag_tracks chk _) ?_
  intro prevTag
  refine .bind (Tracks.ite (.bind (removeBlock_tracks chk _ _) fun _ => .pure _) (.pure _))
    fun merged => .bind (readTheFreeTag_tracks chk _ _) ?_
  intro nextTag
  refine .bind (Tracks.ite (.bind (removeBlock_tracks chk _ _) fun _ => .pure _) (.pure _)) ?_
  intro blkSize
  refine .bind (Tracks.ite ?_ (.pure _)) fun _ => .bind (setTheFreeTag_tracks chk _ _) ?_
  · exact .bind (readThePrevFreeTag_tracks chk _) fun tag => .bind (write32_tracks chk _ _)
      fun _ => write32_tracks chk _ _
  · intro _
    exact .bind (getFreeListByBlockSize_tracks _) fun freeList => .bind (read32_tracks chk _)
      fun head => .bind (write32_tracks chk _ _) fun _ => .bind (write32_tracks chk _ _) fun _ =>
      .bind (write32_tracks chk _ _) fun _ => Tracks.ite (write32_tracks chk _ _) (.pure _)

theorem alloc_tracks (n : Nat) : Tracks (alloc chk n) :=
  .bind (roundupBlockSize_tracks _) fun _ => .bind (.assert _) fun _ => .bind (.assert _) fun _ =>
    .bind (allocBlock_tracks chk _) fun _ => .pure _

theorem free_tracks (p : Nat) : Tracks (free chk p) :=
  .bind (.assert _) fun _ => freeBlock_tracks chk _

end Allocator

end Nvds
