import Nvds.Common

/-! # The allocator (`allocator.h`, `allocator.cc`)

    A boundary-tag allocator over the first `kSize` bytes of a tablet. The
    first 292 bytes are the heads of 73 free lists, one for each block size
    16, 32, ..., 1152 and a last one for larger blocks. Blocks follow up to
    a sentinel word. A block starts with a header word (its size; the top
    bit tells whether the block *before* it is free); a free block also has
    `prev` and `next` links behind the header and its size in its last word.

    `Read` and `Write` assert that the offset is not 0. Offset 0 is the head
    of the list of 16-byte blocks, so the assertion is not only a null
    check. Every operation takes the flag `chk`: `true` is the code as it
    stands, `false` reads `assert(offset != 0)` as a no-op.
-/

open ByteMemory Program

namespace Nvds

namespace Allocator

/-! ### Layout -/

/-- `kNumFreeLists`. -/
def kNumFreeLists : Nat := kMaxBlockSize / 16 + 1

/-- `sizeof(FreeListManager)`, the offset of the first block. -/
def kHeapBegin : Nat := 4 * kNumFreeLists

/-- `BlockHeader::kFreeMask`. -/
def kFreeMask : Nat := 2147483648

/-- `~BlockHeader::kFreeMask`. -/
def kSizeMask : Nat := 2147483647

/-- `offsetof(BlockHeader, prev)`. -/
def offsetofPrev : Nat := 4

/-- `offsetof(BlockHeader, next)`. -/
def offsetofNext : Nat := 8

@[simp] theorem kNumFreeLists_eq : kNumFreeLists = 73 := by decide
@[simp] theorem kHeapBegin_eq : kHeapBegin = 292 := by decide
@[simp] theorem offsetofPrev_eq : offsetofPrev = 4 := by decide
@[simp] theorem offsetofNext_eq : offsetofNext = 8 := by decide

variable (chk : Bool)

/-! ### Access to the memory -/

/-- `Read<T>(offset)` for an unsigned integer type of `w` bytes. -/
def read (w offset : Nat) : NvmM Nat := do
  let off := u32 offset
  assert (chk = true → off ≠ 0)
  access off w
  let s ← get
  pure (loadNat s.mem off w)

/-- `Read<uint32_t>(offset)`. -/
def read32 (offset : Nat) : NvmM Nat := read chk 4 offset

/-- `Read<uint16_t>(offset)`. -/
def read16 (offset : Nat) : NvmM Nat := read chk 2 offset

/-- `Write<T>(offset, val)`; `bs` are the bytes of `val`. -/
def write (offset : Nat) (bs : List UInt8) : NvmM Unit := do
  let off := u32 offset
  assert (chk = true → off ≠ 0)
  access off bs.length
  modify fun s => s.write off bs

/-- `Write<uint32_t>(offset, val)`. -/
def write32 (offset val : Nat) : NvmM Unit := write chk offset (leBytes 4 val)

/-- `Write<uint16_t>(offset, val)`. -/
def write16 (offset val : Nat) : NvmM Unit := write chk offset (leBytes 2 val)

/-- `memcmp`: the difference of the first pair of bytes that differ. -/
def compareBytes : List UInt8 → List UInt8 → Int
  | x :: xs, y :: ys => if x = y then compareBytes xs ys else (x.toNat : Int) - y.toNat
  | _, _ => 0

/-- `Memcmp(uint32_t lhs, const char* rhs, uint32_t len)`. -/
def memcmp (lhs : Nat) (rhs : List UInt8) (len : Nat) : NvmM Int := do
  let off := u32 lhs
  access off len
  let s ← get
  pure (compareBytes (load s.mem off len) (rhs.take len))

/-- `Memcpy(uint32_t des, const char* src, uint32_t len)`, which records the
    modification; `bs` are the `len` bytes behind `src`. -/
def memcpy (des : Nat) (bs : List UInt8) : NvmM Unit := do
  let off := u32 des
  access off bs.length
  modify fun s => s.write off bs

/-- `Memcpy(char* des, uint32_t src, uint32_t len)`, which copies to the user. -/
def memcpyOut (src len : Nat) : NvmM (List UInt8) := do
  let off := u32 src
  access off len
  let s ← get
  pure (load s.mem off len)

/-! ### Size classes and tags -/

/-- `GetLastFreeList`. -/
def getLastFreeList : Nat := (kNumFreeLists - 1) * 4

/-- `GetFreeListByBlockSize`. -/
def getFreeListByBlockSize (blkSize : Nat) : NvmM Nat := do
  assert (16 ≤ blkSize)
  if blkSize ≤ kMaxBlockSize then
    pure ((blkSize / 16 - 1) * 4)
  else
    pure getLastFreeList

/-- `RoundupBlockSize`. -/
def roundupBlockSize (blkSize : Nat) : NvmM Nat :=
  if blkSize ≤ kMaxBlockSize then
    pure ((blkSize + 16 - 1) / 16 * 16)
  else
    throw .assertion

/-- `SetTheFreeTag`. -/
def setTheFreeTag (blk blkSize : Nat) : NvmM Unit := do
  let nextBlk := u32 (blk + blkSize)
  let v ← read32 chk nextBlk
  write32 chk nextBlk (v ||| kFreeMask)

/-- `ResetTheFreeTag`. -/
def resetTheFreeTag (blk blkSize : Nat) : NvmM Unit := do
  let nextBlk := u32 (blk + blkSize)
  let v ← read32 chk nextBlk
  write32 chk nextBlk (v &&& kSizeMask)

/-- `ReadTheFreeTag`. -/
def readTheFreeTag (blk blkSize : Nat) : NvmM Nat := do
  let v ← read32 chk (blk + blkSize)
  pure (v &&& kFreeMask)

/-- `ReadThePrevFreeTag`. -/
def readThePrevFreeTag (blk : Nat) : NvmM Nat := do
  let v ← read32 chk blk
  pure (v &&& kFreeMask)

/-- `ReadTheSizeTag`. -/
def readTheSizeTag (blk : Nat) : NvmM Nat := do
  let v ← read32 chk blk
  pure (v &&& kSizeMask)

/-! ### Blocks -/

/-- `Format`. The modifications it makes go to a list of its own that is
    dropped when it returns. -/
def format : NvmM Unit := do
  modify fun s =>
    { s with mem := fun a => if a < kSize then 0 else s.mem a, modifications := [] }
  let blk := kHeapBegin
  write32 chk getLastFreeList blk
  -- the last 4 bytes are kept for the free tag of the last block
  let blkSize := (kSize - blk - 4) / 16 * 16
  write32 chk blk (blkSize &&& kSizeMask)
  write32 chk (blk + blkSize - 4) blkSize
  setTheFreeTag chk blk blkSize
  modify fun s => { s with modifications := [] }

/-- The heap formatted on zero memory at address 0. -/
def formatted : Nvm :=
  match format chk ⟨0, fun _ => 0, []⟩ with
  | .ok (_, s) => s
  | .error _ => ⟨0, fun _ => 0, []⟩

/-- `RemoveBlock`: take `blk` off its free list; it stays free. -/
def removeBlock (blk blkSize : Nat) : NvmM Unit := do
  let tag ← readTheFreeTag chk blk blkSize
  assert (tag ≠ 0)
  let prevBlk ← read32 chk (blk + offsetofPrev)
  let nextBlk ← read32 chk (blk + offsetofNext)
  (if prevBlk ≠ 0 then do
    let v ← read32 chk (blk + offsetofNext)
    write32 chk (prevBlk + offsetofNext) v
  else do
    let freeList ← getFreeListByBlockSize blkSize
    let v ← read32 chk (blk + offsetofNext)
    write32 chk freeList v)
  if nextBlk ≠ 0 then
    let v ← read32 chk (blk + offsetofPrev)
    write32 chk (nextBlk + offsetofPrev) v
  else
    pure ()

/-- `SplitBlock`: cut the upper `neededSize` bytes off the free block `blk`. -/
def splitBlock (blk blkSize neededSize : Nat) : NvmM Nat := do
  let nextBlk ← read32 chk (blk + offsetofNext)
  let freeList ← getFreeListByBlockSize blkSize
  assert (blkSize > neededSize)
  let newSize := blkSize - neededSize
  write32 chk freeList nextBlk
  (if nextBlk ≠ 0 then write32 chk (nextBlk + offsetofPrev) 0 else pure ())
  -- update the size
  let tag ← readThePrevFreeTag chk blk
  write32 chk blk (tag ||| newSize)
  write32 chk (sub32 (u32 (blk + newSize)) 4) newSize
  let freeList ← getFreeListByBlockSize newSize
  let head ← read32 chk freeList
  write32 chk (blk + offsetofPrev) 0
  write32 chk (blk + offsetofNext) head
  write32 chk freeList blk
  (if head ≠ 0 then write32 chk (head + offsetofPrev) blk else pure ())
  -- the rest, the smaller block, is still free
  write32 chk (blk + newSize) (kFreeMask ||| neededSize)
  write32 chk (sub32 (u32 (blk + blkSize)) 4) neededSize
  -- the piece split off is not free now
  resetTheFreeTag chk (u32 (blk + newSize)) neededSize
  pure (u32 (blk + newSize))

/-- The scan of `AllocBlock` for a non-empty list: the list it stops at and the
    head it read there. Every round moves on by one list, so `kNumFreeLists`
    rounds are enough. -/
def scanFreeLists : Nat → Nat → NvmM (Nat × Nat)
  | 0, freeList => pure (freeList, 0)
  | rounds + 1, freeList => do
    if freeList < kNumFreeLists * 4 then
      let head ← read32 chk freeList
      if head = 0 then
        scanFreeLists rounds (freeList + 4)
      else
        pure (freeList, head)
    else
      pure (freeList, 0)

/-- `AllocBlock`. -/
def allocBlock (blkSize : Nat) : NvmM Nat := do
  let start ← getFreeListByBlockSize blkSize
  let (freeList, head) ← scanFreeLists chk kNumFreeLists start
  if head = 0 then
    pure 0
  else
    let headSize ← readTheSizeTag chk head
    let tag ← readTheFreeTag chk head headSize
    assert (tag ≠ 0)
    assert (headSize ≥ blkSize)
    if headSize = blkSize then
      let nextBlk ← read32 chk (head + offsetofNext)
      resetTheFreeTag chk head headSize
      write32 chk freeList nextBlk
      -- also when there is no next block
      write32 chk (nextBlk + offsetofPrev) 0
      pure head
    else
      splitBlock chk head headSize blkSize

/-- `FreeBlock`. -/
def freeBlock (blk : Nat) : NvmM Unit := do
  let blkSizeOld ← readTheSizeTag chk blk
  let prevBlkSize ← read32 chk (sub32 blk 4)
  let prevBlk := sub32 blk prevBlkSize
  let nextBlk := u32 (blk + blkSizeOld)
  let nextBlkSize ← readTheSizeTag chk nextBlk
  let prevTag ← readThePrevFreeTag chk blk
  let (blk, blkSize) ←
    (if prevTag ≠ 0 ∧ blkSizeOld ≤ kMaxBlockSize ∧ prevBlkSize ≤ kMaxBlockSize then do
      removeBlock chk prevBlk prevBlkSize
      pure (prevBlk, u32 (blkSizeOld + prevBlkSize))
    else
      pure (blk, blkSizeOld))
  let nextTag ← readTheFreeTag chk nextBlk nextBlkSize
  let blkSize ←
    (if nextTag ≠ 0 ∧ blkSize ≤ kMaxBlockSize ∧ nextBlkSize ≤ kMaxBlockSize then do
      removeBlock chk nextBlk nextBlkSize
      pure (u32 (blkSize + nextBlkSize))
    else
      pure blkSize)
  -- if the size changed, write it
  (if blkSize ≠ blkSizeOld then do
    let tag ← readThePrevFreeTag chk blk
    write32 chk blk (tag ||| blkSize)
    write32 chk (sub32 (u32 (blk + blkSize)) 4) blkSize
  else
    pure ())
  setTheFreeTag chk blk blkSize
  let freeList ← getFreeListByBlockSize blkSize
  let head ← read32 chk freeList
  write32 chk freeList blk
  write32 chk (blk + offsetofPrev) 0
  write32 chk (blk + offsetofNext) head
  if head ≠ 0 then write32 chk (head + offsetofPrev) blk else pure ()

/-- `Alloc`: the offset of the object, 0 if there is no block. -/
def alloc (size : Nat) : NvmM Nat := do
  let blkSize ← roundupBlockSize (u32 (size + 4))
  assert (blkSize % 16 = 0)
  assert (blkSize ≤ kMaxBlockSize)
  let blk ← allocBlock chk blkSize
  pure (if blk = 0 then 0 else u32 (blk + 4))

/-- `Free`. -/
def free (ptr : Nat) : NvmM Unit := do
  assert (ptr > 4 ∧ ptr ≤ kSize)
  freeBlock chk (ptr - 4)

end Allocator

end Nvds
