import Nvds.Framework.ByteMemory
import Nvds.Framework.Program

/-! # Shared vocabulary

    Unsigned 32-bit arithmetic, the ways a call can fail to return, the
    recorded modifications (`modification.h`) and the state of one tablet's
    persistent memory with the modification list the allocator writes to.
-/

open ByteMemory Program

namespace Nvds

/-! ### 32-bit arithmetic -/

/-- Conversion to `uint32_t`. -/
def u32 (n : Nat) : Nat := n % 4294967296

/-- Subtraction of `uint32_t` values. -/
def sub32 (a b : Nat) : Nat := u32 (a + 4294967296 - b)

theorem u32_of_lt {n : Nat} (h : n < 4294967296) : u32 n = n := Nat.mod_eq_of_lt h

theorem u32_lt (n : Nat) : u32 n < 4294967296 := Nat.mod_lt _ (by decide)

theorem sub32_of_le {a b : Nat} (h : b ≤ a) (ha : a < 4294967296) : sub32 a b = a - b := by
  unfold sub32 u32
  omega

/-! ### Sizes (`allocator.h`, `tablet.h`, `common.h`) -/

/-- `Allocator::kMaxBlockSize`. -/
def kMaxBlockSize : Nat := 1024 + 128

/-- `Allocator::kSize`. -/
def kSize : Nat := 64 * 1024 * 1024

/-- `kHashTableSize`. -/
def kHashTableSize : Nat := 1000003

/-- `kNVMTabletSize = sizeof(NVMTablet)`: the heap followed by the hash table. -/
def kNVMTabletSize : Nat := kSize + 4 * kHashTableSize

/-- `kMaxItemSize`. -/
def kMaxItemSize : Nat := 1024

@[simp] theorem kMaxBlockSize_eq : kMaxBlockSize = 1152 := by decide
@[simp] theorem kSize_eq : kSize = 67108864 := by decide
@[simp] theorem kHashTableSize_eq : kHashTableSize = 1000003 := by decide
@[simp] theorem kNVMTabletSize_eq : kNVMTabletSize = 71108876 := by decide
@[simp] theorem kMaxItemSize_eq : kMaxItemSize = 1024 := by decide

/-! ### Outcomes -/

/-- Why a call does not return. -/
inductive Fault where
  /-- An `assert` failed. -/
  | assertion
  /-- An access outside the tablet. -/
  | outOfBounds
  /-- A loop was still running when its fuel was used up. -/
  | nonTermination
  deriving DecidableEq, Repr

/-- `enum class Status`. -/
inductive Status where
  | ok
  | error
  | noMem
  deriving DecidableEq, Repr

/-! ### Modifications and the persistent memory -/

/-- `struct Modification`: `len` bytes at offset `des` were written; `src` is
    their address in the writer's memory. -/
structure Modification where
  des : Nat
  src : Nat
  len : Nat
  deriving DecidableEq, Repr

/-- The memory one allocator works on: the address `base_`, the bytes behind it
    by offset, and the list `modifications_` points to. -/
structure Nvm where
  base : Nat
  mem : Mem
  modifications : List Modification

/-- A call on the persistent memory. -/
abbrev NvmM (α : Type) := Prog Nvm Fault α

/-- `assert(p)`. -/
def assert (p : Prop) [Decidable p] : NvmM Unit :=
  if p then pure () else throw .assertion

/-- The `len` bytes at `off` lie inside the tablet. -/
def access (off len : Nat) : NvmM Unit :=
  if len = 0 ∨ off + len ≤ kNVMTabletSize then pure () else throw .outOfBounds

theorem assert_of {p : Prop} [Decidable p] (h : p) : assert p = pure () := by
  simp [assert, h]

/-- An assertion that does not fail changes nothing. -/
theorem assert_result {p : Prop} [Decidable p] {s s' : Nvm} {u : Unit}
    (h : assert p s = .ok (u, s')) : p ∧ s = s' := by
  unfold assert at h
  split at h
  · rename_i hp
    cases h
    exact ⟨hp, rfl⟩
  · cases h

theorem access_result {off len : Nat} {s s' : Nvm} {u : Unit}
    (h : access off len s = .ok (u, s')) : s = s' := by
  unfold access at h
  split at h
  · cases h
    rfl
  · cases h

theorem access_of_le {off len : Nat} (h : off + len ≤ kNVMTabletSize) :
    access off len = pure () := by
  simp only [access, h, or_true, if_true]

/-- The memory after `bs` was written and recorded at `off`. -/
def Nvm.write (s : Nvm) (off : Nat) (bs : List UInt8) : Nvm :=
  { s with
    mem := store s.mem off bs
    modifications := s.modifications ++ [⟨off, s.base + off, bs.length⟩] }

end Nvds
