import Mathlib.Init

/-! # The hash of a key (`hash.h`, `MurmurHash2.cc`)

    The words of the key are read with the low byte first.
-/

namespace Nvds

namespace MurmurHash64B

/-- The constant `m`. -/
def m : UInt32 := 0x5bd1e995

/-- The constant `r`. -/
def r : UInt32 := 24

/-- `k *= m; k ^= k >> r; k *= m; h *= m; h ^= k`. -/
def mix (h k : UInt32) : UInt32 :=
  let k := k * m
  let k := k ^^^ (k >>> r)
  let k := k * m
  (h * m) ^^^ k

/-- The word `*data`. -/
def wordOf (a b c d : UInt8) : UInt32 :=
  a.toUInt32 ||| (b.toUInt32 <<< 8) ||| (c.toUInt32 <<< 16) ||| (d.toUInt32 <<< 24)

/-- The loop over eight bytes at a time: what is left of the key, `h1` and `h2`. -/
def loop : List UInt8 → UInt32 → UInt32 → List UInt8 × UInt32 × UInt32
  | a :: b :: c :: d :: e :: f :: g :: h :: data, h1, h2 =>
    loop data (mix h1 (wordOf a b c d)) (mix h2 (wordOf e f g h))
  | data, h1, h2 => (data, h1, h2)

/-- `if(len >= 4)`. -/
def fourth : List UInt8 × UInt32 × UInt32 → List UInt8 × UInt32 × UInt32
  | (a :: b :: c :: d :: data, h1, h2) => (data, mix h1 (wordOf a b c d), h2)
  | rest => rest

/-- `switch(len)`: the new `h2`. -/
def last : List UInt8 → UInt32 → UInt32
  | [a], h2 => (h2 ^^^ a.toUInt32) * m
  | [a, b], h2 => (h2 ^^^ (b.toUInt32 <<< 8) ^^^ a.toUInt32) * m
  | [a, b, c], h2 => (h2 ^^^ (c.toUInt32 <<< 16) ^^^ (b.toUInt32 <<< 8) ^^^ a.toUInt32) * m
  | _, h2 => h2

/-- The final mixes of `h1` and `h2`. -/
def finish (h1 h2 : UInt32) : UInt64 :=
  let h1 := (h1 ^^^ (h2 >>> 18)) * m
  let h2 := (h2 ^^^ (h1 >>> 22)) * m
  let h1 := (h1 ^^^ (h2 >>> 17)) * m
  let h2 := (h2 ^^^ (h1 >>> 19)) * m
  (h1.toUInt64 <<< 32) ||| h2.toUInt64

end MurmurHash64B

open MurmurHash64B in
/-- `MurmurHash64B`. -/
def murmurHash64B (key : List UInt8) (seed : UInt64) : UInt64 :=
  let h1 := seed.toUInt32 ^^^ UInt32.ofNat key.length
  let h2 := (seed >>> 32).toUInt32
  -- all words, then the bytes that are left
  let (data, h1, h2) := fourth (loop key h1 h2)
  finish h1 (last data h2)

/-- `Hash`. -/
def hash (key : List UInt8) : Nat := (murmurHash64B key 103).toNat

theorem hash_lt (key : List UInt8) : hash key < 18446744073709551616 :=
  (murmurHash64B key 103).toNat_lt

end Nvds
