import Nvds.Allocator.Model

/-! # The tablet (`tablet.h`, `tablet.cc`, `request.h`, `response.h`)

    A tablet is a chained hash table over the allocator. The table of bucket
    heads lies behind the heap; an object is a header of 16 bytes followed by
    the bytes of the key and of the value.

    The loops over a bucket are run with fuel: `nonTermination` is a loop that
    was not done when the fuel was used up.
-/

open ByteMemory Program Nvds.Allocator

namespace Nvds

/-! ### Requests -/

/-- `Request::Type`. -/
inductive RequestType where
  | put
  | add
  | get
  | del
  deriving DecidableEq, Repr

/-- `struct Request`; `key_len` and `val_len` are the lengths of `key` and `val`. -/
structure Request where
  type : RequestType
  key : List UInt8
  val : List UInt8
  keyHash : Nat
  key_lt : key.length < 65536
  val_lt : val.length < 65536
  hash_lt : keyHash < 18446744073709551616

theorem nil_length_lt : ([] : List UInt8).length < 65536 := by decide

theorem singleton_length_lt (v : UInt8) : [v].length < 65536 := by
  rw [List.length_singleton]
  decide

theorem zero_hash_lt : 0 < 18446744073709551616 := by decide

/-- `struct Response`; `val_len` is the length of `val`. -/
structure Response where
  type : RequestType
  status : Status
  val : List UInt8
  deriving DecidableEq, Repr

namespace Tablet

/-! ### Layout -/

/-- `offsetof(NVMTablet, hash_table)`. -/
def offsetofHashTable : Nat := kSize

/-- `offsetof(NVMObject, key_len)`. -/
def offsetofKeyLen : Nat := 4

/-- `offsetof(NVMObject, val_len)`. -/
def offsetofValLen : Nat := 6

/-- `offsetof(NVMObject, data)`, which is also `sizeof(NVMObject)`. -/
def offsetofData : Nat := 16

@[simp] theorem offsetofHashTable_eq : offsetofHashTable = 67108864 := by decide
@[simp] theorem offsetofKeyLen_eq : offsetofKeyLen = 4 := by decide
@[simp] theorem offsetofValLen_eq : offsetofValLen = 6 := by decide
@[simp] theorem offsetofData_eq : offsetofData = 16 := by decide

/-- The place of the head of bucket `idx`. -/
def slotOf (idx : Nat) : Nat := offsetofHashTable + 4 * idx

/-- The bucket of a request. -/
def bucketOf (r : Request) : Nat := r.keyHash % kHashTableSize

/-- The bytes of `NVMObject{next, key_len, val_len, key_hash}`. -/
def objectBytes (next : Nat) (r : Request) : List UInt8 :=
  leBytes 4 next ++ leBytes 2 r.key.length ++ leBytes 2 r.val.length ++ leBytes 8 r.keyHash

/-! ### Walking a bucket -/

/-- The test of all four loops: the object at `p` has the key of `r`. The bytes
    are compared only if the lengths agree. -/
def sameKey (r : Request) (p : Nat) : NvmM Bool := do
  let keyLen ← read16 true (p + offsetofKeyLen)
  if r.key.length = keyLen then
    let c ← memcmp (p + offsetofData) r.key r.key.length
    pure (decide (c = 0))
  else
    pure false

/-- The loop of `Put`, `Add` and `Get`: walk from `p`, which `q` links to, until
    the key of `r` is found. The result is the object, 0 if there is none, and
    the place that links to it. -/
def search (r : Request) : Nat → Nat → Nat → NvmM (Nat × Nat)
  | 0, _, _ => throw .nonTermination
  | fuel + 1, q, p =>
    if p = 0 then
      pure (q, 0)
    else do
      let found ← sameKey r p
      if found then
        pure (q, p)
      else
        let next ← read32 true p
        search r fuel p next

/-! ### The operations -/

/-- Allocate an object for `r` and fill it in. -/
def newObject (r : Request) (next : Nat) : NvmM Nat := do
  let p ← alloc true (offsetofData + r.key.length + r.val.length)
  assert (p ≠ 0)
  write true p (objectBytes next r)
  memcpy (p + offsetofData) (r.key ++ r.val)
  pure p

/-- The end of `Put` and `Add`: insert a new object at the head of the bucket. -/
def insertHead (r : Request) (slot head : Nat) : NvmM Status := do
  let p ← newObject r head
  write32 true slot p
  pure .ok

/-- `Put`. -/
def put (fuel : Nat) (r : Request) : NvmM Status := do
  assert (r.type = .put)
  let slot := slotOf (bucketOf r)
  let head ← read32 true slot
  let (q, p) ← search r fuel slot head
  if p ≠ 0 then
    let valLen ← read16 true (p + offsetofValLen)
    if r.val.length < valLen then
      -- the new value is shorter: store it at its original place
      write16 true (p + offsetofValLen) r.val.length
      memcpy (p + offsetofData + r.key.length) r.val
      pure .ok
    else
      let next ← read32 true p
      free true p
      let p ← newObject r next
      write32 true q p
      pure .ok
  else
    insertHead r slot head

/-- `Add`. -/
def add (fuel : Nat) (r : Request) : NvmM Status := do
  assert (r.type = .add)
  let slot := slotOf (bucketOf r)
  let head ← read32 true slot
  let (_, p) ← search r fuel slot head
  if p ≠ 0 then
    pure .error
  else
    insertHead r slot head

/-- `Get`: the status and the value copied to the response. -/
def get (fuel : Nat) (r : Request) : NvmM (Status × List UInt8) := do
  assert (r.type = .get)
  let slot := slotOf (bucketOf r)
  let head ← read32 true slot
  let (_, p) ← search r fuel slot head
  if p ≠ 0 then
    let len ← read16 true (p + offsetofValLen)
    let val ← memcpyOut (p + offsetofData + r.key.length) len
    pure (.ok, val)
  else
    pure (.error, [])

/-- The loop of `Del`. It does not move on to the next object. -/
def delLoop (r : Request) (q p : Nat) : Nat → NvmM Status
  | 0 => throw .nonTermination
  | fuel + 1 =>
    if p = 0 then
      pure .error
    else do
      let found ← sameKey r p
      if found then
        let next ← read32 true p
        write32 true q next
        free true p
        pure .ok
      else
        delLoop r q p fuel

/-- `Del`. -/
def del (fuel : Nat) (r : Request) : NvmM Status := do
  assert (r.type = .del)
  let q := slotOf (bucketOf r)
  let p ← read32 true q
  delLoop r q p fuel

/-! ### One round of `Worker::Serve` -/

/-- `tablet_->Put/Add/Del/Get` by the type of the request. -/
def dispatch (fuel : Nat) (r : Request) : NvmM Response :=
  match r.type with
  | .put => do
    let status ← put fuel r
    pure ⟨.put, status, []⟩
  | .add => do
    let status ← add fuel r
    pure ⟨.add, status, []⟩
  | .del => do
    let status ← del fuel r
    pure ⟨.del, status, []⟩
  | .get => do
    let (status, val) ← get fuel r
    pure ⟨.get, status, val⟩

/-- The part of a round before `Sync`: `modifications.clear()` and the call. -/
def serve (fuel : Nat) (r : Request) : NvmM Response := do
  modify fun s => { s with modifications := [] }
  dispatch fuel r

/-- Requests served one after another. -/
def serveAll (fuel : Nat) : List Request → NvmM (List Response)
  | [] => pure []
  | r :: rs => do
    let resp ← serve fuel r
    let resps ← serveAll fuel rs
    pure (resp :: resps)

end Tablet

end Nvds
