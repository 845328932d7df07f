import Nvds.Framework.Transition
import Nvds.Tablet.Ghost
import Nvds.Tablet.Operations

/-! # A tablet owns each of its blocks once

    The tablet over an allocator that does what it should (`Heap.Spec`). In
    every run of completed operations each block in use is an object on
    exactly one chain, and `Free` is only given blocks in use.

    The invariant is `Owned`. An operation makes at most one of four edits:
    it links in a new object (`Owned.link`), at the head of a bucket or in
    the place of one whose block was freed before; it stores a shorter value
    over an old one (`Owned.shrink`); or it unlinks an object and frees its
    block (`Owned.unlink`).
-/

open ByteMemory Program LinkedList Transition Nvds.Allocator

namespace Nvds.Tablet

/-! ### What is asked of the allocator -/

/-- The bytes of the blocks `B` and those behind the heap are the same. -/
def Untouched (B : Blocks) (m m' : Mem) : Prop := ∀ a, (kSize ≤ a ∨ B.Owns a) → m' a = m a

/-- `Valid m B`: the memory `m` is a heap whose blocks in use are `B`. They lie in the heap
    and do not overlap. `Alloc` returns 0 or a new block beside them, and `Free` releases the
    block it is given. Both leave the other blocks alone, and stores into blocks in use or
    behind the heap do not harm the heap. Objects have at least 16 bytes, and `Alloc` adds 4
    to the size in 32 bits. -/
structure Heap.Spec (A : Heap) (Valid : Mem → Blocks → Prop) : Prop where
  wf : ∀ m B, Valid m B → B.WF
  store : ∀ m B off bs, Valid m B →
    (∀ a, off ≤ a → a < off + bs.length → kSize ≤ a ∨ B.Owns a) → Valid (store m off bs) B
  alloc : ∀ s B n p s', Valid s.mem B → 16 ≤ n → n + 4 < 4294967296 →
    A.alloc n s = .ok (p, s') → p ≠ 0 → B p = 0 ∧ Valid s'.mem (Function.update B p n) ∧ Untouched B s.mem s'.mem
  free : ∀ s B p u s', Valid s.mem B → B p ≠ 0 → A.free p s = .ok (u, s') →
    Valid s'.mem (Function.update B p 0) ∧ Untouched (Function.update B p 0) s.mem s'.mem

/-! ### The system -/

/-- An empty hash table over a heap without blocks in use. -/
structure Start (Valid : Mem → Blocks → Prop) (g : Ghost) : Prop where
  valid : Valid g.nvm.mem g.live
  live : ∀ p, g.live p = 0
  table : ∀ i, i < kHashTableSize → word g.nvm.mem (slotOf i) = 0
  frees : g.wildFrees = []

/-- A completed operation; the hash of a request is a function of its key. -/
def Step (hash : List UInt8 → Nat) (A : Heap) (g : Ghost) (r : Request) (g' : Ghost) : Prop :=
  r.keyHash = hash r.key ∧ ∃ fuel resp, serveWith (ghost A) r fuel g = .ok (resp, g')

/-- `offsetof(NVMObject, key_hash)`. -/
def offsetofKeyHash : Nat := 8

/-- The field `key_hash` of the object at `p`. -/
def hashAt (m : Mem) (p : Nat) : Nat := loadNat m (p + offsetofKeyHash) 8

/-- The blocks `live` are the objects of the chains `ch`, each once. -/
structure OwnsOnce (m : Mem) (live : Blocks) (ch : Nat → List Entry) : Prop where
  /-- The walk from each slot meets the objects of its chain and ends. -/
  chain : ∀ i, i < kHashTableSize → Chain m (slotOf i) (ch i)
  acyclic : ∀ i, i < kHashTableSize → ((ch i).map (·.ptr)).Nodup
  object : ∀ i, i < kHashTableSize → ∀ e ∈ ch i, ObjectAt m e
  fits : ∀ i, i < kHashTableSize → ∀ e ∈ ch i, live e.ptr ≠ 0 ∧ e.len ≤ live e.ptr
  bucket : ∀ i, i < kHashTableSize → ∀ e ∈ ch i, hashAt m e.ptr % kHashTableSize = i
  keys : ∀ (i n j k : Nat) (e e' : Entry), i < kHashTableSize → j < kHashTableSize →
    (ch i)[n]? = some e → (ch j)[k]? = some e' → e.key = e'.key → i = j ∧ n = k
  once : ∀ p, live p ≠ 0 →
    ∃! x : Nat × Nat, x.1 < kHashTableSize ∧ ((ch x.1).map (·.ptr))[x.2]? = some p

/-! ### The invariant -/

/-- The invariant of the system. -/
structure Owned (hash : List UInt8 → Nat) (Valid : Mem → Blocks → Prop) (g : Ghost)
    (ch : Nat → List Entry) : Prop where
  valid : Valid g.nvm.mem g.live
  chains : Chains hash g.nvm.mem g.live ch
  hashed : ∀ i, i < kHashTableSize → ∀ e ∈ ch i, hashAt g.nvm.mem e.ptr = hash e.key
  covered : ∀ p, g.live p ≠ 0 → ∃ i e, i < kHashTableSize ∧ e ∈ ch i ∧ e.ptr = p
  frees : g.wildFrees = []

variable {hash : List UInt8 → Nat} {Valid : Mem → Blocks → Prop} {A : Heap} {g g' : Ghost}
  {ch : Nat → List Entry} {M : Store} {m m' : Mem} {B B' : Blocks} {r : Request} {e x : Entry}
  {s s' : Nvm}

theorem Untouched.kept (h : Untouched B m m') (hx : x.Fits B) (hx' : x.Fits B') :
    Kept m B' m' x :=
  ⟨hx', fun _ h₁ h₂ => h _ (Or.inr (hx.owns h₁ h₂))⟩

theorem Untouched.slot (h : Untouched B m m') {j : Nat} (hj : j < kHashTableSize) :
    word m' (slotOf j) = word m (slotOf j) := by
  have hlo := (slotOf_bounds hj).1
  refine word_congr fun a h₁ _ => h a (Or.inl ?_)
  rw [kSize_eq]
  omega

theorem Kept.hashAt_eq (h : Kept m B m' x) : hashAt m' x.ptr = hashAt m x.ptr := by
  have hlen := x.len_ge
  refine loadNat_congr fun a h₁ h₂ => h.2 a ?_ ?_
  · unfold offsetofKeyHash at h₁
    omega
  · unfold offsetofKeyHash at h₂
    omega

/-- A store to a link is not seen by the field `key_hash` of an object. -/
theorem hashAt_link {i v : Nat} (pre : List Entry) (hi : i < kHashTableSize) (hB : B.WF)
    (hpre : ∀ x ∈ pre, x.Fits B) (hx : x.Fits B) :
    hashAt (storeNat m (linkOf (slotOf i) pre) 4 v) x.ptr = hashAt m x.ptr := by
  have hlen := x.len_ge
  unfold hashAt offsetofKeyHash
  apply loadNat_congr
  intro a h₁ h₂
  by_cases hq : x.ptr = linkOf (slotOf i) pre
  · exact storeNat_of_not_mem (by omega)
  · exact link_out hi hB hpre (link_cases i pre) hx hq (by omega) (by omega)

/-- The bytes of a link are in a block in use or behind the heap. -/
theorem link_owned {i : Nat} {pre : List Entry} (hi : i < kHashTableSize)
    (hpre : ∀ x ∈ pre, x.Fits B) {a : Nat} (h₁ : linkOf (slotOf i) pre ≤ a)
    (h₂ : a < linkOf (slotOf i) pre + 4) : kSize ≤ a ∨ B.Owns a := by
  rcases link_cases i pre with hq | ⟨x, hx, hq⟩
  · left
    have hlo := (slotOf_bounds hi).1
    rw [kSize_eq]
    omega
  · right
    have hlen := x.len_ge
    exact (hpre x hx).owns (by omega) (by omega)

/-- The store to a link. -/
theorem write_link {i v : Nat} {pre : List Entry} {u : Unit} (hi : i < kHashTableSize)
    (hB : B.WF) (hpre : ∀ x ∈ pre, x.Fits B)
    (h : write32 true (linkOf (slotOf i) pre) v s = .ok (u, s')) :
    s'.mem = storeNat s.mem (linkOf (slotOf i) pre) 4 v := by
  have hbound := (link_bounds hi hB hpre).1
  rw [kNVMTabletSize_eq] at hbound
  rw [write_result h, u32_of_lt (by omega)]
  rfl

/-! ### New objects -/

/-- A new object for `r` at `p`. -/
structure Created (Valid : Mem → Blocks → Prop) (r : Request) (next : Nat) (g : Ghost) (p : Nat)
    (g' : Ghost) : Prop where
  fresh : g.live p = 0
  live : g'.live = Function.update g.live p (16 + r.key.length + r.val.length)
  frees : g'.wildFrees = g.wildFrees
  valid : Valid g'.nvm.mem g'.live
  object : ObjectAt g'.nvm.mem ⟨p, r.key, r.val⟩
  link : word g'.nvm.mem p = next
  hashed : hashAt g'.nvm.mem p = r.keyHash
  keeps : Untouched g.live g.nvm.mem g'.nvm.mem

theorem hashAt_putObject (m : Mem) (p next : Nat) (r : Request) :
    hashAt (putObject m p next r) p = r.keyHash := by
  have hfield : ((objectBytes next r).drop 8).take 8 = leBytes 8 r.keyHash := by
    have hpre : (leBytes 4 next ++ leBytes 2 r.key.length ++ leBytes 2 r.val.length).length = 8 := by
      simp
    unfold objectBytes
    rw [List.drop_left' hpre, List.take_of_length_le (by simp)]
  unfold hashAt offsetofKeyHash
  rw [loadNat_putObject (by omega) hfield]
  exact Nat.mod_eq_of_lt r.hash_lt

theorem newObjectWith_created (hA : A.Spec Valid) (hV : Valid g.nvm.mem g.live) {next p : Nat}
    (hnext : next < 4294967296) (h : newObjectWith (ghost A) r next g = .ok (p, g')) :
    Created Valid r next g p g' := by
  obtain ⟨p', g₁, h₁, h⟩ := bind_eq_ok.mp h
  obtain ⟨_, g₂, h₂, h⟩ := bind_eq_ok.mp h
  obtain ⟨_, g₃, h₃, h⟩ := bind_eq_ok.mp h
  obtain ⟨_, g₄, h₄, h⟩ := bind_eq_ok.mp h
  cases h
  obtain ⟨s₁, halloc, rfl⟩ := ghost_alloc_eq_ok.mp h₁
  obtain ⟨s₂, hassert, rfl⟩ := ghost_nvm_eq_ok.mp h₂
  obtain ⟨s₃, hwrite, rfl⟩ := ghost_nvm_eq_ok.mp h₃
  obtain ⟨s₄, hcopy, rfl⟩ := ghost_nvm_eq_ok.mp h₄
  obtain ⟨hp, rfl⟩ := assert_result hassert
  rw [offsetofData_eq] at halloc hcopy
  have hk := r.key_lt
  have hv := r.val_lt
  -- what the allocator promises of the new block
  obtain ⟨hfresh, hV₁, hkeep⟩ := hA.alloc _ _ _ _ _ hV (by omega) (by omega) halloc hp
  have hwf := hA.wf _ _ hV₁
  have hsize : Function.update g.live p (16 + r.key.length + r.val.length) p =
    16 + r.key.length + r.val.length := Function.update_self _ _ _
  have hin := (hwf.inside p (by omega)).2
  rw [hsize, kSize_eq] at hin
  -- the two stores fill in the object
  have hmem : s₄.mem = putObject s₁.mem p next r := by
    rw [memcpy_result hcopy, write_result hwrite, u32_of_lt (by omega), u32_of_lt (by omega)]
    rfl
  have hown : ∀ a, p ≤ a → a < p + (16 + r.key.length + r.val.length) →
      Blocks.Owns (Function.update g.live p (16 + r.key.length + r.val.length)) a := by
    intro a h₁ h₂
    exact ⟨p, h₁, by omega⟩
  have hV₄ : Valid s₄.mem (Function.update g.live p (16 + r.key.length + r.val.length)) := by
    rw [hmem]
    refine hA.store _ _ _ _ (hA.store _ _ _ _ hV₁ ?_) ?_
    · intro a h₁ h₂
      rw [length_objectBytes] at h₂
      exact Or.inr (hown a h₁ (by omega))
    · intro a h₁ h₂
      rw [offsetofData_eq] at h₁ h₂
      rw [List.length_append] at h₂
      exact Or.inr (hown a (by omega) (by omega))
  simp only [if_neg hp, offsetofData_eq]
  refine ⟨hfresh, rfl, rfl, hV₄, ?_, ?_, ?_, ?_⟩
  · rw [hmem]
    exact objectAt_putObject _ _ _ _
  · rw [hmem]
    exact word_putObject hnext
  · rw [hmem]
    exact hashAt_putObject _ _ _ _
  · intro a ha
    rw [hmem, ← hkeep a ha]
    apply putObject_of_not_mem
    rcases ha with ha | ⟨q, h₁, h₂⟩
    · rw [kSize_eq] at ha
      omega
    · -- another block
      have hqp : q ≠ p := by
        intro heq
        rw [heq, hfresh] at h₂
        omega
      have hq : Function.update g.live p (16 + r.key.length + r.val.length) q = g.live q :=
        Function.update_of_ne hqp _ _
      have hd := hwf.disjoint q p (by omega) (by omega) hqp
      omega

/-! ### The edits -/

/-- **Linking.** `g₁` is the tablet `g` without the objects of bucket `i` that are neither in
    `pre` nor in `tail`. A new object is linked in between. -/
theorem Owned.link (hA : A.Spec Valid) (h : Owned hash Valid g ch) {i : Nat}
    (hi : i < kHashTableSize) {pre rest tail : List Entry} (hch : ch i = pre ++ rest)
    (hsub : tail.Sublist rest) {g₁ g₂ : Ghost} {p next : Nat} (hc : Created Valid r next g₁ p g₂)
    (hslot : ∀ j, j < kHashTableSize → word g₁.nvm.mem (slotOf j) = word g.nvm.mem (slotOf j))
    (hkept : ∀ j, j < kHashTableSize → ∀ x ∈ ch j, (j = i → x ∈ pre ++ tail) →
      Kept g.nvm.mem g₁.live g₁.nvm.mem x)
    (hcover : ∀ q, g₁.live q ≠ 0 → ∃ j x, j < kHashTableSize ∧ x ∈ ch j ∧
      (j = i → x ∈ pre ++ tail) ∧ x.ptr = q)
    (hfrees : g₁.wildFrees = []) (hh : r.keyHash = hash r.key)
    (hkey : hash r.key % kHashTableSize = i) (hnew : ∀ x ∈ pre ++ tail, x.key ≠ r.key)
    (hnext : Seg (word g.nvm.mem) next (tail.map (·.ptr)) 0) {u : Unit}
    (hwrite : write32 true (linkOf (slotOf i) pre) p g₂.nvm = .ok (u, s')) :
    Owned hash Valid { g₂ with nvm := s' }
      (Function.update ch i (pre ++ ⟨p, r.key, r.val⟩ :: tail)) := by
  have hwf := hA.wf _ _ hc.valid
  have hnewfit : Entry.Fits g₂.live ⟨p, r.key, r.val⟩ := by
    show 16 + r.key.length + r.val.length ≤ g₂.live p
    rw [hc.live, Function.update_self]
  -- the objects that stay, beside the new one
  have hkept₂ : ∀ j, j < kHashTableSize → ∀ x ∈ ch j, (j = i → x ∈ pre ++ tail) →
      Kept g.nvm.mem g₂.live g₂.nvm.mem x := by
    intro j hj x hx hstay
    have h₁ := hkept j hj x hx hstay
    refine h₁.trans (hc.keeps.kept h₁.1 ?_)
    have hne : x.ptr ≠ p := by
      intro heq
      exact h₁.1.ne_zero (heq ▸ hc.fresh)
    have hfit : x.len ≤ g₁.live x.ptr := h₁.1
    show x.len ≤ g₂.live x.ptr
    rwa [hc.live, Function.update_of_ne hne]
  have hmem : ∀ x ∈ pre ++ tail, x ∈ ch i := by
    intro x hx
    rw [hch]
    exact (List.Sublist.append_left hsub pre).subset hx
  have hpre : ∀ x ∈ pre, x.Fits g₂.live := fun x hx =>
    (hkept₂ i hi x (hmem x (List.mem_append_left _ hx)) fun _ => List.mem_append_left _ hx).1
  have hstore := write_link hi hwf hpre hwrite
  have hchains := h.chains.link hi hch hsub hwf
    (fun j hj => (hc.keeps.slot hj).trans (hslot j hj)) hkept₂ hc.object hnewfit hkey hnew
    (by rw [show word g₂.nvm.mem _ = _ from hc.link]; exact hnext)
  rw [← hstore] at hchains
  -- the store into the link is in an object or in the table
  refine ⟨?_, hchains, ?_, ?_, hc.frees.trans hfrees⟩
  · show Valid s'.mem g₂.live
    rw [hstore]
    refine hA.store _ _ _ _ hc.valid fun a h₁ h₂ => link_owned hi hpre h₁ ?_
    rwa [length_leBytes] at h₂
  · intro j hj x hx
    show hashAt s'.mem x.ptr = hash x.key
    rw [hstore]
    have hold : x ∈ ch j → (j = i → x ∈ pre ++ tail) →
        hashAt (storeNat g₂.nvm.mem (linkOf (slotOf i) pre) 4 p) x.ptr = hash x.key := by
      intro hxj hstay
      have hk := hkept₂ j hj x hxj hstay
      rw [hashAt_link pre hi hwf hpre hk.1, hk.hashAt_eq]
      exact h.hashed j hj x hxj
    rcases mem_update hx with ⟨hji, hx'⟩ | ⟨hji, hx'⟩
    · rcases mem_middle.mp hx' with rfl | hx'
      · rw [hashAt_link pre hi hwf hpre hnewfit]
        exact hc.hashed.trans hh
      · exact hold (hji ▸ hmem x hx') fun _ => hx'
    · exact hold hx' fun hcon => absurd hcon hji
  · intro q hq
    -- the new block belongs to the new object, any other one to the object it belonged to
    by_cases hqp : q = p
    · refine ⟨i, ⟨p, r.key, r.val⟩, hi, ?_, hqp.symm⟩
      rw [Function.update_self]
      exact mem_middle.mpr (Or.inl rfl)
    · have hq₁ : g₁.live q ≠ 0 := by
        have hq₂ : g₂.live q ≠ 0 := hq
        rwa [hc.live, Function.update_of_ne hqp] at hq₂
      obtain ⟨j, x, hj, hx, hstay, hxq⟩ := hcover q hq₁
      refine ⟨j, x, hj, ?_, hxq⟩
      by_cases hji : j = i
      · rw [hji, Function.update_self]
        exact mem_middle.mpr (Or.inr (hstay hji))
      · rwa [Function.update_of_ne hji]

/-- **Shrinking.** A shorter value is stored over the old one. -/
theorem Owned.shrink (hA : A.Spec Valid) (h : Owned hash Valid g ch) {i : Nat}
    (hi : i < kHashTableSize) {pre post : List Entry} (hch : ch i = pre ++ e :: post)
    (hkey : e.key = r.key) (hlt : r.val.length < e.val.length) {s₁ : Nvm} {u u' : Unit}
    (hwrite : write16 true (e.ptr + offsetofValLen) r.val.length g.nvm = .ok (u, s₁))
    (hcopy : memcpy (e.ptr + offsetofData + r.key.length) r.val s₁ = .ok (u', s')) :
    Owned hash Valid { g with nvm := s' }
      (Function.update ch i (pre ++ ⟨e.ptr, e.key, r.val⟩ :: post)) := by
  have he := mem_of_split hch
  have hfit := (h.chains.buckets i hi).fits e he
  have hin := (hfit.inside h.chains.wf).2
  have hlen : e.len = 16 + e.key.length + e.val.length := rfl
  rw [hlen, kSize_eq] at hin
  have hmem : s'.mem = store (storeNat g.nvm.mem (e.ptr + offsetofValLen) 2 r.val.length)
      (e.ptr + offsetofData + e.key.length) r.val := by
    rw [memcpy_result hcopy, write_result hwrite, ← hkey, u32_of_lt, u32_of_lt]
    · rfl
    · rw [offsetofData_eq]
      omega
    · rw [offsetofValLen_eq]
      omega
  have hsame : ∀ a, a < e.ptr + 4 ∨ e.ptr + e.len ≤ a → s'.mem a = g.nvm.mem a := by
    intro a ha
    rw [hmem]
    exact shrink_of_not_mem hlt ha
  have hchains := h.chains.shrink hi hch hlt r.val_lt
  rw [← hmem] at hchains
  -- no field `key_hash` is in the way
  have hhash : ∀ j, j < kHashTableSize → ∀ x ∈ ch j, hashAt s'.mem x.ptr = hash x.key := by
    intro j hj x hx
    rw [← h.hashed j hj x hx]
    have hxfit := (h.chains.buckets j hj).fits x hx
    have hxlen := x.len_ge
    unfold hashAt offsetofKeyHash
    apply loadNat_congr
    intro a h₁ h₂
    by_cases hxe : x.ptr = e.ptr
    · rw [hmem, offsetofValLen_eq, offsetofData_eq, store_of_not_mem (by omega),
        storeNat_of_not_mem (by omega)]
    · apply hsame a
      have := hxfit.disjoint h.chains.wf hfit hxe
      omega
  -- both stores stay inside of the object
  refine ⟨?_, hchains, ?_, ?_, h.frees⟩
  · show Valid s'.mem g.live
    rw [hmem]
    refine hA.store _ _ _ _ (hA.store _ _ _ _ h.valid fun a h₁ h₂ => Or.inr ?_)
      fun a h₁ h₂ => Or.inr ?_
    · rw [offsetofValLen_eq] at h₁ h₂
      rw [length_leBytes] at h₂
      exact hfit.owns (by omega) (by omega)
    · rw [offsetofData_eq] at h₁ h₂
      exact hfit.owns (by omega) (by omega)
  · intro j hj x hx
    rcases mem_update hx with ⟨hji, hx'⟩ | ⟨_, hx'⟩
    · rcases mem_middle.mp hx' with rfl | hx'
      · exact hhash i hi e he
      · apply hhash j hj x
        rw [hji, hch]
        exact mem_middle.mpr (Or.inr hx')
    · exact hhash j hj x hx'
  · intro q hq
    obtain ⟨j, x, hj, hx, hxq⟩ := h.covered q hq
    by_cases hji : j = i
    · rw [hji, hch] at hx
      rcases mem_middle.mp hx with rfl | hx'
      · refine ⟨i, ⟨x.ptr, x.key, r.val⟩, hi, ?_, hxq⟩
        rw [Function.update_self]
        exact mem_middle.mpr (Or.inl rfl)
      · refine ⟨i, x, hi, ?_, hxq⟩
        rw [Function.update_self]
        exact mem_middle.mpr (Or.inr hx')
    · refine ⟨j, x, hj, ?_, hxq⟩
      rwa [Function.update_of_ne hji]

/-- `Free` of a block in use. -/
theorem ghost_free_released (hA : A.Spec Valid) (hV : Valid g.nvm.mem g.live) {p : Nat} {u : Unit}
    (hp : g.live p ≠ 0) (h : (ghost A).free p g = .ok (u, g')) :
    g'.live = Function.update g.live p 0 ∧ g'.wildFrees = g.wildFrees ∧
      Valid g'.nvm.mem g'.live ∧ Untouched g'.live g.nvm.mem g'.nvm.mem := by
  obtain ⟨s₁, hfree, rfl⟩ := ghost_free_eq_ok.mp h
  obtain ⟨hV₁, hkeep⟩ := hA.free _ _ _ _ _ hV hp hfree
  exact ⟨rfl, if_neg hp, hV₁, hkeep⟩

/-- An object elsewhere is still there after a block was freed. -/
theorem kept_of_released {p : Nat} (hlive : g'.live = Function.update g.live p 0)
    (hkeep : Untouched g'.live g.nvm.mem g'.nvm.mem) (hx : x.Fits g.live) (hne : x.ptr ≠ p) :
    Kept g.nvm.mem g'.live g'.nvm.mem x := by
  have hfit : x.Fits g'.live := by
    have hold : x.len ≤ g.live x.ptr := hx
    show x.len ≤ g'.live x.ptr
    rwa [hlive, Function.update_of_ne hne]
  exact hkeep.kept hfit hfit

/-- The blocks that are left after the block of `e` was freed. -/
theorem Owned.covered_of_released (h : Owned hash Valid g ch) {i : Nat} {pre post : List Entry}
    (hch : ch i = pre ++ e :: post) {live : Blocks} (hlive : live = Function.update g.live e.ptr 0)
    {q : Nat} (hq : live q ≠ 0) :
    ∃ j x, j < kHashTableSize ∧ x ∈ ch j ∧ (j = i → x ∈ pre ++ post) ∧ x.ptr = q := by
  have hqe : q ≠ e.ptr := by
    intro heq
    rw [hlive, heq, Function.update_self] at hq
    exact hq rfl
  rw [hlive, Function.update_of_ne hqe] at hq
  obtain ⟨j, x, hj, hx, hxq⟩ := h.covered q hq
  refine ⟨j, x, hj, hx, ?_, hxq⟩
  intro hji
  rw [hji, hch] at hx
  rcases mem_middle.mp hx with rfl | hx'
  · exact absurd hxq.symm hqe
  · exact hx'

/-- **Unlinking.** The first object of a bucket is unlinked and its block freed. -/
theorem Owned.unlink (hA : A.Spec Valid) (h : Owned hash Valid g ch) {i : Nat}
    (hi : i < kHashTableSize) {es : List Entry} (hch : ch i = e :: es) {s₁ : Nvm} {u u' : Unit}
    (hwrite : write32 true (slotOf i) (word g.nvm.mem e.ptr) g.nvm = .ok (u, s₁))
    (hfree : (ghost A).free e.ptr { g with nvm := s₁ } = .ok (u', g')) :
    Owned hash Valid g' (Function.update ch i es) := by
  have hch' : ch i = [] ++ e :: es := hch
  have hnil : ∀ x ∈ ([] : List Entry), x.Fits g.live := fun x hx => absurd hx List.not_mem_nil
  have hmem : s₁.mem = storeNat g.nvm.mem (slotOf i) 4 (word g.nvm.mem e.ptr) :=
    write_link hi h.chains.wf hnil hwrite
  have hfit := (h.chains.buckets i hi).fits e (by rw [hch]; exact List.mem_cons_self)
  -- the tablet between the two calls
  have hV₁ : Valid s₁.mem g.live := by
    rw [hmem]
    apply hA.store _ _ _ _ h.valid
    intro a h₁ h₂
    rw [length_leBytes] at h₂
    exact link_owned hi hnil h₁ h₂
  have hc₁ : Chains hash s₁.mem g.live (Function.update ch i es) := by
    rw [hmem]
    exact h.chains.unlink hi hch'
  obtain ⟨g₁, hg₁⟩ : ∃ g₁ : Ghost, g₁ = { g with nvm := s₁ } := ⟨_, rfl⟩
  have hlive₁ : g₁.live = g.live := by rw [hg₁]
  have hnvm₁ : g₁.nvm = s₁ := by rw [hg₁]
  have hfrees₁ : g₁.wildFrees = g.wildFrees := by rw [hg₁]
  rw [← hnvm₁, ← hlive₁] at hV₁
  rw [← hg₁] at hfree
  rw [← hnvm₁] at hmem hc₁
  obtain ⟨hlive, hfrees, hV', hkeep⟩ :=
    ghost_free_released hA hV₁ (by rw [hlive₁]; exact hfit.ne_zero) hfree
  -- the objects that are left do not share the block that is freed
  have hin : ∀ j, j < kHashTableSize → ∀ x ∈ Function.update ch i es j,
      x ∈ ch j ∧ (j = i → x ∈ es) := by
    intro j _ x hx
    rcases mem_update hx with ⟨rfl, hx'⟩ | ⟨hji, hx'⟩
    · refine ⟨?_, fun _ => hx'⟩
      rw [hch]
      exact List.mem_cons_of_mem _ hx'
    · exact ⟨hx', fun hcon => absurd hcon hji⟩
  have hkept : ∀ j, j < kHashTableSize → ∀ x ∈ Function.update ch i es j,
      Kept g₁.nvm.mem g'.live g'.nvm.mem x := by
    intro j hj x hx
    obtain ⟨hxj, hstay⟩ := hin j hj x hx
    have hxfit := (h.chains.buckets j hj).fits x hxj
    rw [← hlive₁] at hxfit
    exact kept_of_released hlive hkeep hxfit (h.chains.ptr_ne hi hj hch' hxj hstay)
  rw [hlive₁] at hlive
  refine ⟨hV', hc₁.congr (hA.wf _ _ hV') (fun j hj => hkeep.slot hj) hkept,
    ?_, ?_, (hfrees.trans hfrees₁).trans h.frees⟩
  · intro j hj x hx
    obtain ⟨hxj, _⟩ := hin j hj x hx
    rw [(hkept j hj x hx).hashAt_eq, hmem, ← h.hashed j hj x hxj]
    exact hashAt_link [] hi h.chains.wf hnil ((h.chains.buckets j hj).fits x hxj)
  · intro q hq
    obtain ⟨j, x, hj, hx, hstay, hxq⟩ := h.covered_of_released hch' hlive hq
    refine ⟨j, x, hj, ?_, hxq⟩
    by_cases hji : j = i
    · rw [hji, Function.update_self]
      exact hstay hji
    · rwa [Function.update_of_ne hji]

/-! ### The operations -/

theorem read_head {a : Nat} (ha : a < 4294967296) {v : Nat} (h : read32 true a s = .ok (v, s')) :
    v = word s.mem a ∧ s = s' := by
  obtain ⟨hv, hs⟩ := read_result h
  rw [u32_of_lt ha] at hv
  exact ⟨hv, hs⟩

theorem slotOf_lt (r : Request) : slotOf (bucketOf r) < 4294967296 := by
  have := (slotOf_bounds (bucketOf_lt r)).2.1
  rw [kNVMTabletSize_eq] at this
  omega

theorem Chains.get_result (h : Chains hash s.mem B ch) (hM : Represents hash ch M)
    (hh : r.keyHash = hash r.key) {fuel : Nat} {y : Status × List UInt8}
    (hrun : get fuel r s = .ok (y, s')) :
    s = s' ∧ y = match M r.key with | some v => (.ok, v) | none => (.error, []) := by
  have ht : r.type = .get := by
    obtain ⟨_, s₁, hassert, _⟩ := bind_eq_ok.mp hrun
    exact (assert_result hassert).1
  -- with more fuel the walk reaches the end of the chain
  have hmore := get_mono ((ch (bucketOf r)).length + 1) hrun
  rw [get_run h hM ht hh (by omega)] at hmore
  cases hmore
  exact ⟨rfl, rfl⟩

theorem insertHeadWith_owned (hA : A.Spec Valid) (h : Owned hash Valid g ch)
    (hh : r.keyHash = hash r.key) (hno : ∀ x ∈ ch (bucketOf r), x.key ≠ r.key) {status : Status}
    (hrun : insertHeadWith (ghost A) r (slotOf (bucketOf r))
      (word g.nvm.mem (slotOf (bucketOf r))) g = .ok (status, g')) :
    ∃ ch', Owned hash Valid g' ch' ∧ status = .ok ∧ Rebound ch r ch' := by
  have hi := bucketOf_lt r
  obtain ⟨p, g₁, hnew, hrun⟩ := bind_eq_ok.mp hrun
  obtain ⟨_, g₂, hlift, hrun⟩ := bind_eq_ok.mp hrun
  cases hrun
  obtain ⟨s₂, hwrite, rfl⟩ := ghost_nvm_eq_ok.mp hlift
  have hc := newObjectWith_created hA h.valid (word_lt _ _) hnew
  have hch : ch (bucketOf r) = [] ++ ch (bucketOf r) := rfl
  refine ⟨_, h.link hA hi hch (List.Sublist.refl _) hc (fun _ _ => rfl)
    (fun j hj x hx _ => ⟨(h.chains.buckets j hj).fits x hx, fun _ _ _ => rfl⟩) ?_
    h.frees hh (bucketOf_eq hh) hno (h.chains.buckets _ hi).chain hwrite, rfl, .inserted p hno⟩
  intro q hq
  obtain ⟨j, x, hj, hx, hxq⟩ := h.covered q hq
  exact ⟨j, x, hj, hx, fun hji => hji ▸ hx, hxq⟩

/-- **Replacing.** The block of the old object is freed before that of the new one is
    allocated. -/
theorem Owned.replace (hA : A.Spec Valid) (h : Owned hash Valid g ch)
    (hh : r.keyHash = hash r.key) {pre post : List Entry}
    (hes : ch (bucketOf r) = pre ++ e :: post) (hkey : e.key = r.key) {g₁ g₂ : Ghost} {p : Nat}
    {u u' : Unit} (hfree : (ghost A).free e.ptr g = .ok (u, g₁))
    (hnew : newObjectWith (ghost A) r (word g.nvm.mem e.ptr) g₁ = .ok (p, g₂))
    (hwrite : write32 true (linkOf (slotOf (bucketOf r)) pre) p g₂.nvm = .ok (u', s')) :
    Owned hash Valid { g₂ with nvm := s' }
      (Function.update ch (bucketOf r) (pre ++ ⟨p, r.key, r.val⟩ :: post)) := by
  have hi := bucketOf_lt r
  have hb := h.chains.buckets _ hi
  rw [hes] at hb
  have hfit := hb.fits e (List.mem_append_right _ List.mem_cons_self)
  obtain ⟨hlive, hfrees, hV₁, hkeep⟩ := ghost_free_released hA h.valid hfit.ne_zero hfree
  have hc := newObjectWith_created hA hV₁ (word_lt _ _) hnew
  refine h.link hA hi hes (List.sublist_cons_self e post) hc (fun j hj => hkeep.slot hj)
    ?_ (fun q hq => h.covered_of_released hes hlive hq)
    (hfrees.trans h.frees) hh (bucketOf_eq hh) ?_ hb.chain.tail hwrite
  · intro j hj x hx hstay
    exact kept_of_released hlive hkeep ((h.chains.buckets j hj).fits x hx)
      (h.chains.ptr_ne hi hj hes hx hstay)
  · rw [← hkey]
    exact hb.key_ne

theorem putWith_owned (hA : A.Spec Valid) (h : Owned hash Valid g ch)
    (hh : r.keyHash = hash r.key) {fuel : Nat} {status : Status}
    (hrun : putWith (ghost A) r fuel g = .ok (status, g')) :
    ∃ ch', Owned hash Valid g' ch' ∧ status = .ok ∧ Rebound ch r ch' := by
  have hi := bucketOf_lt r
  obtain ⟨_, g₁, h₁, hrun⟩ := bind_eq_ok.mp hrun
  obtain ⟨head, g₂, h₂, hrun⟩ := bind_eq_ok.mp hrun
  obtain ⟨⟨q, p⟩, g₃, h₃, hrun⟩ := bind_eq_ok.mp hrun
  obtain ⟨s₁, hassert, rfl⟩ := ghost_nvm_eq_ok.mp h₁
  obtain ⟨s₂, hread, rfl⟩ := ghost_nvm_eq_ok.mp h₂
  obtain ⟨s₃, hsearch, rfl⟩ := ghost_nvm_eq_ok.mp h₃
  obtain ⟨_, rfl⟩ := assert_result hassert
  obtain ⟨rfl, rfl⟩ := read_head (slotOf_lt r) hread
  -- the key is found, and the value replaced in place or by a new object; or a new object is put
  -- in front
  obtain ⟨rfl, hfound | ⟨hno, rfl⟩⟩ := h.chains.search_result hsearch
  · obtain ⟨pre, e, post, hes, hkey, hqp⟩ := hfound
    obtain ⟨rfl, rfl⟩ := Prod.mk.inj hqp
    have hb := h.chains.buckets _ hi
    rw [hes] at hb
    have he : e ∈ pre ++ e :: post := List.mem_append_right _ List.mem_cons_self
    obtain ⟨h0, hin⟩ := (hb.fits e he).inside h.chains.wf
    unfold Entry.len at hin
    rw [kSize_eq] at hin
    simp only [if_pos h0] at hrun
    obtain ⟨valLen, g₄, h₄, hrun⟩ := bind_eq_ok.mp hrun
    obtain ⟨s₄, hval, rfl⟩ := ghost_nvm_eq_ok.mp h₄
    obtain ⟨hv, rfl⟩ := read_result hval
    have hvalLen : valLen = e.val.length := by
      rw [hv, u32_of_lt (by rw [offsetofValLen_eq]; omega)]
      exact (hb.object e he).valLen
    rw [hvalLen] at hrun
    split at hrun
    case isTrue hlt =>
      obtain ⟨_, g₅, h₅, hrun⟩ := bind_eq_ok.mp hrun
      obtain ⟨_, g₆, h₆, hrun⟩ := bind_eq_ok.mp hrun
      cases hrun
      obtain ⟨s₅, hwrite, rfl⟩ := ghost_nvm_eq_ok.mp h₅
      obtain ⟨s₆, hcopy, rfl⟩ := ghost_nvm_eq_ok.mp h₆
      have hshrunk := h.shrink hA hi hes hkey hlt hwrite hcopy
      rw [hkey] at hshrunk
      exact ⟨_, hshrunk, rfl, .replaced e.ptr hes hkey⟩
    case isFalse =>
      obtain ⟨next, g₅, h₅, hrun⟩ := bind_eq_ok.mp hrun
      obtain ⟨_, g₆, hfree, hrun⟩ := bind_eq_ok.mp hrun
      obtain ⟨p', g₇, hnew, hrun⟩ := bind_eq_ok.mp hrun
      obtain ⟨_, g₈, h₈, hrun⟩ := bind_eq_ok.mp hrun
      cases hrun
      obtain ⟨s₅, hnext, rfl⟩ := ghost_nvm_eq_ok.mp h₅
      obtain ⟨s₈, hwrite, rfl⟩ := ghost_nvm_eq_ok.mp h₈
      obtain ⟨rfl, rfl⟩ := read_head (by omega) hnext
      exact ⟨_, h.replace hA hh hes hkey hfree hnew hwrite, rfl, .replaced p' hes hkey⟩
  · exact insertHeadWith_owned hA h hh hno hrun

theorem addWith_owned (hA : A.Spec Valid) (h : Owned hash Valid g ch)
    (hh : r.keyHash = hash r.key) {fuel : Nat} {status : Status}
    (hrun : addWith (ghost A) r fuel g = .ok (status, g')) :
    ∃ ch', Owned hash Valid g' ch' ∧
      ((status = .error ∧ ch' = ch ∧ ∃ e ∈ ch (bucketOf r), e.key = r.key) ∨
       (status = .ok ∧ (∀ x ∈ ch (bucketOf r), x.key ≠ r.key) ∧ Rebound ch r ch')) := by
  obtain ⟨_, g₁, h₁, hrun⟩ := bind_eq_ok.mp hrun
  obtain ⟨head, g₂, h₂, hrun⟩ := bind_eq_ok.mp hrun
  obtain ⟨⟨q, p⟩, g₃, h₃, hrun⟩ := bind_eq_ok.mp hrun
  obtain ⟨s₁, hassert, rfl⟩ := ghost_nvm_eq_ok.mp h₁
  obtain ⟨s₂, hread, rfl⟩ := ghost_nvm_eq_ok.mp h₂
  obtain ⟨s₃, hsearch, rfl⟩ := ghost_nvm_eq_ok.mp h₃
  obtain ⟨_, rfl⟩ := assert_result hassert
  obtain ⟨rfl, rfl⟩ := read_head (slotOf_lt r) hread
  obtain ⟨rfl, hfound | ⟨hno, rfl⟩⟩ := h.chains.search_result hsearch
  · obtain ⟨pre, e, post, hes, hkey, hqp⟩ := hfound
    obtain ⟨rfl, rfl⟩ := Prod.mk.inj hqp
    have he := mem_of_split hes
    have hfit := (h.chains.buckets _ (bucketOf_lt r)).fits e he
    simp only [if_pos (hfit.inside h.chains.wf).1] at hrun
    cases hrun
    exact ⟨ch, h, Or.inl ⟨rfl, rfl, e, he, hkey⟩⟩
  · obtain ⟨ch', h', hok, hre⟩ := insertHeadWith_owned hA h hh hno hrun
    exact ⟨ch', h', Or.inr ⟨hok, hno, hre⟩⟩

theorem delLoopWith_owned (hA : A.Spec Valid) (h : Owned hash Valid g ch) {fuel : Nat}
    {status : Status} (hrun : delLoopWith (ghost A) r (slotOf (bucketOf r))
      (word g.nvm.mem (slotOf (bucketOf r))) fuel g = .ok (status, g')) :
    ∃ ch', Owned hash Valid g' ch' ∧
      ((status = .error ∧ ch' = ch ∧ ch (bucketOf r) = []) ∨
       (status = .ok ∧ ∃ e es, ch (bucketOf r) = e :: es ∧ e.key = r.key ∧
        ch' = Function.update ch (bucketOf r) es)) := by
  have hi := bucketOf_lt r
  have hb := h.chains.buckets _ hi
  have hchain := hb.chain
  -- an empty bucket has the status `ERROR`
  cases hes : ch (bucketOf r) with
  | nil =>
    rw [hes] at hchain
    have h0 : word g.nvm.mem (slotOf (bucketOf r)) = 0 := hchain
    cases fuel with
    | zero => cases hrun
    | succ fuel =>
      rw [delLoopWith, if_pos h0] at hrun
      cases hrun
      exact ⟨ch, h, Or.inl ⟨rfl, rfl, rfl⟩⟩
  | cons e es =>
    rw [hes] at hchain
    obtain ⟨hhead, h0, _⟩ := hchain
    have he : e ∈ ch (bucketOf r) := by
      rw [hes]
      exact List.mem_cons_self
    have hsame := sameKey_run (r := r) (hb.object e he) ((hb.fits e he).inside h.chains.wf)
    rw [hhead] at hrun
    -- the loop looks at the first object only
    induction fuel with
    | zero => cases hrun
    | succ fuel ih =>
      rw [delLoopWith, if_neg h0] at hrun
      obtain ⟨found, g₁, h₁, hrun⟩ := bind_eq_ok.mp hrun
      obtain ⟨s₁, hfound, rfl⟩ := ghost_nvm_eq_ok.mp h₁
      rw [hsame] at hfound
      cases hfound
      by_cases hkey : e.key = r.key
      · rw [if_pos (decide_eq_true hkey)] at hrun
        obtain ⟨next, g₂, h₂, hrun⟩ := bind_eq_ok.mp hrun
        obtain ⟨_, g₃, h₃, hrun⟩ := bind_eq_ok.mp hrun
        obtain ⟨_, g₄, hfree, hrun⟩ := bind_eq_ok.mp hrun
        cases hrun
        obtain ⟨s₂, hnext, rfl⟩ := ghost_nvm_eq_ok.mp h₂
        obtain ⟨s₃, hwrite, rfl⟩ := ghost_nvm_eq_ok.mp h₃
        obtain ⟨rfl, rfl⟩ := read_head (hhead ▸ word_lt _ _) hnext
        exact ⟨_, h.unlink hA hi hes hwrite hfree, Or.inr ⟨rfl, e, es, rfl, hkey, rfl⟩⟩
      · rw [if_neg (by simpa using hkey)] at hrun
        exact ih hrun

/-- **One operation** keeps the invariant, and does what it does to the map. -/
theorem serveWith_owned (hA : A.Spec Valid) (h : Owned hash Valid g ch)
    (hM : Represents hash ch M) (hh : r.keyHash = hash r.key) {fuel : Nat} {resp : Response}
    (hrun : serveWith (ghost A) r fuel g = .ok (resp, g')) :
    ∃ ch', Owned hash Valid g' ch' ∧ resp = (M.serve r).1 ∧ Represents hash ch' (M.serve r).2 := by
  obtain ⟨_, g₁, hclear, hrun⟩ := bind_eq_ok.mp hrun
  obtain ⟨s₁, hclear, rfl⟩ := ghost_nvm_eq_ok.mp hclear
  cases hclear
  have h₁ : Owned hash Valid
      { g with nvm := { g.nvm with modifications := [] } } ch := ⟨h.1, h.2, h.3, h.4, h.5⟩
  unfold Store.serve
  -- each request takes the map where the store of the specification takes it
  cases ht : r.type with
  | put =>
    rw [ht] at hrun
    obtain ⟨status, g₂, hput, hrun⟩ := bind_eq_ok.mp hrun
    cases hrun
    obtain ⟨ch', h', rfl, hre⟩ := putWith_owned hA h₁ hh hput
    exact ⟨ch', h', rfl, hre.represents h.chains hM hh⟩
  | add =>
    rw [ht] at hrun
    obtain ⟨status, g₂, hadd, hrun⟩ := bind_eq_ok.mp hrun
    cases hrun
    obtain ⟨ch', h', ⟨rfl, rfl, e, he, hkey⟩ | ⟨rfl, hno, hre⟩⟩ := addWith_owned hA h₁ hh hadd
    · obtain ⟨pre, post, hes⟩ := List.append_of_mem he
      simp only [hM.found hh hes hkey]
      exact ⟨ch', h', trivial, hM⟩
    · simp only [hM.missing hh hno]
      exact ⟨ch', h', trivial, hre.represents h.chains hM hh⟩
  | del =>
    rw [ht] at hrun
    obtain ⟨status, g₂, hdel, hrun⟩ := bind_eq_ok.mp hrun
    cases hrun
    obtain ⟨_, g₃, h₃, hdel⟩ := bind_eq_ok.mp hdel
    obtain ⟨p, g₄, h₄, hdel⟩ := bind_eq_ok.mp hdel
    obtain ⟨s₃, hassert, rfl⟩ := ghost_nvm_eq_ok.mp h₃
    obtain ⟨s₄, hread, rfl⟩ := ghost_nvm_eq_ok.mp h₄
    obtain ⟨_, rfl⟩ := assert_result hassert
    obtain ⟨rfl, rfl⟩ := read_head (slotOf_lt r) hread
    obtain ⟨ch', h', ⟨rfl, rfl, hnil⟩ | ⟨rfl, e, es, hes, hkey, rfl⟩⟩ := delLoopWith_owned hA h₁ hdel
    · have hno : ∀ x ∈ ch' (bucketOf r), x.key ≠ r.key := by
        rw [hnil]
        exact fun x hx => absurd hx List.not_mem_nil
      simp only [hM.missing hh hno]
      exact ⟨ch', h', trivial, hM⟩
    · have hes' : ch (bucketOf r) = [] ++ e :: es := hes
      simp only [hM.found hh hes' hkey]
      exact ⟨_, h', trivial, Represents.unbind h.chains hM hh hes' hkey⟩
  | get =>
    rw [ht] at hrun
    obtain ⟨⟨status, val⟩, g₂, hlift, hrun⟩ := bind_eq_ok.mp hrun
    cases hrun
    obtain ⟨s₂, hget, rfl⟩ := ghost_nvm_eq_ok.mp hlift
    obtain ⟨hs, hy⟩ := h₁.chains.get_result hM hh hget
    rw [← hs]
    refine ⟨ch, h₁, ?_, ?_⟩
    · cases hv : M r.key with
      | none =>
        rw [hv] at hy
        cases hy
        rfl
      | some v =>
        rw [hv] at hy
        cases hy
        rfl
    · cases hv : M r.key <;> exact hM

theorem Step.owned (hA : A.Spec Valid) (h : Owned hash Valid g ch) (hstep : Step hash A g r g') :
    ∃ ch', Owned hash Valid g' ch' := by
  obtain ⟨hh, fuel, resp, hrun⟩ := hstep
  obtain ⟨ch', h', _⟩ := serveWith_owned hA h h.chains.represents hh hrun
  exact ⟨ch', h'⟩

/-! ### The result -/

theorem Start.owned (hA : A.Spec Valid) (h : Start Valid g) :
    Owned hash Valid g fun _ => [] := by
  refine ⟨h.valid, ⟨hA.wf _ _ h.valid, fun i hi => ⟨h.table i hi, ?_, ?_, ?_, List.nodup_nil⟩⟩,
    ?_, fun p hp => absurd (h.live p) hp, h.frees⟩
  · exact fun e he => absurd he List.not_mem_nil
  · exact fun e he => absurd he List.not_mem_nil
  · exact fun e he => absurd he List.not_mem_nil
  · exact fun i _ e he => absurd he List.not_mem_nil

/-- A list without repetitions has each of its members at one position. -/
theorem position_unique {α : Type} {l : List α} (h : l.Nodup) {n k : Nat} {a : α}
    (hn : l[n]? = some a) (hk : l[k]? = some a) : n = k := by
  have hlt : n < l.length := (List.getElem?_eq_some_iff.mp hn).1
  exact (List.getElem?_inj hlt h).mp (hn.trans hk.symm)

theorem Owned.ownsOnce (h : Owned hash Valid g ch) : OwnsOnce g.nvm.mem g.live ch := by
  have hb := h.chains.buckets
  refine ⟨fun i hi => (hb i hi).chain, fun i hi => (hb i hi).ptr_nodup,
    fun i hi => (hb i hi).object, fun i hi e he => ⟨((hb i hi).fits e he).ne_zero, (hb i hi).fits e he⟩,
    ?_, ?_, ?_⟩
  · intro i hi e he
    rw [h.hashed i hi e he]
    exact (hb i hi).bucket e he
  · intro i n j k e e' hi hj hn hk hkey
    have he := List.mem_of_getElem? hn
    have he' := List.mem_of_getElem? hk
    -- the bucket is told by the key
    have hij : i = j := by
      rw [← (hb i hi).bucket e he, ← (hb j hj).bucket e' he', hkey]
    subst hij
    refine ⟨rfl, position_unique (hb i hi).keys (a := e.key) ?_ ?_⟩
    · rw [List.getElem?_map, hn]
      rfl
    · rw [List.getElem?_map, hk, hkey]
      rfl
  · intro p hp
    obtain ⟨i, e, hi, he, hep⟩ := h.covered p hp
    obtain ⟨n, hn⟩ := List.mem_iff_getElem?.mp he
    have hpos : ((ch i).map (·.ptr))[n]? = some p := by
      rw [List.getElem?_map, hn, ← hep]
      rfl
    refine ⟨(i, n), ⟨hi, hpos⟩, ?_⟩
    rintro ⟨j, k⟩ ⟨hj, hk⟩
    simp only at hj hk
    have hmap := hk
    rw [List.getElem?_map] at hmap
    obtain ⟨e', hk', hep'⟩ := Option.map_eq_some_iff.mp hmap
    obtain ⟨rfl, _⟩ := h.chains.eq_of_ptr hj hi (List.mem_of_getElem? hk') he (hep'.trans hep.symm)
    rw [position_unique (hb j hj).ptr_nodup hk hpos]

/-- **Ownership.** Over an allocator that does what it should, in every state that completed
    operations reach from an empty hash table, the blocks in use are the objects of the
    chains, each once, and no call of `Free` was for anything else than a block in use. -/
theorem owns_once (hA : A.Spec Valid) (h : Reachable (Start Valid) (Step hash A) g) :
    (∃ ch, OwnsOnce g.nvm.mem g.live ch) ∧ g.wildFrees = [] := by
  have hinv : ∃ ch, Owned hash Valid g ch := by
    refine h.invariant (fun g => ∃ ch, Owned hash Valid g ch) (fun g hg => ⟨_, hg.owned hA⟩) ?_
    rintro g r g' ⟨ch, hg⟩ hstep
    exact hstep.owned hA hg
  obtain ⟨ch, hg⟩ := hinv
  exact ⟨⟨ch, hg.ownsOnce⟩, hg.frees⟩

/-! ### An allocator that does what it should -/

/-- The allocator of the source, except that `Free` first writes the size of the block to its
    last word, where `FreeBlock` relies on it. -/
def mended : Heap where
  alloc := Allocator.alloc true
  free p := do
    let size ← readTheSizeTag true (p - 4)
    write32 true (p - 4 + size - 4) size
    Allocator.free true p

/-- A well-formed heap in which the blocks `B` are live. -/
def HeapWith (m : Mem) (B : Blocks) : Prop :=
  ∃ σ : Shape, HeapInv m σ ∧ σ.Roomy true ∧
    ∀ p, B p ≠ 0 → 4 ≤ p ∧ σ.Live (p - 4) ∧ B p + 4 ≤ σ.size (p - 4)

theorem HeapWith.wf (h : HeapWith m B) : B.WF := by
  obtain ⟨σ, hheap, _, hB⟩ := h
  have hσ := hheap.wf
  constructor
  · intro p hp
    obtain ⟨h4, hl, hfit⟩ := hB p hp
    obtain ⟨hlo, _, _, _, hend⟩ := hσ.layout hl.1
    rw [kSize_eq]
    omega
  · intro p q hp hq hne
    obtain ⟨hp4, hpl, hpfit⟩ := hB p hp
    obtain ⟨hq4, hql, hqfit⟩ := hB q hq
    have := hσ.tiled.disjoint hpl.1 hql.1 (by omega)
    omega

/-- A byte of a block in use, or behind the heap, as the heap sees it. -/
theorem owns_payload {σ : Shape}
    (hB : ∀ p, B p ≠ 0 → 4 ≤ p ∧ σ.Live (p - 4) ∧ B p + 4 ≤ σ.size (p - 4)) {a : Nat}
    (ha : kSize ≤ a ∨ B.Owns a) :
    kHeapEnd + 4 ≤ a ∨ ∃ p, B p ≠ 0 ∧ p ≤ a ∧ a < p + B p ∧ σ.Payload (p - 4) a := by
  rcases ha with ha | ⟨p, h₁, h₂⟩
  · left
    rw [kSize_eq] at ha
    rw [kHeapEnd_eq]
    omega
  · right
    have hp : B p ≠ 0 := by omega
    obtain ⟨h4, hl, hfit⟩ := hB p hp
    exact ⟨p, hp, h₁, h₂, hl, by omega, by omega⟩

theorem mended_alloc {n p : Nat} (h : HeapWith s.mem B) (hn : 16 ≤ n) (hlt : n + 4 < 4294967296)
    (hrun : mended.alloc n s = .ok (p, s')) (hp : p ≠ 0) :
    B p = 0 ∧ HeapWith s'.mem (Function.update B p n) ∧ Untouched B s.mem s'.mem := by
  obtain ⟨σ, hheap, hroomy, hB⟩ := h
  -- larger blocks fail the assertion of `RoundupBlockSize`
  have hmax : n + 4 ≤ kMaxBlockSize := by
    by_contra hcon
    have herr : Allocator.alloc true n s = .error .assertion := by
      unfold Allocator.alloc
      apply bind_of_error
      rw [u32_of_lt hlt, roundupBlockSize, if_neg hcon]
      rfl
    rw [show mended.alloc n s = Allocator.alloc true n s from rfl, herr] at hrun
    cases hrun
  rcases alloc_run true hheap.core (by omega) hmax with ⟨_, hnone⟩ | ⟨_, _, herr⟩ |
    ⟨_, s₁, σ', blk, hok, hc, _⟩
  · rw [show mended.alloc n s = Allocator.alloc true n s from rfl, hnone] at hrun
    cases hrun
    exact absurd rfl hp
  · rw [show mended.alloc n s = Allocator.alloc true n s from rfl, herr] at hrun
    cases hrun
  · rw [show mended.alloc n s = Allocator.alloc true n s from rfl, hok] at hrun
    cases hrun
    have hfull := hc.ok hheap.footers hroomy
    have hacq := hc.acquired
    have hfit := (blockSize_bounds (by omega) hmax).1
    refine ⟨?_, ⟨σ', hfull.heap, hfull.roomy, ?_⟩, ?_⟩
    · by_contra hne
      exact hacq.fresh (hB _ hne).2.1
    · intro q hq
      -- the new pointer gets its block, the others keep theirs
      by_cases hqp : q = blk + 4
      · subst hqp
        rw [Function.update_self]
        refine ⟨by omega, (hacq.live _).mpr (Or.inr (by omega)), ?_⟩
        rw [Nat.add_sub_cancel, hacq.size]
        exact hfit
      · rw [Function.update_of_ne hqp] at hq ⊢
        obtain ⟨h4, hl, hle⟩ := hB q hq
        refine ⟨h4, (hacq.live _).mpr (Or.inl hl), ?_⟩
        rw [hacq.same _ hl]
        exact hle
    · intro a ha
      apply hc.keeps
      rcases owns_payload hB ha with ha | ⟨q, hq, _, _, hpay⟩
      · exact Or.inl ha
      · refine Or.inr ⟨_, ?_, hpay⟩
        have := (hheap.wf.layout hpay.1.1).1
        omega

theorem mended_free {p : Nat} {u : Unit} (h : HeapWith s.mem B) (hp : B p ≠ 0)
    (hrun : mended.free p s = .ok (u, s')) :
    HeapWith s'.mem (Function.update B p 0) ∧
      Untouched (Function.update B p 0) s.mem s'.mem := by
  obtain ⟨σ, hheap, hroomy, hB⟩ := h
  obtain ⟨h4, hl, _⟩ := hB p hp
  have hσ := hheap.wf
  obtain ⟨hlo, _, hge, _, hend⟩ := hσ.layout hl.1
  -- the last word is written
  obtain ⟨s₁, hs₁⟩ : ∃ s₁, s₁ = s.wr (p - 4 + σ.size (p - 4) - 4) (σ.size (p - 4)) := ⟨_, rfl⟩
  have hpre : mended.free p s = Allocator.free true p s₁ := by
    show (readTheSizeTag true (p - 4) >>= _) s = _
    rw [bind_of_ok (readTheSizeTag_ok (by rw [kNVMTabletSize_eq]; omega) (by omega)),
      hheap.tags.size _ hl.1,
      bind_of_ok (write32_ok (by rw [kNVMTabletSize_eq]; omega) (by omega)), ← hs₁]
  have hmem : s₁.mem = storeNat s.mem (p - 4 + σ.size (p - 4) - 4) 4 (σ.size (p - 4)) := by
    rw [hs₁]
    rfl
  have hheap₁ : HeapInv s₁.mem σ := by
    rw [hmem]
    refine hheap.store_live fun a h₁ h₂ => Or.inr ⟨_, hl, ?_, ?_⟩
    · omega
    · rw [length_leBytes] at h₂
      omega
  -- so the footer is the size, and `Free` is clean
  have hclean : FreesCleanly s₁.mem (p - 4) := by
    refine Or.inr (Or.inr ?_)
    rw [FooterIntact, sizeTag, hheap₁.tags.size _ hl.1, hmem]
    refine (loadNat_storeNat _ _ _ _).trans (Nat.mod_eq_of_lt ?_)
    omega
  obtain ⟨s₂, σ', hfree, hrel, hheap', hroomy'⟩ := free_clean hheap₁ hroomy hl hclean
  rw [Nat.sub_add_cancel h4] at hfree
  rw [hpre, hfree] at hrun
  cases hrun
  have hother : ∀ q, Function.update B p 0 q ≠ 0 → q ≠ p ∧ B q ≠ 0 := by
    intro q hq
    by_cases hqp : q = p
    · rw [hqp, Function.update_self] at hq
      exact absurd rfl hq
    · rw [Function.update_of_ne hqp] at hq
      exact ⟨hqp, hq⟩
  have hB' : ∀ q, Function.update B p 0 q ≠ 0 → 4 ≤ q ∧ σ.Live (q - 4) ∧
      Function.update B p 0 q + 4 ≤ σ.size (q - 4) := by
    intro q hq
    obtain ⟨hqp, hq'⟩ := hother q hq
    rw [Function.update_of_ne hqp]
    exact hB q hq'
  -- the blocks of the other pointers stay, and their bytes
  refine ⟨⟨σ', hheap', hroomy', ?_⟩, ?_⟩
  · intro q hq
    obtain ⟨hqp, _⟩ := hother q hq
    obtain ⟨hq4, hql, hqfit⟩ := hB' q hq
    have hne : q - 4 ≠ p - 4 := by omega
    refine ⟨hq4, (hrel.live _).mpr ⟨hql, hne⟩, ?_⟩
    rw [hrel.same _ hql hne]
    exact hqfit
  · intro a ha
    rcases owns_payload hB' ha with ha | ⟨q, hq, _, _, hpay⟩
    · rw [hrel.keeps a (Or.inl ha), hmem]
      rw [kHeapEnd_eq] at ha
      exact storeNat_of_not_mem (by omega)
    · obtain ⟨hqp, _⟩ := hother q hq
      have hq4 := (hB' q hq).1
      have hne : q - 4 ≠ p - 4 := by omega
      rw [hrel.keeps a (Or.inr ⟨_, hne, hpay⟩), hmem]
      apply storeNat_of_not_mem
      obtain ⟨hql, h₁, h₂⟩ := hpay
      have := hσ.tiled.disjoint hql.1 hl.1 hne
      omega

theorem mended_spec : mended.Spec HeapWith := by
  refine ⟨fun m B h => h.wf, ?_, fun s B n p s' h hn hlt hrun hp => mended_alloc h hn hlt hrun hp,
    fun s B p u s' h hp hrun => mended_free h hp hrun⟩
  intro m B off bs h hin
  obtain ⟨σ, hheap, hroomy, hB⟩ := h
  refine ⟨σ, hheap.store_live ?_, hroomy, hB⟩
  intro a h₁ h₂
  rcases owns_payload hB (hin a h₁ h₂) with ha | ⟨p, _, _, _, hpay⟩
  · exact Or.inl ha
  · exact Or.inr ⟨_, hpay⟩

/-- A fresh tablet without blocks in use. -/
def freshGhost : Ghost := ⟨formatted true, fun _ => 0, []⟩

theorem start_freshGhost : Start HeapWith freshGhost := by
  obtain ⟨hinv, _⟩ := tabletInv_fresh firstByte freshTablet_formatted
  refine ⟨⟨_, hinv.heap, hinv.roomy, fun p hp => absurd rfl hp⟩, fun _ => rfl, ?_, rfl⟩
  intro i hi
  exact (hinv.buckets i hi).chain

theorem owns_once_put : ∃ g resp, serveWith (ghost mended) (item .put) 2 freshGhost = .ok (resp, g) ∧
    (∃ ch, OwnsOnce g.nvm.mem g.live ch) ∧ g.wildFrees = [] := by
  have hpass : (serveWith (ghost mended) (item .put) 2 freshGhost).isOk = true := by
    decide +kernel
  cases hrun : serveWith (ghost mended) (item .put) 2 freshGhost with
  | error e =>
    rw [hrun] at hpass
    cases hpass
  | ok y =>
    obtain ⟨resp, g⟩ := y
    have hstep : Step firstByte mended freshGhost (item .put) g := ⟨by decide, 2, resp, hrun⟩
    exact ⟨g, resp, rfl, owns_once mended_spec (.step _ (.init start_freshGhost) hstep)⟩

end Nvds.Tablet
