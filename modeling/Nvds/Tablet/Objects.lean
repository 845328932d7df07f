import Nvds.Allocator.Calls
import Nvds.Tablet.Model

/-! # Objects and chains

    An object of the tablet is represented by an `Entry`: where it is, its
    key and its value. `ObjectAt` says that the bytes hold it, `Placed` that
    it lies inside a live block of its own. The entries of a bucket follow
    each other by the `next` fields, which are the first words of the
    objects; the slot of the bucket is read like one more such word.
-/

open ByteMemory Program LinkedList Tiling Nvds.Allocator

namespace Nvds.Tablet

/-! ### Entries -/

/-- An object at `ptr` that binds `key` to `val`. -/
structure Entry where
  ptr : Nat
  key : List UInt8
  val : List UInt8

/-- The bytes of the object, its header included. -/
def Entry.len (e : Entry) : Nat := 16 + e.key.length + e.val.length

/-- The object lies inside the heap. -/
def Entry.Inside (e : Entry) : Prop := e.ptr ≠ 0 ∧ e.ptr + e.len ≤ kSize

/-- The bytes of `m` hold the object, up to its `next` field. -/
structure ObjectAt (m : Mem) (e : Entry) : Prop where
  keyLen : loadNat m (e.ptr + offsetofKeyLen) 2 = e.key.length
  valLen : loadNat m (e.ptr + offsetofValLen) 2 = e.val.length
  key : load m (e.ptr + offsetofData) e.key.length = e.key
  val : load m (e.ptr + offsetofData + e.key.length) e.val.length = e.val

/-- The object lies inside a live block. -/
structure Placed (σ : Shape) (e : Entry) : Prop where
  ptr : 4 ≤ e.ptr
  live : σ.Live (e.ptr - 4)
  fits : e.len + 4 ≤ σ.size (e.ptr - 4)

variable {m m' : Mem} {s s' : Nvm} {σ : Shape} {e e' : Entry} {r : Request}

/-- The bytes tell which object they hold. -/
theorem ObjectAt.unique (h : ObjectAt m e) (h' : ObjectAt m e') (hp : e.ptr = e'.ptr) : e = e' := by
  obtain ⟨p, k, v⟩ := e
  obtain ⟨p', k', v'⟩ := e'
  obtain rfl : p = p' := hp
  have hk : k.length = k'.length := h.keyLen.symm.trans h'.keyLen
  have hv : v.length = v'.length := h.valLen.symm.trans h'.valLen
  have hkey : k = k' := by
    have h₁ := h.key
    have h₂ := h'.key
    simp only at h₁ h₂
    rw [← h₁, ← h₂, hk]
  subst hkey
  have hval : v = v' := by
    have h₁ := h.val
    have h₂ := h'.val
    simp only at h₁ h₂
    rw [← h₁, ← h₂, hv]
  rw [hval]

/-- The object does not depend on its `next` field, nor on bytes outside. -/
theorem ObjectAt.congr (h : ObjectAt m e)
    (hag : ∀ a, e.ptr + 4 ≤ a → a < e.ptr + e.len → m' a = m a) : ObjectAt m' e := by
  unfold Entry.len at hag
  refine ⟨?_, ?_, ?_, ?_⟩
  · rw [← h.keyLen]
    apply loadNat_congr
    intro a h₁ h₂
    simp only [offsetofKeyLen_eq] at h₁ h₂
    exact hag a (by omega) (by omega)
  · rw [← h.valLen]
    apply loadNat_congr
    intro a h₁ h₂
    simp only [offsetofValLen_eq] at h₁ h₂
    exact hag a (by omega) (by omega)
  · refine Eq.trans (load_congr ?_) h.key
    intro a h₁ h₂
    simp only [offsetofData_eq] at h₁ h₂
    exact hag a (by omega) (by omega)
  · refine Eq.trans (load_congr ?_) h.val
    intro a h₁ h₂
    simp only [offsetofData_eq] at h₁ h₂
    exact hag a (by omega) (by omega)

/-- The bytes of a placed object are payload of its block. -/
theorem Placed.payload (h : Placed σ e) {a : Nat} (h₁ : e.ptr ≤ a) (h₂ : a < e.ptr + e.len) :
    σ.Payload (e.ptr - 4) a := by
  have hp := h.ptr
  have hf := h.fits
  exact ⟨h.live, by omega, by omega⟩

/-- A placed object lies inside the heap, behind the list heads. -/
theorem Placed.bounds (hσ : σ.WF) (h : Placed σ e) :
    296 ≤ e.ptr ∧ e.ptr + e.len ≤ 67108852 := by
  have hp := h.ptr
  have hf := h.fits
  have hlo := (hσ.node h.live.1).1
  have hend := hσ.end_le h.live.1
  simp only [kHeapBegin_eq, kHeapEnd_eq] at hlo hend
  omega

theorem Placed.inside (hσ : σ.WF) (h : Placed σ e) : e.Inside := by
  obtain ⟨hlo, hhi⟩ := h.bounds hσ
  exact ⟨by omega, by rw [kSize_eq]; omega⟩

/-- Objects at different places have no payload byte in common. -/
theorem Placed.disjoint (hσ : σ.WF) (h : Placed σ e) {b a : Nat} (hb : σ.Payload b a)
    (hne : b ≠ e.ptr - 4) : a < e.ptr ∨ e.ptr + e.len ≤ a := by
  have hp := h.ptr
  have hf := h.fits
  obtain ⟨hlive, h₁, h₂⟩ := hb
  rcases hσ.tiled.disjoint hlive.1 h.live.1 hne with hle | hle
  · left
    omega
  · right
    omega

/-! ### Comparing keys -/

theorem compareBytes_eq_zero {xs ys : List UInt8} (h : xs.length = ys.length) :
    compareBytes xs ys = 0 ↔ xs = ys := by
  induction xs generalizing ys with
  | nil =>
    cases ys with
    | nil => simp [compareBytes]
    | cons y ys => cases h
  | cons x xs ih =>
    cases ys with
    | nil => cases h
    | cons y ys =>
      rw [compareBytes]
      by_cases hxy : x = y
      · rw [if_pos hxy, ih (by simpa using h), hxy]
        simp
      · rw [if_neg hxy]
        constructor
        · intro h0
          have : x.toNat = y.toNat := by omega
          exact absurd (UInt8.toNat_inj.mp this) hxy
        · intro heq
          exact absurd (List.cons.inj heq).1 hxy

theorem read16_ok {off : Nat} (h : off + 2 ≤ kNVMTabletSize) (h0 : off ≠ 0) :
    read16 true off s = .ok (loadNat s.mem off 2, s) := read_ok h fun _ => h0

theorem memcmp_ok {off : Nat} {bs : List UInt8} (h : off + bs.length ≤ kNVMTabletSize) :
    memcmp off bs bs.length s = .ok (compareBytes (load s.mem off bs.length) bs, s) := by
  have hu : u32 off = off := u32_of_lt (by simp at h; omega)
  unfold memcmp
  rw [hu, access_of_le h, List.take_length]
  rfl

theorem memcpy_ok {off : Nat} {bs : List UInt8} (h : off + bs.length ≤ kNVMTabletSize) :
    memcpy off bs s = .ok ((), s.write off bs) := by
  have hu : u32 off = off := u32_of_lt (by simp at h; omega)
  unfold memcpy
  rw [hu, access_of_le h]
  rfl

theorem memcpyOut_ok {off len : Nat} (h : off + len ≤ kNVMTabletSize) :
    memcpyOut off len s = .ok (load s.mem off len, s) := by
  have hu : u32 off = off := u32_of_lt (by simp at h; omega)
  unfold memcpyOut
  rw [hu, access_of_le h]
  rfl

/-- The test of the loops tells whether the key is the one asked for. -/
theorem sameKey_run (h : ObjectAt s.mem e) (hp : e.Inside) :
    sameKey r e.ptr s = .ok (decide (e.key = r.key), s) := by
  obtain ⟨hlo, hhi⟩ := hp
  unfold Entry.len at hhi
  rw [kSize_eq] at hhi
  unfold sameKey
  rw [bind_of_ok (read16_ok (by simp; omega) (by simp)), h.keyLen]
  by_cases hlen : r.key.length = e.key.length
  · rw [if_pos hlen, bind_of_ok (memcmp_ok (by simp; omega)), pure_run]
    have hkey := h.key
    rw [← hlen] at hkey
    rw [hkey]
    congr 3
    exact propext (compareBytes_eq_zero hlen.symm)
  · rw [if_neg hlen, pure_run]
    have hne : e.key ≠ r.key := by
      intro heq
      exact hlen (by rw [heq])
    simp [hne]

theorem memcmp_result {off n : Nat} {bs : List UInt8} {v : Int}
    (h : memcmp off bs n s = .ok (v, s')) :
    v = compareBytes (load s.mem (u32 off) n) (bs.take n) ∧ s = s' := by
  unfold memcmp at h
  obtain ⟨_, s₁, haccess, h⟩ := bind_eq_ok.mp h
  unfold access at haccess
  split at haccess
  · cases haccess
    cases h
    exact ⟨rfl, rfl⟩
  · cases haccess

theorem memcpy_result {off : Nat} {bs : List UInt8} {u : Unit}
    (h : memcpy off bs s = .ok (u, s')) : s' = s.write (u32 off) bs := by
  unfold memcpy at h
  obtain ⟨_, s₁, haccess, h⟩ := bind_eq_ok.mp h
  unfold access at haccess
  split at haccess
  · cases haccess
    cases h
    rfl
  · cases haccess

/-- The bytes that the test of the loops takes for the key of an object at `p`. -/
def keyAt (m : Mem) (p : Nat) : List UInt8 :=
  load m (u32 (p + offsetofData)) (loadNat m (u32 (p + offsetofKeyLen)) 2)

theorem keyAt_length_lt (m : Mem) (p : Nat) : (keyAt m p).length < 65536 := by
  unfold keyAt
  rw [length_load]
  exact loadNat_lt m _ 2

/-- The test of the loops, unless it faults. -/
theorem sameKey_result {p : Nat} {found : Bool} (h : sameKey r p s = .ok (found, s')) :
    s = s' ∧ (found = true ↔ keyAt s.mem p = r.key) := by
  unfold sameKey at h
  obtain ⟨keyLen, s₁, hread, h⟩ := bind_eq_ok.mp h
  obtain ⟨rfl, rfl⟩ := read_result hread
  by_cases hlen : r.key.length = loadNat s.mem (u32 (p + offsetofKeyLen)) 2
  · rw [if_pos hlen] at h
    obtain ⟨v, s₂, hcmp, h⟩ := bind_eq_ok.mp h
    obtain ⟨rfl, rfl⟩ := memcmp_result hcmp
    have hkeyAt : keyAt s.mem p = load s.mem (u32 (p + offsetofData)) r.key.length := by
      rw [hlen]
      rfl
    rw [List.take_length, ← hkeyAt] at h
    cases h
    refine ⟨rfl, ?_⟩
    rw [decide_eq_true_iff, compareBytes_eq_zero]
    rw [hkeyAt, length_load]
  · rw [if_neg hlen] at h
    cases h
    refine ⟨rfl, iff_of_false Bool.false_ne_true fun heq => hlen ?_⟩
    rw [← heq]
    exact length_load _ _ _

/-! ### Chains -/

/-- The place that links to what follows the entries `es`, the chain being linked
    to from `q`. -/
def linkOf : Nat → List Entry → Nat
  | q, [] => q
  | _, e :: es => linkOf e.ptr es

/-- The slot or object `q` and the entries behind it, by their `next` words. -/
def Chain (m : Mem) (q : Nat) (es : List Entry) : Prop :=
  Seg (word m) (word m q) (es.map (·.ptr)) 0

/-- The nodes of a chain up to `linkOf`, which is the last of them. -/
theorem cons_eq_append_linkOf (q : Nat) (es : List Entry) :
    ∃ xs, q :: es.map (·.ptr) = xs ++ [linkOf q es] := by
  induction es generalizing q with
  | nil => exact ⟨[], rfl⟩
  | cons e es ih =>
    obtain ⟨xs, hxs⟩ := ih e.ptr
    refine ⟨q :: xs, ?_⟩
    rw [List.map_cons, hxs]
    rfl

/-- **The search** along a chain ends at the entry with the key, or at its end. -/
theorem search_run {es : List Entry} {fuel q p : Nat}
    (hseg : Seg (word s.mem) p (es.map (·.ptr)) 0)
    (hobj : ∀ e ∈ es, ObjectAt s.mem e ∧ e.Inside) (hfuel : es.length < fuel) :
    (∃ pre e post, es = pre ++ e :: post ∧ e.key = r.key ∧ (∀ x ∈ pre, x.key ≠ r.key) ∧
      search r fuel q p s = .ok ((linkOf q pre, e.ptr), s)) ∨
    ((∀ x ∈ es, x.key ≠ r.key) ∧ search r fuel q p s = .ok ((linkOf q es, 0), s)) := by
  -- along the objects of the chain, each of which costs one unit of fuel
  induction es generalizing fuel q p with
  | nil =>
    right
    obtain rfl : p = 0 := hseg
    cases fuel with
    | zero => cases hfuel
    | succ fuel =>
      rw [search, if_pos rfl, pure_run]
      exact ⟨fun x hx => absurd hx List.not_mem_nil, rfl⟩
  | cons e es ih =>
    obtain ⟨rfl, h0, hrest⟩ := hseg
    cases fuel with
    | zero => cases hfuel
    | succ fuel =>
      obtain ⟨hat, hpl⟩ := hobj e List.mem_cons_self
      have hread : read32 true e.ptr s = .ok (word s.mem e.ptr, s) := by
        have hhi := hpl.2
        unfold Entry.len at hhi
        rw [kSize_eq] at hhi
        exact read32_ok (by rw [kNVMTabletSize_eq]; omega) fun _ => h0
      rw [search, if_neg h0, bind_of_ok (sameKey_run hat hpl)]
      by_cases hkey : e.key = r.key
      · left
        refine ⟨[], e, es, rfl, hkey, fun x hx => absurd hx List.not_mem_nil, ?_⟩
        simp only [hkey, decide_true, if_true]
        rfl
      · have hne : decide (e.key = r.key) = false := decide_eq_false hkey
        rw [hne, if_neg Bool.false_ne_true, bind_of_ok hread]
        have hfuel' : es.length < fuel := Nat.lt_of_succ_lt_succ hfuel
        -- the object has another key: the loop goes on with it as the predecessor
        rcases ih (q := e.ptr) hrest (fun x hx => hobj x (List.mem_cons_of_mem _ hx)) hfuel' with
          ⟨pre, x, post, rfl, hx, hpre, hrun⟩ | ⟨hno, hrun⟩
        · left
          refine ⟨e :: pre, x, post, rfl, hx, ?_, hrun⟩
          intro y hy
          rcases List.mem_cons.mp hy with rfl | hy
          · exact hkey
          · exact hpre y hy
        · right
          refine ⟨?_, hrun⟩
          intro y hy
          rcases List.mem_cons.mp hy with rfl | hy
          · exact hkey
          · exact hno y hy

/-! ### New objects -/

/-- The memory after an object was filled in at `p`. -/
def putObject (m : Mem) (p next : Nat) (r : Request) : Mem :=
  store (store m p (objectBytes next r)) (p + offsetofData) (r.key ++ r.val)

@[simp] theorem length_objectBytes (next : Nat) (r : Request) :
    (objectBytes next r).length = 16 := by
  simp [objectBytes]

theorem putObject_of_not_mem {p next a : Nat}
    (h : a < p ∨ p + 16 + r.key.length + r.val.length ≤ a) : putObject m p next r a = m a := by
  unfold putObject
  rw [store_of_not_mem (by simp; omega), store_of_not_mem (by simp; omega)]

/-- A field of the header, `w` bytes at offset `i`. -/
theorem loadNat_putObject {p next i w v : Nat} (hiw : i + w ≤ 16)
    (hfield : ((objectBytes next r).drop i).take w = leBytes w v) :
    loadNat (putObject m p next r) (p + i) w = v % 256 ^ w := by
  unfold putObject
  rw [loadNat_store_disjoint (by simp; omega)]
  have hload := load_store_same m p (objectBytes next r)
  rw [length_objectBytes] at hload
  rw [← leValue_take_drop_load _ p 16 i w hiw, hload, hfield, leValue_leBytes]

theorem word_putObject {p next : Nat} (hnext : next < 4294967296) :
    word (putObject m p next r) p = next := by
  have hfield : ((objectBytes next r).drop 0).take 4 = leBytes 4 next := by simp [objectBytes]
  apply Eq.trans (loadNat_putObject (i := 0) (by omega) hfield)
  exact Nat.mod_eq_of_lt (by omega)

theorem objectAt_putObject (m : Mem) (p next : Nat) (r : Request) :
    ObjectAt (putObject m p next r) ⟨p, r.key, r.val⟩ := by
  have hk := r.key_lt
  have hv := r.val_lt
  -- the data is one store of the key followed by the value
  have hdata : load (putObject m p next r) (p + offsetofData) r.key.length ++
      load (putObject m p next r) (p + offsetofData + r.key.length) r.val.length =
      r.key ++ r.val := by
    rw [← load_append, ← List.length_append]
    exact load_store_same _ _ _
  obtain ⟨hkey, hval⟩ := List.append_inj hdata (by simp)
  refine ⟨?_, ?_, hkey, hval⟩
  · show loadNat _ (p + 4) 2 = r.key.length
    rw [loadNat_putObject (v := r.key.length) (by omega) (by simp [objectBytes])]
    exact Nat.mod_eq_of_lt (by omega)
  · show loadNat _ (p + 6) 2 = r.val.length
    have hfield : ((objectBytes next r).drop 6).take 2 = leBytes 2 r.val.length := by
      have hpre : (leBytes 4 next ++ leBytes 2 r.key.length).length = 6 := by simp
      unfold objectBytes
      rw [List.append_assoc, List.drop_left' hpre, List.take_left' (length_leBytes _ _)]
    rw [loadNat_putObject (by omega) hfield]
    exact Nat.mod_eq_of_lt (by omega)

/-- What a new object for `r` at `blk + 4` gives: the heap with one more block, the
    object in it, and the bytes of the live blocks and behind the heap as they were. -/
structure NewObject (s : Nvm) (σ : Shape) (r : Request) (next : Nat) (s' : Nvm) (σ' : Shape)
    (blk : Nat) : Prop where
  heap : HeapInv s'.mem σ'
  roomy : σ'.Roomy true
  live : ∀ x, σ'.Live x ↔ σ.Live x ∨ x = blk
  fresh : ¬ σ.Live blk
  same : ∀ x, σ.Live x → σ'.size x = σ.size x
  object : ObjectAt s'.mem ⟨blk + 4, r.key, r.val⟩
  placed : Placed σ' ⟨blk + 4, r.key, r.val⟩
  next : word s'.mem (blk + 4) = next
  keeps : ∀ a, (kHeapEnd + 4 ≤ a ∨ ∃ x, σ.Payload x a) → s'.mem a = s.mem a

/-- The same on a heap whose last words may not all be in order. -/
structure NewObjectCore (s : Nvm) (σ : Shape) (r : Request) (next : Nat) (s' : Nvm) (σ' : Shape)
    (blk : Nat) : Prop where
  heap : HeapCore s'.mem σ'
  live : ∀ x, σ'.Live x ↔ σ.Live x ∨ x = blk
  fresh : ¬ σ.Live blk
  same : ∀ x, σ.Live x → σ'.size x = σ.size x
  object : ObjectAt s'.mem ⟨blk + 4, r.key, r.val⟩
  placed : Placed σ' ⟨blk + 4, r.key, r.val⟩
  link : word s'.mem (blk + 4) = next
  keeps : ∀ a, (kHeapEnd + 4 ≤ a ∨ ∃ x, σ.Payload x a) → s'.mem a = s.mem a
  full : Footers s.mem σ → σ.Roomy true → NewObject s σ r next s' σ' blk

/-- The object is filled in behind an allocation. -/
theorem newObject_of_alloc (next : Nat) {p : Nat} {s₁ : Nvm}
    (halloc : alloc true (offsetofData + r.key.length + r.val.length) s = .ok (p, s₁)) (hp : p ≠ 0)
    (hB : p + (16 + r.key.length + r.val.length) ≤ kNVMTabletSize) :
    ∃ s', newObject r next s = .ok (p, s') ∧ s'.mem = putObject s₁.mem p next r := by
  rw [kNVMTabletSize_eq] at hB
  refine ⟨(s₁.write p (objectBytes next r)).write (p + offsetofData) (r.key ++ r.val), ?_, rfl⟩
  unfold newObject
  rw [bind_of_ok halloc, assert_of hp, bind_of_ok (pure_run _ _),
    bind_of_ok (write_ok (by simp; omega) (by simp; omega) fun _ => hp),
    bind_of_ok (memcpy_ok (by simp; omega)), pure_run]

/-- **New objects.** The allocation fails an assertion, or the object is there. -/
theorem newObject_run (h : HeapCore s.mem σ)
    (hsize : r.key.length + r.val.length ≤ kMaxItemSize) {next : Nat}
    (hnext : next < 4294967296) :
    newObject r next s = .error .assertion ∨
    ∃ s' σ' blk, newObject r next s = .ok (blk + 4, s') ∧ NewObjectCore s σ r next s' σ' blk := by
  simp only [kMaxItemSize_eq] at hsize
  have hmax : offsetofData + r.key.length + r.val.length + 4 ≤ kMaxBlockSize := by
    simp
    omega
  have hmin : 16 ≤ offsetofData + r.key.length + r.val.length := by
    simp
    omega
  -- either `Alloc` finds nothing, or its assertion fails, or there is a new block
  rcases alloc_run true h (by omega) hmax with ⟨_, hrun⟩ | ⟨_, _, hrun⟩ | ⟨_, s₁, σ', blk, hrun, hok, _⟩
  · left
    unfold newObject
    rw [bind_of_ok hrun]
    rfl
  · left
    exact bind_of_error hrun
  · right
    have hσ' := hok.heap.wf
    have hlive := (hok.acquired.live blk).mpr (Or.inr rfl)
    have hfit := (blockSize_bounds (by omega) hmax).1
    simp only [offsetofData_eq] at hfit
    have hplaced : Placed σ' ⟨blk + 4, r.key, r.val⟩ := by
      refine ⟨by show 4 ≤ blk + 4; omega, hlive, ?_⟩
      show 16 + r.key.length + r.val.length + 4 ≤ σ'.size blk
      rw [hok.acquired.size]
      exact hfit
    obtain ⟨hlo, hhi⟩ := hplaced.bounds hσ'
    have hhi' : blk + 4 + (16 + r.key.length + r.val.length) ≤ 67108852 := hhi
    have hlo' : 296 ≤ blk + 4 := hlo
    have hown : ∀ a, blk + 4 ≤ a → a < blk + 4 + (16 + r.key.length + r.val.length) →
        σ'.Payload blk a := fun a h₁ h₂ => hplaced.payload h₁ h₂
    obtain ⟨s₂, hrun₂, hmem⟩ := newObject_of_alloc next hrun (by omega)
      (by rw [kNVMTabletSize_eq]; omega)
    -- filling in the object is invisible to the heap
    have hagree : ∀ a, a < kHeapEnd + 4 → (∀ x, ¬ σ'.Payload x a) → s₂.mem a = s₁.mem a := by
      intro a _ hout
      rw [hmem]
      apply putObject_of_not_mem
      by_contra hcon
      exact hout blk (hown a (by omega) (by omega))
    have hkeeps : ∀ a, (kHeapEnd + 4 ≤ a ∨ ∃ x, σ.Payload x a) → s₂.mem a = s.mem a := by
      -- the other live blocks are elsewhere
      intro a ha
      have hsame : s₁.mem a = s.mem a := by
        apply hok.keeps
        rcases ha with ha | ⟨x, hx⟩
        · exact Or.inl ha
        · refine Or.inr ⟨x, ?_, hx⟩
          have hx292 := (h.wf.node hx.1.1).1
          simp only [kHeapBegin_eq] at hx292
          omega
      rw [hmem, ← hsame]
      apply putObject_of_not_mem
      rcases ha with ha | ⟨x, hx⟩
      · simp only [kHeapEnd_eq] at ha
        right
        omega
      · have hx' : σ'.Payload x a := by
          refine ⟨(hok.acquired.live x).mpr (Or.inl hx.1), hx.2.1, ?_⟩
          rw [hok.acquired.same x hx.1]
          exact hx.2.2
        have hne : x ≠ blk := by
          intro heq
          exact hok.acquired.fresh (heq ▸ hx.1)
        have hd := hplaced.disjoint hσ' hx' (by show x ≠ blk + 4 - 4; omega)
        have hd' : a < blk + 4 ∨ blk + 4 + (16 + r.key.length + r.val.length) ≤ a := hd
        omega
    have hobject : ObjectAt s₂.mem ⟨blk + 4, r.key, r.val⟩ := by
      rw [hmem]
      exact objectAt_putObject _ _ _ _
    have hword : word s₂.mem (blk + 4) = next := by
      rw [hmem]
      exact word_putObject hnext
    have hacq := hok.acquired
    refine ⟨s₂, σ', blk, hrun₂, hok.heap.of_agree hσ' hagree, hacq.live, hacq.fresh, hacq.same,
      hobject, hplaced, hword, hkeeps, ?_⟩
    intro hf hr
    have hfull := hok.ok hf hr
    exact ⟨hfull.heap.of_agree hagree, hfull.roomy, hacq.live, hacq.fresh, hacq.same, hobject,
      hplaced, hword, hkeeps⟩

end Nvds.Tablet
