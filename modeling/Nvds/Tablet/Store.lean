import Nvds.Tablet.Chains

/-! # The tablet's invariant

    `TabletInv` is the invariant of the whole tablet: a well-formed heap and
    a chain of objects for every bucket. `Represents` relates the chains to
    the map from keys to values they stand for. The chains are those of
    `Chains` over the live blocks of the heap.
-/

open ByteMemory Program LinkedList Tiling Nvds.Allocator

namespace Nvds.Tablet

/-! ### The abstract map -/

/-- A finite map from keys to values. -/
abbrev Store := List UInt8 → Option (List UInt8)

/-- What a request is answered, and what it does to the map. -/
def Store.serve (M : Store) (r : Request) : Response × Store :=
  match r.type with
  | .put => (⟨.put, .ok, []⟩, Function.update M r.key (some r.val))
  | .add =>
    match M r.key with
    | some _ => (⟨.add, .error, []⟩, M)
    | none => (⟨.add, .ok, []⟩, Function.update M r.key (some r.val))
  | .get =>
    match M r.key with
    | some v => (⟨.get, .ok, v⟩, M)
    | none => (⟨.get, .error, []⟩, M)
  | .del =>
    match M r.key with
    | some _ => (⟨.del, .ok, []⟩, Function.update M r.key none)
    | none => (⟨.del, .error, []⟩, M)

/-! ### The invariant -/

/-- Bucket `i` is the chain `es` of objects with different keys that belong there. -/
structure Bucket (hash : List UInt8 → Nat) (m : Mem) (σ : Shape) (i : Nat) (es : List Entry) :
    Prop where
  chain : Chain m (slotOf i) es
  object : ∀ e ∈ es, ObjectAt m e
  placed : ∀ e ∈ es, Placed σ e
  bucket : ∀ e ∈ es, hash e.key % kHashTableSize = i
  keys : (es.map (·.key)).Nodup

/-- The tablet `m` is well-formed: its heap is `σ`, and `ch` are its buckets. -/
structure TabletInv (hash : List UInt8 → Nat) (m : Mem) (σ : Shape) (ch : Nat → List Entry) :
    Prop where
  heap : HeapInv m σ
  roomy : σ.Roomy true
  buckets : ∀ i, i < kHashTableSize → Bucket hash m σ i (ch i)

/-- The chains bind the keys as the map does. -/
def Represents (hash : List UInt8 → Nat) (ch : Nat → List Entry) (M : Store) : Prop :=
  ∀ k v, M k = some v ↔ ∃ e ∈ ch (hash k % kHashTableSize), e.key = k ∧ e.val = v

variable {hash : List UInt8 → Nat} {m m₂ : Mem} {σ σ₂ : Shape} {ch : Nat → List Entry} {M : Store}
  {s : Nvm} {r : Request}

/-! ### The live blocks of a heap -/

/-- The live blocks as the tablet gets them, behind their headers. -/
def blocks (σ : Shape) : Blocks := fun p =>
  if 4 ≤ p ∧ σ.free (p - 4) = false then σ.size (p - 4) - 4 else 0

theorem blocks_ne_zero (hσ : σ.WF) {p : Nat} : blocks σ p ≠ 0 ↔ 4 ≤ p ∧ σ.Live (p - 4) := by
  unfold blocks Shape.Live
  by_cases hp : 4 ≤ p ∧ σ.free (p - 4) = false
  · rw [if_pos hp]
    constructor
    · intro hne
      exact ⟨hp.1, by omega, hp.2⟩
    · -- a block is larger than its header
      rintro ⟨_, hne, _⟩
      have := hσ.size_ge hne
      omega
  · rw [if_neg hp]
    constructor
    · exact fun hne => absurd rfl hne
    · rintro ⟨h4, _, hf⟩
      exact absurd ⟨h4, hf⟩ hp

theorem blocks_eq {p : Nat} (h4 : 4 ≤ p) (hl : σ.Live (p - 4)) :
    blocks σ p = σ.size (p - 4) - 4 :=
  if_pos ⟨h4, hl.2⟩

theorem blocks_wf (hσ : σ.WF) : (blocks σ).WF := by
  constructor
  · intro p hp
    obtain ⟨h4, hl⟩ := (blocks_ne_zero hσ).mp hp
    obtain ⟨hlo, _, _, _, hend⟩ := hσ.layout hl.1
    rw [blocks_eq h4 hl, kSize_eq]
    omega
  · intro p q hp hq hne
    obtain ⟨hp4, hpl⟩ := (blocks_ne_zero hσ).mp hp
    obtain ⟨hq4, hql⟩ := (blocks_ne_zero hσ).mp hq
    rw [blocks_eq hp4 hpl, blocks_eq hq4 hql]
    have := hσ.tiled.disjoint hpl.1 hql.1 (by omega)
    omega

theorem placed_iff (hσ : σ.WF) {e : Entry} : Placed σ e ↔ e.Fits (blocks σ) := by
  have hlen := e.len_ge
  unfold Entry.Fits
  constructor
  · intro h
    have hfits := h.fits
    rw [blocks_eq h.ptr h.live]
    omega
  · intro h
    obtain ⟨h4, hl⟩ := (blocks_ne_zero hσ).mp (show blocks σ e.ptr ≠ 0 by omega)
    rw [blocks_eq h4 hl] at h
    exact ⟨h4, hl, by omega⟩

theorem bucket_iff (hσ : σ.WF) {i : Nat} {es : List Entry} :
    Bucket hash m σ i es ↔ BucketIn hash m (blocks σ) i es := by
  constructor
  · intro h
    exact ⟨h.chain, h.object, fun e he => (placed_iff hσ).mp (h.placed e he), h.bucket, h.keys⟩
  · intro h
    exact ⟨h.chain, h.object, fun e he => (placed_iff hσ).mpr (h.fits e he), h.bucket, h.keys⟩

/-- A well-formed tablet: a heap with consistent tags and lists, and in every bucket a chain
    of objects in live blocks, with different keys that belong there. -/
structure WellFormed (hash : List UInt8 → Nat) (m : Mem) (σ : Shape) (ch : Nat → List Entry) :
    Prop where
  heap : HeapInv m σ
  buckets : ∀ i, i < kHashTableSize → Bucket hash m σ i (ch i)

theorem TabletInv.wellFormed (h : TabletInv hash m σ ch) : WellFormed hash m σ ch :=
  ⟨h.heap, h.buckets⟩

theorem WellFormed.chains (h : WellFormed hash m σ ch) : Chains hash m (blocks σ) ch :=
  ⟨blocks_wf h.heap.wf, fun i hi => (bucket_iff h.heap.wf).mp (h.buckets i hi)⟩

theorem Chains.tabletInv (h : Chains hash m (blocks σ) ch) (hheap : HeapInv m σ)
    (hr : σ.Roomy true) : TabletInv hash m σ ch :=
  ⟨hheap, hr, fun i hi => (bucket_iff hheap.wf).mpr (h.buckets i hi)⟩

/-! ### The abstract value -/

/-- Binding a key in its bucket binds it in the map. -/
theorem Represents.bind (hM : Represents hash ch M) {e : Entry} {es : List Entry} {i : Nat}
    (hi : hash e.key % kHashTableSize = i)
    (hes : ∀ x, x ∈ es ↔ x = e ∨ x ∈ ch i ∧ x.key ≠ e.key) :
    Represents hash (Function.update ch i es) (Function.update M e.key (some e.val)) := by
  intro k v
  -- the key has one object, the new one; other keys keep theirs
  by_cases hk : k = e.key
  · subst hk
    rw [Function.update_self, hi, Function.update_self]
    constructor
    · intro hv
      exact ⟨e, (hes e).mpr (Or.inl rfl), rfl, Option.some.inj hv⟩
    · intro ⟨x, hx, hxk, hxv⟩
      rcases (hes x).mp hx with rfl | ⟨_, hne⟩
      · rw [hxv]
      · exact absurd hxk hne
  · rw [Function.update_of_ne hk, hM k v]
    by_cases hj : hash k % kHashTableSize = i
    · rw [hj, Function.update_self]
      constructor
      · intro ⟨x, hx, hxk, hxv⟩
        exact ⟨x, (hes x).mpr (Or.inr ⟨hx, fun heq => hk (hxk.symm.trans heq)⟩), hxk, hxv⟩
      · intro ⟨x, hx, hxk, hxv⟩
        rcases (hes x).mp hx with rfl | ⟨hx, _⟩
        · exact absurd hxk.symm hk
        · exact ⟨x, hx, hxk, hxv⟩
    · rw [Function.update_of_ne hj]

end Nvds.Tablet
