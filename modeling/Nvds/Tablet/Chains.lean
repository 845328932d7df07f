import Mathlib.Tactic.Tauto
import Nvds.Tablet.Objects

/-! # The chains of a tablet

    The buckets of a tablet as chains of objects, over any set of blocks that
    do not overlap. Nothing here depends on how the blocks are managed.

    The tablet edits one bucket at a time: it leads one link to another
    object (`Chains.redirect`), which inserts, replaces or removes an object,
    or stores a shorter value over the old one (`Chains.shrink`).
-/

open ByteMemory Program LinkedList Nvds.Allocator

namespace Nvds.Tablet

/-! ### Blocks -/

/-- The blocks that are in use: `B p` bytes at `p`, none if `B p = 0`. -/
abbrev Blocks := Nat → Nat

/-- The blocks lie in the heap and do not overlap. -/
structure Blocks.WF (B : Blocks) : Prop where
  inside : ∀ p, B p ≠ 0 → p ≠ 0 ∧ p + B p ≤ kSize
  disjoint : ∀ p q, B p ≠ 0 → B q ≠ 0 → p ≠ q → p + B p ≤ q ∨ q + B q ≤ p

/-- The byte `a` belongs to a block. -/
def Blocks.Owns (B : Blocks) (a : Nat) : Prop := ∃ p, p ≤ a ∧ a < p + B p

/-- The object fits into the block at its place. -/
def Entry.Fits (B : Blocks) (e : Entry) : Prop := e.len ≤ B e.ptr

variable {hash : List UInt8 → Nat} {m m₂ : Mem} {B B₂ : Blocks} {ch : Nat → List Entry}
  {s : Nvm} {r : Request} {e e' : Entry}

theorem Entry.len_ge (e : Entry) : 16 ≤ e.len := by
  unfold Entry.len
  omega

theorem Entry.Fits.ne_zero (h : e.Fits B) : B e.ptr ≠ 0 := by
  have hlen := e.len_ge
  have hfit : e.len ≤ B e.ptr := h
  omega

theorem Entry.Fits.inside (hB : B.WF) (h : e.Fits B) : e.Inside := by
  obtain ⟨h0, hhi⟩ := hB.inside e.ptr h.ne_zero
  have hfit : e.len ≤ B e.ptr := h
  exact ⟨h0, by omega⟩

/-- Objects at different places do not overlap. -/
theorem Entry.Fits.disjoint (hB : B.WF) (h : e.Fits B) (h' : e'.Fits B) (hne : e.ptr ≠ e'.ptr) :
    e.ptr + e.len ≤ e'.ptr ∨ e'.ptr + e'.len ≤ e.ptr := by
  have hfit : e.len ≤ B e.ptr := h
  have hfit' : e'.len ≤ B e'.ptr := h'
  rcases hB.disjoint _ _ h.ne_zero h'.ne_zero hne with hle | hle
  · left
    omega
  · right
    omega

theorem Entry.Fits.owns (h : e.Fits B) {a : Nat} (h₁ : e.ptr ≤ a) (h₂ : a < e.ptr + e.len) :
    B.Owns a := by
  have hfit : e.len ≤ B e.ptr := h
  exact ⟨e.ptr, h₁, by omega⟩

/-! ### Buckets -/

/-- Bucket `i` is the chain `es` of objects with different keys that belong there. -/
structure BucketIn (hash : List UInt8 → Nat) (m : Mem) (B : Blocks) (i : Nat) (es : List Entry) :
    Prop where
  chain : Chain m (slotOf i) es
  object : ∀ e ∈ es, ObjectAt m e
  fits : ∀ e ∈ es, e.Fits B
  bucket : ∀ e ∈ es, hash e.key % kHashTableSize = i
  keys : (es.map (·.key)).Nodup

/-- The buckets of `m` are the chains `ch` of objects in the blocks `B`. -/
structure Chains (hash : List UInt8 → Nat) (m : Mem) (B : Blocks) (ch : Nat → List Entry) :
    Prop where
  wf : B.WF
  buckets : ∀ i, i < kHashTableSize → BucketIn hash m B i (ch i)

/-- The object that splits a bucket is in it. -/
theorem mem_of_split {pre post : List Entry} (h : es = pre ++ e :: post) : e ∈ es := by
  rw [h]
  exact List.mem_append_cons_self

theorem mem_middle {x : Entry} {pre post : List Entry} :
    x ∈ pre ++ e :: post ↔ x = e ∨ x ∈ pre ++ post := by
  simp only [List.mem_append, List.mem_cons]
  tauto

theorem bucketOf_lt (r : Request) : bucketOf r < kHashTableSize :=
  Nat.mod_lt _ (by decide)

theorem slotOf_bounds {i : Nat} (hi : i < kHashTableSize) :
    67108864 ≤ slotOf i ∧ slotOf i + 4 ≤ kNVMTabletSize ∧ slotOf i % 4 = 0 := by
  simp only [kHashTableSize_eq] at hi
  unfold slotOf
  simp
  omega

/-- The objects lie in front of the hash table. -/
theorem Entry.Fits.below_slot (hB : B.WF) (h : e.Fits B) (i : Nat) : e.ptr + 16 ≤ slotOf i := by
  have hhi := (h.inside hB).2
  have hlen := e.len_ge
  rw [kSize_eq] at hhi
  rw [slotOf, offsetofHashTable_eq]
  omega

theorem bucketOf_eq (hh : r.keyHash = hash r.key) :
    hash r.key % kHashTableSize = bucketOf r := by
  unfold bucketOf
  rw [hh]

/-- Objects at the same place are the same object in the same bucket. -/
theorem Chains.eq_of_ptr (h : Chains hash m B ch) {i j : Nat} (hi : i < kHashTableSize)
    (hj : j < kHashTableSize) (he : e ∈ ch i) (he' : e' ∈ ch j) (hp : e.ptr = e'.ptr) :
    i = j ∧ e = e' := by
  have hbi := h.buckets i hi
  have hbj := h.buckets j hj
  have heq := (hbi.object e he).unique (hbj.object e' he') hp
  refine ⟨?_, heq⟩
  rw [← hbi.bucket e he, ← hbj.bucket e' he', heq]

/-- The objects of a bucket are at different places. -/
theorem BucketIn.ptr_nodup {i : Nat} {es : List Entry} (h : BucketIn hash m B i es) :
    (es.map (·.ptr)).Nodup := by
  have hne : es.Pairwise fun x y => x.key ≠ y.key := List.pairwise_map.mp h.keys
  refine List.pairwise_map.mpr (hne.imp_of_mem fun {x y} hx hy hxy hp => hxy ?_)
  rw [(h.object x hx).unique (h.object y hy) hp]

/-- The other objects of a bucket have other keys. -/
theorem BucketIn.key_ne {i : Nat} {pre post : List Entry}
    (h : BucketIn hash m B i (pre ++ e :: post)) : ∀ x ∈ pre ++ post, x.key ≠ e.key := by
  intro x hx heq
  have hnd := h.keys
  rw [List.map_append, List.map_cons, List.nodup_middle, ← List.map_append] at hnd
  exact (List.nodup_cons.mp hnd).1 (heq ▸ List.mem_map_of_mem hx)

/-- A key is bound once in a bucket. -/
theorem BucketIn.eq_of_key {i : Nat} {es : List Entry} (h : BucketIn hash m B i es)
    (he : e ∈ es) (he' : e' ∈ es) (hk : e'.key = e.key) : e' = e :=
  List.inj_on_of_nodup_map h.keys he' he hk

/-- The objects that stay when `e` is taken out of its bucket are elsewhere. -/
theorem Chains.ptr_ne (h : Chains hash m B ch) {i j : Nat} (hi : i < kHashTableSize)
    (hj : j < kHashTableSize) {pre post : List Entry} (hch : ch i = pre ++ e :: post)
    (hx : e' ∈ ch j) (hstay : j = i → e' ∈ pre ++ post) : e'.ptr ≠ e.ptr := by
  intro heq
  have he := mem_of_split hch
  obtain ⟨hji, rfl⟩ := h.eq_of_ptr hj hi hx he heq
  have hb := h.buckets i hi
  rw [hch] at hb
  exact hb.key_ne e' (hstay hji) rfl

/-- The members of a bucket in which `e` was replaced. -/
theorem BucketIn.mem_replace {i : Nat} {pre post : List Entry}
    (h : BucketIn hash m B i (pre ++ e :: post)) (e' x : Entry) :
    x ∈ pre ++ e' :: post ↔ x = e' ∨ x ∈ pre ++ e :: post ∧ x.key ≠ e.key := by
  have hne := h.key_ne
  simp only [List.mem_append, List.mem_cons] at hne ⊢
  constructor
  · intro hx
    rcases hx with hx | hx | hx
    · exact Or.inr ⟨Or.inl hx, hne x (Or.inl hx)⟩
    · exact Or.inl hx
    · exact Or.inr ⟨Or.inr (Or.inr hx), hne x (Or.inr hx)⟩
  · intro hx
    rcases hx with hx | ⟨hx | hx | hx, hk⟩
    · exact Or.inr (Or.inl hx)
    · exact Or.inl hx
    · exact absurd (by rw [hx]) hk
    · exact Or.inr (Or.inr hx)

/-- The object is the same in both memories, and still in a block. -/
def Kept (m : Mem) (B₂ : Blocks) (m₂ : Mem) (e : Entry) : Prop :=
  e.Fits B₂ ∧ ∀ a, e.ptr ≤ a → a < e.ptr + e.len → m₂ a = m a

theorem Kept.object (h : Kept m B₂ m₂ e) (ho : ObjectAt m e) : ObjectAt m₂ e :=
  ho.congr fun a h₁ h₂ => h.2 a (by omega) h₂

theorem Kept.word (h : Kept m B₂ m₂ e) : word m₂ e.ptr = word m e.ptr := by
  have hlen := e.len_ge
  apply word_congr
  intro a h₁ h₂
  exact h.2 a h₁ (by omega)

/-- A bucket depends on its slot and its objects only. -/
theorem BucketIn.congr {i : Nat} {es : List Entry} (h : BucketIn hash m B i es)
    (hslot : word m₂ (slotOf i) = word m (slotOf i)) (hkept : ∀ e ∈ es, Kept m B₂ m₂ e) :
    BucketIn hash m₂ B₂ i es := by
  refine ⟨?_, fun e he => (hkept e he).object (h.object e he), fun e he => (hkept e he).1,
    h.bucket, h.keys⟩
  have hold := h.chain
  unfold Chain at hold ⊢
  rw [hslot]
  apply hold.congr
  intro x hx
  obtain ⟨e, he, rfl⟩ := List.mem_map.mp hx
  exact (hkept e he).word

/-- The objects of the chains with one bucket replaced. -/
theorem mem_update {i j : Nat} {es : List Entry} (h : e ∈ Function.update ch i es j) :
    (j = i ∧ e ∈ es) ∨ (j ≠ i ∧ e ∈ ch j) := by
  by_cases hji : j = i
  · rw [hji, Function.update_self] at h
    exact Or.inl ⟨hji, h⟩
  · rw [Function.update_of_ne hji] at h
    exact Or.inr ⟨hji, h⟩

/-- One bucket of the tablet replaced. -/
theorem Chains.update (h : Chains hash m B ch) {i : Nat} {es : List Entry} (hB : B₂.WF)
    (hslot : ∀ j, j < kHashTableSize → j ≠ i → word m₂ (slotOf j) = word m (slotOf j))
    (hkept : ∀ j, j < kHashTableSize → j ≠ i → ∀ e ∈ ch j, Kept m B₂ m₂ e)
    (hes : BucketIn hash m₂ B₂ i es) : Chains hash m₂ B₂ (Function.update ch i es) := by
  refine ⟨hB, ?_⟩
  intro j hj
  by_cases hji : j = i
  · rw [hji, Function.update_self]
    exact hes
  · rw [Function.update_of_ne hji]
    exact (h.buckets j hj).congr (hslot j hj hji) (hkept j hj hji)

/-! ### Redirecting a link -/

theorem linkOf_cases (q : Nat) (es : List Entry) :
    (es = [] ∧ linkOf q es = q) ∨ ∃ e ∈ es, linkOf q es = e.ptr := by
  induction es generalizing q with
  | nil => exact Or.inl ⟨rfl, rfl⟩
  | cons e es ih =>
    right
    rcases ih e.ptr with ⟨_, heq⟩ | ⟨x, hx, heq⟩
    · exact ⟨e, List.mem_cons_self, heq⟩
    · exact ⟨x, List.mem_cons_of_mem _ hx, heq⟩

/-- The link behind `pre` is the slot or the `next` field of an object of `pre`. -/
theorem link_cases (i : Nat) (pre : List Entry) :
    linkOf (slotOf i) pre = slotOf i ∨ ∃ x ∈ pre, linkOf (slotOf i) pre = x.ptr :=
  (linkOf_cases (slotOf i) pre).imp (·.2) id

/-- The new chain: up to `linkOf` as before, then `rest'`. -/
theorem Chain.redirect {q : Nat} {pre rest rest' : List Entry}
    (hold : Chain m q (pre ++ rest)) (hq : q ≠ 0) (hnd : (q :: pre.map (·.ptr)).Nodup)
    (hpre : ∀ x ∈ q :: pre.map (·.ptr), x ≠ linkOf q pre → word m₂ x = word m x)
    (hrest : Seg (word m₂) (word m₂ (linkOf q pre)) (rest'.map (·.ptr)) 0) :
    Chain m₂ q (pre ++ rest') := by
  unfold Chain at hold ⊢
  rw [List.map_append] at hold ⊢
  obtain ⟨b, hfront, _⟩ := seg_append.mp hold
  obtain ⟨xs, hxs⟩ := cons_eq_append_linkOf q pre
  have hfront' : Seg (word m) q (xs ++ [linkOf q pre]) b := by
    rw [← hxs]
    exact ⟨rfl, hq, hfront⟩
  rw [hxs] at hnd
  have hlast : linkOf q pre ∉ xs := by
    intro hmem
    exact (List.nodup_append.mp hnd).2.2 _ hmem _ (List.mem_singleton.mpr rfl) rfl
  have hnew : Seg (word m₂) q (xs ++ [linkOf q pre]) (word m₂ (linkOf q pre)) := by
    refine hfront'.redirect hlast ?_ rfl
    intro x hx
    refine hpre x ?_ fun heq => hlast (heq ▸ hx)
    rw [hxs]
    exact List.mem_append_left _ hx
  rw [← hxs] at hnew
  exact seg_append.mpr ⟨_, hnew.2.2, hrest⟩

section link

variable {i q v : Nat} {pre : List Entry} (hi : i < kHashTableSize) (hB : B₂.WF)
  (hpre : ∀ x ∈ pre, x.Fits B₂) (hq : q = slotOf i ∨ ∃ x ∈ pre, q = x.ptr)

include hi hB hpre hq

/-- The store to a link is not seen by an object elsewhere, -/
theorem link_out {y : Entry} (hy : y.Fits B₂) (hne : y.ptr ≠ q) {a : Nat} (h₁ : y.ptr ≤ a)
    (h₂ : a < y.ptr + y.len) : storeNat m₂ q 4 v a = m₂ a := by
  apply storeNat_of_not_mem
  have hyhi := (hy.inside hB).2
  rw [kSize_eq] at hyhi
  rcases hq with hq | ⟨x, hx, hq⟩
  · have hslo := (slotOf_bounds hi).1
    omega
  · have hlen := x.len_ge
    have hd := hy.disjoint hB (hpre x hx) (by omega)
    omega

/-- nor, up to its own `next` field, by an object at the link, -/
theorem link_object {y : Entry} (hy : y.Fits B₂) (ho : ObjectAt m₂ y) :
    ObjectAt (storeNat m₂ q 4 v) y := by
  apply ho.congr
  intro a h₁ h₂
  by_cases hyq : y.ptr = q
  · exact storeNat_of_not_mem (by omega)
  · exact link_out hi hB hpre hq hy hyq (by omega) h₂

omit hi in
/-- nor by another slot. -/
theorem link_slot {j : Nat} (hne : slotOf j ≠ q) :
    word (storeNat m₂ q 4 v) (slotOf j) = word m₂ (slotOf j) := by
  apply loadNat_store_disjoint
  rw [length_leBytes]
  rcases hq with hq | ⟨x, hx, hq⟩
  · unfold slotOf at *
    omega
  · have hbelow := (hpre x hx).below_slot hB j
    omega

end link

/-- **Redirecting.** In `m₂` the slots and the objects in front of the link are those of
    `m`, and the objects `rest'` follow each other from `v` on. Storing `v` at the link
    gives bucket `i` the new end `rest'`. -/
theorem Chains.redirect (h : Chains hash m B ch) {i v : Nat} (hi : i < kHashTableSize)
    {pre rest rest' : List Entry} (hch : ch i = pre ++ rest) (hB : B₂.WF)
    (hslot : ∀ j, j < kHashTableSize → word m₂ (slotOf j) = word m (slotOf j))
    (hkept : ∀ j, j < kHashTableSize → ∀ x ∈ ch j, (j = i → x ∈ pre) → Kept m B₂ m₂ x)
    (hrest : ∀ x ∈ rest', ObjectAt m₂ x ∧ x.Fits B₂ ∧ hash x.key % kHashTableSize = i)
    (hkeys : ((pre ++ rest').map (·.key)).Nodup) (hv : v < 4294967296)
    (hseg : Seg (word m₂) v (rest'.map (·.ptr)) 0) :
    Chains hash (storeNat m₂ (linkOf (slotOf i) pre) 4 v) B₂
      (Function.update ch i (pre ++ rest')) := by
  have hold := h.buckets i hi
  rw [hch] at hold
  have hmem : ∀ x ∈ pre, x ∈ ch i := by
    intro x hx
    rw [hch]
    exact List.mem_append_left _ hx
  have hkept' : ∀ x ∈ pre, Kept m B₂ m₂ x := fun x hx => hkept i hi x (hmem x hx) fun _ => hx
  have hpre : ∀ x ∈ pre, x.Fits B₂ := fun x hx => (hkept' x hx).1
  have hqcase := link_cases i pre
  obtain ⟨q, hq⟩ : ∃ q, q = linkOf (slotOf i) pre := ⟨_, rfl⟩
  rw [← hq] at hqcase ⊢
  obtain ⟨hslo, hsB, _⟩ := slotOf_bounds hi
  -- an object that is not at the link is as it was
  have hout : ∀ x, Kept m B₂ m₂ x → x.ptr ≠ q → Kept m B₂ (storeNat m₂ q 4 v) x := by
    intro x hx hne
    refine ⟨hx.1, ?_⟩
    intro a h₁ h₂
    rw [link_out hi hB hpre hqcase hx.1 hne h₁ h₂]
    exact hx.2 a h₁ h₂
  have hndp : (pre.map (·.ptr)).Nodup := by
    have hnd := hold.ptr_nodup
    rw [List.map_append] at hnd
    exact (List.nodup_append.mp hnd).1
  -- the new end does not contain the link
  have hqrest : ∀ x ∈ rest', x.ptr ≠ q := by
    intro x hx hcon
    obtain ⟨hxo, hxf, _⟩ := hrest x hx
    rcases hqcase with hqs | ⟨y, hy, hqy⟩
    · have hbelow := hxf.below_slot hB i
      omega
    · have hyo := (hkept' y hy).object ((h.buckets i hi).object y (hmem y hy))
      have heq := hxo.unique hyo (hcon.trans hqy)
      rw [List.map_append] at hkeys
      exact (List.nodup_append.mp hkeys).2.2 y.key (List.mem_map_of_mem hy) x.key
        (List.mem_map_of_mem hx) (by rw [heq])
  refine h.update hB (fun j hj hji => ?_) (fun j hj hji x hx => ?_) ⟨?_, fun x hx => ?_,
    fun x hx => ?_, fun x hx => ?_, hkeys⟩
  · rw [link_slot hB hpre hqcase, hslot j hj]
    -- the slots of other buckets are below the heap, or behind the link
    rcases hqcase with hqs | ⟨x, hx, hqx⟩
    · unfold slotOf at *
      omega
    · have hbelow := (hpre x hx).below_slot hB j
      omega
  · -- an object of another bucket
    have hx₂ := hkept j hj x hx fun hcon => absurd hcon hji
    apply hout x hx₂
    intro hcon
    rcases hqcase with hqs | ⟨y, hy, hqy⟩
    · have hbelow := hx₂.1.below_slot hB i
      omega
    · exact hji (h.eq_of_ptr hj hi hx (hmem y hy) (hcon.trans hqy)).1
  · have hvq : word (storeNat m₂ q 4 v) q = v :=
      (loadNat_storeNat m₂ q 4 v).trans (Nat.mod_eq_of_lt hv)
    refine hold.chain.redirect (by omega) ?_ ?_ ?_
    · refine List.nodup_cons.mpr ⟨?_, hndp⟩
      intro hcon
      obtain ⟨x, hx, hxs⟩ := List.mem_map.mp hcon
      have hbelow := (hpre x hx).below_slot hB i
      omega
    · rw [← hq]
      intro x hx hne
      -- up to the link the chain is as it was, and from there it goes on at `v`
      rcases List.mem_cons.mp hx with rfl | hx
      · rw [link_slot hB hpre hqcase hne, hslot i hi]
      · obtain ⟨y, hy, rfl⟩ := List.mem_map.mp hx
        exact (hout y (hkept' y hy) hne).word
    · rw [← hq, hvq]
      apply hseg.congr
      intro x hx
      obtain ⟨y, hy, rfl⟩ := List.mem_map.mp hx
      have hylen := y.len_ge
      apply word_congr
      intro a h₁ h₂
      exact link_out hi hB hpre hqcase (hrest y hy).2.1 (hqrest y hy) h₁ (by omega)
  · rcases List.mem_append.mp hx with hx | hx
    · exact link_object hi hB hpre hqcase (hpre x hx)
        ((hkept' x hx).object ((h.buckets i hi).object x (hmem x hx)))
    · obtain ⟨hxo, hxf, _⟩ := hrest x hx
      exact link_object hi hB hpre hqcase hxf hxo
  · rcases List.mem_append.mp hx with hx | hx
    · exact hpre x hx
    · exact (hrest x hx).2.1
  · rcases List.mem_append.mp hx with hx | hx
    · exact (h.buckets i hi).bucket x (hmem x hx)
    · exact (hrest x hx).2.2

/-! ### The edits of the tablet -/

/-- **Linking.** The object `e` of `m₂` is linked in behind `pre` and in front of `tail`. -/
theorem Chains.link (h : Chains hash m B ch) {i : Nat} (hi : i < kHashTableSize)
    {pre rest tail : List Entry} (hch : ch i = pre ++ rest) (hsub : tail.Sublist rest)
    (hB : B₂.WF) (hslot : ∀ j, j < kHashTableSize → word m₂ (slotOf j) = word m (slotOf j))
    (hkept : ∀ j, j < kHashTableSize → ∀ x ∈ ch j, (j = i → x ∈ pre ++ tail) → Kept m B₂ m₂ x)
    (hobj : ObjectAt m₂ e) (hfit : e.Fits B₂) (hkey : hash e.key % kHashTableSize = i)
    (hnew : ∀ x ∈ pre ++ tail, x.key ≠ e.key)
    (hnext : Seg (word m) (word m₂ e.ptr) (tail.map (·.ptr)) 0) :
    Chains hash (storeNat m₂ (linkOf (slotOf i) pre) 4 e.ptr) B₂
      (Function.update ch i (pre ++ e :: tail)) := by
  have hold := h.buckets i hi
  have hmem : ∀ x ∈ pre ++ tail, x ∈ ch i := by
    intro x hx
    rw [hch]
    exact (List.Sublist.append_left hsub pre).subset hx
  have htail : ∀ x ∈ tail, Kept m B₂ m₂ x := fun x hx =>
    hkept i hi x (hmem x (List.mem_append_right _ hx)) fun _ => List.mem_append_right _ hx
  obtain ⟨he0, hehi⟩ := hfit.inside hB
  have hlen := e.len_ge
  rw [kSize_eq] at hehi
  -- the new object takes the place of the end of the chain, which it goes on with
  refine h.redirect hi hch hB hslot (fun j hj x hx hx' => hkept j hj x hx fun hji =>
    List.mem_append_left _ (hx' hji)) ?_ ?_ (by omega) ⟨rfl, he0, ?_⟩
  · intro x hx
    rcases List.mem_cons.mp hx with rfl | hx
    · exact ⟨hobj, hfit, hkey⟩
    · have hxi := hmem x (List.mem_append_right _ hx)
      exact ⟨(htail x hx).object (hold.object x hxi), (htail x hx).1, hold.bucket x hxi⟩
  · rw [List.map_append, List.map_cons, List.nodup_middle, ← List.map_append]
    refine List.nodup_cons.mpr ⟨?_, ?_⟩
    · intro hcon
      obtain ⟨x, hx, hxk⟩ := List.mem_map.mp hcon
      exact hnew x hx hxk
    · have hkeys := hold.keys
      rw [hch] at hkeys
      exact hkeys.sublist ((List.Sublist.append_left hsub pre).map _)
  · apply hnext.congr
    intro x hx
    obtain ⟨y, hy, rfl⟩ := List.mem_map.mp hx
    exact (htail y hy).word

/-- What follows an object of a chain. -/
theorem Chain.tail {q : Nat} {pre post : List Entry} (h : Chain m q (pre ++ e :: post)) :
    Seg (word m) (word m e.ptr) (post.map (·.ptr)) 0 := by
  unfold Chain at h
  rw [List.map_append] at h
  obtain ⟨b, _, rfl, _, htail⟩ := seg_append.mp h
  exact htail

/-- **Unlinking.** The link towards `e` is led past it. -/
theorem Chains.unlink (h : Chains hash m B ch) {i : Nat} (hi : i < kHashTableSize)
    {pre post : List Entry} (hch : ch i = pre ++ e :: post) :
    Chains hash (storeNat m (linkOf (slotOf i) pre) 4 (word m e.ptr)) B
      (Function.update ch i (pre ++ post)) := by
  have hold := h.buckets i hi
  have hsub : (pre ++ post).Sublist (ch i) := by
    rw [hch]
    exact List.Sublist.append_left (List.sublist_cons_self e post) pre
  have hchain := hold.chain
  rw [hch] at hchain
  refine h.redirect hi hch h.wf (fun _ _ => rfl) (fun j hj x hx _ =>
    ⟨(h.buckets j hj).fits x hx, fun _ _ _ => rfl⟩) ?_ (hold.keys.sublist (hsub.map _))
    (word_lt m e.ptr) hchain.tail
  intro x hx
  have hxi := hsub.subset (List.mem_append_right pre hx)
  exact ⟨hold.object x hxi, hold.fits x hxi, hold.bucket x hxi⟩

/-- The chains stay if their slots and objects do. -/
theorem Chains.congr (h : Chains hash m B ch) (hB : B₂.WF)
    (hslot : ∀ j, j < kHashTableSize → word m₂ (slotOf j) = word m (slotOf j))
    (hkept : ∀ j, j < kHashTableSize → ∀ x ∈ ch j, Kept m B₂ m₂ x) : Chains hash m₂ B₂ ch :=
  ⟨hB, fun j hj => (h.buckets j hj).congr (hslot j hj) (hkept j hj)⟩

/-- The object with a shorter value, stored over the old one. -/
theorem objectAt_shrink (h : ObjectAt m e) {v : List UInt8} (hv : v.length < 65536) :
    ObjectAt (store (storeNat m (e.ptr + offsetofValLen) 2 v.length)
      (e.ptr + offsetofData + e.key.length) v) ⟨e.ptr, e.key, v⟩ := by
  simp only [offsetofValLen_eq, offsetofData_eq]
  have hoff : ∀ a, e.ptr + 8 ≤ a → a < e.ptr + 16 + e.key.length →
      store (storeNat m (e.ptr + 6) 2 v.length) (e.ptr + 16 + e.key.length) v a = m a := by
    intro a h₁ h₂
    rw [store_of_not_mem (by omega), storeNat_of_not_mem (by omega)]
  refine ⟨?_, ?_, ?_, load_store_same _ _ _⟩
  · show loadNat _ (e.ptr + 4) 2 = e.key.length
    rw [← h.keyLen]
    apply loadNat_congr
    intro a h₁ h₂
    rw [store_of_not_mem (by omega), storeNat_of_not_mem (by omega)]
  · show loadNat _ (e.ptr + 6) 2 = v.length
    rw [loadNat_store_disjoint (by omega), loadNat_storeNat]
    exact Nat.mod_eq_of_lt (by omega)
  · show load _ (e.ptr + 16) e.key.length = e.key
    refine Eq.trans (load_congr ?_) h.key
    intro a h₁ h₂
    exact hoff a (by omega) h₂

/-- Only bytes of the object behind its `next` field change. -/
theorem shrink_of_not_mem {v : List UInt8} (hlt : v.length < e.val.length) {a : Nat}
    (ha : a < e.ptr + 4 ∨ e.ptr + e.len ≤ a) :
    store (storeNat m (e.ptr + offsetofValLen) 2 v.length)
      (e.ptr + offsetofData + e.key.length) v a = m a := by
  unfold Entry.len at ha
  simp only [offsetofValLen_eq, offsetofData_eq]
  rw [store_of_not_mem (by omega), storeNat_of_not_mem (by omega)]

/-- **Shrinking.** Storing a shorter value over the old one changes one binding of
    one bucket. -/
theorem Chains.shrink (h : Chains hash m B ch) {i : Nat} (hi : i < kHashTableSize)
    {pre post : List Entry} (hch : ch i = pre ++ e :: post) {v : List UInt8}
    (hlt : v.length < e.val.length) (hv : v.length < 65536) :
    Chains hash (store (storeNat m (e.ptr + offsetofValLen) 2 v.length)
      (e.ptr + offsetofData + e.key.length) v) B
      (Function.update ch i (pre ++ ⟨e.ptr, e.key, v⟩ :: post)) := by
  have hb := h.buckets i hi
  have he := mem_of_split hch
  have hfit := hb.fits e he
  have hlen := e.len_ge
  have hhi := (hfit.inside h.wf).2
  rw [kSize_eq] at hhi
  obtain ⟨m₂, hm₂⟩ : ∃ m₂, m₂ = store (storeNat m (e.ptr + offsetofValLen) 2 v.length)
      (e.ptr + offsetofData + e.key.length) v := ⟨_, rfl⟩
  have hsame : ∀ a, a < e.ptr + 4 ∨ e.ptr + e.len ≤ a → m₂ a = m a := by
    intro a ha
    rw [hm₂]
    exact shrink_of_not_mem hlt ha
  have hobj : ObjectAt m₂ ⟨e.ptr, e.key, v⟩ := by
    rw [hm₂]
    exact objectAt_shrink (hb.object e he) hv
  rw [← hm₂]
  have hwe : word m₂ e.ptr = word m e.ptr := word_congr fun a _ h₂ => hsame a (by omega)
  have hwslot : ∀ j, j < kHashTableSize → word m₂ (slotOf j) = word m (slotOf j) := by
    intro j hj
    have hjlo := (slotOf_bounds hj).1
    exact word_congr fun a h₁ _ => hsame a (by omega)
  -- objects elsewhere do not see the stores
  have hother : ∀ j, j < kHashTableSize → ∀ x ∈ ch j, x.ptr ≠ e.ptr → Kept m B m₂ x := by
    intro j hj x hx hne
    have hxf := (h.buckets j hj).fits x hx
    refine ⟨hxf, fun a h₁ h₂ => hsame a ?_⟩
    have := hxf.disjoint h.wf hfit hne
    omega
  have hmem : ∀ x ∈ pre ++ ⟨e.ptr, e.key, v⟩ :: post,
      x = ⟨e.ptr, e.key, v⟩ ∨ x ∈ ch i ∧ x.ptr ≠ e.ptr := by
    intro x hx
    rcases mem_middle.mp hx with hx | hx
    · exact Or.inl hx
    · have hxi : x ∈ ch i := by
        rw [hch]
        exact mem_middle.mpr (Or.inr hx)
      exact Or.inr ⟨hxi, h.ptr_ne hi hi hch hxi fun _ => hx⟩
  refine h.update h.wf (fun j hj _ => hwslot j hj) ?_ ⟨?_, ?_, ?_, ?_, ?_⟩
  · intro j hj hji x hx
    apply hother j hj x hx
    intro heq
    exact hji (h.eq_of_ptr hj hi hx he heq).1
  · have hold := hb.chain
    have hptrs : (pre ++ ⟨e.ptr, e.key, v⟩ :: post).map (·.ptr) = (ch i).map (·.ptr) := by
      rw [hch]
      simp
    unfold Chain at hold ⊢
    rw [hptrs, hwslot i hi]
    apply hold.congr
    intro p hp
    obtain ⟨x, hx, rfl⟩ := List.mem_map.mp hp
    by_cases hxe : x.ptr = e.ptr
    -- the link of the object itself is not overwritten
    · rw [hxe, hwe]
    · exact (hother i hi x hx hxe).word
  · intro x hx
    rcases hmem x hx with rfl | ⟨hx, hne⟩
    · exact hobj
    · exact (hother i hi x hx hne).object (hb.object x hx)
  · intro x hx
    rcases hmem x hx with rfl | ⟨hx, _⟩
    · have hfit' : e.len ≤ B e.ptr := hfit
      show 16 + e.key.length + v.length ≤ B e.ptr
      unfold Entry.len at hfit'
      omega
    · exact hb.fits x hx
  · intro x hx
    rcases hmem x hx with rfl | ⟨hx, _⟩
    · exact hb.bucket e he
    · exact hb.bucket x hx
  · have hkeys := hb.keys
    rw [hch] at hkeys
    simpa using hkeys

/-! ### Searching a bucket -/

theorem read_slot (r : Request) :
    read32 true (slotOf (bucketOf r)) s = .ok (word s.mem (slotOf (bucketOf r)), s) := by
  obtain ⟨hlo, hB, _⟩ := slotOf_bounds (bucketOf_lt r)
  exact read32_ok hB (by omega)

/-- The search of a request ends at the object with its key, or at the end of the bucket. -/
theorem Chains.search_run (h : Chains hash s.mem B ch) (r : Request) {fuel : Nat}
    (hfuel : (ch (bucketOf r)).length < fuel) :
    (∃ pre e post, ch (bucketOf r) = pre ++ e :: post ∧ e.key = r.key ∧
      search r fuel (slotOf (bucketOf r)) (word s.mem (slotOf (bucketOf r))) s =
        .ok ((linkOf (slotOf (bucketOf r)) pre, e.ptr), s)) ∨
    ((∀ x ∈ ch (bucketOf r), x.key ≠ r.key) ∧
      search r fuel (slotOf (bucketOf r)) (word s.mem (slotOf (bucketOf r))) s =
        .ok ((linkOf (slotOf (bucketOf r)) (ch (bucketOf r)), 0), s)) := by
  have hb := h.buckets (bucketOf r) (bucketOf_lt r)
  rcases Nvds.Tablet.search_run (r := r) (q := slotOf (bucketOf r)) hb.chain
      (fun e he => ⟨hb.object e he, (hb.fits e he).inside h.wf⟩) hfuel with
    ⟨pre, e, post, hes, hkey, _, hrun⟩ | ⟨hno, hrun⟩
  · exact Or.inl ⟨pre, e, post, hes, hkey, hrun⟩
  · exact Or.inr ⟨hno, hrun⟩

end Nvds.Tablet
