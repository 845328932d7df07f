import Nvds.Allocator.Space
import Nvds.Tablet.Operations

/-! # Running out of space (`Tablet::Put`, `Tablet::Add`)

    `Put` and `Add` assert that `Alloc` has returned a block. What the memory
    holds at that point outlives the process. A request that inserts an
    object has stored nothing yet; a `PUT` that replaces one has already freed
    the old object, which its bucket still leads to.
-/

open ByteMemory Program LinkedList Nvds.Allocator

namespace Nvds.Tablet

/-! ### Up to the call of `Alloc` -/

/-- How far a request got: it returned without a call of `Alloc`, or `Alloc` has returned `p`
    for an object that leads to `next` and is to be linked in at `link`. -/
inductive Progress where
  | returned (status : Status)
  | allocated (p next link : Nat)
  deriving DecidableEq, Repr

/-- `Put` until `Alloc` has returned. -/
def putToAlloc (fuel : Nat) (r : Request) : NvmM Progress := do
  assert (r.type = .put)
  let slot := slotOf (bucketOf r)
  let head ← read32 true slot
  -- the object of the key, and the place that links to it
  let found ← search r fuel slot head
  if found.2 ≠ 0 then
    let valLen ← read16 true (found.2 + offsetofValLen)
    if r.val.length < valLen then
      write16 true (found.2 + offsetofValLen) r.val.length
      memcpy (found.2 + offsetofData + r.key.length) r.val
      pure (.returned .ok)
    else
      let next ← read32 true found.2
      free true found.2
      let p ← alloc true (offsetofData + r.key.length + r.val.length)
      pure (.allocated p next found.1)
  else
    let p ← alloc true (offsetofData + r.key.length + r.val.length)
    pure (.allocated p head slot)

/-- `Add` until `Alloc` has returned. -/
def addToAlloc (fuel : Nat) (r : Request) : NvmM Progress := do
  assert (r.type = .add)
  let slot := slotOf (bucketOf r)
  let head ← read32 true slot
  let found ← search r fuel slot head
  if found.2 ≠ 0 then
    pure (.returned .error)
  else
    let p ← alloc true (offsetofData + r.key.length + r.val.length)
    pure (.allocated p head slot)

/-- A `PUT` or `ADD` until `Alloc` has returned. -/
def toAlloc (fuel : Nat) (r : Request) : NvmM Progress :=
  if r.type = .put then putToAlloc fuel r else addToAlloc fuel r

/-- The rest of `Put` and `Add`, from `assert(p != 0)` on. -/
def fromAlloc (r : Request) : Progress → NvmM Status
  | .returned status => pure status
  | .allocated p next link => do
    assert (p ≠ 0)
    write true p (objectBytes next r)
    memcpy (p + offsetofData) (r.key ++ r.val)
    write32 true link p
    pure .ok

variable {hash : List UInt8 → Nat} {σ : Shape} {ch : Nat → List Entry} {s s' : Nvm} {r : Request}
  {fuel : Nat}

/-- A new object and its link, split behind the call of `Alloc`. -/
theorem newObject_split (r : Request) (next link : Nat) :
    (do let p ← newObject r next
        write32 true link p
        pure .ok : NvmM Status) =
      (do let p ← alloc true (offsetofData + r.key.length + r.val.length)
          pure (.allocated p next link) : NvmM Progress) >>= fromAlloc r := by
  simp only [newObject, fromAlloc, bind_assoc, pure_bind]

theorem put_split (fuel : Nat) (r : Request) : put fuel r = putToAlloc fuel r >>= fromAlloc r := by
  unfold put putToAlloc insertHead
  simp only [bind_assoc]
  congr 1; funext _
  congr 1; funext head
  congr 1; funext qp
  split
  · simp only [bind_assoc]
    congr 1; funext valLen
    split
    · simp only [bind_assoc, fromAlloc, pure_bind]
    · simp only [bind_assoc, newObject_split, pure_bind]
  · rw [newObject_split]

theorem add_split (fuel : Nat) (r : Request) : add fuel r = addToAlloc fuel r >>= fromAlloc r := by
  unfold add addToAlloc insertHead
  simp only [bind_assoc]
  congr 1; funext _
  congr 1; funext head
  congr 1; funext qp
  split
  · rw [pure_bind]
    rfl
  · rw [newObject_split]

/-- A request for whose object `Alloc` has returned no block fails the assertion. -/
theorem fails_of_noSpace {next link : Nat}
    (hrun : toAlloc fuel r s = .ok (.allocated 0 next link, s')) :
    (r.type = .put → put fuel r s = .error .assertion) ∧
      (r.type = .add → add fuel r s = .error .assertion) := by
  constructor
  · intro ht
    rw [toAlloc, if_pos ht] at hrun
    rw [put_split, bind_of_ok hrun]
    rfl
  · intro ht
    rw [toAlloc, if_neg (by rw [ht]; decide)] at hrun
    rw [add_split, bind_of_ok hrun]
    rfl

/-! ### What is left -/

/-- The memory still holds the tablet: all buckets are chains of objects in live blocks, and
    every key is looked up as before. -/
def Intact (hash : List UInt8 → Nat) (s s' : Nvm) : Prop :=
  (∃ σ' ch', HeapCore s'.mem σ' ∧ Chains hash s'.mem (blocks σ') ch') ∧
    ∀ k, ∃ res, Answers hash s k res ∧ Answers hash s' k res

theorem WellFormed.intact (h : WellFormed hash s.mem σ ch) : Intact hash s s := by
  refine ⟨⟨σ, ch, h.heap.core, h.chains⟩, ?_⟩
  intro k
  exact same_answers h.chains h.chains.represents h.chains h.chains.represents rfl

/-- `Alloc` that returns no block has changed nothing. -/
theorem alloc_none (h : HeapCore s.mem σ) (hrun : alloc true
    (offsetofData + r.key.length + r.val.length) s = .ok (0, s')) : s' = s := by
  have hk := r.key_lt
  have hv := r.val_lt
  rw [offsetofData_eq] at hrun
  by_cases hmax : 16 + r.key.length + r.val.length + 4 ≤ kMaxBlockSize
  · rcases alloc_run true h (by omega) hmax with
      ⟨_, hok⟩ | ⟨_, _, hbad⟩ | ⟨_, s₁, σ₁, blk, hok, _⟩
    · rw [hok] at hrun
      cases hrun
      rfl
    · rw [hbad] at hrun
      cases hrun
    · rw [hok] at hrun
      cases hrun
  · -- the size is rejected
    have hu : u32 (16 + r.key.length + r.val.length + 4) = 16 + r.key.length + r.val.length + 4 :=
      u32_of_lt (by omega)
    have hround : roundupBlockSize (16 + r.key.length + r.val.length + 4) = throw .assertion :=
      if_neg hmax
    rw [alloc, hu, hround] at hrun
    cases hrun

/-- **A freed object is lost.** No heap with the bytes after the call of `Free` has it in a live
    block, and its bucket still leads to it. -/
theorem not_intact_of_freed (h : WellFormed hash s.mem σ ch) {pre post : List Entry} {e : Entry}
    (hes : ch (bucketOf r) = pre ++ e :: post) {σ₁ : Shape} {s₁ : Nvm}
    (rel : Released true s σ (e.ptr - 4) s₁ σ₁) : ¬ Intact hash s s₁ := by
  intro hintact
  obtain ⟨⟨σ', ch', hheap', hc'⟩, _⟩ := hintact
  have hi := bucketOf_lt r
  have hσ := h.heap.wf
  have hc := h.chains
  have hb := hc.buckets _ hi
  have he := mem_of_split hes
  have hpl := (placed_iff hσ).mpr (hb.fits e he)
  have he4 := hpl.ptr
  -- the walk to the object is the same as before
  have hwalk : Seg (word s.mem) (word s.mem (slotOf (bucketOf r))) (pre.map (·.ptr)) e.ptr := by
    have hchain := hb.chain
    rw [hes] at hchain
    unfold Chain at hchain
    rw [List.map_append] at hchain
    obtain ⟨b, hpre, hb, _⟩ := seg_append.mp hchain
    rwa [hb] at hpre
  have hkept : ∀ x ∈ pre, Kept s.mem (blocks σ₁) s₁.mem x := by
    intro x hx
    have hx' : x ∈ ch (bucketOf r) := by
      rw [hes]
      exact List.mem_append_left _ hx
    have hne := hc.ptr_ne hi hi hes hx' fun _ => List.mem_append_left _ hx
    exact released_kept rel hσ (hb.fits x hx') (by omega)
  have hslot := slot_word (fun a ha => rel.keeps a (Or.inl ha)) hi
  have hwalk₁ : Seg (word s₁.mem) (word s₁.mem (slotOf (bucketOf r))) (pre.map (·.ptr)) e.ptr := by
    rw [hslot]
    apply hwalk.congr
    intro p hp
    obtain ⟨x, hx, rfl⟩ := List.mem_map.mp hp
    exact (hkept x hx).word
  -- so it is on the chain of every tablet with these bytes
  have hb' := hc'.buckets _ hi
  have hmem := hwalk₁.mem_of_reaches (by omega) hb'.chain
  obtain ⟨e', he', hptr⟩ := List.mem_map.mp hmem
  have hlive := ((placed_iff hheap'.wf).mpr (hb'.fits e' he')).live
  rw [hptr, Headers.live_iff hheap'.wf hheap'.headers rel.heap.wf rel.heap.headers] at hlive
  exact ((rel.live _).mp hlive).2 rfl

/-! ### The two requests -/

/-- A request that inserts an object has stored nothing when there is no block for it. -/
theorem insert_noSpace (h : WellFormed hash s.mem σ ch) {head slot next link : Nat}
    (hrun : (do
      let p ← alloc true (offsetofData + r.key.length + r.val.length)
      pure (.allocated p head slot) : NvmM Progress) s = .ok (.allocated 0 next link, s')) :
    s' = s := by
  obtain ⟨p, s₁, halloc, hpure⟩ := bind_eq_ok.mp hrun
  cases hpure
  exact alloc_none h.heap.core halloc

/-- A request that replaces an object has freed it. -/
theorem replace_noSpace (h : WellFormed hash s.mem σ ch) {e : Entry} (he : e ∈ ch (bucketOf r))
    {n q next link : Nat}
    (hrun : (do
      free true e.ptr
      let p ← alloc true (offsetofData + r.key.length + r.val.length)
      pure (.allocated p n q) : NvmM Progress) s = .ok (.allocated 0 next link, s')) :
    ∃ σ₁, Released true s σ (e.ptr - 4) s' σ₁ := by
  have hpl := (h.buckets _ (bucketOf_lt r)).placed e he
  have hfits := hpl.fits
  have hlen := e.len_ge
  obtain ⟨_, s₁, hfree, hrun⟩ := bind_eq_ok.mp hrun
  obtain ⟨p, s₂, halloc, hpure⟩ := bind_eq_ok.mp hrun
  cases hpure
  rw [← Nat.sub_add_cancel hpl.ptr] at hfree
  rcases free_run true h.heap hpl.live (fun _ => by omega) with ⟨_, hbad⟩ | ⟨_, s₃, σ₁, hok, rel⟩
  · rw [hfree] at hbad
    cases hbad
  · rw [hfree] at hok
    cases hok
    obtain rfl := alloc_none rel.heap halloc
    exact ⟨σ₁, rel⟩

/-- A request that stands before a failed `Alloc` has walked its bucket, and either found no
    object and changed nothing, or freed the object it found. -/
theorem toAlloc_noSpace (h : WellFormed hash s.mem σ ch) {next link : Nat}
    (hrun : toAlloc fuel r s = .ok (.allocated 0 next link, s')) :
    ((∀ x ∈ ch (bucketOf r), x.key ≠ r.key) ∧ s' = s) ∨
    ∃ pre e post σ₁, ch (bucketOf r) = pre ++ e :: post ∧ e.key = r.key ∧
      Released true s σ (e.ptr - 4) s' σ₁ := by
  have hptr : ∀ e ∈ ch (bucketOf r), e.ptr ≠ 0 := fun e he =>
    (((h.chains.buckets _ (bucketOf_lt r)).fits e he).inside h.chains.wf).1
  unfold toAlloc at hrun
  -- `Put` and `Add` search the bucket alike
  by_cases hput : r.type = .put
  · rw [if_pos hput] at hrun
    obtain ⟨_, s₀, hassert, hrun⟩ := bind_eq_ok.mp hrun
    obtain ⟨_, rfl⟩ := assert_result hassert
    rw [bind_of_ok (read_slot r)] at hrun
    obtain ⟨found, s₁, hsearch, hrun⟩ := bind_eq_ok.mp hrun
    obtain ⟨rfl, ⟨pre, e, post, hes, hkey, rfl⟩ | ⟨hno, h0⟩⟩ := h.chains.search_result hsearch
    · right
      have he := mem_of_split hes
      rw [if_pos (hptr e he)] at hrun
      obtain ⟨valLen, s₂, hread, hrun⟩ := bind_eq_ok.mp hrun
      obtain ⟨_, rfl⟩ := read_result hread
      by_cases hlt : r.val.length < valLen
      · -- a shorter value is stored without a call of `Alloc`
        rw [if_pos hlt] at hrun
        obtain ⟨_, s₃, _, hrun⟩ := bind_eq_ok.mp hrun
        obtain ⟨_, s₄, _, hrun⟩ := bind_eq_ok.mp hrun
        cases hrun
      · rw [if_neg hlt] at hrun
        obtain ⟨next', s₃, hread, hrun⟩ := bind_eq_ok.mp hrun
        obtain ⟨_, rfl⟩ := read_result hread
        obtain ⟨σ₁, rel⟩ := replace_noSpace h he hrun
        exact ⟨pre, e, post, σ₁, hes, hkey, rel⟩
    · left
      rw [if_neg (not_not.mpr h0)] at hrun
      exact ⟨hno, insert_noSpace h hrun⟩
  · rw [if_neg hput] at hrun
    obtain ⟨_, s₀, hassert, hrun⟩ := bind_eq_ok.mp hrun
    obtain ⟨_, rfl⟩ := assert_result hassert
    rw [bind_of_ok (read_slot r)] at hrun
    obtain ⟨found, s₁, hsearch, hrun⟩ := bind_eq_ok.mp hrun
    obtain ⟨rfl, ⟨pre, e, post, hes, hkey, rfl⟩ | ⟨hno, h0⟩⟩ := h.chains.search_result hsearch
    · -- `Add` does not replace
      rw [if_pos (hptr e (mem_of_split hes))] at hrun
      cases hrun
    · left
      rw [if_neg (not_not.mpr h0)] at hrun
      exact ⟨hno, insert_noSpace h hrun⟩

/-- **Running out of space** leaves the tablet as it was exactly if the request does not replace
    an object. -/
theorem noSpace_intact_iff (h : WellFormed hash s.mem σ ch) (hh : r.keyHash = hash r.key)
    {next link : Nat} (hrun : toAlloc fuel r s = .ok (.allocated 0 next link, s')) :
    Intact hash s s' ↔ ¬ Binds ch r.key := by
  rw [h.binds_iff hh]
  rcases toAlloc_noSpace h hrun with ⟨hno, rfl⟩ | ⟨pre, e, post, σ₁, hes, hkey, rel⟩
  · apply iff_of_true h.intact
    intro hbound
    obtain ⟨e, he, hkey⟩ := hbound
    exact hno e he hkey
  · refine iff_of_false (not_intact_of_freed h hes rel) (not_not.mpr ⟨e, ?_, hkey⟩)
    rw [hes]
    exact List.mem_append_right _ List.mem_cons_self

/-! ### A tablet without free blocks -/

/-- The start of a block of 48 bytes, if all blocks are of that size. -/
def IsBlock48 (a : Nat) : Prop := kHeapBegin ≤ a ∧ a < kHeapEnd ∧ (a - kHeapBegin) % 48 = 0

instance (a : Nat) : Decidable (IsBlock48 a) := inferInstanceAs (Decidable (_ ∧ _ ∧ _))

/-- All blocks are live and have 48 bytes. -/
def fullShape : Shape where
  size b := if IsBlock48 b then 48 else 0
  free _ := false

/-- Their headers. -/
def fullHeap : Mem := fun a => if IsBlock48 a then 48 else 0

theorem isBlock48_iff {a : Nat} : IsBlock48 a ↔ 292 ≤ a ∧ a < 67108852 ∧ (a - 292) % 48 = 0 := by
  rw [IsBlock48, kHeapBegin_eq, kHeapEnd_eq]

theorem fullShape_size {b : Nat} : fullShape.size b ≠ 0 ↔ IsBlock48 b := by
  show (if IsBlock48 b then 48 else 0) ≠ 0 ↔ IsBlock48 b
  by_cases hb : IsBlock48 b <;> simp [hb]

theorem fullShape_size_eq {b : Nat} (hb : IsBlock48 b) : fullShape.size b = 48 := if_pos hb

/-- The blocks cover the heap: its length is a multiple of 48. -/
theorem fullShape_wf : fullShape.WF := by
  refine ⟨⟨?_, ?_, ?_, ?_⟩, ?_⟩
  -- the blocks begin at 292 and follow each other 48 bytes apart
  · rw [fullShape_size, isBlock48_iff]
    simp
  · intro b hb
    have hb' := fullShape_size.mp hb
    rw [fullShape_size_eq hb', kHeapBegin_eq, kHeapEnd_eq]
    rw [isBlock48_iff] at hb'
    omega
  · intro b hb
    have hb' := fullShape_size.mp hb
    rw [fullShape_size_eq hb', fullShape_size, isBlock48_iff, kHeapEnd_eq]
    rw [isBlock48_iff] at hb'
    omega
  · intro b x hb h₁ h₂
    have hb' := fullShape_size.mp hb
    rw [fullShape_size_eq hb'] at h₂
    apply if_neg
    intro hx
    rw [isBlock48_iff] at hb' hx
    omega
  · intro b
    show 16 ∣ if IsBlock48 b then 48 else 0
    split
    · decide
    · decide

theorem word_fullHeap {a : Nat} (h : a % 4 = 0) :
    word fullHeap a = if IsBlock48 a then 48 else 0 := by
  have h1 : ¬ IsBlock48 (a + 1) := by
    rw [isBlock48_iff]
    omega
  have h2 : ¬ IsBlock48 (a + 2) := by
    rw [isBlock48_iff]
    omega
  have h3 : ¬ IsBlock48 (a + 3) := by
    rw [isBlock48_iff]
    omega
  by_cases ha : IsBlock48 a <;>
    simp [word, loadNat, load, fullHeap, List.range, List.range.loop, leValue, ha, h1, h2, h3]

/-- A word that is no header is 0. -/
theorem word_fullHeap_of_not {a : Nat} (h : a % 4 = 0) (ha : ¬ IsBlock48 a) :
    word fullHeap a = 0 := by
  rw [word_fullHeap h, if_neg ha]

theorem fullHeap_inv : HeapInv fullHeap fullShape := by
  -- nothing is free, so no header has the bit
  have hnot : ∀ b, ¬ fullShape.Free b := fun b hb => Bool.noConfusion hb.2
  refine ⟨fullShape_wf, ⟨?_, ?_, ?_, ?_, ?_⟩,
    ⟨fun b hb => absurd hb (hnot b), fun c hc => absurd ?_ hc, fun b hb => absurd hb (hnot b),
      fun b hb => absurd hb (hnot b)⟩⟩
  · intro b hb
    have hb' := fullShape_size.mp hb
    have hn := isBlock48_iff.mp hb'
    rw [fullShape_size_eq hb', word_fullHeap (by omega), if_pos hb']
  · rw [word_fullHeap_of_not (by simp) (by simp [isBlock48_iff])]
  · rw [word_fullHeap (by simp), if_pos (by simp [isBlock48_iff])]
    decide
  · intro b hb
    have hb' := fullShape_size.mp hb
    have hn := isBlock48_iff.mp hb'
    have hlt : word fullHeap (b + 48) < 2147483648 := by
      rw [word_fullHeap (by omega)]
      split <;> decide
    rw [fullShape_size_eq hb']
    exact iff_of_false (by omega) Bool.false_ne_true
  · intro b _ hf
    cases hf
  · -- the lists are empty
    by_cases hc : c < kNumFreeLists
    · rw [lists_head_eq hc]
      rw [kNumFreeLists_eq] at hc
      exact word_fullHeap_of_not (by omega) (by rw [isBlock48_iff]; omega)
    · exact if_neg hc

/-- The first block holds the object of `item`, alone in its bucket. -/
def fullTablet : Nvm :=
  ⟨0, storeNat (putObject fullHeap 296 0 (item .put)) (slotOf 1) 4 296, []⟩

def fullChains : Nat → List Entry := Function.update (fun _ => []) 1 [⟨296, [1], [2, 3]⟩]

theorem fullChains_empty : Chains firstByte fullHeap (blocks fullShape) fun _ => [] := by
  refine ⟨blocks_wf fullShape_wf, fun i hi => ⟨?_, fun e he => absurd he List.not_mem_nil,
    fun e he => absurd he List.not_mem_nil, fun e he => absurd he List.not_mem_nil,
    List.nodup_nil⟩⟩
  obtain ⟨hlo, _, hmod⟩ := slotOf_bounds hi
  exact word_fullHeap_of_not hmod (by rw [isBlock48_iff]; omega)

/-- Bytes of the first block and of the hash table are not part of the heap's own data. -/
theorem fullShape_payload {a : Nat} (h₁ : 296 ≤ a) (h₂ : a < 340) :
    ∃ x, fullShape.Payload x a := by
  have hb : IsBlock48 292 := by simp [isBlock48_iff]
  refine ⟨292, ⟨fullShape_size.mpr hb, rfl⟩, h₁, ?_⟩
  rw [fullShape_size_eq hb]
  exact h₂

theorem fullTablet_heap : HeapInv fullTablet.mem fullShape := by
  apply HeapInv.store_live
  · apply HeapInv.store_live
    · apply fullHeap_inv.store_live
      intro a h₁ h₂
      exact Or.inr (fullShape_payload h₁ (by rw [length_objectBytes] at h₂; omega))
    · intro a h₁ h₂
      rw [offsetofData_eq] at h₁ h₂
      exact Or.inr (fullShape_payload (by omega) (lt_of_lt_of_le h₂ (by decide)))
  · intro a h₁ _
    left
    have := (slotOf_bounds (show 1 < kHashTableSize by decide)).1
    rw [kHeapEnd_eq]
    omega

theorem fullTablet_wellFormed : WellFormed firstByte fullTablet.mem fullShape fullChains := by
  have hi : 1 < kHashTableSize := by decide
  have hplaced : Placed fullShape ⟨296, [1], [2, 3]⟩ := by
    have hb : IsBlock48 292 := by simp [isBlock48_iff]
    refine ⟨by decide, ⟨fullShape_size.mpr hb, rfl⟩, ?_⟩
    show 19 + 4 ≤ fullShape.size 292
    rw [fullShape_size_eq hb]
    decide
  have hslot : ∀ j, j < kHashTableSize →
      word (putObject fullHeap 296 0 (item .put)) (slotOf j) = word fullHeap (slotOf j) := by
    -- the object lies in front of the slots
    intro j hj
    apply word_congr
    intro a h₁ _
    have := (slotOf_bounds hj).1
    apply putObject_of_not_mem
    right
    exact le_trans (by decide) (this.trans h₁)
  have hnext : Seg (word fullHeap) (word (putObject fullHeap 296 0 (item .put)) 296) [] 0 :=
    word_putObject (by decide)
  have hchains := fullChains_empty.link hi (List.append_nil []).symm
    (List.Sublist.refl _) (blocks_wf fullShape_wf) hslot
    (fun j hj x hx => absurd hx List.not_mem_nil)
    (objectAt_putObject fullHeap 296 0 (item .put)) ((placed_iff fullShape_wf).mp hplaced)
    (by decide) (fun x hx => absurd hx List.not_mem_nil) hnext
  exact ⟨fullTablet_heap, fun i hi => (bucket_iff fullShape_wf).mpr (hchains.buckets i hi)⟩

theorem forty_length_lt : (List.replicate 40 (0 : UInt8)).length < 65536 := by decide

/-- A request with a value of 40 bytes, for which a block of 48 bytes is too small. -/
def large (t : RequestType) (k : UInt8) : Request :=
  request t k (List.replicate 40 0) forty_length_lt

/-- A run of `toAlloc` from its result alone. -/
theorem toAlloc_of_map {p : Progress} (h : (toAlloc fuel r s).toOption.map (·.1) = some p) :
    ∃ s', toAlloc fuel r s = .ok (p, s') := by
  cases hrun : toAlloc fuel r s with
  | error e =>
    rw [hrun] at h
    cases h
  | ok res =>
    obtain ⟨p', s'⟩ := res
    rw [hrun] at h
    cases h
    exact ⟨s', rfl⟩

/-- An `ADD` of a new key finds no block in the full tablet and loses nothing. -/
theorem noSpace_intact_iff_full : ∃ s' next link,
    toAlloc 2 (large .add 2) fullTablet = .ok (.allocated 0 next link, s') ∧
    Intact firstByte fullTablet s' := by
  obtain ⟨s', hrun⟩ := toAlloc_of_map (show (toAlloc 2 (large .add 2) fullTablet).toOption.map (·.1)
    = some (.allocated 0 0 (slotOf 2)) by decide +kernel)
  refine ⟨s', _, _, hrun, ?_⟩
  rw [noSpace_intact_iff fullTablet_wellFormed (by decide) hrun,
    fullTablet_wellFormed.binds_iff (by decide)]
  intro hbound
  obtain ⟨e, he, _⟩ := hbound
  exact List.not_mem_nil he

/-- A `PUT` of the key that is bound loses its value. -/
theorem exists_lost : WellFormed firstByte fullTablet.mem fullShape fullChains ∧
    ∃ s' next link, toAlloc 2 (large .put 1) fullTablet = .ok (.allocated 0 next link, s') ∧
      (get 2 (item .get) fullTablet).toOption.map (·.1) = some (.ok, [2, 3]) ∧
      (get 2 (item .get) s').toOption.map (·.1) = some (.error, []) ∧
      ¬ Intact firstByte fullTablet s' := by
  obtain ⟨s', hrun⟩ := toAlloc_of_map (show (toAlloc 2 (large .put 1) fullTablet).toOption.map (·.1)
    = some (.allocated 0 0 (slotOf 1)) by decide +kernel)
  refine ⟨fullTablet_wellFormed, s', _, _, hrun, by decide +kernel, ?_, ?_⟩
  · have hget : ((toAlloc 2 (large .put 1) >>= fun _ => get 2 (item .get)) fullTablet).toOption.map
        (·.1) = some (.error, []) := by decide +kernel
    rwa [bind_of_ok hrun] at hget
  · rcases toAlloc_noSpace fullTablet_wellFormed hrun with ⟨hno, _⟩ | ⟨_, _, _, σ₁, hes, _, rel⟩
    · exact absurd rfl (hno ⟨296, [1], [2, 3]⟩ List.mem_cons_self)
    · exact not_intact_of_freed fullTablet_wellFormed hes rel

end Nvds.Tablet
