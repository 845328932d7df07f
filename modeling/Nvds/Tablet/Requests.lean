import Nvds.Tablet.Store

/-! # Requests on a well-formed tablet

    `Put`, `Add` and `Get` keep the invariant of the tablet and act on the map
    as they should, and so does every run of requests. The one proviso is
    that an object which `Put` replaces is freed cleanly: its value may reach
    into the last word of its block.
-/

open ByteMemory Program LinkedList Tiling Nvds.Allocator

namespace Nvds.Tablet

variable {hash : List UInt8 → Nat} {m m₂ : Mem} {B : Blocks} {σ σ₂ : Shape}
  {ch : Nat → List Entry} {M : Store} {s s' : Nvm} {r : Request} {e x : Entry}

/-! ### Lookups -/

theorem Represents.found (hM : Represents hash ch M) (hh : r.keyHash = hash r.key)
    {pre post : List Entry} (hes : ch (bucketOf r) = pre ++ e :: post) (hkey : e.key = r.key) :
    M r.key = some e.val := by
  refine (hM r.key e.val).mpr ⟨e, ?_, hkey, rfl⟩
  rw [bucketOf_eq hh, hes]
  exact List.mem_append_right _ List.mem_cons_self

theorem Represents.missing (hM : Represents hash ch M) (hh : r.keyHash = hash r.key)
    (hno : ∀ x ∈ ch (bucketOf r), x.key ≠ r.key) : M r.key = none := by
  cases hv : M r.key with
  | none => rfl
  | some v =>
    obtain ⟨x, hx, hxk, _⟩ := (hM r.key v).mp hv
    rw [bucketOf_eq hh] at hx
    exact absurd hxk (hno x hx)

/-- **`Get`** returns what the map binds and changes nothing. -/
theorem get_run (h : Chains hash s.mem B ch) (hM : Represents hash ch M) (ht : r.type = .get)
    (hh : r.keyHash = hash r.key) {fuel : Nat} (hfuel : (ch (bucketOf r)).length < fuel) :
    get fuel r s = .ok (match M r.key with | some v => (.ok, v) | none => (.error, []), s) := by
  unfold get
  rw [assert_of ht, bind_of_ok (pure_run _ _), bind_of_ok (read_slot r)]
  rcases h.search_run r hfuel with ⟨pre, e, post, hes, hkey, hrun⟩ | ⟨hno, hrun⟩
  · have hb := h.buckets (bucketOf r) (bucketOf_lt r)
    have he := mem_of_split hes
    have hobj := hb.object e he
    obtain ⟨h0, hhi⟩ := (hb.fits e he).inside h.wf
    unfold Entry.len at hhi
    rw [kSize_eq] at hhi
    rw [bind_of_ok hrun, hM.found hh hes hkey]
    simp only
    rw [if_pos h0, bind_of_ok (read16_ok (by simp; omega) (by simp)), hobj.valLen,
      ← hkey, bind_of_ok (memcpyOut_ok (by simp; omega)), hobj.val, pure_run]
  · rw [bind_of_ok hrun, hM.missing hh hno]
    rfl

/-! ### Objects that stay -/

theorem Kept.trans {B₁ B₂ : Blocks} {m₁ : Mem} (h₁ : Kept m B₁ m₁ x) (h₂ : Kept m₁ B₂ m₂ x) :
    Kept m B₂ m₂ x :=
  ⟨h₂.1, fun a ha₁ ha₂ => (h₂.2 a ha₁ ha₂).trans (h₁.2 a ha₁ ha₂)⟩

/-- The bytes behind the heap are those of the slots. -/
theorem slot_word {m₁ : Mem} (h : ∀ a, kHeapEnd + 4 ≤ a → m₁ a = m a) {j : Nat}
    (hj : j < kHashTableSize) : word m₁ (slotOf j) = word m (slotOf j) := by
  have hlo := (slotOf_bounds hj).1
  apply word_congr
  intro a h₁ _
  apply h a
  rw [kHeapEnd_eq]
  omega

/-- Objects of the heap before are still there beside a new one. -/
theorem NewObjectCore.kept {next blk : Nat} {σ' : Shape}
    (n : NewObjectCore s σ r next s' σ' blk) (hσ : σ.WF) (hx : x.Fits (blocks σ)) :
    Kept s.mem (blocks σ') s'.mem x := by
  have hp := (placed_iff hσ).mpr hx
  refine ⟨(placed_iff n.heap.wf).mp ⟨hp.ptr, (n.live _).mpr (Or.inl hp.live), ?_⟩, ?_⟩
  · rw [n.same _ hp.live]
    exact hp.fits
  · intro a h₁ h₂
    exact n.keeps a (Or.inr ⟨_, hp.payload h₁ h₂⟩)

/-- Objects in other blocks are still there after one was freed. -/
theorem released_kept {blk : Nat} {σ' : Shape} (rel : Released true s σ blk s' σ') (hσ : σ.WF)
    (hx : x.Fits (blocks σ)) (hne : x.ptr ≠ blk + 4) : Kept s.mem (blocks σ') s'.mem x := by
  have hp := (placed_iff hσ).mpr hx
  have h4 := hp.ptr
  have hb : x.ptr - 4 ≠ blk := by omega
  refine ⟨(placed_iff rel.heap.wf).mp ⟨h4, (rel.live _).mpr ⟨hp.live, hb⟩, ?_⟩, ?_⟩
  · rw [rel.same _ hp.live hb]
    exact hp.fits
  · intro a h₁ h₂
    exact rel.keeps a (Or.inr ⟨_, hb, hp.payload h₁ h₂⟩)

/-- A store to a link is invisible to the heap. -/
theorem heapInv_link {i v : Nat} (pre : List Entry) (h : HeapInv m σ) (hi : i < kHashTableSize)
    (hpre : ∀ x ∈ pre, x.Fits (blocks σ)) :
    HeapInv (storeNat m (linkOf (slotOf i) pre) 4 v) σ := by
  apply h.store_live
  intro a h₁ h₂
  rw [length_leBytes] at h₂
  rcases link_cases i pre with hq | ⟨x, hx, hq⟩
  · left
    have hlo := (slotOf_bounds hi).1
    rw [kHeapEnd_eq]
    omega
  · right
    have hlen := x.len_ge
    exact ⟨_, ((placed_iff h.wf).mpr (hpre x hx)).payload (by omega) (by omega)⟩

theorem link_bounds {i : Nat} {pre : List Entry} (hi : i < kHashTableSize) (hB : B.WF)
    (hpre : ∀ x ∈ pre, x.Fits B) :
    linkOf (slotOf i) pre + 4 ≤ kNVMTabletSize ∧ linkOf (slotOf i) pre ≠ 0 := by
  rcases link_cases i pre with hq | ⟨x, hx, hq⟩
  · obtain ⟨hlo, hB, _⟩ := slotOf_bounds hi
    omega
  · obtain ⟨h0, hhi⟩ := (hpre x hx).inside hB
    have hlen := x.len_ge
    rw [kSize_eq] at hhi
    rw [hq, kNVMTabletSize_eq]
    omega

/-! ### Binding a key -/

/-- The chains after the key of `r` was bound to its value: at its place in its bucket, or,
    if it is new there, at the head. The others are as they were. -/
inductive Rebound (ch : Nat → List Entry) (r : Request) : (Nat → List Entry) → Prop
  | replaced {pre post : List Entry} {e : Entry} (p : Nat) :
      ch (bucketOf r) = pre ++ e :: post → e.key = r.key →
      Rebound ch r (Function.update ch (bucketOf r) (pre ++ ⟨p, r.key, r.val⟩ :: post))
  | inserted (p : Nat) : (∀ x ∈ ch (bucketOf r), x.key ≠ r.key) →
      Rebound ch r (Function.update ch (bucketOf r) (⟨p, r.key, r.val⟩ :: ch (bucketOf r)))

/-- A request has bound its key; the heap is well-formed again under `clean`. -/
structure Bound (hash : List UInt8 → Nat) (s : Nvm) (σ : Shape) (ch : Nat → List Entry)
    (r : Request) (clean : Prop) (s' : Nvm) (σ' : Shape) (ch' : Nat → List Entry) : Prop where
  chains : Chains hash s'.mem (blocks σ') ch'
  rebound : Rebound ch r ch'
  heap : Footers s.mem σ → σ.Roomy true → clean → HeapInv s'.mem σ' ∧ σ'.Roomy true

/-- **Inserting** at the head of the bucket, as `Put` and `Add` do for a new key. -/
theorem insertHead_run (hheap : HeapCore s.mem σ) (h : Chains hash s.mem (blocks σ) ch)
    (hh : r.keyHash = hash r.key) (hsize : r.key.length + r.val.length ≤ kMaxItemSize)
    (hno : ∀ x ∈ ch (bucketOf r), x.key ≠ r.key) (clean : Prop) :
    insertHead r (slotOf (bucketOf r)) (word s.mem (slotOf (bucketOf r))) s =
      .error .assertion ∨
    ∃ s' σ' ch', insertHead r (slotOf (bucketOf r)) (word s.mem (slotOf (bucketOf r))) s =
      .ok (.ok, s') ∧ Bound hash s σ ch r clean s' σ' ch' := by
  have hi := bucketOf_lt r
  have hb := h.buckets _ hi
  unfold insertHead
  -- the new object goes in front, with the old head as its successor
  rcases newObject_run hheap hsize (word_lt s.mem (slotOf (bucketOf r))) with
    hrun | ⟨s₂, σ₂, blk, hrun, n⟩
  · left
    exact bind_of_error hrun
  · right
    obtain ⟨hslo, hsB, _⟩ := slotOf_bounds hi
    have hch : ch (bucketOf r) = [] ++ ch (bucketOf r) := rfl
    have hchains := h.link hi hch (List.Sublist.refl _) (blocks_wf n.heap.wf)
      (fun j hj => slot_word (fun a ha => n.keeps a (Or.inl ha)) hj)
      (fun j hj x hx _ => n.kept hheap.wf ((h.buckets j hj).fits x hx)) n.object
      ((placed_iff n.heap.wf).mp n.placed) (bucketOf_eq hh) hno
      (by rw [show word s₂.mem _ = _ from n.link]; exact hb.chain)
    refine ⟨s₂.wr (slotOf (bucketOf r)) (blk + 4), σ₂, _, ?_, hchains, .inserted _ hno, ?_⟩
    · rw [bind_of_ok hrun, bind_of_ok (write32_ok hsB (by omega)), pure_run]
    · intro hf hr _
      have hfull := n.full hf hr
      refine ⟨?_, hfull.roomy⟩
      exact heapInv_link [] hfull.heap hi fun x hx => absurd hx List.not_mem_nil

/-! ### Replacing -/

/-- The objects on the chain behind `slot`. -/
inductive InChain (m : Mem) (slot : Nat) : Nat → Prop
  | head : word m slot ≠ 0 → InChain m slot (word m slot)
  | next {p : Nat} : InChain m slot p → word m p ≠ 0 → InChain m slot (word m p)

/-- If `r` replaces an object, because it puts a value that is not shorter under
    its key, the block of that object is freed cleanly. -/
def CleanReplace (m : Mem) (r : Request) : Prop :=
  r.type = .put → ∀ p, InChain m (slotOf (bucketOf r)) p →
    loadNat m (p + offsetofKeyLen) 2 = r.key.length →
    load m (p + offsetofData) r.key.length = r.key →
    loadNat m (p + offsetofValLen) 2 ≤ r.val.length → FreesCleanly m (p - 4)

/-- The nodes of a walk from a slot are on its chain. -/
theorem inChain_of_seg {slot a : Nat} {ps : List Nat} (hs : Seg (word m) a ps 0)
    (ha : a ≠ 0 → InChain m slot a) : ∀ p ∈ ps, InChain m slot p := by
  induction ps generalizing a with
  | nil =>
    intro p hp
    cases hp
  | cons x xs ih =>
    obtain ⟨rfl, h0, hrest⟩ := hs
    intro p hp
    rcases List.mem_cons.mp hp with rfl | hp
    · exact ha h0
    · exact ih hrest (fun hn => (ha h0).next hn) p hp

/-- The end of `Put` for an object that is replaced. -/
def replaceObject (r : Request) (q p next : Nat) : NvmM Status := do
  free true p
  let p ← newObject r next
  write32 true q p
  pure .ok

/-- **Replacing** the object `e` of the key by a new one, linked in at its place. -/
theorem replaceObject_run (hheap : HeapInv s.mem σ) (h : Chains hash s.mem (blocks σ) ch)
    (hh : r.keyHash = hash r.key) (hsize : r.key.length + r.val.length ≤ kMaxItemSize)
    {pre post : List Entry} (hes : ch (bucketOf r) = pre ++ e :: post) (hkey : e.key = r.key) :
    replaceObject r (linkOf (slotOf (bucketOf r)) pre) e.ptr (word s.mem e.ptr) s =
      .error .assertion ∨
    ∃ s' σ' ch', replaceObject r (linkOf (slotOf (bucketOf r)) pre) e.ptr (word s.mem e.ptr) s =
      .ok (.ok, s') ∧ Bound hash s σ ch r (FreesCleanly s.mem (e.ptr - 4)) s' σ' ch' := by
  have hi := bucketOf_lt r
  have hσ := hheap.wf
  have hb := h.buckets _ hi
  have he := mem_of_split hes
  have hpl := (placed_iff hσ).mpr (hb.fits e he)
  have he4 := hpl.ptr
  have hlen := e.len_ge
  have hfits := hpl.fits
  unfold replaceObject
  -- first the old object is freed, then a new one is made with its successor
  rcases free_run true hheap hpl.live (fun _ => by omega) with ⟨_, hfree⟩ | ⟨_, s₁, σ₁, hfree, rel⟩
  · left
    rw [Nat.sub_add_cancel he4] at hfree
    exact bind_of_error hfree
  rw [Nat.sub_add_cancel he4] at hfree
  rw [bind_of_ok hfree]
  rcases newObject_run rel.heap hsize (word_lt s.mem e.ptr) with hrun | ⟨s₂, σ₂, blk, hrun, n⟩
  · left
    exact bind_of_error hrun
  right
  have hb' := hb
  rw [hes] at hb'
  -- the objects that stay
  have hkept : ∀ j, j < kHashTableSize → ∀ x ∈ ch j, (j = bucketOf r → x ∈ pre ++ post) →
      Kept s.mem (blocks σ₂) s₂.mem x := by
    intro j hj x hx hstay
    have hne := h.ptr_ne hi hj hes hx hstay
    have h₁ := released_kept rel hσ ((h.buckets j hj).fits x hx) (by omega)
    exact h₁.trans (n.kept rel.heap.wf h₁.1)
  have hpre : ∀ x ∈ pre, x.Fits (blocks σ₂) := by
    intro x hx
    refine (hkept _ hi x ?_ fun _ => List.mem_append_left _ hx).1
    rw [hes]
    exact List.mem_append_left _ hx
  have hslot : ∀ j, j < kHashTableSize → word s₂.mem (slotOf j) = word s.mem (slotOf j) := by
    intro j hj
    rw [slot_word (fun a ha => n.keeps a (Or.inl ha)) hj,
      slot_word (fun a ha => rel.keeps a (Or.inl ha)) hj]
  have hkeys : ∀ x ∈ pre ++ post, x.key ≠ r.key := by
    rw [← hkey]
    exact hb'.key_ne
  have hchains := h.link hi hes (List.sublist_cons_self e post) (blocks_wf n.heap.wf) hslot hkept
    n.object ((placed_iff n.heap.wf).mp n.placed) (bucketOf_eq hh) hkeys
    (by rw [show word s₂.mem _ = _ from n.link]; exact hb'.chain.tail)
  obtain ⟨hlB, hl0⟩ := link_bounds hi (blocks_wf n.heap.wf) hpre
  refine ⟨s₂.wr (linkOf (slotOf (bucketOf r)) pre) (blk + 4), σ₂, _, ?_, hchains,
    .replaced _ hes hkey, ?_⟩
  · rw [bind_of_ok hrun, bind_of_ok (write32_ok hlB fun _ => hl0), pure_run]
  -- with a clean `Free` the footers are right in between, and so the new heap is
  · intro _ hr hclean
    have hfull := n.full (rel.footers hclean) (rel.roomy hr)
    exact ⟨heapInv_link pre hfull.heap hi hpre, hfull.roomy⟩

/-- A shorter value under a key that is there. -/
theorem shrink_run (hheap : HeapInv s.mem σ) (h : Chains hash s.mem (blocks σ) ch)
    {pre post : List Entry} (hes : ch (bucketOf r) = pre ++ e :: post) (hkey : e.key = r.key)
    (hlt : r.val.length < e.val.length) (clean : Prop) :
    ∃ s' σ' ch', (do
      write16 true (e.ptr + offsetofValLen) r.val.length
      memcpy (e.ptr + offsetofData + r.key.length) r.val
      pure .ok : NvmM Status) s = .ok (.ok, s') ∧ Bound hash s σ ch r clean s' σ' ch' := by
  have hi := bucketOf_lt r
  have hb := h.buckets _ hi
  rw [hes] at hb
  have hfit := hb.fits e (List.mem_append_right _ List.mem_cons_self)
  have hpl := (placed_iff hheap.wf).mpr hfit
  have hbd := hpl.bounds hheap.wf
  unfold Entry.len at hbd
  have hchains := h.shrink hi hes hlt r.val_lt
  refine ⟨(s.write (e.ptr + offsetofValLen) (leBytes 2 r.val.length)).write
    (e.ptr + offsetofData + e.key.length) r.val, σ, _, ?_, hchains, ?_, fun _ hr _ => ⟨?_, hr⟩⟩
  · have hwrite : write16 true (e.ptr + offsetofValLen) r.val.length s =
        .ok ((), s.write (e.ptr + offsetofValLen) (leBytes 2 r.val.length)) :=
      write_ok (by simp; omega) (by simp; omega) (by omega)
    rw [bind_of_ok hwrite, ← hkey, bind_of_ok (memcpy_ok (by simp; omega)), pure_run]
  · rw [hkey]
    exact .replaced _ hes hkey
  -- the heap does not see what happens inside of an object
  · refine hheap.of_agree fun a _ hout => shrink_of_not_mem hlt ?_
    by_contra hcon
    exact hout _ (hpl.payload (a := a) (by omega) (by omega))

/-! ### The operations -/

/-- **`Put`** on a well-formed tablet fails an assertion, or binds the key. -/
theorem put_cases (h : WellFormed hash s.mem σ ch) (ht : r.type = .put)
    (hh : r.keyHash = hash r.key) (hsize : r.key.length + r.val.length ≤ kMaxItemSize)
    {fuel : Nat} (hfuel : (ch (bucketOf r)).length < fuel) :
    put fuel r s = .error .assertion ∨
    ∃ s' σ' ch', put fuel r s = .ok (.ok, s') ∧
      Bound hash s σ ch r (CleanReplace s.mem r) s' σ' ch' := by
  have hc := h.chains
  have hb := hc.buckets _ (bucketOf_lt r)
  unfold put
  rw [assert_of ht, bind_of_ok (pure_run _ _)]
  simp only
  rw [bind_of_ok (read_slot r)]
  rcases hc.search_run r hfuel with ⟨pre, e, post, hes, hkey, hrun⟩ | ⟨hno, hrun⟩
  · have he := mem_of_split hes
    have hobj := hb.object e he
    obtain ⟨h0, hhi⟩ := (hb.fits e he).inside hc.wf
    unfold Entry.len at hhi
    rw [kSize_eq] at hhi
    rw [bind_of_ok hrun]
    simp only
    rw [if_pos h0, bind_of_ok (read16_ok (by simp; omega) (by simp)), hobj.valLen]
    -- the branches of the source: overwrite, replace, or insert
    by_cases hlt : r.val.length < e.val.length
    · rw [if_pos hlt]
      exact Or.inr (shrink_run h.heap hc hes hkey hlt _)
    · rw [if_neg hlt, bind_of_ok (read32_ok (by simp; omega) fun _ => h0)]
      rcases replaceObject_run h.heap hc hh hsize hes hkey with hrun | ⟨s', σ', ch', hrun, hbound⟩
      · exact Or.inl hrun
      · refine Or.inr ⟨s', σ', ch', hrun, hbound.chains, hbound.rebound, ?_⟩
        intro hf hr hclean
        have hin : InChain s.mem (slotOf (bucketOf r)) e.ptr :=
          inChain_of_seg hb.chain (fun h0 => .head h0) e.ptr (List.mem_map_of_mem he)
        exact hbound.heap hf hr (hclean ht e.ptr hin (by rw [hobj.keyLen, hkey])
          (by rw [← hkey]; exact hobj.key) (by rw [hobj.valLen]; omega))
  · rw [bind_of_ok hrun]
    exact insertHead_run h.heap.core hc hh hsize hno _

/-- **`Add`** of a bound key changes nothing; of a new one it fails an assertion
    or binds it. -/
theorem add_cases (h : WellFormed hash s.mem σ ch) (ht : r.type = .add)
    (hh : r.keyHash = hash r.key) (hsize : r.key.length + r.val.length ≤ kMaxItemSize) {fuel : Nat}
    (hfuel : (ch (bucketOf r)).length < fuel) :
    ((∃ pre e post, ch (bucketOf r) = pre ++ e :: post ∧ e.key = r.key) ∧
      add fuel r s = .ok (.error, s)) ∨
    ((∀ x ∈ ch (bucketOf r), x.key ≠ r.key) ∧ (add fuel r s = .error .assertion ∨
      ∃ s' σ' ch', add fuel r s = .ok (.ok, s') ∧ Bound hash s σ ch r True s' σ' ch')) := by
  have hc := h.chains
  have hb := hc.buckets _ (bucketOf_lt r)
  unfold add
  rw [assert_of ht, bind_of_ok (pure_run _ _)]
  simp only
  rw [bind_of_ok (read_slot r)]
  rcases hc.search_run r hfuel with ⟨pre, e, post, hes, hkey, hrun⟩ | ⟨hno, hrun⟩
  · left
    have he := mem_of_split hes
    refine ⟨⟨pre, e, post, hes, hkey⟩, ?_⟩
    rw [bind_of_ok hrun]
    simp only
    rw [if_pos ((hb.fits e he).inside hc.wf).1, pure_run]
  · right
    refine ⟨hno, ?_⟩
    rw [bind_of_ok hrun]
    exact insertHead_run h.heap.core hc hh hsize hno _

/-! ### On the map -/

/-- What a request that binds its key leaves behind. -/
structure BoundBy (hash : List UInt8 → Nat) (ch : Nat → List Entry) (M : Store) (r : Request)
    (s' : Nvm) (σ' : Shape) (ch' : Nat → List Entry) : Prop where
  inv : TabletInv hash s'.mem σ' ch'
  represents : Represents hash ch' (Function.update M r.key (some r.val))
  length : ∀ j, (ch' j).length ≤ (ch j).length + 1

theorem length_update_le {ch : Nat → List Entry} {i : Nat} {es : List Entry}
    (h : es.length ≤ (ch i).length + 1) (j : Nat) :
    (Function.update ch i es j).length ≤ (ch j).length + 1 := by
  by_cases hji : j = i
  · rw [hji, Function.update_self]
    exact h
  · rw [Function.update_of_ne hji]
    omega

theorem Rebound.represents {ch' : Nat → List Entry} (h : Rebound ch r ch')
    (hc : Chains hash m B ch) (hM : Represents hash ch M) (hh : r.keyHash = hash r.key) :
    Represents hash ch' (Function.update M r.key (some r.val)) := by
  have hb := hc.buckets _ (bucketOf_lt r)
  cases h with
  | @replaced pre post e p hes hkey =>
    rw [hes] at hb
    apply hM.bind (e := ⟨p, r.key, r.val⟩) (bucketOf_eq hh)
    intro x
    rw [hes, hb.mem_replace, hkey]
  | inserted p hno =>
    apply hM.bind (e := ⟨p, r.key, r.val⟩) (bucketOf_eq hh)
    intro x
    rw [List.mem_cons]
    constructor
    · intro hx
      exact hx.imp id fun hx => ⟨hx, hno x hx⟩
    · intro hx
      exact hx.imp id fun hx => hx.1

theorem Rebound.length_le {ch' : Nat → List Entry} (h : Rebound ch r ch') (j : Nat) :
    (ch' j).length ≤ (ch j).length + 1 := by
  cases h with
  | replaced p hes _ =>
    apply length_update_le
    rw [hes]
    simp
  | inserted p _ => exact length_update_le (by simp) j

theorem Bound.boundBy {clean : Prop} {σ' : Shape} {ch' : Nat → List Entry}
    (h : Bound hash s σ ch r clean s' σ' ch') (hinv : TabletInv hash s.mem σ ch)
    (hM : Represents hash ch M) (hh : r.keyHash = hash r.key) (hclean : clean) :
    BoundBy hash ch M r s' σ' ch' := by
  obtain ⟨hheap, hroomy⟩ := h.heap hinv.heap.footers hinv.roomy hclean
  exact ⟨h.chains.tabletInv hheap hroomy,
    h.rebound.represents hinv.wellFormed.chains hM hh, h.rebound.length_le⟩

/-- **`Put`** fails an assertion, or binds the key. -/
theorem put_run (h : TabletInv hash s.mem σ ch) (hM : Represents hash ch M) (ht : r.type = .put)
    (hh : r.keyHash = hash r.key) (hsize : r.key.length + r.val.length ≤ kMaxItemSize)
    (hclean : CleanReplace s.mem r) {fuel : Nat} (hfuel : (ch (bucketOf r)).length < fuel) :
    put fuel r s = .error .assertion ∨
    ∃ s' σ' ch', put fuel r s = .ok (.ok, s') ∧ BoundBy hash ch M r s' σ' ch' := by
  rcases put_cases h.wellFormed ht hh hsize hfuel with hrun | ⟨s', σ', ch', hrun, hbound⟩
  · exact Or.inl hrun
  · exact Or.inr ⟨s', σ', ch', hrun, hbound.boundBy h hM hh hclean⟩

/-- **`Add`** of a bound key changes nothing; of a new one it fails an assertion
    or binds it. -/
theorem add_run (h : TabletInv hash s.mem σ ch) (hM : Represents hash ch M) (ht : r.type = .add)
    (hh : r.keyHash = hash r.key) (hsize : r.key.length + r.val.length ≤ kMaxItemSize) {fuel : Nat}
    (hfuel : (ch (bucketOf r)).length < fuel) :
    (∃ v, M r.key = some v ∧ add fuel r s = .ok (.error, s)) ∨
    (M r.key = none ∧ (add fuel r s = .error .assertion ∨
      ∃ s' σ' ch', add fuel r s = .ok (.ok, s') ∧ BoundBy hash ch M r s' σ' ch')) := by
  rcases add_cases h.wellFormed ht hh hsize hfuel with
    ⟨⟨pre, e, post, hes, hkey⟩, hrun⟩ | ⟨hno, hrun | ⟨s', σ', ch', hrun, hbound⟩⟩
  · exact Or.inl ⟨e.val, hM.found hh hes hkey, hrun⟩
  · exact Or.inr ⟨hM.missing hh hno, Or.inl hrun⟩
  · exact Or.inr ⟨hM.missing hh hno, Or.inr ⟨s', σ', ch', hrun, hbound.boundBy h hM hh trivial⟩⟩

end Nvds.Tablet
