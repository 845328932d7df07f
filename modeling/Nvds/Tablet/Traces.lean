import Nvds.Allocator.Coalescing
import Nvds.Tablet.Operations
import Nvds.Tablet.Tracking

/-! # The modifications of a request

    What a request that returns has recorded on a well-formed tablet, by the
    way it went: nothing; the length and the bytes of a shorter value; a new
    object with its link; the words of a freed block before those; a link and
    the words of a freed block.
-/

open ByteMemory Program Nvds.Allocator

namespace Nvds.Tablet

variable {hash : List UInt8 → Nat} {σ : Shape} {ch : Nat → List Entry} {s s' : Nvm} {r : Request}
  {fuel : Nat}

/-! ### The modifications -/

/-- Words that have been stored. -/
def words (base : Nat) (as : List Nat) : List Modification := as.map (wordAt base)

/-- The header of a new object at `p`. -/
def headerMod (base p : Nat) : Modification := ⟨p, base + p, 16⟩

/-- The bytes of its key and of its value. -/
def dataMod (base p : Nat) (r : Request) : Modification :=
  ⟨p + 16, base + (p + 16), r.key.length + r.val.length⟩

/-- A new object at `p` that is linked in at `q`, behind the words `as`. -/
def newMods (base p : Nat) (r : Request) (q : Nat) (as : List Nat) : List Modification :=
  words base as ++ ([headerMod base p, dataMod base p r] ++ words base [q])

/-- A shorter value in the object at `p`: its length and its bytes. -/
def shrinkMods (base p : Nat) (r : Request) : List Modification :=
  [⟨p + 6, base + (p + 6), 2⟩,
    ⟨p + 16 + r.key.length, base + (p + 16 + r.key.length), r.val.length⟩]

/-- The block size for the object of `r`. -/
def sizeFor (r : Request) : Nat := blockSize (offsetofData + r.key.length + r.val.length)

/-- The modifications of a new object that is linked in at `q`, with a block from the heap `σ`. -/
inductive NewMods (base : Nat) (m : Mem) (σ : Shape) (r : Request) (q : Nat) :
    List Modification → Prop
  | mk {blk : Nat} {as : List Nat} : AllocWords m σ (sizeFor r) blk as →
      NewMods base m σ r q (newMods base (blk + 4) r q as)

/-- The heap after the block `blk` has been freed, and the links stored to take its free
    neighbours off their lists. -/
structure Freed (m : Mem) (σ : Shape) (blk lo hi : Nat) (links : List Nat) (m₁ : Mem) : Prop where
  start : lo = mergedFrom m blk
  stop : hi = mergedTo m blk
  merged : Merged m σ blk lo hi
  stored : links = unlinkWords σ.cls (lists m) (σ.absorbed blk lo hi)
  left : lists m₁ = freedLists m σ blk lo hi
  heap : HeapCore m₁ (σ.fuse lo hi)

/-- The modifications of a request on a well-formed tablet. -/
inductive Mods (base : Nat) (m : Mem) (σ : Shape) (ch : Nat → List Entry) (r : Request) :
    List Modification → Prop
  | unchanged : r.type ≠ .put → Mods base m σ ch r []
  | shrunk {e : Entry} : r.type = .put → e ∈ ch (bucketOf r) → e.key = r.key →
      r.val.length < e.val.length → Mods base m σ ch r (shrinkMods base e.ptr r)
  | inserted {L : List Modification} : (∀ x ∈ ch (bucketOf r), x.key ≠ r.key) →
      NewMods base m σ r (slotOf (bucketOf r)) L → Mods base m σ ch r L
  | replaced {pre post : List Entry} {e : Entry} {lo hi : Nat} {prev next size back : List Nat}
      {m₁ : Mem} {L : List Modification} : r.type = .put →
      ch (bucketOf r) = pre ++ e :: post → e.key = r.key → e.val.length ≤ r.val.length →
      FreeTrace σ (e.ptr - 4) lo hi prev next size back →
      Freed m σ (e.ptr - 4) lo hi (prev ++ next) m₁ →
      NewMods base m₁ (σ.fuse lo hi) r (linkOf (slotOf (bucketOf r)) pre) L →
      Mods base m σ ch r (words base (freeWords lo hi prev next size back) ++ L)
  | deleted {e : Entry} {es : List Entry} {lo hi : Nat} {prev next size back : List Nat} :
      r.type ≠ .put → ch (bucketOf r) = e :: es →
      FreeTrace σ (e.ptr - 4) lo hi prev next size back →
      Mods base m σ ch r (words base [slotOf (bucketOf r)] ++
        words base (freeWords lo hi prev next size back))

theorem mem_words {base : Nat} {as : List Nat} {m : Modification} :
    m ∈ words base as ↔ ∃ a ∈ as, m = wordAt base a := by
  unfold words
  rw [List.mem_map]
  constructor
  · intro ⟨a, ha, hm⟩
    exact ⟨a, ha, hm.symm⟩
  · intro ⟨a, ha, hm⟩
    exact ⟨a, ha, hm.symm⟩

theorem mem_newMods {base p q : Nat} {as : List Nat} {m : Modification} :
    m ∈ newMods base p r q as ↔ (∃ a ∈ as, m = wordAt base a) ∨ m = headerMod base p ∨
      m = dataMod base p r ∨ m = wordAt base q := by
  unfold newMods
  rw [List.mem_append, mem_words]
  simp [words]

/-! ### New objects -/

/-- A store of bytes that returns. -/
theorem write_logged {chk : Bool} {off : Nat} {bs : List UInt8} {u : Unit}
    (h : write chk off bs s = .ok (u, s')) (hoff : off + bs.length < 4294967296) :
    LoggedBy s [⟨off, s.base + off, bs.length⟩] s' := by
  have hs := write_result h
  rw [u32_of_lt (by omega)] at hs
  rw [hs]
  exact LoggedBy.write s hoff

theorem memcpy_logged {off : Nat} {bs : List UInt8} {u : Unit}
    (h : memcpy off bs s = .ok (u, s')) (hoff : off + bs.length < 4294967296) :
    LoggedBy s [⟨off, s.base + off, bs.length⟩] s' := by
  have hs := memcpy_result h
  rw [u32_of_lt (by omega)] at hs
  rw [hs]
  exact LoggedBy.write s hoff

theorem sizeFor_bounds (hsize : r.key.length + r.val.length ≤ kMaxItemSize) :
    20 + r.key.length + r.val.length ≤ sizeFor r ∧ 32 ≤ sizeFor r ∧ sizeFor r ≤ 1056 ∧
      sizeFor r < 36 + r.key.length + r.val.length ∧ 16 ∣ sizeFor r := by
  rw [kMaxItemSize_eq] at hsize
  unfold sizeFor blockSize
  rw [offsetofData_eq]
  omega

/-- A new object is recorded behind the words of its block. -/
theorem newObject_logged (h : HeapCore s.mem σ)
    (hsize : r.key.length + r.val.length ≤ kMaxItemSize) {next p : Nat}
    (hrun : newObject r next s = .ok (p, s')) :
    ∃ blk as, p = blk + 4 ∧ AllocWords s.mem σ (sizeFor r) blk as ∧
      LoggedBy s
        (words s.base as ++ [headerMod s.base (blk + 4), dataMod s.base (blk + 4) r]) s' := by
  obtain ⟨hfit, _⟩ := sizeFor_bounds hsize
  have hmax : offsetofData + r.key.length + r.val.length + 4 ≤ kMaxBlockSize := by
    rw [kMaxItemSize_eq] at hsize
    simp
    omega
  unfold newObject at hrun
  obtain ⟨p', s₁, halloc, hrun⟩ := bind_eq_ok.mp hrun
  obtain ⟨_, s₂, hassert, hrun⟩ := bind_eq_ok.mp hrun
  obtain ⟨hp, rfl⟩ := assert_result hassert
  obtain ⟨blk, as, rfl, hstores, hwords⟩ :=
    alloc_stores h (by simp; omega) hmax halloc hp
  obtain ⟨hlo, hend⟩ := hwords.bounds h.wf
  change blk + sizeFor r ≤ 67108852 at hend
  obtain ⟨_, s₃, hwrite, hrun⟩ := bind_eq_ok.mp hrun
  obtain ⟨_, s₄, hcopy, hrun⟩ := bind_eq_ok.mp hrun
  cases hrun
  rw [offsetofData_eq] at hcopy
  -- the object is filled in after `Alloc` has returned
  have h₁ := write_logged hwrite (by rw [length_objectBytes]; omega)
  have h₂ := memcpy_logged hcopy (by rw [List.length_append]; omega)
  rw [length_objectBytes, hstores.base] at h₁
  rw [List.length_append, h₁.base, hstores.base] at h₂
  exact ⟨blk, as, rfl, hwords, LoggedBy.trans hstores (h₁.trans h₂)⟩

/-- A new object that is linked in at `q`. -/
theorem newLinked_logged (h : HeapCore s.mem σ)
    (hsize : r.key.length + r.val.length ≤ kMaxItemSize) {next q : Nat} (hq : q + 4 < 4294967296)
    {status : Status}
    (hrun : (do let p ← newObject r next
                write32 true q p
                pure .ok : NvmM Status) s = .ok (status, s')) :
    ∃ L, NewMods s.base s.mem σ r q L ∧ LoggedBy s L s' := by
  obtain ⟨p, s₁, hnew, hrun⟩ := bind_eq_ok.mp hrun
  obtain ⟨_, s₂, hlink, hrun⟩ := bind_eq_ok.mp hrun
  cases hrun
  obtain ⟨blk, as, rfl, hwords, hlog⟩ := newObject_logged h hsize hnew
  have hstore : LoggedBy s₁ (words s.base [q]) s' := by
    rw [← hlog.base]
    exact write32_stores hlink hq
  refine ⟨_, .mk hwords, ?_⟩
  unfold newMods
  rw [← List.append_assoc]
  exact hlog.trans hstore

/-! ### The operations -/

theorem slot_lt (r : Request) : slotOf (bucketOf r) + 4 < 4294967296 := by
  have hB := (slotOf_bounds (bucketOf_lt r)).2.1
  rw [kNVMTabletSize_eq] at hB
  omega

/-- The link to an object of a bucket is inside the tablet. -/
theorem WellFormed.link_lt (h : WellFormed hash s.mem σ ch) {pre post : List Entry}
    (hes : ch (bucketOf r) = pre ++ post) : linkOf (slotOf (bucketOf r)) pre + 4 < 4294967296 := by
  have hpre : ∀ x ∈ pre, x.Fits (blocks σ) := by
    intro x hx
    refine (h.chains.buckets _ (bucketOf_lt r)).fits x ?_
    rw [hes]
    exact List.mem_append_left _ hx
  have hB := (link_bounds (bucketOf_lt r) (blocks_wf h.heap.wf) hpre).1
  rw [kNVMTabletSize_eq] at hB
  omega

theorem insertHead_logged (h : WellFormed hash s.mem σ ch)
    (hno : ∀ x ∈ ch (bucketOf r), x.key ≠ r.key)
    (hsize : r.key.length + r.val.length ≤ kMaxItemSize) {head : Nat} {status : Status}
    (hrun : insertHead r (slotOf (bucketOf r)) head s = .ok (status, s')) :
    ∃ L, Mods s.base s.mem σ ch r L ∧ LoggedBy s L s' := by
  obtain ⟨L, hnew, hlog⟩ := newLinked_logged h.heap.core hsize (slot_lt r) hrun
  exact ⟨L, .inserted hno hnew, hlog⟩

/-- A shorter value is stored in its place. -/
theorem shrink_logged (h : WellFormed hash s.mem σ ch) {e : Entry} (he : e ∈ ch (bucketOf r))
    (hkey : e.key = r.key) (hlt : r.val.length < e.val.length) {status : Status}
    (hrun : (do
      write16 true (e.ptr + offsetofValLen) r.val.length
      memcpy (e.ptr + offsetofData + r.key.length) r.val
      pure .ok : NvmM Status) s = .ok (status, s')) :
    LoggedBy s (shrinkMods s.base e.ptr r) s' := by
  have hbd := (((h.buckets _ (bucketOf_lt r)).placed e he).bounds h.heap.wf).2
  unfold Entry.len at hbd
  rw [hkey] at hbd
  obtain ⟨_, s₁, hwrite, hrun⟩ := bind_eq_ok.mp hrun
  obtain ⟨_, s₂, hcopy, hrun⟩ := bind_eq_ok.mp hrun
  cases hrun
  rw [offsetofValLen_eq] at hwrite
  rw [offsetofData_eq] at hcopy
  have h₁ := write_logged hwrite (by rw [length_leBytes]; omega)
  have h₂ := memcpy_logged hcopy (by omega)
  rw [length_leBytes] at h₁
  rw [h₁.base] at h₂
  exact h₁.trans h₂

/-- A live block is freed. -/
theorem free_freed (h : HeapInv s.mem σ) {blk : Nat} (hb : σ.Live blk) (h16 : σ.size blk ≠ 16)
    {u : Unit} (hrun : free true (blk + 4) s = .ok (u, s')) :
    ∃ lo hi prev next size back, Stores s (freeWords lo hi prev next size back) s' ∧
      FreeTrace σ blk lo hi prev next size back ∧
      Freed s.mem σ blk lo hi (prev ++ next) s'.mem := by
  obtain ⟨lo, hi, prev, next, size, back, hM, hexact, hstores, htrace, hlinks, hlists⟩ :=
    free_stores h hb (fun _ => h16) hrun
  obtain ⟨hlo, hhi⟩ := hM.eq h hb hexact
  rw [free_eq true s h.wf hb.1] at hrun
  rcases freeBlock_cases h hb (fun _ => h16) with
    ⟨_, hbad⟩ | ⟨_, t, lo', hi', hok, _, hM', hcore, _, _, _, hexact'⟩
  · rw [hrun] at hbad
    cases hbad
  rw [hrun] at hok
  cases hok
  obtain ⟨hlo', hhi'⟩ := hM'.eq h hb hexact'
  rw [← hlo] at hlo'
  rw [← hhi] at hhi'
  subst hlo' hhi'
  exact ⟨_, _, prev, next, size, back, hstores, htrace, hlo, hhi, hM, hlinks, hlists, hcore⟩

/-- An object is freed and a new one linked in at its place. -/
theorem replace_logged (h : WellFormed hash s.mem σ ch) (ht : r.type = .put)
    (hsize : r.key.length + r.val.length ≤ kMaxItemSize) {pre post : List Entry} {e : Entry}
    (hes : ch (bucketOf r) = pre ++ e :: post) (hkey : e.key = r.key)
    (hle : e.val.length ≤ r.val.length) {next : Nat} {status : Status}
    (hrun : replaceObject r (linkOf (slotOf (bucketOf r)) pre) e.ptr next s = .ok (status, s')) :
    ∃ L, Mods s.base s.mem σ ch r L ∧ LoggedBy s L s' := by
  have hpl := (h.buckets _ (bucketOf_lt r)).placed e (mem_of_split hes)
  have hfits := hpl.fits
  have hlen := e.len_ge
  obtain ⟨_, s₁, hfree, hrun⟩ := bind_eq_ok.mp hrun
  rw [← Nat.sub_add_cancel hpl.ptr] at hfree
  obtain ⟨lo, hi, fprev, fnext, fsize, fback, hstores, htrace, hfreed⟩ :=
    free_freed h.heap hpl.live (by omega) hfree
  obtain ⟨L, hnew, hlog⟩ := newLinked_logged hfreed.heap hsize (h.link_lt hes) hrun
  rw [hstores.base] at hnew
  exact ⟨_, .replaced ht hes hkey hle htrace hfreed hnew, LoggedBy.trans hstores hlog⟩

theorem put_logged (h : WellFormed hash s.mem σ ch)
    (hsize : r.key.length + r.val.length ≤ kMaxItemSize) {status : Status}
    (hrun : put fuel r s = .ok (status, s')) :
    ∃ L, Mods s.base s.mem σ ch r L ∧ LoggedBy s L s' := by
  obtain ⟨_, s₀, hassert, hrun⟩ := bind_eq_ok.mp hrun
  obtain ⟨ht, rfl⟩ := assert_result hassert
  rw [bind_of_ok (read_slot r)] at hrun
  obtain ⟨found, s₁, hsearch, hrun⟩ := bind_eq_ok.mp hrun
  simp only at hrun
  obtain ⟨rfl, ⟨pre, e, post, hes, hkey, rfl⟩ | ⟨hno, h0⟩⟩ := h.chains.search_result hsearch
  · have he := mem_of_split hes
    have hb := h.chains.buckets _ (bucketOf_lt r)
    obtain ⟨h0, hhi⟩ := (hb.fits e he).inside h.chains.wf
    have hlen := e.len_ge
    rw [kSize_eq] at hhi
    rw [if_pos h0, bind_of_ok (read16_ok (by simp; omega) (by simp)),
      (hb.object e he).valLen] at hrun
    -- the branches of the source, each with the writes that it records
    by_cases hlt : r.val.length < e.val.length
    · rw [if_pos hlt] at hrun
      exact ⟨_, .shrunk ht he hkey hlt, shrink_logged h he hkey hlt hrun⟩
    · rw [if_neg hlt] at hrun
      obtain ⟨next, s₂, hread, hrun⟩ := bind_eq_ok.mp hrun
      obtain ⟨_, rfl⟩ := read_result hread
      exact replace_logged h ht hsize hes hkey (by omega) hrun
  · rw [if_neg (not_not.mpr h0)] at hrun
    exact insertHead_logged h hno hsize hrun

theorem add_logged (h : WellFormed hash s.mem σ ch)
    (hsize : r.key.length + r.val.length ≤ kMaxItemSize) {status : Status}
    (hrun : add fuel r s = .ok (status, s')) :
    ∃ L, Mods s.base s.mem σ ch r L ∧ LoggedBy s L s' := by
  obtain ⟨_, s₀, hassert, hrun⟩ := bind_eq_ok.mp hrun
  obtain ⟨ht, rfl⟩ := assert_result hassert
  rw [bind_of_ok (read_slot r)] at hrun
  obtain ⟨found, s₁, hsearch, hrun⟩ := bind_eq_ok.mp hrun
  simp only at hrun
  obtain ⟨rfl, ⟨pre, e, post, hes, hkey, rfl⟩ | ⟨hno, h0⟩⟩ := h.chains.search_result hsearch
  · have he := mem_of_split hes
    have he4 := ((h.buckets _ (bucketOf_lt r)).placed e he).ptr
    rw [if_pos (show e.ptr ≠ 0 by omega)] at hrun
    cases hrun
    exact ⟨[], .unchanged (by rw [ht]; decide), LoggedBy.refl _⟩
  · rw [if_neg (not_not.mpr h0)] at hrun
    exact insertHead_logged h hno hsize hrun

theorem del_logged (h : WellFormed hash s.mem σ ch) (ht : r.type = .del) {status : Status}
    (hrun : del fuel r s = .ok (status, s')) :
    ∃ L, Mods s.base s.mem σ ch r L ∧ LoggedBy s L s' := by
  have hi := bucketOf_lt r
  have hfuel : 1 ≤ fuel := by
    by_contra h0
    obtain rfl : fuel = 0 := by omega
    rw [del_start ht] at hrun
    cases hrun
  have hput : r.type ≠ .put := by
    rw [ht]
    decide
  -- `Del` returns only if the bucket is empty or its first object has the key
  cases hes : ch (bucketOf r) with
  | nil =>
    rw [del_empty h.chains ht hes fuel hfuel] at hrun
    cases hrun
    exact ⟨[], .unchanged hput, LoggedBy.refl _⟩
  | cons e es =>
    have he : e ∈ ch (bucketOf r) := by
      rw [hes]
      exact List.mem_cons_self
    have hpl := (h.buckets _ hi).placed e he
    by_cases hkey : e.key = r.key
    · rw [del_unlinks h.chains ht hes hkey hfuel] at hrun
      obtain ⟨_, s₁, hfree, hrun⟩ := bind_eq_ok.mp hrun
      cases hrun
      have hheap : HeapInv (s.wr (slotOf (bucketOf r)) (word s.mem e.ptr)).mem σ :=
        heapInv_link [] h.heap hi fun x hx => absurd hx List.not_mem_nil
      have hptr : e.ptr - 4 + 4 = e.ptr := Nat.sub_add_cancel hpl.ptr
      have hfree' : free true (e.ptr - 4 + 4)
          (s.wr (slotOf (bucketOf r)) (word s.mem e.ptr)) = .ok ((), s') := by
        rw [hptr]
        exact hfree
      have hfits := hpl.fits
      have hlen := e.len_ge
      obtain ⟨lo, hi', prev, next, size, back, hstores, htrace, _⟩ :=
        free_freed hheap hpl.live (by omega) hfree'
      have hlink : LoggedBy s (words s.base [slotOf (bucketOf r)])
          (s.wr (slotOf (bucketOf r)) (word s.mem e.ptr)) :=
        Stores.wr s _ _ (slot_lt r)
      exact ⟨_, .deleted hput hes htrace, hlink.trans hstores⟩
    · rw [del_stuck h.chains ht hes hkey] at hrun
      cases hrun

/-- **The modifications of a request** that is not a `GET` and returns. -/
theorem serve_mods (h : WellFormed hash s.mem σ ch) (ht : r.type ≠ .get)
    (hsize : r.key.length + r.val.length ≤ kMaxItemSize) {resp : Response}
    (hrun : serve fuel r s = .ok (resp, s')) :
    Mods s.base s.mem σ ch r s'.modifications ∧ ∀ m ∈ s'.modifications, Recorded s.base m := by
  have hlogged := serve_logged hrun
  refine ⟨?_, hlogged.recorded⟩
  obtain ⟨_, s₁, hclear, hrun⟩ := bind_eq_ok.mp hrun
  obtain rfl : { s with modifications := [] } = s₁ := by
    injection hclear with hclear
    exact (Prod.mk.inj hclear).2
  -- the list is cleared first, so that it has the writes of this request only
  obtain ⟨L, hmods, hlog⟩ : ∃ L, Mods s.base s.mem σ ch r L ∧
      LoggedBy { s with modifications := [] } L s' := by
    have h' : WellFormed hash { s with modifications := [] }.mem σ ch := h
    unfold dispatch at hrun
    cases hr : r.type with
    | put =>
      rw [hr] at hrun
      obtain ⟨status, s₂, hput, hrun⟩ := bind_eq_ok.mp hrun
      cases hrun
      exact put_logged h' hsize hput
    | add =>
      rw [hr] at hrun
      obtain ⟨status, s₂, hadd, hrun⟩ := bind_eq_ok.mp hrun
      cases hrun
      exact add_logged h' hsize hadd
    | del =>
      rw [hr] at hrun
      obtain ⟨status, s₂, hdel, hrun⟩ := bind_eq_ok.mp hrun
      cases hrun
      exact del_logged h' hr hdel
    | get => exact absurd hr ht
  have hL : s'.modifications = L := hlog.log
  rw [hL]
  exact hmods

end Nvds.Tablet
