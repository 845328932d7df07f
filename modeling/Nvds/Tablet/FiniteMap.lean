import Nvds.Framework.Keyed
import Nvds.Tablet.Operations

/-! # A tablet with all four operations

    `Del` returns only if the bucket of the key is empty or the object of the
    key is its first one. If the block of that object is freed cleanly, the
    tablet represents the map without the key. So whatever is asked of a
    tablet, a request that returns is answered as by a finite map, which
    keeps a value for each key.
-/

open ByteMemory Program LinkedList Nvds.Allocator

namespace Nvds.Tablet

variable {hash : List UInt8 → Nat} {m m' : Mem} {σ : Shape} {ch : Nat → List Entry} {M : Store}
  {s s' : Nvm} {r : Request}

/-! ### Requests that return -/

/-- A request for an item that is not too large, under the hash of its key. -/
structure Item (hash : List UInt8 → Nat) (r : Request) : Prop where
  hash : r.keyHash = hash r.key
  size : r.key.length + r.val.length ≤ kMaxItemSize

/-- If `r` deletes the first object of its bucket, the block of that object is freed cleanly. -/
def CleanDelete (m : Mem) (r : Request) : Prop :=
  r.type = .del → word m (slotOf (bucketOf r)) ≠ 0 →
    FreesCleanly m (word m (slotOf (bucketOf r)) - 4)

/-- The block of an object that `r` replaces or deletes is freed cleanly. -/
structure Clean (m : Mem) (r : Request) : Prop where
  replace : CleanReplace m r
  delete : CleanDelete m r

/-- The request was answered as by the map `M`, and the tablet represents the map after it. -/
structure Agrees (hash : List UInt8 → Nat) (M : Store) (r : Request) (resp : Response)
    (s' : Nvm) : Prop where
  answer : resp = (M.serve r).1
  tablet : ∃ σ' ch', TabletInv hash s'.mem σ' ch' ∧ Represents hash ch' (M.serve r).2

/-- The tags around a block are not changed by a store behind the heap. -/
theorem freesCleanly_congr (hσ : σ.WF) (ht : Headers m σ)
    (hag : ∀ a, a ≤ kHeapEnd → word m' a = word m a) {blk : Nat} (hb : σ.Live blk)
    (h : FreesCleanly m blk) : FreesCleanly m' blk := by
  have hnext := hσ.end_cut hb.1
  have hend := (hσ.node_of_cut hnext).2
  have hend' := (hσ.node_of_cut (hσ.cut_next hnext)).2
  have hblk := hag blk (by omega)
  have hfoot := hag (blk - 4) (by omega)
  have hlast := hag (blk + σ.size blk - 4) (by omega)
  have hword := hag _ hend
  have hword' := hag _ hend'
  have hsize := ht.size blk hb.1
  have hsize' := ht.size_of_cut hσ hnext
  simp only [FreesCleanly, CoalescesPrev, CoalescesNext, FooterIntact, sizeTag] at h ⊢
  rw [hblk, hsize, hword, hsize', hfoot, hlast, hword']
  rw [hsize, hsize'] at h
  exact h

/-- A store to a bucket's head does not reach the heap. -/
theorem word_wr_slot {i v a : Nat} (ha : a ≤ kHeapEnd) :
    word (s.wr (slotOf i) v).mem a = word s.mem a := by
  refine word_congr fun b _ hb => store_of_not_mem ?_
  rw [kHeapEnd_eq] at ha
  rw [slotOf, offsetofHashTable_eq, length_leBytes]
  omega

/-- `Del` of the first key of a bucket takes the object out of the tablet. -/
theorem del_first (h : TabletInv hash s.mem σ ch) (ht : r.type = .del)
    {e : Entry} {es : List Entry} (hes : ch (bucketOf r) = e :: es) (hkey : e.key = r.key)
    (hclean : CleanDelete s.mem r) {fuel : Nat} {status : Status} (hfuel : 1 ≤ fuel)
    (hrun : del fuel r s = .ok (status, s')) :
    status = .ok ∧ ∃ σ', TabletInv hash s'.mem σ' (Function.update ch (bucketOf r) es) := by
  have hi := bucketOf_lt r
  have hσ := h.heap.wf
  have hc := h.wellFormed.chains
  have hb := hc.buckets _ hi
  have he : e ∈ ch (bucketOf r) := by
    rw [hes]
    exact List.mem_cons_self
  have hes' : ch (bucketOf r) = [] ++ e :: es := hes
  have hfit := hb.fits e he
  have hpl := (placed_iff hσ).mpr hfit
  have he4 := hpl.ptr
  have hlen := e.len_ge
  have hfits := hpl.fits
  have hin := hfit.inside hc.wf
  have hslot : word s.mem (slotOf (bucketOf r)) = e.ptr := by
    have hchain := hb.chain
    rw [hes] at hchain
    exact hchain.1
  rw [del_unlinks hc ht hes hkey hfuel] at hrun
  obtain ⟨_, s₂, hfree, hok⟩ := bind_eq_ok.mp hrun
  cases hok
  -- the heap is as it was when the block is freed
  have hheap : HeapInv (s.wr (slotOf (bucketOf r)) (word s.mem e.ptr)).mem σ :=
    heapInv_link [] h.heap hi fun x hx => absurd hx List.not_mem_nil
  have hclean₁ := freesCleanly_congr hσ h.heap.tags.headers
    (fun a ha => word_wr_slot (i := bucketOf r) (v := word s.mem e.ptr) ha) hpl.live
    (hslot ▸ hclean ht (hslot ▸ hin.1))
  have hcases := free_run true hheap hpl.live fun _ => by omega
  rw [Nat.sub_add_cancel he4] at hcases
  rcases hcases with ⟨_, herr⟩ | ⟨_, s₁, σ', hfree', rel⟩
  · rw [hfree] at herr
    cases herr
  rw [hfree] at hfree'
  cases hfree'
  have hheap' : HeapInv s'.mem σ' := rel.heap.inv (rel.footers hclean₁)
  refine ⟨rfl, σ', ?_⟩
  refine Chains.tabletInv ?_ hheap' (rel.roomy h.roomy)
  -- the other objects are kept
  have hunlinked := hc.unlink hi hes'
  refine hunlinked.congr (blocks_wf hheap'.wf)
    (fun j hj => slot_word (fun a ha => rel.keeps a (Or.inl ha)) hj) ?_
  intro j hj x hx
  have hne : x.ptr ≠ e.ptr := by
    rcases mem_update hx with ⟨hji, hx'⟩ | ⟨hji, hx'⟩
    · refine hc.ptr_ne hi hj hes' ?_ fun _ => hx'
      rw [hji, hes]
      exact List.mem_cons_of_mem _ hx'
    · exact hc.ptr_ne hi hj hes' hx' fun hcon => absurd hcon hji
  exact released_kept rel hσ ((hunlinked.buckets j hj).fits x hx) (by omega)

/-- **`Del`**, if it returns, drops the binding of its key. -/
theorem del_agrees (h : TabletInv hash s.mem σ ch) (hM : Represents hash ch M) (hr : Item hash r)
    (ht : r.type = .del) (hclean : CleanDelete s.mem r) {fuel : Nat} {status : Status}
    (hrun : del fuel r s = .ok (status, s')) : Agrees hash M r ⟨.del, status, []⟩ s' := by
  have hc := h.wellFormed.chains
  have hfuel : 1 ≤ fuel := by
    by_contra hzero
    obtain rfl : fuel = 0 := by omega
    rw [del_start ht] at hrun
    cases hrun
  cases hes : ch (bucketOf r) with
  | nil =>
    -- nothing is bound in this bucket
    have hnone : M r.key = none := hM.missing hr.hash fun x hx => by
      rw [hes] at hx
      cases hx
    rw [del_empty hc ht hes fuel hfuel] at hrun
    cases hrun
    constructor
    · simp only [Store.serve, ht, hnone]
    · refine ⟨σ, ch, h, ?_⟩
      simp only [Store.serve, ht, hnone]
      exact hM
  | cons e es =>
    by_cases hkey : e.key = r.key
    · have hes' : ch (bucketOf r) = [] ++ e :: es := hes
      have hsome := hM.found hr.hash hes' hkey
      obtain ⟨rfl, σ', hinv⟩ := del_first h ht hes hkey hclean hfuel hrun
      constructor
      · simp only [Store.serve, ht, hsome]
      · refine ⟨σ', _, hinv, ?_⟩
        simp only [Store.serve, ht, hsome]
        exact hM.unbind hc hr.hash hes' hkey
    · rw [del_stuck hc ht hes hkey] at hrun
      cases hrun

theorem add_mono {fuel : Nat} {status : Status} (n : Nat)
    (h : add fuel r s = .ok (status, s')) : add (fuel + n) r s = .ok (status, s') := by
  unfold add at h ⊢
  obtain ⟨_, s₁, hassert, h⟩ := bind_eq_ok.mp h
  obtain ⟨head, s₂, hread, h⟩ := bind_eq_ok.mp h
  obtain ⟨qp, s₃, hsearch, h⟩ := bind_eq_ok.mp h
  rw [bind_of_ok hassert, bind_of_ok hread, bind_of_ok (search_mono n hsearch)]
  exact h

/-- A request other than `DEL` that returns also returns with more fuel. -/
theorem serve_mono {fuel : Nat} {resp : Response} (n : Nat) (ht : r.type ≠ .del)
    (h : serve fuel r s = .ok (resp, s')) : serve (fuel + n) r s = .ok (resp, s') := by
  have hserve : ∀ fuel, serve fuel r s = dispatch fuel r { s with modifications := [] } :=
    fun _ => rfl
  rw [hserve] at h ⊢
  unfold dispatch at h ⊢
  cases hr : r.type with
  | del => exact absurd hr ht
  | put =>
    rw [hr] at h
    obtain ⟨status, s₁, hrun, hok⟩ := bind_eq_ok.mp h
    exact bind_eq_ok.mpr ⟨status, s₁, put_mono n hrun, hok⟩
  | add =>
    rw [hr] at h
    obtain ⟨status, s₁, hrun, hok⟩ := bind_eq_ok.mp h
    exact bind_eq_ok.mpr ⟨status, s₁, add_mono n hrun, hok⟩
  | get =>
    rw [hr] at h
    obtain ⟨y, s₁, hrun, hok⟩ := bind_eq_ok.mp h
    exact bind_eq_ok.mpr ⟨y, s₁, get_mono n hrun, hok⟩

/-- **One request.** If it returns, it is answered as by the map, whatever the fuel. -/
theorem serve_agrees (h : TabletInv hash s.mem σ ch) (hM : Represents hash ch M)
    (hr : Item hash r) (hclean : Clean s.mem r) {fuel : Nat} {resp : Response}
    (hrun : serve fuel r s = .ok (resp, s')) : Agrees hash M r resp s' := by
  by_cases ht : r.type = .del
  · have hserve : serve fuel r s = dispatch fuel r { s with modifications := [] } := rfl
    rw [hserve, dispatch, ht] at hrun
    obtain ⟨status, s₁, hdel, hok⟩ := bind_eq_ok.mp hrun
    cases hok
    have h₀ : TabletInv hash ({ s with modifications := [] } : Nvm).mem σ ch := h
    exact del_agrees h₀ hM hr ht hclean.delete hdel
  · have hmore := serve_mono ((ch (bucketOf r)).length + 1) ht hrun
    have hfuel : (ch (bucketOf r)).length < fuel + ((ch (bucketOf r)).length + 1) := by omega
    rcases serve_run h hM ⟨ht, hr.hash, hr.size⟩ hclean.replace hfuel with
      herr | ⟨s₁, σ', ch', hok, hinv, hrep, _⟩
    · rw [hmore] at herr
      cases herr
    · rw [hmore] at hok
      cases hok
      exact ⟨rfl, σ', ch', hinv, hrep⟩

/-! ### The map as an object with keys -/

/-- What a request does with the value of its key. -/
def Request.act (r : Request) (v : Option (List UInt8)) : Response × Option (List UInt8) :=
  match r.type, v with
  | .put, _ => (⟨.put, .ok, []⟩, some r.val)
  | .add, some v => (⟨.add, .error, []⟩, some v)
  | .add, none => (⟨.add, .ok, []⟩, some r.val)
  | .get, some v => (⟨.get, .ok, v⟩, some v)
  | .get, none => (⟨.get, .error, []⟩, none)
  | .del, some _ => (⟨.del, .ok, []⟩, none)
  | .del, none => (⟨.del, .error, []⟩, none)

/-- The map, for requests that come with something else, such as an address. -/
def storeObject (α : Type) : Keyed.Object (Request × α) (List UInt8) (Option (List UInt8)) Response where
  key e := e.1.key
  act e := Request.act e.1

theorem storeObject_step {α : Type} (M : Store) (e : Request × α) :
    (storeObject α).step M e = M.serve e.1 := by
  unfold Keyed.Object.step Store.serve storeObject Request.act
  dsimp only
  cases e.1.type with
  | put => rfl
  | add | get | del =>
    cases hv : M e.1.key with
    | none => simp only [← hv, Function.update_eq_self]
    | some v => simp only [← hv, Function.update_eq_self]

end Nvds.Tablet
