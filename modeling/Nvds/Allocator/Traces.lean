import Nvds.Allocator.Calls
import Nvds.Allocator.Tracking

/-! # The words the allocator stores

    Which words `FreeBlock` and `AllocBlock` store on a well-formed heap, in
    which order. All of them are words the allocator keeps for itself: list
    heads, links of free blocks, and tags of the blocks it works on.
-/

open ByteMemory Program LinkedList Tiling

namespace Nvds.Allocator

variable {chk : Bool} {σ : Shape} {s s' s'' : Nvm}

/-! ### Stores of words -/

/-- The modification recorded of the word at `a`. -/
def wordAt (base a : Nat) : Modification := ⟨a, base + a, 4⟩

/-- The words `as` have been stored and recorded between `s` and `s'`, and nothing else. -/
def Stores (s : Nvm) (as : List Nat) (s' : Nvm) : Prop := LoggedBy s (as.map (wordAt s.base)) s'

theorem Stores.refl (s : Nvm) : Stores s [] s := LoggedBy.refl s

theorem Stores.trans {as bs : List Nat} (h₁ : Stores s as s') (h₂ : Stores s' bs s'') :
    Stores s (as ++ bs) s'' := by
  unfold Stores at h₂ ⊢
  rw [h₁.base] at h₂
  rw [List.map_append]
  exact LoggedBy.trans h₁ h₂

theorem Stores.wr (s : Nvm) (off v : Nat) (h : off + 4 < 4294967296) :
    Stores s [off] (s.wr off v) := by
  have hlen : (leBytes 4 v).length = 4 := length_leBytes 4 v
  have hfits : off + (leBytes 4 v).length < 4294967296 := by
    rw [hlen]
    exact h
  have := LoggedBy.write s hfits
  rw [hlen] at this
  exact this

/-- Bytes outside the stored words have not changed. -/
theorem Stores.same {as : List Nat} (h : Stores s as s') {a : Nat}
    (ha : ∀ w ∈ as, a < w ∨ w + 4 ≤ a) : s'.mem a = s.mem a := by
  apply LoggedBy.same h a
  intro m hm hin
  obtain ⟨w, hw, rfl⟩ := List.mem_map.mp hm
  have h₁ : w ≤ a := hin.1
  have h₂ : a < w + 4 := hin.2
  have := ha w hw
  omega

/-- A word that is not stored is read as before. -/
theorem Stores.word_eq {as : List Nat} (h : Stores s as s') {a : Nat}
    (ha : ∀ w ∈ as, a + 4 ≤ w ∨ w + 4 ≤ a) : word s'.mem a = word s.mem a := by
  refine word_congr fun x h₁ h₂ => h.same ?_
  intro w hw
  have := ha w hw
  omega

/-- A store of one word that returns. -/
theorem write32_stores {off v : Nat} {u : Unit} (h : write32 chk off v s = .ok (u, s'))
    (hoff : off + 4 < 4294967296) : Stores s [off] s' := by
  have hs := write_result h
  rw [u32_of_lt (by omega)] at hs
  rw [hs]
  exact Stores.wr s _ v hoff

/-! ### Taking a block off its list -/

/-- The words that taking a block off the list of class `k` stores: the link or the head that
    led to it, and the link back if a block follows. -/
def Unlinks (σ : Shape) (k : Nat) (as : List Nat) : Prop :=
  ∃ a bs, as = a :: bs ∧ (a = 4 * k ∨ ∃ x, σ.Free x ∧ σ.cls x = k ∧ a = x + 8) ∧
    (bs = [] ∨ ∃ y, σ.Free y ∧ σ.cls y = k ∧ bs = [y + 4])

theorem Unlinks.length_le {k : Nat} {as : List Nat} (h : Unlinks σ k as) : as.length ≤ 2 := by
  obtain ⟨a, bs, rfl, _, rfl | ⟨y, _, _, rfl⟩⟩ := h
  · exact Nat.le_succ _
  · exact le_refl _

/-- The words `RemoveBlock` stores to take `b` off the list of class `k`: the head or the link
    that led to it, and the link back of the block behind. -/
def removeWords (l : Lists) (k b : Nat) : List Nat :=
  (if l.prev b = 0 then 4 * k else l.prev b + 8) :: if l.next b = 0 then [] else [l.next b + 4]

theorem removeWords_unlinks {l : Lists} {L : Nat → Prop} (hl : Linked l L σ.cls)
    (hL : ∀ x, L x → σ.Free x) {b : Nat} (hb : L b) :
    Unlinks σ (σ.cls b) (removeWords l (σ.cls b) b) := by
  refine ⟨_, _, rfl, ?_, ?_⟩
  · by_cases hp : l.prev b = 0
    · rw [if_pos hp]
      exact Or.inl rfl
    · obtain ⟨hpL, hcls, _⟩ := hl.prev b hb hp
      rw [if_neg hp]
      exact Or.inr ⟨_, hL _ hpL, hcls, rfl⟩
  · by_cases hn : l.next b = 0
    · rw [if_pos hn]
      exact Or.inl rfl
    · obtain ⟨hnL, hcls, _⟩ := hl.next b hb hn
      rw [if_neg hn]
      exact Or.inr ⟨_, hL _ hnL, hcls, rfl⟩

/-- The lists after the blocks `bs` have been taken off one after the other. -/
def removeAll (cls : Nat → Nat) (l : Lists) (bs : List Nat) : Lists :=
  bs.foldl (fun l b => l.remove (cls b) b) l

/-- The words that are stored for it. -/
def unlinkWords (cls : Nat → Nat) : Lists → List Nat → List Nat
  | _, [] => []
  | l, b :: bs => removeWords l (cls b) b ++ unlinkWords cls (l.remove (cls b) b) bs

theorem removeAll_append (cls : Nat → Nat) (l : Lists) (as bs : List Nat) :
    removeAll cls l (as ++ bs) = removeAll cls (removeAll cls l as) bs :=
  List.foldl_append

theorem unlinkWords_append (cls : Nat → Nat) (l : Lists) (as bs : List Nat) :
    unlinkWords cls l (as ++ bs) =
      unlinkWords cls l as ++ unlinkWords cls (removeAll cls l as) bs := by
  induction as generalizing l with
  | nil => rfl
  | cons b as ih =>
    rw [List.cons_append, unlinkWords, ih, unlinkWords, List.append_assoc]
    rfl

theorem removeBlock_stores (hσ : σ.WF) (ht : Headers s.mem σ) {L : Nat → Prop}
    (hl : Linked (lists s.mem) L σ.cls) (hL : ∀ x, L x → σ.Free x) {b : Nat} (hb : L b) {u : Unit}
    (h : removeBlock chk b (σ.size b) s = .ok (u, s')) :
    Stores s (removeWords (lists s.mem) (σ.cls b) b) s' ∧
      lists s'.mem = (lists s.mem).remove (σ.cls b) b := by
  have hbF := hL b hb
  obtain ⟨hlo, _, hge, _, hend⟩ := hσ.layout hbF.1
  have hclass : 4 * classOf (σ.size b) + 4 < 4294967296 := by
    have := classOf_lt (σ.size b)
    rw [kNumFreeLists_eq] at this
    omega
  have hlists : lists s'.mem = (lists s.mem).remove (σ.cls b) b := by
    rcases removeBlock_cases hσ ht hl hL hb b with ⟨_, hbad⟩ | ⟨_, t, hrun, hrel⟩
    · rw [hbad] at h
      cases h
    · rw [hrun] at h
      cases h
      exact hrel.eq
  refine ⟨?_, hlists⟩
  rw [removeBlock, bind_of_ok (readTheFreeTag_ok (by simp; omega) (by omega))] at h
  obtain ⟨_, s₀, hassert, h⟩ := bind_eq_ok.mp h
  obtain ⟨_, rfl⟩ := assert_result hassert
  rw [bind_of_ok (readPrev_run hσ hbF.1), bind_of_ok (readNext_run hσ hbF.1)] at h
  obtain ⟨_, s₁, h₁, h₂⟩ := bind_eq_ok.mp h
  -- the link or the head that led to the block
  have hfirst : Stores s
      [if (lists s.mem).prev b = 0 then 4 * σ.cls b else (lists s.mem).prev b + 8] s₁ := by
    by_cases hp : (lists s.mem).prev b = 0
    · rw [if_neg (by simp [hp]), bind_of_ok (getFreeListByBlockSize_ok hge),
        bind_of_ok (readNext_run hσ hbF.1)] at h₁
      rw [if_pos hp]
      exact write32_stores h₁ hclass
    · rw [if_pos hp, bind_of_ok (readNext_run hσ hbF.1)] at h₁
      obtain ⟨hpL, _, _⟩ := hl.prev b hb hp
      obtain ⟨_, _, _, _, hpe⟩ := hσ.layout (hL _ hpL).1
      rw [offsetofNext_eq] at h₁
      rw [if_neg hp]
      exact write32_stores h₁ (by omega)
  -- the link back
  by_cases hn : (lists s.mem).next b = 0
  · rw [if_neg (by simp [hn]), pure_run] at h₂
    cases h₂
    rw [removeWords, if_pos hn]
    exact hfirst
  · rw [if_pos hn] at h₂
    obtain ⟨hnL, _, _⟩ := hl.next b hb hn
    obtain ⟨_, _, _, _, hne⟩ := hσ.layout (hL _ hnL).1
    obtain ⟨v, s₂, hread, hwrite⟩ := bind_eq_ok.mp h₂
    obtain ⟨_, rfl⟩ := read_result hread
    rw [offsetofPrev_eq] at hwrite
    rw [removeWords, if_neg hn]
    exact hfirst.trans (write32_stores hwrite (by omega))

/-! ### `freeBlock` -/

/-- The words `FreeBlock` stores besides the free tag behind the new block `[lo, hi)`, the head
    of its list and its links: for the neighbours that are merged, for the size if it has
    changed, and the back link of the old head. -/
structure FreeTrace (σ : Shape) (blk lo hi : Nat) (prev next size back : List Nat) : Prop where
  prev : lo = blk ∧ prev = [] ∨ σ.Free lo ∧ lo + σ.size lo = blk ∧ Unlinks σ (σ.cls lo) prev
  next : hi = blk + σ.size blk ∧ next = [] ∨ σ.Free (blk + σ.size blk) ∧
    hi = blk + σ.size blk + σ.size (blk + σ.size blk) ∧
    Unlinks σ (σ.cls (blk + σ.size blk)) next
  size : lo = blk ∧ hi = blk + σ.size blk ∧ size = [] ∨ size = [lo, hi - 4]
  back : back = [] ∨ ∃ x, σ.Free x ∧ (x < lo ∨ hi ≤ x) ∧ σ.cls x = classOf (hi - lo) ∧
    back = [x + 4]

theorem FreeTrace.lengths {blk lo hi : Nat} {prev next size back : List Nat}
    (h : FreeTrace σ blk lo hi prev next size back) :
    prev.length ≤ 2 ∧ next.length ≤ 2 ∧ back.length ≤ 1 := by
  refine ⟨?_, ?_, ?_⟩
  · rcases h.prev with ⟨_, rfl⟩ | ⟨_, _, hu⟩
    · exact Nat.zero_le _
    · exact hu.length_le
  · rcases h.next with ⟨_, rfl⟩ | ⟨_, _, hu⟩
    · exact Nat.zero_le _
    · exact hu.length_le
  · rcases h.back with rfl | ⟨x, _, _, _, rfl⟩
    · exact Nat.zero_le _
    · exact le_refl _

theorem FreeTrace.mem_back {blk lo hi : Nat} {prev next size back : List Nat}
    (h : FreeTrace σ blk lo hi prev next size back) {a : Nat} (ha : a ∈ back) :
    ∃ x, σ.Free x ∧ a = x + 4 := by
  rcases h.back with rfl | ⟨x, hx, _, _, rfl⟩
  · cases ha
  · exact ⟨x, hx, List.mem_singleton.mp ha⟩

/-- The words `FreeBlock` stores, in order. -/
def freeWords (lo hi : Nat) (prev next size back : List Nat) : List Nat :=
  prev ++ (next ++ (size ++ ([hi] ++ ([4 * classOf (hi - lo), lo + 4, lo + 8] ++ back))))

/-- A set free bit tells of a free block before, with its size in the last word. -/
theorem exists_prev_of_coalesces (h : HeapInv s.mem σ) {blk : Nat} (hb : σ.Live blk)
    (hC : CoalescesPrev s.mem blk) :
    ∃ p, σ.Free p ∧ p + σ.size p = blk ∧ word s.mem (blk - 4) = σ.size p := by
  have hne : blk ≠ kHeapBegin := by
    intro heq
    have := h.tags.first
    rw [← heq] at this
    have := hC.1
    omega
  obtain ⟨p, hp, hpb⟩ := h.wf.tiled.exists_prev (Or.inr hb.1) hne
  have hpf : σ.free p = true := (h.tags.free p hp).mp (by rw [hpb]; exact hC.1)
  refine ⟨p, ⟨hp, hpf⟩, hpb, ?_⟩
  rw [← hpb]
  exact h.tags.footer p hp hpf

theorem coalescePrev_stores (h : HeapInv s.mem σ) {blk : Nat} (hb : σ.Live blk) {x : Nat × Nat}
    (hrun : coalescePrev chk blk (σ.size blk) (word s.mem blk &&& kFreeMask)
      (word s.mem (blk - 4)) s = .ok (x, s')) :
    ∃ bs, Stores s (unlinkWords σ.cls (lists s.mem) bs) s' ∧
      lists s'.mem = removeAll σ.cls (lists s.mem) bs ∧
      (x.1 = blk ∧ bs = [] ∨ σ.Free x.1 ∧ x.1 + σ.size x.1 = blk ∧ bs = [x.1]) := by
  unfold coalescePrev at hrun
  split at hrun
  · next hcond =>
    rw [and_kFreeMask_ne_zero (word_lt _ _), ← h.tags.size blk hb.1] at hcond
    obtain ⟨p, hpF, hpb, hw⟩ := exists_prev_of_coalesces h hb hcond
    have hend := (h.wf.layout hb.1).2.2.2.2
    have hsub : sub32 blk (word s.mem (blk - 4)) = p := by
      rw [sub32_of_le (by omega) (by omega)]
      omega
    rw [hsub, hw] at hrun
    obtain ⟨_, s₁, hremove, hpure⟩ := bind_eq_ok.mp hrun
    cases hpure
    -- only the neighbour is written to, when it leaves its list
    obtain ⟨hs, hlists⟩ :=
      removeBlock_stores h.wf h.tags.headers h.linked (fun _ hx => hx) hpF hremove
    refine ⟨[p], ?_, hlists, Or.inr ⟨hpF, hpb, rfl⟩⟩
    rw [unlinkWords, unlinkWords, List.append_nil]
    exact hs
  · cases hrun
    exact ⟨[], Stores.refl s, rfl, Or.inl ⟨rfl, rfl⟩⟩

theorem coalesceNext_stores (hσ : σ.WF) (ht : Headers s.mem σ) {blk lo n : Nat} (hb : σ.Live blk)
    (hlo : lo ≤ blk) (hl : Linked (lists s.mem) (fun x => σ.Free x ∧ x ≠ lo) σ.cls)
    (hrun : coalesceNext chk (blk + σ.size blk) (blk + σ.size blk - lo)
      (word s.mem (blk + σ.size blk + σ.size (blk + σ.size blk)) &&& kFreeMask)
      (σ.size (blk + σ.size blk)) s = .ok (n, s')) :
    ∃ bs, Stores s (unlinkWords σ.cls (lists s.mem) bs) s' ∧
      lists s'.mem = removeAll σ.cls (lists s.mem) bs ∧
      (n = blk + σ.size blk - lo ∧ bs = [] ∨ σ.Free (blk + σ.size blk) ∧
        n = blk + σ.size blk + σ.size (blk + σ.size blk) - lo ∧ bs = [blk + σ.size blk]) := by
  unfold coalesceNext at hrun
  split at hrun
  · next hcond =>
    rw [and_kFreeMask_ne_zero (word_lt _ _)] at hcond
    -- the sentinel has size 0, and its bit says that `blk` is live
    have hn0 : σ.size (blk + σ.size blk) ≠ 0 := by
      intro h0
      have hbit := hcond.1
      rw [h0, Nat.add_zero] at hbit
      exact Bool.noConfusion (((ht.free blk hb.1).mp hbit).symm.trans hb.2)
    have hnF : σ.Free (blk + σ.size blk) := ⟨hn0, (ht.free _ hn0).mp hcond.1⟩
    have hge := hσ.size_ge hb.1
    have hend := (hσ.layout hn0).2.2.2.2
    obtain ⟨_, s₁, hremove, hpure⟩ := bind_eq_ok.mp hrun
    cases hpure
    obtain ⟨hs, hlists⟩ :=
      removeBlock_stores hσ ht hl (fun _ hx => hx.1) ⟨hnF, by omega⟩ hremove
    refine ⟨[blk + σ.size blk], ?_, hlists, Or.inr ⟨hnF, ?_, rfl⟩⟩
    · rw [unlinkWords, unlinkWords, List.append_nil]
      exact hs
    · rw [u32_of_lt (by omega)]
      omega
  · cases hrun
    exact ⟨[], Stores.refl s, rfl, Or.inl ⟨rfl, rfl⟩⟩

/-- The size of the new block is written if it is not the old one. -/
theorem resize_stores {lo n old : Nat} {u : Unit} (hn : 4 ≤ n) (hend : lo + n < 4294967296)
    (hrun : (if n ≠ old then do
        let tag ← readThePrevFreeTag chk lo
        write32 chk lo (tag ||| n)
        write32 chk (sub32 (u32 (lo + n)) 4) n
      else pure () : NvmM Unit) s = .ok (u, s')) :
    ∃ as, Stores s as s' ∧ (n = old ∧ as = [] ∨ as = [lo, lo + n - 4]) := by
  have hsub : sub32 (u32 (lo + n)) 4 = lo + n - 4 := by
    rw [u32_of_lt (by omega), sub32_of_le (by omega) (by omega)]
  split at hrun
  · rw [hsub] at hrun
    obtain ⟨tag, s₁, hread, hrun⟩ := bind_eq_ok.mp hrun
    obtain ⟨v, s₂, hread, hpure⟩ := bind_eq_ok.mp hread
    obtain ⟨_, rfl⟩ := read_result hread
    cases hpure
    obtain ⟨_, s₃, h₁, h₂⟩ := bind_eq_ok.mp hrun
    exact ⟨_, (write32_stores h₁ (by omega)).trans (write32_stores h₂ (by omega)), Or.inr rfl⟩
  · next heq =>
    cases hrun
    exact ⟨[], Stores.refl s, Or.inl ⟨not_not.mp heq, rfl⟩⟩

/-- The free blocks that are merged with `blk` to the block `[lo, hi)`: the one before and the
    one behind. -/
def Shape.absorbed (σ : Shape) (blk lo hi : Nat) : List Nat :=
  (if lo = blk then [] else [lo]) ++ if hi = blk + σ.size blk then [] else [blk + σ.size blk]

/-- The free lists after `FreeBlock` has made the block `[lo, hi)` of `blk`. -/
def freedLists (m : Mem) (σ : Shape) (blk lo hi : Nat) : Lists :=
  (removeAll σ.cls (lists m) (σ.absorbed blk lo hi)).push (classOf (hi - lo)) lo

/-- The new block is put in front of the list for blocks of `n` bytes. -/
theorem pushBlock_stores {b n : Nat} {u : Unit} (hn : 16 ≤ n) (hb : b + 12 < 4294967296)
    (hhead : word s.mem (4 * classOf n) ≠ 0 → word s.mem (4 * classOf n) + 8 < 4294967296)
    (hrun : (do
        let freeList ← getFreeListByBlockSize n
        let head ← read32 chk freeList
        write32 chk freeList b
        write32 chk (b + offsetofPrev) 0
        write32 chk (b + offsetofNext) head
        if head ≠ 0 then write32 chk (head + offsetofPrev) b else pure () : NvmM Unit) s =
      .ok (u, s')) :
    ∃ as, Stores s ([4 * classOf n, b + 4, b + 8] ++ as) s' ∧
      (as = [] ∨ word s.mem (4 * classOf n) ≠ 0 ∧ as = [word s.mem (4 * classOf n) + 4]) := by
  have hclass : 4 * classOf n + 4 < 4294967296 := by
    have := classOf_lt n
    rw [kNumFreeLists_eq] at this
    omega
  rw [bind_of_ok (getFreeListByBlockSize_ok hn)] at hrun
  obtain ⟨head, s₁, hread, hrun⟩ := bind_eq_ok.mp hrun
  obtain ⟨hv, rfl⟩ := read_result hread
  rw [u32_of_lt (by omega)] at hv
  rw [offsetofPrev_eq, offsetofNext_eq] at hrun
  -- the three stores that are always made
  obtain ⟨_, s₁, h₁, hrun⟩ := bind_eq_ok.mp hrun
  obtain ⟨_, s₂, h₂, hrun⟩ := bind_eq_ok.mp hrun
  obtain ⟨_, s₃, h₃, hrun⟩ := bind_eq_ok.mp hrun
  have hs := ((write32_stores h₁ hclass).trans (write32_stores h₂ (by omega))).trans
    (write32_stores h₃ (by omega))
  change head = word s.mem (4 * classOf n) at hv
  split at hrun
  · next h0 =>
    rw [hv] at hrun h0
    -- and the link back from the old head, if there is one
    have := hhead h0
    exact ⟨_, hs.trans (write32_stores hrun (by omega)), Or.inr ⟨h0, rfl⟩⟩
  · cases hrun
    exact ⟨[], hs, Or.inl rfl⟩

/-- **The words `FreeBlock` stores**, and the free lists it leaves. -/
theorem freeBlock_stores (h : HeapInv s.mem σ) {blk : Nat} (hb : σ.Live blk)
    (h16 : chk = true → σ.size blk ≠ 16) {u : Unit} (hrun : freeBlock chk blk s = .ok (u, s')) :
    ∃ lo hi prev next size back, Merged s.mem σ blk lo hi ∧
      (hi = blk + σ.size blk → σ.Free (blk + σ.size blk) →
        blk + σ.size blk - lo ≤ kMaxBlockSize → kMaxBlockSize < σ.size (blk + σ.size blk)) ∧
      Stores s (freeWords lo hi prev next size back) s' ∧
      FreeTrace σ blk lo hi prev next size back ∧
      prev ++ next = unlinkWords σ.cls (lists s.mem) (σ.absorbed blk lo hi) ∧
      lists s'.mem = freedLists s.mem σ blk lo hi := by
  have hσ := h.wf
  obtain ⟨hnlo, hnm, hbge, hb16, hend⟩ := hσ.layout hb.1
  have hcut := hσ.end_cut hb.1
  rw [freeBlock_eq h hb] at hrun
  obtain ⟨x, s₁, h₁, hrun⟩ := bind_eq_ok.mp hrun
  -- the block before
  obtain ⟨bs, hs₁, hlists₁, hprev⟩ := coalescePrev_stores h hb h₁
  rcases coalescePrev_run chk h hb with ⟨_, hbad⟩ |
    ⟨t₁, lo, hrun₁, _, hlo0, hlob, hleft, hl₁, _, _, hst₁, _⟩
  · rw [hbad] at h₁
    cases h₁
  rw [hrun₁] at h₁
  cases h₁
  have ht₁ : Headers s₁.mem σ := h.tags.headers.of_same hσ hst₁
  have hnB : blk + σ.size blk + σ.size (blk + σ.size blk) + 4 ≤ kNVMTabletSize := by
    have := (hσ.node_of_cut (hσ.cut_next hcut)).2
    rw [kHeapEnd_eq] at this
    rw [kNVMTabletSize_eq]
    omega
  rw [bind_of_ok (readTheFreeTag_ok hnB (by omega))] at hrun
  -- the block behind
  obtain ⟨n, s₂, h₂, hrun⟩ := bind_eq_ok.mp hrun
  obtain ⟨bs', hs₂, hlists₂, hnext⟩ := coalesceNext_stores hσ ht₁ hb hlob hl₁ h₂
  rcases coalesceNext_run chk hσ ht₁ hb (hleft.imp (fun hx => hx.1) fun hx => ⟨hx.1.1, hx.2.1⟩) hl₁
    with ⟨_, _, _, hbad⟩ | ⟨_, t₂, hi, hrun₂, _, hhi, hhib, hright, hl₂, _, hst₂, _, hexact⟩
  · rw [hbad] at h₂
    cases h₂
  rw [hrun₂] at h₂
  cases h₂
  have hhie := (hσ.node_of_cut hhi).2
  rw [kHeapEnd_eq] at hhie
  have hlohi : lo + (hi - lo) = hi := by omega
  have hlo292 := (hσ.layout hlo0).1
  have habsorbed : bs ++ bs' = σ.absorbed blk lo hi := by
    unfold Shape.absorbed
    congr 1
    · rcases hprev with ⟨hx, rfl⟩ | ⟨hF, hx, rfl⟩
      · rw [if_pos hx]
      · have := hσ.size_ge hF.1
        rw [if_neg (show lo ≠ blk by omega)]
    · rcases hnext with ⟨hx, rfl⟩ | ⟨hF, hx, rfl⟩
      · rw [if_pos (by omega)]
      · have := hσ.size_ge hF.1
        rw [if_neg (show hi ≠ blk + σ.size blk by omega)]
  -- the size and the free tag
  obtain ⟨_, s₃, h₃, hrun⟩ := bind_eq_ok.mp hrun
  obtain ⟨size, hs₃, hsize⟩ := resize_stores (by omega) (by omega) h₃
  have hlists₃ : lists s₃.mem = lists s₂.mem := by
    obtain ⟨t₃, hok, _, hl, _⟩ := resize_run chk (s := s₂) hσ (ht₁.of_same hσ hst₂) hb hlo0 hlob
      hhi hhib (hright.imp (fun hx => hx.1) fun hx => ⟨hx.1, hx.2.1⟩)
    rw [hok] at h₃
    cases h₃
    exact hl
  rw [bind_of_ok (setTheFreeTag_ok (by rw [kNVMTabletSize_eq]; omega) (by omega)), hlohi] at hrun
  have hs₄ := Stores.wr s₃ hi (2147483648 + word s₃.mem hi % 2147483648) (by omega)
  have hs₂₄ := hs₃.trans hs₄
  have hhimod := (isNode_iff.mp (hσ.node_of_cut hhi).1).2
  have hlists₄ : lists (s₃.wr hi (2147483648 + word s₃.mem hi % 2147483648)).mem =
      removeAll σ.cls (lists s.mem) (σ.absorbed blk lo hi) := by
    rw [Nvm.wr_mem, lists_store_tag (by omega) (by rw [kHeapBegin_eq]; omega) (Or.inl hhimod),
      hlists₃, hlists₂, hlists₁, ← removeAll_append, habsorbed]
  -- the head of the list is the one from before
  have hclass := classOf_lt (hi - lo)
  have hhead : word (s₃.wr hi (2147483648 + word s₃.mem hi % 2147483648)).mem
      (4 * classOf (hi - lo)) = (lists s₂.mem).head (classOf (hi - lo)) := by
    rw [lists_head_eq hclass]
    rw [kNumFreeLists_eq] at hclass
    refine hs₂₄.word_eq fun w hw => Or.inl ?_
    rcases hsize with ⟨_, rfl⟩ | rfl
    · simp only [List.nil_append, List.mem_singleton] at hw
      omega
    · simp only [List.cons_append, List.nil_append, List.mem_cons, List.not_mem_nil,
        or_false] at hw
      omega
  obtain ⟨back, hs₅, hback⟩ := pushBlock_stores (n := hi - lo) (b := lo) (by omega) (by omega)
    (fun h0 => by
      rw [hhead] at h0 ⊢
      have := (hσ.layout (hl₂.head _ h0).1.1.1).2.2.2.2
      omega) hrun
  have hlists₅ : lists s'.mem = freedLists s.mem σ blk lo hi := by
    have heq := hlists₄
    rw [← habsorbed, removeAll_append, ← hlists₁, ← hlists₂] at heq
    have hlo : σ.Free lo ∨ lo = blk ∧ σ.size lo ≠ 0 :=
      hleft.elim (fun hx => Or.inr ⟨hx.1, hlo0⟩) fun hx => Or.inl hx.1
    have hc0 : chk = true → classOf (hi - lo) ≠ 0 := by
      intro hchk
      have := h16 hchk
      exact classOf_ne_zero (by omega)
    obtain ⟨t₅, hok, hrel⟩ := pushBlock_run hσ hlo hc0
      (s := s₃.wr hi (2147483648 + word s₃.mem hi % 2147483648))
      (fun h0 => by
        rw [heq] at h0 ⊢
        exact (hl₂.head _ h0).1.1) (show 16 ≤ hi - lo by omega)
    rw [hok] at hrun
    cases hrun
    rw [hrel.eq, hlists₄]
    rfl
  rw [hhead] at hback
  refine ⟨lo, hi, unlinkWords σ.cls (lists s.mem) bs, unlinkWords σ.cls (lists s₁.mem) bs', size,
    back, ⟨hleft, ?_⟩, hexact, ?_, ⟨?_, ?_, ?_, ?_⟩, ?_, hlists₅⟩
  · rw [coalescesNext_congr hσ h.tags.headers hst₁ hb] at hright
    exact hright
  · have := hs₁.trans (hs₂.trans (hs₂₄.trans hs₅))
    simpa only [freeWords, List.append_assoc] using this
  · rcases hprev with ⟨hx, rfl⟩ | ⟨hF, hx, rfl⟩
    · exact Or.inl ⟨hx, rfl⟩
    · refine Or.inr ⟨hF, hx, ?_⟩
      rw [unlinkWords, unlinkWords, List.append_nil]
      exact removeWords_unlinks h.linked (fun _ hx => hx) hF
  · rcases hnext with ⟨hn, rfl⟩ | ⟨hF, hn, rfl⟩
    · exact Or.inl ⟨by omega, rfl⟩
    · refine Or.inr ⟨hF, by omega, ?_⟩
      rw [unlinkWords, unlinkWords, List.append_nil]
      exact removeWords_unlinks hl₁ (fun _ hx => hx.1) ⟨hF, by omega⟩
  · rcases hsize with ⟨hn, rfl⟩ | rfl
    · exact Or.inl ⟨by omega, by omega, rfl⟩
    · rw [hlohi]
      exact Or.inr rfl
  · rcases hback with rfl | ⟨h0, rfl⟩
    · exact Or.inl rfl
    · obtain ⟨⟨hF, hout⟩, hcls, _⟩ := hl₂.head _ h0
      exact Or.inr ⟨_, hF, by omega, hcls, rfl⟩
  · rw [hlists₁, ← unlinkWords_append, habsorbed]

/-! ### `allocBlock` -/

/-- The words that `SplitBlock` may store: the back link of the block behind `b` on its list, and
    of the old head of the list the rest of `r` bytes goes to. -/
structure SplitTrace (σ : Shape) (b r : Nat) (next back : List Nat) : Prop where
  next : next = [] ∨ ∃ x, σ.Free x ∧ x ≠ b ∧ σ.cls x = σ.cls b ∧ next = [x + 4]
  back : back = [] ∨ ∃ x, σ.Free x ∧ x ≠ b ∧ σ.cls x = classOf r ∧ back = [x + 4]

theorem SplitTrace.lengths {b r : Nat} {next back : List Nat} (h : SplitTrace σ b r next back) :
    next.length ≤ 1 ∧ back.length ≤ 1 := by
  constructor
  · rcases h.next with rfl | ⟨x, _, _, _, rfl⟩
    · exact Nat.zero_le _
    · exact le_refl _
  · rcases h.back with rfl | ⟨x, _, _, _, rfl⟩
    · exact Nat.zero_le _
    · exact le_refl _

theorem SplitTrace.mem_links {b r : Nat} {next back : List Nat} (h : SplitTrace σ b r next back)
    {a : Nat} (ha : a ∈ next ∨ a ∈ back) : ∃ x, σ.Free x ∧ a = x + 4 := by
  rcases ha with ha | ha
  · rcases h.next with rfl | ⟨x, hx, _, _, rfl⟩
    · cases ha
    · exact ⟨x, hx, List.mem_singleton.mp ha⟩
  · rcases h.back with rfl | ⟨x, hx, _, _, rfl⟩
    · cases ha
    · exact ⟨x, hx, List.mem_singleton.mp ha⟩

/-- The words `SplitBlock` stores, in order. -/
def splitWords (σ : Shape) (b r : Nat) (next back : List Nat) : List Nat :=
  [4 * σ.cls b] ++ (next ++ ([b, b + r - 4] ++ ([b + 4, b + 8, 4 * classOf r] ++ (back ++
    [b + r, b + σ.size b - 4, b + σ.size b]))))

/-- The block behind the first of a list. -/
theorem next_of_head {l : Lists} (hl : Linked l σ.Free σ.cls) {b : Nat} (hb : σ.Free b)
    (hp : l.prev b = 0) (hn : l.next b ≠ 0) :
    σ.Free (l.next b) ∧ l.next b ≠ b ∧ σ.cls (l.next b) = σ.cls b := by
  obtain ⟨hF, hcls, hback⟩ := hl.next b hb hn
  refine ⟨hF, ?_, hcls⟩
  intro heq
  rw [heq, hp] at hback
  exact hl.ne_zero b hb hback.symm

/-- The piece that is split off gets its tags. -/
theorem piece_stores {b r n x y v w : Nat} (hr : r ≤ n) (hn : 4 ≤ b + n)
    (hend : b + n + 4 ≤ kNVMTabletSize)
    (hrun : (do
        write32 chk (b + r) x
        write32 chk (sub32 (u32 (b + n)) 4) y
        resetTheFreeTag chk (u32 (b + r)) (n - r)
        pure w : NvmM Nat) s = .ok (v, s')) : Stores s [b + r, b + n - 4, b + n] s' := by
  obtain ⟨_, s₁, h₁, hrun⟩ := bind_eq_ok.mp hrun
  obtain ⟨_, s₂, h₂, hrun⟩ := bind_eq_ok.mp hrun
  have hB := hend
  rw [kNVMTabletSize_eq] at hB
  have hsub : sub32 (u32 (b + n)) 4 = b + n - 4 := by
    rw [u32_of_lt (by omega), sub32_of_le (by omega) (by omega)]
  have hjoin : b + r + (n - r) = b + n := by omega
  rw [hsub] at h₂
  rw [u32_of_lt (by omega), bind_of_ok (resetTheFreeTag_ok (by rw [hjoin]; exact hend)
    (by omega)), hjoin] at hrun
  cases hrun
  exact ((write32_stores h₁ (by omega)).trans (write32_stores h₂ (by omega))).trans
    (Stores.wr s₂ (b + n) (word s₂.mem (b + n) % 2147483648) (by omega))

theorem splitBlock_stores (h : HeapCore s.mem σ) {b r v : Nat} (hb : σ.Free b)
    (hp : (lists s.mem).prev b = 0) (hr : 16 ≤ r) (hlt : r < σ.size b) (hr16 : 16 ∣ r)
    (hrun : splitBlock chk b (σ.size b) (σ.size b - r) s = .ok (v, s')) :
    ∃ next back, Stores s (splitWords σ b r next back) s' ∧ SplitTrace σ b r next back := by
  have hσ := h.wf
  obtain ⟨hlo, hmod, hge, h16, hend⟩ := hσ.layout hb.1
  have hrest : σ.size b - (σ.size b - r) = r := by omega
  have hclass : ∀ k, 4 * classOf k + 4 < 4294967296 := by
    intro k
    have := classOf_lt k
    rw [kNumFreeLists_eq] at this
    omega
  obtain ⟨t₁, t₂, hw₁, hw₂, hrel⟩ := unlinkHead_run chk hσ h.linked hb hp (by omega) 0
  rw [splitBlock, bind_of_ok (readNext_run hσ hb.1),
    bind_of_ok (getFreeListByBlockSize_ok hge), assert_of (by omega),
    bind_of_ok (pure_run _ _), hrest] at hrun
  change (write32 chk (4 * σ.cls b) _ >>= _) s = _ at hrun
  -- off the old list
  have hs₁ : Stores s [4 * σ.cls b] t₁ := write32_stores hw₁ (hclass _)
  obtain ⟨next, hs₂, hnext⟩ : ∃ next, Stores t₁ next t₂ ∧
      (next = [] ∨ ∃ x, σ.Free x ∧ x ≠ b ∧ σ.cls x = σ.cls b ∧ next = [x + 4]) := by
    by_cases hn : (lists s.mem).next b = 0
    · rw [if_neg (by simp [hn]), pure_run] at hw₂
      cases hw₂
      exact ⟨[], Stores.refl _, Or.inl rfl⟩
    · rw [if_pos hn, offsetofPrev_eq] at hw₂
      obtain ⟨hF, hne, hcls⟩ := next_of_head h.linked hb hp hn
      have := (hσ.layout hF.1).2.2.2.2
      exact ⟨_, write32_stores hw₂ (by omega), Or.inr ⟨_, hF, hne, hcls, rfl⟩⟩
  rw [bind_of_ok hw₁, bind_of_ok hw₂] at hrun
  -- the new size
  have hsub : sub32 (u32 (b + r)) 4 = b + r - 4 := by
    rw [u32_of_lt (by omega), sub32_of_le (by omega) (by omega)]
  rw [bind_of_ok (readThePrevFreeTag_ok (by simp; omega) (by omega)), hsub] at hrun
  obtain ⟨_, s₃, h₃, hrun⟩ := bind_eq_ok.mp hrun
  obtain ⟨_, s₄, h₄, hrun⟩ := bind_eq_ok.mp hrun
  have hs₄ := (write32_stores h₃ (by omega)).trans (write32_stores h₄ (by omega))
  -- onto the new list
  rw [bind_of_ok (getFreeListByBlockSize_ok hr)] at hrun
  obtain ⟨head, s₅, hread, hrun⟩ := bind_eq_ok.mp hrun
  obtain ⟨hv, rfl⟩ := read_result hread
  have hhead : head = (lists t₂.mem).head (classOf r) := by
    rw [hv, u32_of_lt (by have := hclass r; omega), lists_head_eq (classOf_lt r)]
    refine hs₄.word_eq fun w hw => Or.inl ?_
    have := hclass r
    have := classOf_lt r
    rw [kNumFreeLists_eq] at this
    simp only [List.cons_append, List.nil_append, List.mem_cons, List.not_mem_nil, or_false] at hw
    omega
  rw [offsetofPrev_eq, offsetofNext_eq] at hrun
  obtain ⟨_, s₅, h₅, hrun⟩ := bind_eq_ok.mp hrun
  obtain ⟨_, s₆, h₆, hrun⟩ := bind_eq_ok.mp hrun
  obtain ⟨_, s₇, h₇, hrun⟩ := bind_eq_ok.mp hrun
  have hs₇ := ((write32_stores h₅ (by omega)).trans (write32_stores h₆ (by omega))).trans
    (write32_stores h₇ (hclass r))
  obtain ⟨_, s₈, h₈, hrun⟩ := bind_eq_ok.mp hrun
  obtain ⟨back, hs₈, hback⟩ : ∃ back, Stores s₇ back s₈ ∧
      (back = [] ∨ ∃ x, σ.Free x ∧ x ≠ b ∧ σ.cls x = classOf r ∧ back = [x + 4]) := by
    split at h₈
    · next h0 =>
      have hl := h.linked.remove hb rfl
      rw [← hrel.eq] at hl
      rw [hhead] at h₈ h0
      obtain ⟨⟨hF, hne⟩, hcls, _⟩ := hl.head _ h0
      have := (hσ.layout hF.1).2.2.2.2
      exact ⟨_, write32_stores h₈ (by omega), Or.inr ⟨_, hF, hne, hcls, rfl⟩⟩
    · cases h₈
      exact ⟨[], Stores.refl _, Or.inl rfl⟩
  -- the piece split off
  have hs₁₁ := piece_stores (by omega) (by omega) (by rw [kNVMTabletSize_eq]; omega) hrun
  refine ⟨next, back, ?_, hnext, hback⟩
  have := hs₁.trans (hs₂.trans (hs₄.trans (hs₇.trans (hs₈.trans hs₁₁))))
  simpa only [splitWords, List.cons_append, List.nil_append, List.append_assoc] using this

/-- The last word the exact fit of the block `b` stores: the back link of the next block, or
    the word at offset 4 if there is none. -/
def PopsTo (m : Mem) (σ : Shape) (b w : Nat) : Prop :=
  (lists m).next b = 0 ∧ w = 4 ∨ (lists m).next b ≠ 0 ∧
    ∃ x, σ.Free x ∧ x ≠ b ∧ σ.cls x = σ.cls b ∧ w = x + 4

theorem takeBlock_stores (h : HeapCore s.mem σ) {b v : Nat} (hb : σ.Free b)
    (hp : (lists s.mem).prev b = 0)
    (hrun : (do
        let nextBlk ← read32 chk (b + offsetofNext)
        resetTheFreeTag chk b (σ.size b)
        write32 chk (4 * σ.cls b) nextBlk
        write32 chk (nextBlk + offsetofPrev) 0
        pure b : NvmM Nat) s = .ok (v, s')) :
    ∃ w, Stores s [b + σ.size b, 4 * σ.cls b, w] s' ∧ PopsTo s.mem σ b w := by
  have hσ := h.wf
  obtain ⟨hlo, hmod, hge, h16, hend⟩ := hσ.layout hb.1
  have hclass : 4 * σ.cls b + 4 < 4294967296 := by
    have := classOf_lt (σ.size b)
    rw [kNumFreeLists_eq] at this
    show 4 * classOf (σ.size b) + 4 < 4294967296
    omega
  rw [bind_of_ok (readNext_run hσ hb.1),
    bind_of_ok (resetTheFreeTag_ok (by simp; omega) (by omega)), offsetofPrev_eq] at hrun
  obtain ⟨_, s₁, h₁, hrun⟩ := bind_eq_ok.mp hrun
  obtain ⟨_, s₂, h₂, hrun⟩ := bind_eq_ok.mp hrun
  cases hrun
  have hs := (Stores.wr s (b + σ.size b)
    (word s.mem (b + σ.size b) % 2147483648) (by omega)).trans (write32_stores h₁ hclass)
  -- the old head may have no successor, and then the store to `prev` goes to the list heads
  have hnB : (lists s.mem).next b + 8 < 4294967296 := by
    by_cases hn : (lists s.mem).next b = 0
    · omega
    · have := (hσ.layout (h.linked.next b hb hn).1.1).2.2.2.2
      omega
  refine ⟨_, hs.trans (write32_stores h₂ (by omega)), ?_⟩
  by_cases hn : (lists s.mem).next b = 0
  · exact Or.inl ⟨hn, by omega⟩
  · obtain ⟨hF, hne, hcls⟩ := next_of_head h.linked hb hp hn
    exact Or.inr ⟨hn, _, hF, hne, hcls, rfl⟩

/-- How `AllocBlock` finds a block of `n` bytes at `blk`, and the words it stores: it takes the
    head of the first list that serves the request, or the upper end of that. -/
def AllocTrace (chk : Bool) (s : Nvm) (σ : Shape) (n blk : Nat) (s' : Nvm) : Prop :=
  ∃ c, FirstFit (lists s.mem) (classOf n) c ∧
    (σ.size ((lists s.mem).head c) = n ∧ blk = (lists s.mem).head c ∧
      (∃ w, Stores s [blk + n, 4 * c, w] s' ∧ PopsTo s.mem σ blk w) ∨
    ∃ b r next back, b = (lists s.mem).head c ∧ 16 ≤ r ∧ r + n = σ.size b ∧ blk = b + r ∧
      (chk = true → r ≠ 16) ∧
      Stores s (splitWords σ b r next back) s' ∧ SplitTrace σ b r next back)

/-- **The words `AllocBlock` stores.** -/
theorem allocBlock_stores (h : HeapCore s.mem σ) {n blk : Nat} (h16 : 16 ∣ n) (hn : 32 ≤ n)
    (hmax : n ≤ 1152) (hrun : allocBlock chk n s = .ok (blk, s')) :
    (NoFit (lists s.mem) (classOf n) ∧ blk = 0 ∧ s = s') ∨ AllocTrace chk s σ n blk s' := by
  have hσ := h.wf
  rcases allocBlock_eq chk h h16 hn hmax with ⟨c, hf, hfit, heq⟩ | ⟨hno, heq⟩
  · right
    refine ⟨c, hf, ?_⟩
    obtain ⟨hb, hcls, hprev⟩ := h.linked.head c hf.head
    obtain ⟨b, hbdef⟩ : ∃ b, b = (lists s.mem).head c := ⟨_, rfl⟩
    rw [← hbdef] at hb hcls hprev hfit heq ⊢
    rw [heq] at hrun
    by_cases hexact : σ.size b = n
    · left
      rw [if_pos hexact, ← hcls] at hrun
      obtain ⟨w, hs, hw⟩ := takeBlock_stores h hb hprev hrun
      rw [hexact, hcls] at hs
      obtain ⟨t, hok, _⟩ := takeBlock_run chk h hb hprev (by omega)
      -- an exact fit is taken as it is
      obtain rfl : blk = b := by
        rw [hok] at hrun
        cases hrun
        rfl
      exact ⟨hexact, rfl, w, hs, hw⟩
    · right
      rw [if_neg hexact] at hrun
      have h16b := hσ.aligned b
      have hback : σ.size b - (σ.size b - n) = n := by omega
      rcases splitFirst_run chk h h16 hn hb hprev (by omega) with
        ⟨_, _, hbad⟩ | ⟨hno, t, hok, _⟩
      · rw [hbad] at hrun
        cases hrun
      -- a larger block is split, and its end is what is returned
      · have hrun' := hrun
        rw [← hback] at hrun'
        obtain ⟨next, back, hs, htrace⟩ := splitBlock_stores h hb hprev (r := σ.size b - n)
          (by omega) (by omega) (by omega) hrun'
        rw [hok] at hrun
        cases hrun
        exact ⟨b, σ.size b - n, next, back, rfl, by omega, by omega, rfl,
          fun hchk heq => hno hchk (by omega), hs, htrace⟩
  · left
    rw [heq] at hrun
    cases hrun
    exact ⟨hno, rfl, rfl⟩

/-! ### `Free` and `Alloc` -/

theorem free_stores (h : HeapInv s.mem σ) {blk : Nat} (hb : σ.Live blk)
    (h16 : chk = true → σ.size blk ≠ 16) {u : Unit} (hrun : free chk (blk + 4) s = .ok (u, s')) :
    ∃ lo hi prev next size back, Merged s.mem σ blk lo hi ∧
      (hi = blk + σ.size blk → σ.Free (blk + σ.size blk) →
        blk + σ.size blk - lo ≤ kMaxBlockSize → kMaxBlockSize < σ.size (blk + σ.size blk)) ∧
      Stores s (freeWords lo hi prev next size back) s' ∧
      FreeTrace σ blk lo hi prev next size back ∧
      prev ++ next = unlinkWords σ.cls (lists s.mem) (σ.absorbed blk lo hi) ∧
      lists s'.mem = freedLists s.mem σ blk lo hi := by
  rw [free_eq chk s h.wf hb.1] at hrun
  exact freeBlock_stores h hb h16 hrun

/-- The words stored to make a block of `n` bytes at the given place: the first block of the
    first list that serves the request is taken off as it is, or its upper end is split off. -/
inductive AllocWords (m : Mem) (σ : Shape) (n : Nat) : Nat → List Nat → Prop
  | exact {b w : Nat} : FirstFit (lists m) (classOf n) (σ.cls b) → (lists m).head (σ.cls b) = b →
      σ.Free b → σ.size b = n → PopsTo m σ b w →
      AllocWords m σ n b [b + n, 4 * classOf n, w]
  | split {b r : Nat} {next back : List Nat} : FirstFit (lists m) (classOf n) (σ.cls b) →
      (lists m).head (σ.cls b) = b → σ.Free b → 32 ≤ r → r + n = σ.size b →
      SplitTrace σ b r next back → AllocWords m σ n (b + r) (splitWords σ b r next back)

/-- The blocks of an allocation are inside the heap. -/
theorem AllocWords.bounds {m : Mem} {n blk : Nat} {as : List Nat} (hσ : σ.WF)
    (h : AllocWords m σ n blk as) : 292 ≤ blk ∧ blk + n ≤ 67108852 := by
  cases h with
  | exact _ _ hb hsize _ =>
    obtain ⟨hlo, _, _, _, hend⟩ := hσ.layout hb.1
    omega
  | split _ _ hb _ hsum _ =>
    obtain ⟨hlo, _, _, _, hend⟩ := hσ.layout hb.1
    omega

theorem alloc_stores (h : HeapCore s.mem σ) {n p : Nat} (hn : 13 ≤ n)
    (hmax : n + 4 ≤ kMaxBlockSize) (hrun : alloc true n s = .ok (p, s')) (hp : p ≠ 0) :
    ∃ blk as, p = blk + 4 ∧ Stores s as s' ∧ AllocWords s.mem σ (blockSize n) blk as := by
  have hσ := h.wf
  obtain ⟨_, hb₂, hb₃, hb₄⟩ := blockSize_bounds hn hmax
  rw [kMaxBlockSize_eq] at hb₃
  rw [alloc_eq true s hn hmax] at hrun
  obtain ⟨blk, s₁, halloc, hpure⟩ := bind_eq_ok.mp hrun
  cases hpure
  rcases allocBlock_stores h hb₄ hb₂ hb₃ halloc with ⟨_, rfl, _⟩ | ⟨c, hf, hfound⟩
  · exact absurd rfl hp
  obtain ⟨b, hhead⟩ : ∃ b, (lists s.mem).head c = b := ⟨_, rfl⟩
  obtain ⟨hb, hcls, _⟩ := h.linked.head c hf.head
  rw [hhead] at hb hcls hfound
  subst hcls
  obtain ⟨hlo, _, _, h16, hend⟩ := hσ.layout hb.1
  rcases hfound with ⟨hsize, rfl, w, hs, hw⟩ | ⟨_, r, next, back, rfl, hr, hsum, rfl, hno, hs, ht⟩
  · have hc : σ.cls blk = classOf (blockSize n) := congrArg classOf hsize
    refine ⟨_, _, ?_, ?_, .exact hf hhead hb hsize hw⟩
    · rw [if_neg (by omega), u32_of_lt (by omega)]
    · rw [← hc]
      exact hs
  -- a rest of 16 bytes would have tripped the assertion
  · have := hno rfl
    refine ⟨_, _, ?_, hs, .split hf hhead hb (by omega) hsum ht⟩
    rw [if_neg (by omega), u32_of_lt (by omega)]

end Nvds.Allocator
