import Nvds.Allocator.Space
import Nvds.Allocator.Traces

/-! # Coalescing

    `WellFormedHeap` is the invariant with complete free lists: a walk along
    each list meets exactly the free blocks of its class, each once. Freeing
    a block keeps it whenever a neighbour is merged, since `FreeBlock` then
    writes the size into the last word of the new block itself. What it
    stores outside the new block are list heads, links of free blocks and the
    free bit of the header behind.
-/

open ByteMemory Program LinkedList Tiling

namespace Nvds.Allocator

variable {σ : Shape} {m m' : Mem} {s s' : Nvm}

/-! ### Well-formed heaps -/

/-- The bytes represent the heap `σ`, and every free block is on the list of its class. -/
structure WellFormedHeap (m : Mem) (σ : Shape) : Prop where
  heap : HeapInv m σ
  complete : Complete (lists m) σ.Free σ.cls

/-- Each list holds exactly the free blocks of its class, each once. -/
theorem WellFormedHeap.lists (h : WellFormedHeap m σ) (c : Nat) :
    ∃ xs, Seg (Allocator.lists m).next ((Allocator.lists m).head c) xs 0 ∧ xs.Nodup ∧
      ∀ b, b ∈ xs ↔ σ.Free b ∧ σ.cls b = c := by
  obtain ⟨xs, hseg, hall⟩ := h.complete c
  refine ⟨xs, hseg, h.heap.linked.nodup_of_head hseg, fun b => ⟨?_, fun hb => hall b hb.1 hb.2⟩⟩
  exact h.heap.linked.mem_of_seg hseg b

/-- The byte `a` belongs to a free block. -/
def Shape.FreeByte (σ : Shape) (a : Nat) : Prop := ∃ x, σ.Free x ∧ x ≤ a ∧ a < x + σ.size x

/-- Of the blocks outside `[lo, hi)` only links of free ones change, and the free bit of the
    header at `hi`. -/
structure OnlyLinks (σ : Shape) (lo hi : Nat) (m m' : Mem) : Prop where
  bytes : ∀ x a, σ.size x ≠ 0 → x < lo ∨ hi ≤ x → x ≤ a → a < x + σ.size x →
    (x = hi → x + 4 ≤ a) → (σ.Free x → a < x + 4 ∨ x + 12 ≤ a) → m' a = m a
  tag : word m' hi % 2147483648 = word m hi % 2147483648

/-- The byte `a` of the block `x` is not stored to by an access to the word at `w`. -/
def Avoids (a w : Nat) : Prop := a < w ∨ w + 4 ≤ a

section avoids

variable {x a : Nat} (hσ : σ.WF) (hx : σ.size x ≠ 0) (hax : x ≤ a)

include hσ hx hax

/-- List heads lie below every block. -/
theorem avoids_head (n : Nat) : Avoids a (4 * classOf n) := by
  have hlo := (hσ.layout hx).1
  have hclass := classOf_lt n
  rw [kNumFreeLists_eq] at hclass
  exact Or.inr (by omega)

variable (hxa : a < x + σ.size x)

include hxa

/-- A word inside another block. -/
theorem avoids_inside {y w : Nat} (hy : σ.size y ≠ 0) (hne : y ≠ x) (h₁ : y ≤ w)
    (h₂ : w + 4 ≤ y + σ.size y) : Avoids a w := by
  rcases hσ.tiled.disjoint hy hx hne with hle | hle
  · exact Or.inr (by omega)
  · exact Or.inl (by omega)

/-- The header at another cut. -/
theorem avoids_cut {w : Nat} (hw : IsCut kHeapEnd σ.size w) (hne : w = x → x + 4 ≤ a) :
    Avoids a w := by
  obtain ⟨⟨_, hwm⟩, _⟩ := hσ.node_of_cut hw
  obtain ⟨_, hxm, _, _, _⟩ := hσ.layout hx
  rcases Nat.lt_trichotomy x w with hlt | rfl | hgt
  · have := hσ.tiled.end_le_of_lt hx hw hlt
    exact Or.inl (by omega)
  · exact Or.inr (hne rfl)
  · exact Or.inr (by omega)

variable (hlinks : σ.Free x → a < x + 4 ∨ x + 12 ≤ a)

include hlinks

/-- The links of a free block. -/
theorem avoids_link {y d : Nat} (hy : σ.Free y) (hd : d = 4 ∨ d = 8) : Avoids a (y + d) := by
  by_cases hyx : y = x
  · subst hyx
    rcases hlinks hy with h | h
    · exact Or.inl (by omega)
    · exact Or.inr (by omega)
  · have hge := hσ.size_ge hy.1
    exact avoids_inside hσ hx hax hxa hy.1 hyx (by omega) (by omega)

theorem Unlinks.avoids {n : Nat} {as : List Nat} (h : Unlinks σ (classOf n) as) :
    ∀ w ∈ as, Avoids a w := by
  obtain ⟨w₀, bs, rfl, hw₀, hbs⟩ := h
  intro w hw
  rcases List.mem_cons.mp hw with rfl | hw
  · rcases hw₀ with rfl | ⟨y, hy, _, rfl⟩
    · exact avoids_head hσ hx hax n
    · exact avoids_link hσ hx hax hxa hlinks hy (Or.inr rfl)
  · rcases hbs with rfl | ⟨y, hy, _, rfl⟩
    · cases hw
    · rw [List.mem_singleton.mp hw]
      exact avoids_link hσ hx hax hxa hlinks hy (Or.inl rfl)

end avoids

/-! ### The merged block -/

/-- Where the block starts that `FreeBlock` makes of `blk` and its neighbours. -/
def mergedFrom (m : Mem) (blk : Nat) : Nat :=
  if CoalescesPrev m blk then blk - word m (blk - 4) else blk

/-- `FreeBlock` merges the block behind `blk`; the size is the one after the first branch. -/
def AbsorbsNext (m : Mem) (blk : Nat) : Prop :=
  2147483648 ≤ word m (blk + sizeTag m blk + sizeTag m (blk + sizeTag m blk)) ∧
    blk + sizeTag m blk - mergedFrom m blk ≤ kMaxBlockSize ∧
    sizeTag m (blk + sizeTag m blk) ≤ kMaxBlockSize

instance (m : Mem) (blk : Nat) : Decidable (AbsorbsNext m blk) :=
  inferInstanceAs (Decidable (_ ∧ _))

/-- Where the block ends that `FreeBlock` makes of `blk` and its neighbours. -/
def mergedTo (m : Mem) (blk : Nat) : Nat :=
  if AbsorbsNext m blk then blk + sizeTag m blk + sizeTag m (blk + sizeTag m blk)
  else blk + sizeTag m blk

/-- The merged block is the one the two branches compute. -/
theorem Merged.eq (h : HeapInv m σ) {blk lo hi : Nat} (hb : σ.Live blk)
    (hM : Merged m σ blk lo hi)
    (hexact : hi = blk + σ.size blk → σ.Free (blk + σ.size blk) →
      blk + σ.size blk - lo ≤ kMaxBlockSize → kMaxBlockSize < σ.size (blk + σ.size blk)) :
    lo = mergedFrom m blk ∧ hi = mergedTo m blk := by
  have hlo : lo = mergedFrom m blk := by
    -- to the left, the tags decide as the shape does
    unfold mergedFrom
    rcases hM.left with ⟨hlo, hno⟩ | ⟨hF, hlo, hle, hple⟩
    · rw [if_neg hno, hlo]
    · obtain ⟨hC, hw⟩ := h.tags.coalescesPrev hb.1 hF hlo hle hple
      rw [if_pos hC, hw]
      omega
  refine ⟨hlo, ?_⟩
  have hcut := h.wf.end_cut hb.1
  have hsz : sizeTag m blk = σ.size blk := h.tags.size blk hb.1
  have hnsz : sizeTag m (blk + σ.size blk) = σ.size (blk + σ.size blk) :=
    h.tags.headers.size_of_cut h.wf hcut
  have habsorbs : AbsorbsNext m blk ↔
      2147483648 ≤ word m (blk + σ.size blk + σ.size (blk + σ.size blk)) ∧
        blk + σ.size blk - lo ≤ kMaxBlockSize ∧ σ.size (blk + σ.size blk) ≤ kMaxBlockSize := by
    unfold AbsorbsNext
    rw [hsz, hnsz, ← hlo]
  unfold mergedTo
  rw [hsz, hnsz]
  rcases hM.right with ⟨hhi, _⟩ | ⟨hF, hhi, hle, hnle⟩
  · rw [if_neg, hhi]
    rw [habsorbs]
    rintro ⟨hbit, hle, hnle⟩
    -- the sentinel has size 0, and its bit says that `blk` is live
    have hn0 : σ.size (blk + σ.size blk) ≠ 0 := by
      intro h0
      rw [h0, Nat.add_zero] at hbit
      exact Bool.noConfusion (((h.tags.free blk hb.1).mp hbit).symm.trans hb.2)
    have := hexact hhi ⟨hn0, (h.tags.free _ hn0).mp hbit⟩ hle
    omega
  -- the right neighbour is free and small enough
  · rw [if_pos, hhi]
    rw [habsorbs]
    exact ⟨(h.tags.free _ hF.1).mpr hF.2, hle, hnle⟩

/-- The free bytes of the fused heap. -/
theorem Merged.freeByte_iff (hσ : σ.WF) {blk lo hi : Nat} (hb : σ.Live blk)
    (hM : Merged m σ blk lo hi) (a : Nat) :
    (σ.fuse lo hi).FreeByte a ↔ σ.FreeByte a ∨ blk ≤ a ∧ a < blk + σ.size blk := by
  obtain ⟨hlob, hhib⟩ := hM.bounds
  have hge := hσ.size_ge hb.1
  have hlt : lo < hi := by omega
  constructor
  · rintro ⟨x, hx, hxa, hax⟩
    rcases (σ.fuse_free hlt x).mp hx with ⟨hxF, hout⟩ | rfl
    · have hsize : (σ.fuse lo hi).size x = σ.size x := fuse_of_outside (by omega) hlt
      rw [hsize] at hax
      exact Or.inl ⟨x, hxF, hxa, hax⟩
    · have hself : (σ.fuse x hi).size x = hi - x := fuse_self _ _ _
      rw [hself] at hax
      -- before, in or behind `blk`
      rcases Nat.lt_or_ge a blk with hlt' | hge'
      · rcases hM.left with ⟨hlo, _⟩ | ⟨hF, hlo, _⟩
        · omega
        · exact Or.inl ⟨x, hF, hxa, by omega⟩
      · rcases Nat.lt_or_ge a (blk + σ.size blk) with hin | hbehind
        · exact Or.inr ⟨hge', hin⟩
        · rcases hM.right with ⟨hhi, _⟩ | ⟨hF, hhi, _⟩
          · omega
          · exact Or.inl ⟨_, hF, hbehind, by omega⟩
  -- the other way round, what was free is free now, alone or in the merged block
  · have hnew : (σ.fuse lo hi).Free lo := (σ.fuse_free hlt lo).mpr (Or.inr rfl)
    have hself : (σ.fuse lo hi).size lo = hi - lo := fuse_self _ _ _
    rintro (⟨x, hx, hxa, hax⟩ | hin)
    · by_cases hin : lo ≤ x ∧ x < hi
      · refine ⟨lo, hnew, by omega, ?_⟩
        rw [hself]
        -- a free block inside of it is one of the two neighbours
        rcases free_inside hσ hb (hM.left.imp (fun hx => hx.1) fun hx => ⟨hx.1.1, hx.2.1⟩)
          (hM.right.imp (fun hx => hx.1) fun hx => ⟨hx.1, hx.2.1⟩) hx hin with rfl | ⟨rfl, hne⟩
        · rcases hM.left with ⟨hlo, _⟩ | ⟨_, hlo, _⟩
          · rw [hlo] at hx
            exact Bool.noConfusion (hx.2.symm.trans hb.2)
          · omega
        · rcases hM.right with ⟨hhi, _⟩ | ⟨_, hhi, _⟩
          · exact absurd hhi hne
          · omega
      · have hsize : (σ.fuse lo hi).size x = σ.size x := fuse_of_outside (by omega) hlt
        exact ⟨x, (σ.fuse_free hlt x).mpr (Or.inl ⟨hx, hin⟩), hxa, by rw [hsize]; exact hax⟩
    · exact ⟨lo, hnew, by omega, by rw [hself]; omega⟩

/-- What `FreeBlock` changes outside the merged block. -/
theorem FreeTrace.onlyLinks (hσ : σ.WF) {blk lo hi : Nat} {prev next size back : List Nat}
    (hlo : σ.size lo ≠ 0) (hhi : IsCut kHeapEnd σ.size hi) (hlt : lo + 16 ≤ hi)
    (hs : Stores s (freeWords lo hi prev next size back) s')
    (htrace : FreeTrace σ blk lo hi prev next size back) {x a : Nat} (hx : σ.size x ≠ 0)
    (hout : x < lo ∨ hi ≤ x) (hax : x ≤ a) (hxa : a < x + σ.size x) (htag : x = hi → x + 4 ≤ a)
    (hlinks : σ.Free x → a < x + 4 ∨ x + 12 ≤ a) : s'.mem a = s.mem a := by
  -- words of the merged block itself
  have hown : ∀ w, lo ≤ w → w + 4 ≤ hi → Avoids a w := by
    intro w h₁ h₂
    rcases hout with hlt | hge
    · have := hσ.tiled.end_le_of_lt hx (Or.inr hlo) hlt
      exact Or.inl (by omega)
    · exact Or.inr (by omega)
  apply hs.same
  intro w hw
  simp only [freeWords, List.mem_append, List.mem_cons, List.not_mem_nil, or_false] at hw
  -- the stores of the trace: neighbours taken out of their lists, the tags, the head of the list,
  -- the links of the new block, and the link back to it
  rcases hw with hw | hw | hw | rfl | (rfl | rfl | rfl) | hw
  -- a block of a list that is unlinked changes at its links only
  · rcases htrace.prev with ⟨_, rfl⟩ | ⟨_, _, hu⟩
    · cases hw
    · exact hu.avoids hσ hx hax hxa hlinks w hw
  · rcases htrace.next with ⟨_, rfl⟩ | ⟨_, _, hu⟩
    · cases hw
    · exact hu.avoids hσ hx hax hxa hlinks w hw
  · rcases htrace.size with ⟨_, _, rfl⟩ | rfl
    · cases hw
    · simp only [List.mem_cons, List.not_mem_nil, or_false] at hw
      rcases hw with rfl | rfl
      · exact hown _ le_rfl (by omega)
      · exact hown _ (by omega) (by omega)
  -- the header behind the merged block, which is exempt
  · exact avoids_cut hσ hx hax hxa hhi fun heq => htag heq.symm
  · exact avoids_head hσ hx hax _
  · exact hown _ (by omega) (by omega)
  · exact hown _ (by omega) (by omega)
  · rcases htrace.back with rfl | ⟨y, hy, _, _, rfl⟩
    · cases hw
    · rw [List.mem_singleton.mp hw]
      exact avoids_link hσ hx hax hxa hlinks hy (Or.inl rfl)

/-- **Coalescing.** If a neighbour is merged, `FreeBlock` gives a well-formed heap again, whatever
    the freed block holds. The new block is the union of the freed one and the neighbours the
    branches accept, and the free bytes are those of before and the freed ones. -/
theorem freeBlock_coalesces {blk : Nat} (h : WellFormedHeap s.mem σ) (hb : σ.Live blk)
    (hmerge : CoalescesPrev s.mem blk ∨ CoalescesNext s.mem blk) :
    ∃ s' lo hi, freeBlock false blk s = .ok ((), s') ∧
      lo = mergedFrom s.mem blk ∧ hi = mergedTo s.mem blk ∧
      (lo = blk ∨ σ.Free lo ∧ lo + σ.size lo = blk ∧ σ.size lo ≤ kMaxBlockSize) ∧
      (hi = blk + σ.size blk ∨ σ.Free (blk + σ.size blk) ∧
        hi = blk + σ.size blk + σ.size (blk + σ.size blk) ∧
        σ.size (blk + σ.size blk) ≤ kMaxBlockSize) ∧
      WellFormedHeap s'.mem (σ.fuse lo hi) ∧
      (∀ a, (σ.fuse lo hi).FreeByte a ↔ σ.FreeByte a ∨ blk ≤ a ∧ a < blk + σ.size blk) ∧
      (∀ x, x < lo ∨ hi ≤ x →
        (σ.fuse lo hi).size x = σ.size x ∧ (σ.fuse lo hi).free x = σ.free x) ∧
      OnlyLinks σ lo hi s.mem s'.mem := by
  have hσ := h.heap.wf
  -- with something to merge, the footer is written in the right place
  have hclean : FreesCleanly s.mem blk := hmerge.elim Or.inl fun hx => Or.inr (Or.inl hx)
  have hge := hσ.size_ge hb.1
  rcases freeBlock_cases h.heap hb (fun hchk : false = true => Bool.noConfusion hchk) with
    ⟨⟨b, _, hbad, _⟩, _⟩ | ⟨_, s', lo, hi, hrun, _, hM, hcore, hfoot, hcomp, _, hexact⟩
  · exact Bool.noConfusion hbad.1
  -- the bounds are those that the tags say
  obtain ⟨hlo, hhi⟩ := hM.eq h.heap hb hexact
  -- the stores of the same run, and they merge the same blocks
  obtain ⟨lo', hi', prev, next, size, back, hM', hexact', hs, htrace, _⟩ :=
    freeBlock_stores h.heap hb (fun hchk : false = true => Bool.noConfusion hchk) hrun
  obtain ⟨hlo', hhi'⟩ := hM'.eq h.heap hb hexact'
  rw [hlo', hhi', ← hlo, ← hhi] at hs htrace
  obtain ⟨hlob, hhib⟩ := hM.bounds
  have hlt : lo < hi := by omega
  -- where the merged block begins and ends there was a border before
  have hlo0 : σ.size lo ≠ 0 := by
    rcases hM.left with ⟨heq, _⟩ | ⟨hF, _⟩
    · rw [heq]
      exact hb.1
    · exact hF.1
  have hcut : IsCut kHeapEnd σ.size hi := by
    rcases hM.right with ⟨heq, _⟩ | ⟨hF, heq, _⟩
    · rw [heq]
      exact hσ.end_cut hb.1
    · rw [heq]
      exact hσ.end_cut hF.1
  refine ⟨s', lo, hi, hrun, hlo, hhi, hM.left.imp (fun hx => hx.1) fun hx => ⟨hx.1, hx.2.1, hx.2.2.2⟩,
    hM.right.imp (fun hx => hx.1) fun hx => ⟨hx.1, hx.2.1, hx.2.2.2⟩,
    ⟨hcore.inv (hfoot hclean), hcomp h.complete⟩, hM.freeByte_iff hσ hb, ?_, ?_, ?_⟩
  -- what lies outside is neither resized nor freed
  · intro x hx
    refine ⟨fuse_of_outside hx hlt, ?_⟩
    have hne : x ≠ lo := by omega
    simp only [Shape.fuse, Function.update_of_ne hne]
  · intro x a hx hout hax hxa htag hlinks
    -- and keeps its bytes, apart from the links of free blocks
    exact htrace.onlyLinks hσ hlo0 hcut (by omega) hs hx hout hax hxa htag hlinks
  · -- the header at `hi` tells the size of the same block
    have hcut' : IsCut kHeapEnd (σ.fuse lo hi).size hi := by
      have hself : (σ.fuse lo hi).size lo = hi - lo := fuse_self _ _ _
      have hend := hcore.wf.end_cut (b := lo) (by rw [hself]; omega)
      rw [hself, Nat.add_sub_cancel' hlt.le] at hend
      exact hend
    have hsame : (σ.fuse lo hi).size hi = σ.size hi := fuse_of_outside (Or.inr le_rfl) hlt
    rw [hcore.headers.size_of_cut hcore.wf hcut', h.heap.tags.headers.size_of_cut hσ hcut, hsame]

/-- Two neighbours are allocated; the lower one is freed, and then the upper one. -/
theorem freeBlock_coalesces_pair : ∃ s σ s' lo hi, WellFormedHeap s.mem σ ∧ σ.Live 67108788 ∧
    freeBlock false 67108788 s = .ok ((), s') ∧ WellFormedHeap s'.mem (σ.fuse lo hi) := by
  have hdec : ((Client.formatted false).trace false KeepsLists
      [.alloc 28, .alloc 28, .free 67108824]).map (fun c =>
        (c.live, decide (CoalescesNext c.nvm.mem 67108788))) =
      some ([⟨67108792, 28⟩], true) := by
    decide +kernel
  obtain ⟨c, hc, hval⟩ := Option.map_eq_some_iff.mp hdec
  obtain ⟨hlive, hco⟩ := Prod.mk.inj hval
  obtain ⟨σ, hinv, _, hcomp⟩ :=
    runInv_of_keepsLists (reachable_trace (.init (fresh_formatted false)) hc)
  have hb := (hinv.live ⟨67108792, 28⟩ (by rw [hlive]; exact List.mem_singleton.mpr rfl)).2.2.2.1
  have hwf : WellFormedHeap c.nvm.mem σ := ⟨hinv.heap, hcomp⟩
  obtain ⟨s', lo, hi, hrun, _, _, _, _, hheap, _⟩ :=
    freeBlock_coalesces hwf hb (Or.inr (of_decide_eq_true hco))
  exact ⟨c.nvm, σ, s', lo, hi, hwf, hb, hrun, hheap⟩

end Nvds.Allocator
