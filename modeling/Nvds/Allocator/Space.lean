import Mathlib.Algebra.BigOperators.Group.Finset.Sigma
import Nvds.Allocator.Runs

/-! # No space is lost

    Runs of `Alloc` and `Free` with `assert(offset != 0)` read as a no-op.
    `NoLoss` is stated over the bytes alone: the blocks are what a walk along
    the size tags meets, and the free lists what a walk along the `next`
    fields meets. It holds in every run without an exact fit that empties a
    list while the list at offset 4 is not empty (`DropsList`).
-/

open ByteMemory Program LinkedList Tiling Transition

namespace Nvds.Allocator

/-! ### Blocks and free lists of the bytes -/

/-- The blocks met by walking from the first one along the size tags. -/
inductive IsBlock (m : Mem) : Nat → Prop
  | first : IsBlock m kHeapBegin
  | next {b : Nat} : IsBlock m b → b + sizeTag m b < kHeapEnd → IsBlock m (b + sizeTag m b)

/-- The free tag of the block at `b`, kept in the header behind it. -/
def FreeTag (m : Mem) (b : Nat) : Prop := 2147483648 ≤ word m (b + sizeTag m b)

/-- `xs` are the blocks on the free list of class `k`, in order and each once. -/
def OnList (m : Mem) (k : Nat) (xs : List Nat) : Prop :=
  Seg (fun b => word m (b + offsetofNext)) (word m (4 * k)) xs 0 ∧ xs.Nodup

/-- A block has its free tag set iff it is on the free list of its size class,
    and the blocks on the lists and the live ones add up to the whole heap. -/
def NoLoss (c : Client) : Prop :=
  ∃ fl : Nat → List Nat,
    (∀ k, k < kNumFreeLists → OnList c.nvm.mem k (fl k)) ∧
    (∀ k, k < kNumFreeLists → ∀ b ∈ fl k,
      IsBlock c.nvm.mem b ∧ classOf (sizeTag c.nvm.mem b) = k) ∧
    (∀ b, IsBlock c.nvm.mem b →
      (FreeTag c.nvm.mem b ↔ b ∈ fl (classOf (sizeTag c.nvm.mem b)))) ∧
    ∑ k ∈ Finset.range kNumFreeLists, ((fl k).map (sizeTag c.nvm.mem)).sum +
        (c.live.map fun x => sizeTag c.nvm.mem (x.ptr - 4)).sum =
      (kSize - kHeapBegin - 4) / 16 * 16

/-! ### From the invariant -/

variable {chk : Bool} {c : Client} {σ : Shape} {m : Mem}

/-- The walk along the size tags meets exactly the blocks of the heap. -/
theorem isBlock_iff (hσ : σ.WF) (ht : Headers m σ) {b : Nat} : IsBlock m b ↔ σ.size b ≠ 0 := by
  constructor
  · intro hb
    induction hb with
    | first => exact hσ.tiled.first
    | next _ hlt ih =>
      rw [sizeTag, ht.size _ ih] at hlt ⊢
      rcases hσ.end_cut ih with heq | hne
      · omega
      · exact hne
  · induction b using Nat.strong_induction_on with
    | _ b ih =>
      intro hb
      by_cases hlo : b = kHeapBegin
      · rw [hlo]
        exact .first
      · obtain ⟨a, ha, rfl⟩ := hσ.tiled.exists_prev (Or.inr hb) hlo
        have hend := hσ.end_le hb
        have hstep := IsBlock.next (ih a (by omega) ha)
        rw [sizeTag, ht.size a ha] at hstep
        exact hstep (by omega)

/-- The headers tell which blocks are live. -/
theorem Headers.live_iff {σ' : Shape} (hσ : σ.WF) (h : Headers m σ) (hσ' : σ'.WF)
    (h' : Headers m σ') {b : Nat} : σ.Live b ↔ σ'.Live b := by
  have hiff : σ.size b ≠ 0 ↔ σ'.size b ≠ 0 := (isBlock_iff hσ h).symm.trans (isBlock_iff hσ' h')
  have hfree : σ.size b ≠ 0 → (σ.free b = true ↔ σ'.free b = true) := by
    intro hb
    have hb' := hiff.mp hb
    have hsize : σ.size b = σ'.size b := by rw [← h.size b hb, h'.size b hb']
    rw [← h.free b hb, hsize, h'.free b hb']
  constructor
  · intro hl
    refine ⟨hiff.mp hl.1, ?_⟩
    rw [Bool.eq_false_iff, ne_eq, ← hfree hl.1, hl.2]
    exact Bool.false_ne_true
  · intro hl
    have hb := hiff.mpr hl.1
    refine ⟨hb, ?_⟩
    rw [Bool.eq_false_iff, ne_eq, hfree hb, hl.2]
    exact Bool.false_ne_true

/-- The free blocks of each class, listed, add up to the free part of the heap. -/
theorem sum_free (hσ : σ.WF) {fl : Nat → List Nat}
    (hnd : ∀ k, k < kNumFreeLists → (fl k).Nodup)
    (hmem : ∀ k, k < kNumFreeLists → ∀ b, b ∈ fl k ↔ σ.Free b ∧ σ.cls b = k) :
    ∑ k ∈ Finset.range kNumFreeLists, ((fl k).map σ.size).sum =
      ∑ b ∈ (Finset.range kHeapEnd).filter (fun b => σ.free b = true ∧ σ.size b ≠ 0),
        σ.size b := by
  have hmaps : ∀ b ∈ (Finset.range kHeapEnd).filter (fun b => σ.free b = true ∧ σ.size b ≠ 0),
      σ.cls b ∈ Finset.range kNumFreeLists := fun b _ => Finset.mem_range.mpr (classOf_lt _)
  rw [← Finset.sum_fiberwise_of_maps_to hmaps]
  apply Finset.sum_congr rfl
  intro k hk
  have hk := Finset.mem_range.mp hk
  rw [← List.sum_toFinset _ (hnd k hk)]
  refine Finset.sum_congr ?_ fun _ _ => rfl
  ext b
  rw [List.mem_toFinset, hmem k hk b]
  simp only [Finset.mem_filter, Finset.mem_range]
  constructor
  · intro ⟨hF, hc⟩
    have hend := hσ.end_le hF.1
    have hge := hσ.size_ge hF.1
    exact ⟨⟨by omega, hF.2, hF.1⟩, hc⟩
  · intro ⟨⟨_, hf, h0⟩, hc⟩
    exact ⟨⟨h0, hf⟩, hc⟩

/-- The live blocks of the client add up to the live part of the heap. -/
theorem RunInv.sum_live (h : RunInv chk c σ) :
    (c.live.map fun x => σ.size (x.ptr - 4)).sum =
      ∑ b ∈ (Finset.range kHeapEnd).filter (fun b => ¬ (σ.free b = true ∧ σ.size b ≠ 0)),
        σ.size b := by
  have hσ := h.heap.wf
  have hnd : (c.live.map fun x => x.ptr - 4).Nodup := by
    have hne : c.live.Pairwise fun x y => x.ptr ≠ y.ptr := List.pairwise_map.mp h.nodup
    refine List.pairwise_map.mpr (hne.imp_of_mem fun {x y} hx hy hxy => ?_)
    have hx4 := (h.live x hx).2.2.1
    have hy4 := (h.live y hy).2.2.1
    omega
  have hmap : (c.live.map fun x => σ.size (x.ptr - 4)) =
      (c.live.map fun x => x.ptr - 4).map σ.size := by
    rw [List.map_map]
    rfl
  rw [hmap, ← List.sum_toFinset _ hnd]
  -- the places where no block starts count nothing
  refine Finset.sum_subset_zero_on_sdiff ?_ ?_ fun _ _ => rfl
  · intro b hb
    obtain ⟨x, hx, rfl⟩ := List.mem_map.mp (List.mem_toFinset.mp hb)
    have hl := (h.live x hx).2.2.2.1
    have hend := hσ.end_le hl.1
    have hge := hσ.size_ge hl.1
    simp only [Finset.mem_filter, Finset.mem_range]
    refine ⟨by omega, ?_⟩
    intro hf
    exact Bool.noConfusion (hf.1.symm.trans hl.2)
  · intro b hb
    by_contra h0
    simp only [Finset.mem_sdiff, Finset.mem_filter, Finset.mem_range] at hb
    have hfree : σ.free b = false := by
      cases hf : σ.free b with
      | false => rfl
      | true => exact absurd ⟨hf, h0⟩ hb.1.2
    obtain ⟨x, hx, hxb⟩ := h.owned b ⟨h0, hfree⟩
    exact hb.2 (List.mem_toFinset.mpr (List.mem_map.mpr ⟨x, hx, by omega⟩))

/-- Where the lists are complete, nothing has been lost. -/
theorem RunInv.noLoss (h : RunInv chk c σ)
    (hcomp : Complete (lists c.nvm.mem) σ.Free σ.cls) : NoLoss c := by
  have hσ := h.heap.wf
  have ht := h.heap.tags
  have hl := h.heap.linked
  -- `fl k` is the list of class `k`, and a free block is in the one of its class
  choose fl hseg hall using hcomp
  have hmem : ∀ k b, b ∈ fl k ↔ σ.Free b ∧ σ.cls b = k := by
    intro k b
    constructor
    · exact hl.mem_of_seg (hseg k) b
    · intro ⟨hF, hc⟩
      exact hall k b hF hc
  have htag : ∀ b, σ.size b ≠ 0 → sizeTag c.nvm.mem b = σ.size b := ht.size
  refine ⟨fl, fun k hk => ⟨?_, hl.nodup_of_head (hseg k)⟩, ?_, ?_, ?_⟩
  · rw [← lists_head_eq hk]
    apply (hseg k).congr
    intro b hb
    exact (lists_next_eq (hσ.node ((hmem k b).mp hb).1.1)).symm
  · intro k _ b hb
    obtain ⟨hF, hc⟩ := (hmem k b).mp hb
    rw [htag b hF.1]
    exact ⟨(isBlock_iff hσ ht.headers).mpr hF.1, hc⟩
  · intro b hb
    have hb0 := (isBlock_iff hσ ht.headers).mp hb
    rw [hmem, FreeTag, htag b hb0, ht.free b hb0]
    constructor
    · intro hf
      exact ⟨⟨hb0, hf⟩, rfl⟩
    · intro hF
      exact hF.1.2
  -- the headers tell the sizes, which add up over free and live blocks
  · have hfl : ∀ k, (fl k).map (sizeTag c.nvm.mem) = (fl k).map σ.size := by
      intro k
      refine List.map_congr_left fun b hb => htag b ((hmem k b).mp hb).1.1
    have hlive : (c.live.map fun x => sizeTag c.nvm.mem (x.ptr - 4)) =
        c.live.map fun x => σ.size (x.ptr - 4) := by
      refine List.map_congr_left fun x hx => htag _ (h.live x hx).2.2.2.1.1
    have hsum := hσ.tiled.sum_eq
    rw [← Finset.sum_filter_add_sum_filter_not _
      (fun b => σ.free b = true ∧ σ.size b ≠ 0)] at hsum
    simp only [hfl, hlive]
    rw [sum_free hσ (fun k _ => hl.nodup_of_head (hseg k)) fun k _ => hmem k, h.sum_live, hsum]
    decide

/-! ### Runs -/

/-- The client leaves the payloads alone. -/
def NoStores (_ : Client) : Op → Prop
  | .store _ _ => False
  | _ => True

instance : (c : Client) → (op : Op) → Decidable (NoStores c op)
  | _, .alloc _ => .isTrue trivial
  | _, .free _ => .isTrue trivial
  | _, .store _ _ => .isFalse id

/-- In addition, no exact fit throws the list at offset 4 away. -/
def KeepsLists (c : Client) : Op → Prop
  | .alloc n => ¬ DropsList c.nvm.mem (blockSize n)
  | .free _ => True
  | .store _ _ => False

instance : (c : Client) → (op : Op) → Decidable (KeepsLists c op)
  | c, .alloc n => inferInstanceAs (Decidable (¬ DropsList c.nvm.mem (blockSize n)))
  | _, .free _ => .isTrue trivial
  | _, .store _ _ => .isFalse id

/-- In every run of `Alloc` and `Free` that throws no list away the lists stay complete. -/
theorem runInv_of_keepsLists (h : Reachable (Fresh false) (Step false KeepsLists) c) :
    ∃ σ, RunInv false c σ ∧ Intact c.nvm.mem σ ∧ Complete (lists c.nvm.mem) σ.Free σ.cls := by
  refine h.invariant (fun c => ∃ σ, RunInv false c σ ∧ Intact c.nvm.mem σ ∧
    Complete (lists c.nvm.mem) σ.Free σ.cls) (fun c hc => ⟨_, runInv_fresh hc⟩) ?_
  intro c op c' ⟨σ, hinv, hint, hcomp⟩ ⟨hen, hcond, hexec⟩
  cases op with
  | alloc n =>
    rcases hinv.alloc hen.1 hen.2 with
      ⟨hrun, _⟩ | ⟨hchk, _⟩ | ⟨_, c₁, σ', hrun, hinv', _, hint', hcomp'⟩
    · rw [hrun] at hexec
      cases hexec
      exact ⟨σ, hinv, hint, hcomp⟩
    · cases hchk
    · rw [hrun] at hexec
      cases hexec
      exact ⟨σ', hinv', hint' hint, hcomp' hcomp hcond⟩
  | free p =>
    obtain ⟨x, hx, rfl⟩ := hen
    obtain ⟨c₁, σ', hrun, hinv', _, hint', hcomp'⟩ :=
      hinv.free hx (hint.cleanly (hinv.live x hx).2.2.2.1)
    rw [hrun] at hexec
    cases hexec
    exact ⟨σ', hinv', hint' hint, hcomp' hcomp⟩
  | store off bs => exact hcond.elim

/-- **Space.** In every run of `Alloc` and `Free` that throws no list away, all
    space is accounted for in every state. -/
theorem noLoss_of_keepsLists (h : Reachable (Fresh false) (Step false KeepsLists) c) :
    NoLoss c := by
  obtain ⟨σ, hinv, _, hcomp⟩ := runInv_of_keepsLists h
  exact hinv.noLoss hcomp

theorem noLoss_after_free : ∃ c : Client, c.live.length = 1 ∧ NoLoss c := by
  have hdec : ((Client.formatted false).trace false KeepsLists
      [.alloc 28, .alloc 44, .free 67108824]).map (fun c => c.live.length) = some 1 := by
    decide +kernel
  obtain ⟨c, hc, hval⟩ := Option.map_eq_some_iff.mp hdec
  exact ⟨c, hval, noLoss_of_keepsLists (reachable_trace (.init (fresh_formatted false)) hc)⟩

/-- Freed blocks of 32 and 48 bytes, neighbours of live ones; the next request
    for 48 bytes empties its list and the one of the 32-byte blocks. -/
theorem exists_loss :
    ∃ c, Reachable (Fresh false) (Step false NoStores) c ∧ ¬ NoLoss c := by
  have hdec : ((Client.formatted false).trace false NoStores
      [.alloc 28, .alloc 60, .alloc 44, .alloc 60, .free 67108824, .free 67108712,
        .alloc 44]).map (fun c =>
          [292, 67108644, 67108708, 67108756, 67108820].map (sizeTag c.nvm.mem) ++
            [word c.nvm.mem 4, word c.nvm.mem 67108852]) =
      some [67108352, 64, 48, 64, 32, 0, 2147483648] := by
    decide +kernel
  obtain ⟨c, hc, hval⟩ := Option.map_eq_some_iff.mp hdec
  refine ⟨c, reachable_trace (.init (fresh_formatted false)) hc, ?_⟩
  simp only [List.map_cons, List.map_nil, List.cons_append, List.nil_append, List.cons.injEq,
    and_true] at hval
  obtain ⟨h₁, h₂, h₃, h₄, h₅, hhead, htag⟩ := hval
  intro ⟨fl, hlist, _, hfree, _⟩
  -- the walk along the size tags reaches the lost block
  have hnext : ∀ {b n : Nat}, IsBlock c.nvm.mem b → sizeTag c.nvm.mem b = n → b + n < kHeapEnd →
      IsBlock c.nvm.mem (b + n) := by
    intro b n hb hn hlt
    rw [← hn] at hlt ⊢
    exact hb.next hlt
  have hb₁ : IsBlock c.nvm.mem 292 := .first
  have hb₂ := hnext hb₁ h₁ (by decide)
  have hb₃ := hnext hb₂ h₂ (by decide)
  have hb₄ := hnext hb₃ h₃ (by decide)
  have hb : IsBlock c.nvm.mem 67108820 := hnext hb₄ h₄ (by decide)
  have hmem := (hfree _ hb).mp (by rw [FreeTag, h₅, htag])
  rw [h₅, show classOf 32 = 1 by decide] at hmem
  obtain ⟨hseg, _⟩ := hlist 1 (by decide)
  cases hfl : fl 1 with
  | nil => rw [hfl] at hmem; cases hmem
  | cons x xs =>
    rw [hfl] at hseg
    exact hseg.2.1 (hseg.1.symm.trans hhead)

end Nvds.Allocator
