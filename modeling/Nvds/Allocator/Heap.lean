import Nvds.Allocator.Access
import Nvds.Framework.LinkedList
import Nvds.Framework.Tiling

/-! # The heap invariant

    `Shape` is the abstract heap: which blocks there are and which of them
    are free. `HeapInv m σ` says that the bytes `m` represent it: the tags
    of `Tags`, and the free blocks on doubly linked lists by size class
    (`LinkedList.Linked`). The invariant does not ask that every free block
    is reachable from the head of its list; where nothing has been lost,
    `Complete` holds in addition.

    All words the allocator keeps are 4-aligned, and their residues modulo
    16 tell the kinds apart: headers are at `4`, `prev` links at `8`, `next`
    links at `12`, last words at `0`, and the list heads are below the first
    block. A store to one kind is invisible to the others.
-/

open ByteMemory Program LinkedList Tiling

namespace Nvds.Allocator

/-- The offset of the sentinel behind the last block, as `Format` lays it out. -/
def kHeapEnd : Nat := kHeapBegin + (kSize - kHeapBegin - 4) / 16 * 16

@[simp] theorem kHeapEnd_eq : kHeapEnd = 67108852 := by decide

/-! ### The abstract heap -/

/-- The blocks of a heap: `size b` is the size of the block at `b`, 0 if none
    starts there, and `free b` tells whether it is free. -/
structure Shape where
  size : Nat → Nat
  free : Nat → Bool

namespace Shape

/-- There is a live block at `b`. -/
def Live (σ : Shape) (b : Nat) : Prop := σ.size b ≠ 0 ∧ σ.free b = false

/-- There is a free block at `b`. -/
def Free (σ : Shape) (b : Nat) : Prop := σ.size b ≠ 0 ∧ σ.free b = true

instance (σ : Shape) (b : Nat) : Decidable (σ.Free b) := inferInstanceAs (Decidable (_ ∧ _))

/-- The size class of the block at `b`. -/
def cls (σ : Shape) (b : Nat) : Nat := classOf (σ.size b)

/-- The byte `a` belongs to the live block at `x` and is not in its header. -/
def Payload (σ : Shape) (x a : Nat) : Prop := σ.Live x ∧ x + 4 ≤ a ∧ a < x + σ.size x

/-- The blocks tile the heap, in multiples of 16 bytes. -/
structure WF (σ : Shape) : Prop where
  tiled : Tiled kHeapBegin kHeapEnd σ.size
  aligned : ∀ b, 16 ∣ σ.size b

/-- There is no 16-byte block if offset 0, the head of their list, is checked for. -/
def Roomy (chk : Bool) (σ : Shape) : Prop := chk = true → ∀ b, σ.size b ≠ 16

end Shape

/-- A place where a block may start. -/
def IsNode (x : Nat) : Prop := kHeapBegin ≤ x ∧ x % 16 = 4

instance (x : Nat) : Decidable (IsNode x) := inferInstanceAs (Decidable (_ ∧ _))

variable {σ : Shape} {m m' : Mem} {s : Nvm}

/-- The cuts of the heap are nodes. -/
theorem Shape.WF.node_of_cut (h : σ.WF) {b : Nat} (hb : IsCut kHeapEnd σ.size b) :
    IsNode b ∧ b ≤ kHeapEnd := by
  obtain ⟨h₁, h₂⟩ := h.tiled.le_of_cut hb
  obtain ⟨k, hk⟩ := h.tiled.dvd_sub h.aligned hb
  simp only [IsNode, kHeapBegin_eq, kHeapEnd_eq] at *
  omega

theorem Shape.WF.node (h : σ.WF) {b : Nat} (hb : σ.size b ≠ 0) : IsNode b :=
  (h.node_of_cut (Or.inr hb)).1

theorem Shape.WF.end_cut (h : σ.WF) {b : Nat} (hb : σ.size b ≠ 0) :
    IsCut kHeapEnd σ.size (b + σ.size b) :=
  h.tiled.next b hb

theorem Shape.WF.size_ge (h : σ.WF) {b : Nat} (hb : σ.size b ≠ 0) : 16 ≤ σ.size b := by
  obtain ⟨k, hk⟩ := h.aligned b
  omega

/-- Only the blocks of 16 bytes are on the list at offset 0. -/
theorem Shape.WF.cls_ne_zero (h : σ.WF) {b : Nat} (hb : σ.size b ≠ 0) (h16 : σ.size b ≠ 16) :
    σ.cls b ≠ 0 := by
  obtain ⟨k, hk⟩ := h.aligned b
  exact classOf_ne_zero (by omega)

theorem Shape.WF.end_le (h : σ.WF) {b : Nat} (hb : σ.size b ≠ 0) : b + σ.size b ≤ kHeapEnd :=
  (h.tiled.bounds b hb).2

/-- No block starts at the sentinel. -/
theorem Shape.WF.size_end (h : σ.WF) : σ.size kHeapEnd = 0 := by
  by_contra hne
  have := h.end_le hne
  omega

/-- The word behind the block at a cut is a cut; the sentinel is its own end. -/
theorem Shape.WF.cut_next (h : σ.WF) {b : Nat} (hb : IsCut kHeapEnd σ.size b) :
    IsCut kHeapEnd σ.size (b + σ.size b) := by
  rcases hb with rfl | hb
  · rw [h.size_end]
    exact Or.inl rfl
  · exact h.end_cut hb

/-- Where a block lies, in numbers. -/
theorem Shape.WF.layout (h : σ.WF) {b : Nat} (hb : σ.size b ≠ 0) :
    292 ≤ b ∧ b % 16 = 4 ∧ 16 ≤ σ.size b ∧ σ.size b % 16 = 0 ∧ b + σ.size b ≤ 67108852 := by
  obtain ⟨hlo, hmod⟩ := h.node hb
  have hend := h.end_le hb
  simp only [kHeapBegin_eq, kHeapEnd_eq] at hlo hend
  exact ⟨hlo, hmod, h.size_ge hb, Nat.mod_eq_zero_of_dvd (h.aligned b), hend⟩

/-! ### Tags -/

/-- The headers and last words of `m` describe the blocks of `σ`. The top bit of
    a header tells whether the block before it is free; a free block repeats
    its size in its last word. -/
structure Tags (m : Mem) (σ : Shape) : Prop where
  size : ∀ b, σ.size b ≠ 0 → word m b % 2147483648 = σ.size b
  sentinel : word m kHeapEnd % 2147483648 = 0
  first : word m kHeapBegin < 2147483648
  free : ∀ b, σ.size b ≠ 0 → (2147483648 ≤ word m (b + σ.size b) ↔ σ.free b = true)
  footer : ∀ b, σ.size b ≠ 0 → σ.free b = true → word m (b + σ.size b - 4) = σ.size b

/-- The part of `Tags` that is about headers. -/
structure Headers (m : Mem) (σ : Shape) : Prop where
  size : ∀ b, σ.size b ≠ 0 → word m b % 2147483648 = σ.size b
  sentinel : word m kHeapEnd % 2147483648 = 0
  first : word m kHeapBegin < 2147483648
  free : ∀ b, σ.size b ≠ 0 → (2147483648 ≤ word m (b + σ.size b) ↔ σ.free b = true)

/-- The part of `Tags` that is about last words. -/
def Footers (m : Mem) (σ : Shape) : Prop :=
  ∀ b, σ.Free b → word m (b + σ.size b - 4) = σ.size b

theorem tags_iff : Tags m σ ↔ Headers m σ ∧ Footers m σ := by
  constructor
  · intro h
    exact ⟨⟨h.size, h.sentinel, h.first, h.free⟩, fun b hb => h.footer b hb.1 hb.2⟩
  · rintro ⟨h, hf⟩
    exact ⟨h.size, h.sentinel, h.first, h.free, fun b hb hfree => hf b ⟨hb, hfree⟩⟩

theorem Tags.headers (h : Tags m σ) : Headers m σ := (tags_iff.mp h).1

/-- The two memories have the same headers and last words. -/
def SameTags (m m' : Mem) : Prop :=
  ∀ w, kHeapBegin ≤ w → w % 16 = 4 ∨ w % 16 = 0 → word m' w = word m w

theorem SameTags.refl (m : Mem) : SameTags m m := fun _ _ _ => rfl

theorem SameTags.trans {m₁ m₂ m₃ : Mem} (h₁ : SameTags m₁ m₂) (h₂ : SameTags m₂ m₃) :
    SameTags m₁ m₃ := fun w h h' => (h₂ w h h').trans (h₁ w h h')

/-- A store to a list head or a link changes no tag. -/
theorem sameTags_store {a v : Nat} (ha : a % 4 = 0) (hv : v < 4294967296)
    (hk : a < kHeapBegin ∨ a % 16 = 8 ∨ a % 16 = 12) : SameTags m (storeNat m a 4 v) := by
  intro w hw hwk
  rw [word_storeNat ha (by omega) hv, if_neg (by simp only [kHeapBegin_eq] at *; omega)]

theorem Headers.of_same (hσ : σ.WF) (h : Headers m σ) (hs : SameTags m m') : Headers m' σ := by
  have hcut : ∀ b, IsCut kHeapEnd σ.size b → word m' b = word m b := fun b hb =>
    have hn := (hσ.node_of_cut hb).1
    hs b hn.1 (Or.inl hn.2)
  refine ⟨?_, ?_, ?_, ?_⟩
  · intro b hb
    rw [hcut b (Or.inr hb)]; exact h.size b hb
  · rw [hcut _ (Or.inl rfl)]; exact h.sentinel
  · rw [hcut _ (Or.inr hσ.tiled.first)]; exact h.first
  · intro b hb
    rw [hcut _ (hσ.end_cut hb)]; exact h.free b hb

theorem Footers.of_same (hσ : σ.WF) (h : Footers m σ) (hs : SameTags m m') : Footers m' σ := by
  intro b hb
  obtain ⟨hlo, hmod, hge, h16, _⟩ := hσ.layout hb.1
  rw [hs _ (by rw [kHeapBegin_eq]; omega) (Or.inr (by omega))]
  exact h b hb

theorem Tags.of_same (hσ : σ.WF) (h : Tags m σ) (hs : SameTags m m') : Tags m' σ :=
  have ⟨hh, hf⟩ := tags_iff.mp h
  tags_iff.mpr ⟨hh.of_same hσ hs, hf.of_same hσ hs⟩

/-! ### Free lists -/

/-- The free lists as the bytes hold them. -/
def lists (m : Mem) : Lists where
  head c := if c < kNumFreeLists then word m (4 * c) else 0
  prev b := if IsNode b then word m (b + 4) else 0
  next b := if IsNode b then word m (b + 8) else 0

theorem lists_head_eq {c : Nat} (hc : c < kNumFreeLists) : (lists m).head c = word m (4 * c) :=
  if_pos hc

theorem lists_prev_eq {b : Nat} (hb : IsNode b) : (lists m).prev b = word m (b + 4) := if_pos hb

theorem lists_next_eq {b : Nat} (hb : IsNode b) : (lists m).next b = word m (b + 8) := if_pos hb

section store

variable {w v : Nat} (hw : w % 4 = 0) (hv : v < 4294967296)

include hw hv

/-- The heads after a store to any word; likewise the links below. -/
theorem head_store (c : Nat) : (lists (storeNat m w 4 v)).head c =
    if c < kNumFreeLists ∧ 4 * c = w then v else (lists m).head c := by
  by_cases hc : c < kNumFreeLists
  · rw [lists_head_eq hc, lists_head_eq hc, word_storeNat hw (by omega) hv]
    simp only [hc, true_and]
  · simp only [lists, hc, false_and, if_false]

theorem prev_store (b : Nat) : (lists (storeNat m w 4 v)).prev b =
    if IsNode b ∧ b + 4 = w then v else (lists m).prev b := by
  by_cases hb : IsNode b
  · have hmod := hb.2
    rw [lists_prev_eq hb, lists_prev_eq hb, word_storeNat hw (by omega) hv]
    simp only [hb, true_and]
  · simp only [lists, hb, false_and, if_false]

theorem next_store (b : Nat) : (lists (storeNat m w 4 v)).next b =
    if IsNode b ∧ b + 8 = w then v else (lists m).next b := by
  by_cases hb : IsNode b
  · have hmod := hb.2
    rw [lists_next_eq hb, lists_next_eq hb, word_storeNat hw (by omega) hv]
    simp only [hb, true_and]
  · simp only [lists, hb, false_and, if_false]

end store

theorem isNode_iff {b : Nat} : IsNode b ↔ 292 ≤ b ∧ b % 16 = 4 := by
  rw [IsNode, kHeapBegin_eq]

/-- A store to a header or a last word changes no list. -/
theorem lists_store_tag {a v : Nat} (hv : v < 4294967296) (hlo : kHeapBegin ≤ a)
    (hk : a % 16 = 4 ∨ a % 16 = 0) : lists (storeNat m a 4 v) = lists m := by
  have ha : a % 4 = 0 := by omega
  rw [kHeapBegin_eq] at hlo
  ext x
  · rw [head_store ha hv, if_neg (by rw [kNumFreeLists_eq]; omega)]
  · rw [prev_store ha hv, if_neg (by rw [isNode_iff]; omega)]
  · rw [next_store ha hv, if_neg (by rw [isNode_iff]; omega)]

theorem lists_store_head {c v : Nat} (hv : v < 4294967296) (hc : c < kNumFreeLists) :
    lists (storeNat m (4 * c) 4 v) =
      { lists m with head := Function.update (lists m).head c v } := by
  have hw : 4 * c % 4 = 0 := by omega
  have hB : c < 73 := by rwa [kNumFreeLists_eq] at hc
  ext x
  · show _ = Function.update (lists m).head c v x
    rw [head_store hw hv, Function.update_apply]
    by_cases hx : x = c
    · rw [if_pos ⟨by omega, by omega⟩, if_pos hx]
    · rw [if_neg (by omega), if_neg hx]
  · rw [prev_store hw hv, if_neg (by rw [isNode_iff]; omega)]
  · rw [next_store hw hv, if_neg (by rw [isNode_iff]; omega)]

theorem lists_store_prev {b v : Nat} (hv : v < 4294967296) (hb : IsNode b) :
    lists (storeNat m (b + 4) 4 v) =
      { lists m with prev := Function.update (lists m).prev b v } := by
  obtain ⟨hlo, hmod⟩ := isNode_iff.mp hb
  have hw : (b + 4) % 4 = 0 := by omega
  ext x
  · rw [head_store hw hv, if_neg (by rw [kNumFreeLists_eq]; omega)]
  · show _ = Function.update (lists m).prev b v x
    rw [prev_store hw hv, Function.update_apply]
    by_cases hx : x = b
    · rw [if_pos ⟨hx ▸ hb, by omega⟩, if_pos hx]
    · rw [if_neg (by omega), if_neg hx]
  · rw [next_store hw hv, if_neg (by rw [isNode_iff]; omega)]

theorem lists_store_next {b v : Nat} (hv : v < 4294967296) (hb : IsNode b) :
    lists (storeNat m (b + 8) 4 v) =
      { lists m with next := Function.update (lists m).next b v } := by
  obtain ⟨hlo, hmod⟩ := isNode_iff.mp hb
  have hw : (b + 8) % 4 = 0 := by omega
  ext x
  · rw [head_store hw hv, if_neg (by rw [kNumFreeLists_eq]; omega)]
  · rw [prev_store hw hv, if_neg (by rw [isNode_iff]; omega)]
  · show _ = Function.update (lists m).next b v x
    rw [next_store hw hv, Function.update_apply]
    by_cases hx : x = b
    · rw [if_pos ⟨hx ▸ hb, by omega⟩, if_pos hx]
    · rw [if_neg (by omega), if_neg hx]

/-! ### The invariant -/

/-- The bytes `m` represent the heap `σ`. -/
structure HeapInv (m : Mem) (σ : Shape) : Prop where
  wf : σ.WF
  tags : Tags m σ
  linked : Linked (lists m) σ.Free σ.cls

/-- The heap up to the last words of free blocks, which `FreeBlock` may leave as the client
    wrote them. -/
structure HeapCore (m : Mem) (σ : Shape) : Prop where
  wf : σ.WF
  headers : Headers m σ
  linked : Linked (lists m) σ.Free σ.cls

theorem HeapInv.core (h : HeapInv m σ) : HeapCore m σ := ⟨h.wf, h.tags.headers, h.linked⟩

theorem HeapInv.footers (h : HeapInv m σ) : Footers m σ := (tags_iff.mp h.tags).2

theorem HeapCore.inv (h : HeapCore m σ) (hf : Footers m σ) : HeapInv m σ :=
  ⟨h.wf, tags_iff.mpr ⟨h.headers, hf⟩, h.linked⟩

/-! ### Bytes of live blocks -/

/-- The bytes behind the heap and the bytes of live blocks other than `e` are
    the same in both memories. -/
def Keeps (σ : Shape) (e : Nat) (m m' : Mem) : Prop :=
  ∀ a, (kHeapEnd + 4 ≤ a ∨ ∃ x, x ≠ e ∧ σ.Payload x a) → m' a = m a

theorem Keeps.refl (σ : Shape) (e : Nat) (m : Mem) : Keeps σ e m m := fun _ _ => rfl

theorem Keeps.trans {e : Nat} {m₁ m₂ m₃ : Mem} (h₁ : Keeps σ e m₁ m₂) (h₂ : Keeps σ e m₂ m₃) :
    Keeps σ e m₁ m₃ := fun a ha => (h₂ a ha).trans (h₁ a ha)

/-- The word at `w` holds no byte of a live block other than `e`. -/
def Scratch (σ : Shape) (e w : Nat) : Prop :=
  w ≤ kHeapEnd ∧ ∀ x, x ≠ e → σ.Live x → w ≤ x ∨ x + σ.size x ≤ w

theorem Keeps.store {e w v : Nat} (h : Scratch σ e w) : Keeps σ e m (storeNat m w 4 v) := by
  intro a ha
  apply storeNat_of_not_mem
  rcases ha with ha | ⟨x, hx, hl, h₁, h₂⟩
  · have := h.1
    omega
  · have := h.2 x hx hl
    omega

theorem scratch_head {e c : Nat} (hσ : σ.WF) (hc : c < kNumFreeLists) : Scratch σ e (4 * c) := by
  simp only [kNumFreeLists_eq] at hc
  refine ⟨by simp only [kHeapEnd_eq]; omega, fun x _ hl => Or.inl ?_⟩
  have := (hσ.node hl.1).1
  simp only [kHeapBegin_eq] at this
  omega

theorem scratch_cut {e w : Nat} (hσ : σ.WF) (hw : IsCut kHeapEnd σ.size w) : Scratch σ e w := by
  refine ⟨(hσ.tiled.le_of_cut hw).2, ?_⟩
  intro x _ hl
  rcases Nat.lt_or_ge x w with hlt | hge
  · exact Or.inr (hσ.tiled.end_le_of_lt hl.1 hw hlt)
  · exact Or.inl hge

/-- The words of a block that is free, or the exempt one, are not protected. -/
theorem scratch_inside {e f w : Nat} (hσ : σ.WF) (hf : σ.Free f ∨ f = e ∧ σ.size f ≠ 0)
    (h₁ : f ≤ w) (h₂ : w < f + σ.size f) : Scratch σ e w := by
  have hf0 : σ.size f ≠ 0 := hf.elim (·.1) (·.2)
  have hend := hσ.end_le hf0
  refine ⟨by omega, ?_⟩
  intro x hx hl
  have hfx : f ≠ x := by
    rintro rfl
    rcases hf with hf | ⟨rfl, _⟩
    · exact Bool.noConfusion (hf.2.symm.trans hl.2)
    · exact hx rfl
  rcases hσ.tiled.disjoint hf0 hl.1 hfx with hle | hle
  · exact Or.inl (by omega)
  · exact Or.inr (by omega)

section agree

variable (hσ : σ.WF) (hag : ∀ a, a < kHeapEnd + 4 → (∀ x, ¬ σ.Payload x a) → m' a = m a)

include hσ hag

/-- A word that avoids every live block is the same in both memories. -/
theorem Scratch.word_eq {w : Nat} (hw : Scratch σ 0 w) : word m' w = word m w := by
  refine word_congr fun a h₁ h₂ => hag a (by have := hw.1; omega) ?_
  rintro x ⟨hl, hx₁, hx₂⟩
  have hn := (hσ.node hl.1).1
  simp only [kHeapBegin_eq] at hn
  have := hw.2 x (by omega) hl
  omega

theorem Footers.of_agree (h : Footers m σ) : Footers m' σ := by
  intro b hb
  have hge := hσ.size_ge hb.1
  rw [(scratch_inside hσ (Or.inl hb) (by omega) (by omega)).word_eq hσ hag]
  exact h b hb

/-- The invariant does not depend on the bytes of live blocks. -/
theorem HeapCore.of_agree (h : HeapCore m σ) : HeapCore m' σ := by
  have hcut : ∀ b, IsCut kHeapEnd σ.size b → word m' b = word m b :=
    fun b hb => (scratch_cut hσ hb).word_eq hσ hag
  refine ⟨hσ, ⟨?_, ?_, ?_, ?_⟩, ?_⟩
  · intro b hb
    rw [hcut b (Or.inr hb)]; exact h.headers.size b hb
  · rw [hcut _ (Or.inl rfl)]; exact h.headers.sentinel
  · rw [hcut _ (Or.inr hσ.tiled.first)]; exact h.headers.first
  · intro b hb
    rw [hcut _ (hσ.end_cut hb)]; exact h.headers.free b hb
  -- heads and links are words of the allocator as well
  · refine h.linked.congr (fun _ => Iff.rfl) (fun _ _ => rfl) ?_ ?_ ?_
    · intro c
      by_cases hc : c < kNumFreeLists
      · rw [lists_head_eq hc, lists_head_eq hc, (scratch_head hσ hc).word_eq hσ hag]
      · simp only [lists, if_neg hc]
    · intro b hb
      have hn := hσ.node hb.1
      have hge := hσ.size_ge hb.1
      rw [lists_prev_eq hn, lists_prev_eq hn,
        (scratch_inside hσ (Or.inl hb) (by omega) (by omega)).word_eq hσ hag]
    · intro b hb
      have hn := hσ.node hb.1
      have hge := hσ.size_ge hb.1
      rw [lists_next_eq hn, lists_next_eq hn,
        (scratch_inside hσ (Or.inl hb) (by omega) (by omega)).word_eq hσ hag]

end agree

theorem HeapInv.of_agree (h : HeapInv m σ)
    (hag : ∀ a, a < kHeapEnd + 4 → (∀ x, ¬ σ.Payload x a) → m' a = m a) : HeapInv m' σ :=
  (h.core.of_agree h.wf hag).inv (h.footers.of_agree h.wf hag)

/-- A store to live blocks and behind the heap changes no other byte of the heap. -/
theorem store_live_agree {off : Nat} {bs : List UInt8}
    (hin : ∀ a, off ≤ a → a < off + bs.length → kHeapEnd + 4 ≤ a ∨ ∃ x, σ.Payload x a) (a : Nat)
    (ha : a < kHeapEnd + 4) (hout : ∀ x, ¬ σ.Payload x a) : store m off bs a = m a := by
  apply store_of_not_mem
  by_contra hcon
  rcases hin a (by omega) (by omega) with hge | ⟨x, hx⟩
  · omega
  · exact hout x hx

/-- Stores to live blocks and behind the heap keep the invariant. -/
theorem HeapCore.store_live (h : HeapCore m σ) {off : Nat} {bs : List UInt8}
    (hin : ∀ a, off ≤ a → a < off + bs.length → kHeapEnd + 4 ≤ a ∨ ∃ x, σ.Payload x a) :
    HeapCore (store m off bs) σ :=
  h.of_agree h.wf (store_live_agree hin)

theorem HeapInv.store_live (h : HeapInv m σ) {off : Nat} {bs : List UInt8}
    (hin : ∀ a, off ≤ a → a < off + bs.length → kHeapEnd + 4 ≤ a ∨ ∃ x, σ.Payload x a) :
    HeapInv (store m off bs) σ :=
  h.of_agree (store_live_agree hin)

end Nvds.Allocator
