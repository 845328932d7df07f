import Nvds.Allocator.Splitting
import Nvds.Tablet.Sync
import Nvds.Tablet.Traces

/-! # How far the first range reaches

    The lowest words a request stores are list heads, so the first of its
    merged ranges starts among them. It gets into the heap if the heads are
    close enough to each other and to its start, which only those of large
    blocks are. There it goes on from link to link through blocks of 16
    bytes, and ends with the first words of the first block that is larger.

    Such steps are few: a neighbour that is merged is either the first of its
    list, and leaves a head, or it is not, and leaves two links at most.
-/

open ByteMemory Program Intervals Nvds.Allocator

namespace Nvds.Tablet

variable {σ : Shape} {base x : Nat} {hs ss : List Nat} {L : List Modification} {w : Modification}

/-! ### Steps -/

/-- The modifications, as seen from the first range `w`: the list heads `hs`; the links `ss` in
    blocks of 16 bytes before the block `x`; the first words of `x`; and others that are farther
    away, or not reached. -/
structure Steps (hs ss : List Nat) (x : Nat) (L : List Modification) (w : Modification) : Prop where
  node : 292 ≤ x ∧ x % 16 = 4
  stone : ∀ a ∈ ss, 292 ≤ a ∧ a < x ∧ (a % 16 = 8 ∨ a % 16 = 12)
  place : ∀ m ∈ L, m.des ∈ hs ∧ m.des ≤ 288 ∧ m.len = 4 ∨ m.des ∈ ss ∧ m.len = 4 ∨
    x ≤ m.des ∧ m.des + 4 ≤ x + 12 ∧ m.len = 4 ∨ x + 32 ≤ m.des ∨ w.des + w.len < m.des

namespace Steps

variable (h : Steps hs ss x L w) (hf : FirstRange L w) (hlow : w.des < 292)

include h hf

/-- Before `x` the range is covered by heads and links. -/
theorem near_low {a : Nat} (h₁ : w.des ≤ a) (h₂ : a < w.des + w.len) (hax : a < x) :
    ∃ p, (p ∈ hs ∧ p ≤ 288 ∨ p ∈ ss) ∧ p ≤ a ∧ a < p + 20 := by
  obtain ⟨m, hm, hma, ham⟩ := hf.near a ⟨h₁, h₂⟩
  change a < m.des + m.len + 16 at ham
  rcases h.place m hm with ⟨hin, hle, hlen⟩ | ⟨hin, hlen⟩ | ⟨hge, _, _⟩ | hfar | hout
  · exact ⟨m.des, Or.inl ⟨hin, hle⟩, hma, by omega⟩
  · exact ⟨m.des, Or.inr hin, hma, by omega⟩
  · omega
  · omega
  · omega

/-- Before the first link it is covered by heads. -/
theorem near_head {hi : Nat} (h296 : hi ≤ 296) (hle : hi ≤ w.des + w.len) (hix : hi ≤ x) :
    hi ≤ w.des + 20 * hs.length := by
  have hnear : ∀ a, w.des ≤ a → a < hi → ∃ p ∈ hs, p ≤ a ∧ a < p + 20 := by
    intro a h₁ h₂
    obtain ⟨p, hp, hpa, hap⟩ := h.near_low hf h₁ (by omega) (by omega)
    rcases hp with ⟨hp, _⟩ | hp
    · exact ⟨p, hp, hpa, hap⟩
    · have := h.stone p hp
      omega
  have := length_le_of_near hnear
  omega

/-- A range that ends with the heads. -/
theorem len_of_low (hend : w.des + w.len ≤ 292) : w.len ≤ 20 * hs.length := by
  have hx := h.node.1
  have := h.near_head hf (show w.des + w.len ≤ 296 by omega) (le_refl _) (by omega)
  omega

include hlow

/-- It ends with the first words of `x`. -/
theorem stop_le : w.des + w.len ≤ x + 12 := by
  have hnode := h.node
  obtain ⟨m, hm, hstop⟩ := hf.stop
  rcases h.place m hm with ⟨_, hle, hlen⟩ | ⟨hin, hlen⟩ | ⟨_, hle, hlen⟩ | hfar | hout
  · omega
  · have := h.stone _ hin
    omega
  · omega
  · -- nothing starts in the 16 bytes behind the first words of `x`
    obtain ⟨m', hm', h₁, h₂⟩ :=
      hf.near (x + 28) ⟨by show w.des ≤ x + 28; omega, by show x + 28 < w.des + w.len; omega⟩
    change x + 28 < m'.des + m'.len + 16 at h₂
    rcases h.place m' hm' with ⟨_, hle, hlen⟩ | ⟨hin, hlen⟩ | ⟨_, hle, hlen⟩ | hfar' | hout
    · omega
    · have := h.stone _ hin
      omega
    · omega
    · omega
    · omega
  · omega

/-- There is a link in each of the first blocks of 16 bytes if the range gets near to its end:
    links in the block before do not reach that far, nor do the heads. -/
theorem hit {j : Nat} (hend : max 308 (304 + 16 * j) < w.des + w.len)
    (hx : max 308 (304 + 16 * j) < x) : ∃ p ∈ ss, (p - 292) / 16 = j := by
  obtain ⟨p, hp, hpa, hap⟩ := h.near_low hf (by omega) hend hx
  rcases hp with ⟨_, hle⟩ | hp
  · omega
  · obtain ⟨hge, _, hmod⟩ := h.stone p hp
    exact ⟨p, hp, by omega⟩

/-- How long the range is that gets into the heap: it ends at `x` after a gap of less than 20
    bytes behind the heads, or it passes a block of 16 bytes with each of its links. -/
theorem len_cases (hlong : 292 < w.des + w.len) :
    w.len ≤ 20 * hs.length + 12 ∨ w.len + 8 ≤ 20 * hs.length + 16 * ss.length ∨
      ∃ k, k ≤ ss.length ∧ x = 292 + 16 * k ∧ 296 ≤ w.des + 20 * hs.length ∧
        x < w.des + w.len := by
  have hstop := h.stop_le hf hlow
  obtain ⟨hx, hmod⟩ := h.node
  -- the write ends before `x`, or it has crossed the `k` blocks of 16 bytes in front of `x`
  by_cases hreach : w.des + w.len ≤ x
  · obtain ⟨m, hm, hend⟩ := hf.stop
    rcases h.place m hm with ⟨_, hle, hlen⟩ | ⟨hin, hlen⟩ | ⟨_, _, hlen⟩ | hfar | hout
    · omega
    · -- the last link: it lies in block `j`, and all blocks before are hit
      right; left
      obtain ⟨hge, hmx, hmmod⟩ := h.stone _ hin
      obtain ⟨j, hj⟩ : ∃ j, (m.des - 292) / 16 = j := ⟨_, rfl⟩
      have hcount : j + 1 ≤ ss.length := by
        refine le_length_of_hits (fun p => (p - 292) / 16) fun i hi => ?_
        by_cases hij : i = j
        · exact ⟨_, hin, hj.trans hij.symm⟩
        · exact h.hit hf hlow (by omega) (by omega)
      have := h.near_head hf (le_refl 296) (by omega) (by omega)
      omega
    · omega
    · omega
    · omega
  · obtain ⟨k, hk⟩ : ∃ k, x = 292 + 16 * k := ⟨(x - 292) / 16, by omega⟩
    rcases Nat.lt_or_ge k 2 with hk2 | hk2
    · by_cases hs0 : k = 1 ∧ ss.length ≠ 0
      · have := h.near_head hf (le_refl 296) (by omega) (by omega)
        exact Or.inr (Or.inr ⟨k, by omega, hk, by omega, by omega⟩)
      · -- no links: the heads get to `x` themselves
        left
        have hnear : ∀ a, w.des ≤ a → a < x → ∃ p ∈ hs, p ≤ a ∧ a < p + 20 := by
          intro a h₁ h₂
          obtain ⟨p, hp, hpa, hap⟩ := h.near_low hf h₁ (by omega) h₂
          rcases hp with ⟨hp, _⟩ | hp
          · exact ⟨p, hp, hpa, hap⟩
          · have := h.stone p hp
            have := List.length_pos_of_mem hp
            omega
        have := length_le_of_near hnear
        omega
    · have hcount : k ≤ ss.length :=
        le_length_of_hits _ fun i hi => h.hit hf hlow (by omega) (by omega)
      have := h.near_head hf (le_refl 296) (by omega) (by omega)
      exact Or.inr (Or.inr ⟨k, hcount, hk, by omega, by omega⟩)

/-- With few heads and links the range is short. -/
theorem fits (hfew : 2 * hs.length + ss.length ≤ 8) (hss : ss.length ≤ 4) : w.len ≤ 128 := by
  have hstop := h.stop_le hf hlow
  by_cases hlong : 292 < w.des + w.len
  · rcases h.len_cases hf hlow hlong with hle | hle | ⟨k, hk, hx, hhead, hreach⟩
    · omega
    · omega
    · omega
  · have := h.len_of_low hf (by omega)
    omega

/-- With some more of them it is long only if all four links are stored, and it gets to the
    third word of `x`. -/
theorem long (hfew : 2 * hs.length + ss.length ≤ 10) (hss : ss.length ≤ 4)
    (hlong : 128 < w.len) :
    ss.length = 4 ∧ x + 8 < w.des + w.len ∧ w.des + 116 < x := by
  have hstop := h.stop_le hf hlow
  have hend : 292 < w.des + w.len := by
    by_contra hcon
    have := h.len_of_low hf (by omega)
    omega
  rcases h.len_cases hf hlow hend with hle | hle | ⟨k, hk, hx, hhead, hreach⟩
  · omega
  · omega
  · omega

end Steps

/-! ### The first larger block -/

/-- `x` is the first block that is larger than 16 bytes. -/
structure FirstLarge (σ : Shape) (x : Nat) : Prop where
  size : 32 ≤ σ.size x
  le : ∀ y, 32 ≤ σ.size y → x ≤ y

theorem exists_firstLarge {b : Nat} (hb : 32 ≤ σ.size b) : ∃ x, FirstLarge σ x := by
  classical
  have hex : ∃ x, 32 ≤ σ.size x := ⟨b, hb⟩
  exact ⟨Nat.find hex, Nat.find_spec hex, fun y hy => Nat.find_min' hex hy⟩

/-- Where a word may be: below the heap, among the links of the blocks before `x`, at the start
    of `x`, or farther away. -/
def Site (x a : Nat) : Prop :=
  a ≤ 288 ∨ 292 ≤ a ∧ a < x ∧ (a % 16 = 8 ∨ a % 16 = 12) ∨ x ≤ a ∧ a + 4 ≤ x + 12 ∨ x + 32 ≤ a

section blocks

variable (hσ : σ.WF) (hx : FirstLarge σ x)

include hσ hx

theorem FirstLarge.node : 292 ≤ x ∧ x % 16 = 4 ∧ x + 32 ≤ 67108852 := by
  have hsize := hx.size
  obtain ⟨h₁, h₂, _, _, h₃⟩ := hσ.layout (b := x) (by omega)
  exact ⟨h₁, h₂, by omega⟩

/-- The links of a block. -/
theorem FirstLarge.link {y d : Nat} (hy : σ.size y ≠ 0) (hd : d = 4 ∨ d = 8) : Site x (y + d) := by
  have hsize := hx.size
  obtain ⟨hlo, hmod, hge, _, _⟩ := hσ.layout hy
  have hx0 : σ.size x ≠ 0 := by omega
  unfold Site
  rcases lt_trichotomy y x with hlt | rfl | hgt
  · have := hσ.tiled.end_le_of_lt hy (Or.inr hx0) hlt
    omega
  · omega
  · have := hσ.tiled.end_le_of_lt hx0 (Or.inr hy) hgt
    omega

/-- A larger block is `x`, or lies behind its first 32 bytes. -/
theorem FirstLarge.eq_or (y : Nat) (hy : 32 ≤ σ.size y) : y = x ∨ x + 32 ≤ y := by
  have hsize := hx.size
  have hx0 : σ.size x ≠ 0 := by omega
  rcases Nat.eq_or_lt_of_le (hx.le y hy) with rfl | hgt
  · exact Or.inl rfl
  · have := hσ.tiled.end_le_of_lt hx0 (Or.inr (show σ.size y ≠ 0 by omega)) hgt
    exact Or.inr (by omega)

end blocks

/-! ### Words -/

/-- The list heads among the words. -/
def heads (ws : List Nat) : List Nat := ws.filter (· < 292)

/-- The links before `x` among them. -/
def stones (x : Nat) (ws : List Nat) : List Nat := ws.filter fun a => 292 ≤ a ∧ a < x

/-- The words have their places, and there are few steps among them: at most `k` links, and `n`
    if a head counts twice. -/
structure Few (x : Nat) (ws : List Nat) (n k : Nat) : Prop where
  site : ∀ a ∈ ws, Site x a
  weight : 2 * (heads ws).length + (stones x ws).length ≤ n
  links : (stones x ws).length ≤ k

theorem Few.append {as bs : List Nat} {n k n' k' : Nat} (h : Few x as n k) (h' : Few x bs n' k') :
    Few x (as ++ bs) (n + n') (k + k') := by
  have h₁ := h.weight
  have h₂ := h'.weight
  have h₃ := h.links
  have h₄ := h'.links
  refine ⟨?_, ?_, ?_⟩
  · intro a ha
    rcases List.mem_append.mp ha with ha | ha
    · exact h.site a ha
    · exact h'.site a ha
  · unfold heads stones at *
    rw [List.filter_append, List.filter_append, List.length_append, List.length_append]
    omega
  · unfold stones at *
    rw [List.filter_append, List.length_append]
    omega

theorem Few.mono {ws : List Nat} {n k n' k' : Nat} (h : Few x ws n k) (hn : n ≤ n') (hk : k ≤ k') :
    Few x ws n' k' :=
  ⟨h.site, h.weight.trans hn, h.links.trans hk⟩

theorem few_nil : Few x [] 0 0 := ⟨fun _ ha => absurd ha List.not_mem_nil, le_refl _, le_refl _⟩

theorem few_head {c : Nat} (hc : c < kNumFreeLists) : Few x [4 * c] 2 0 := by
  rw [kNumFreeLists_eq] at hc
  have h₁ : 4 * c < 292 := by omega
  refine ⟨?_, ?_, ?_⟩
  · intro a ha
    rw [List.mem_singleton.mp ha]
    exact Or.inl (by omega)
  · simp [heads, stones, h₁]
  · simp [stones, h₁]

theorem few_link {a : Nat} (h : Site x a) (ha : 292 ≤ a) : Few x [a] 1 1 := by
  have h₁ : ¬ a < 292 := by omega
  refine ⟨?_, ?_, ?_⟩
  · intro b hb
    rw [List.mem_singleton.mp hb]
    exact h
  · have : (stones x [a]).length ≤ 1 := List.length_filter_le _ _
    simp [heads, h₁]
    exact this
  · exact List.length_filter_le _ _

/-- A word from `x` on is no step. -/
theorem few_far {a : Nat} (h : Site x a) (hx : 292 ≤ x) (ha : x ≤ a) : Few x [a] 0 0 := by
  have h₁ : ¬ a < 292 := by omega
  have h₂ : ¬ a < x := by omega
  refine ⟨?_, ?_, ?_⟩
  · intro b hb
    rw [List.mem_singleton.mp hb]
    exact h
  · simp [heads, stones, h₁, h₂]
  · simp [stones, h₂]

/-- Words far behind the start of `x`. -/
theorem few_behind {a : Nat} (hx : 292 ≤ x) (ha : x + 32 ≤ a) : Few x [a] 0 0 :=
  few_far (Or.inr (Or.inr (Or.inr ha))) hx (by omega)

/-- The first words of `x`, or words far behind. -/
theorem few_start {y d : Nat} (hx : 292 ≤ x) (hy : y = x ∨ x + 32 ≤ y) (hd : d ≤ 8) :
    Few x [y + d] 0 0 := by
  refine few_far ?_ hx (by omega)
  unfold Site
  omega

theorem stones_append (x : Nat) (as bs : List Nat) :
    stones x (as ++ bs) = stones x as ++ stones x bs :=
  List.filter_append as bs

/-- Words that are no steps have no links among them. -/
theorem Few.stones_eq_nil {ws : List Nat} {n : Nat} (h : Few x ws n 0) : stones x ws = [] :=
  List.length_eq_zero_iff.mp (Nat.le_zero.mp h.links)

/-- The steps of the first range. -/
theorem Few.steps (base : Nat) {ws : List Nat} {n k : Nat} (h : Few x ws n k)
    (hx : 292 ≤ x ∧ x % 16 = 4)
    (hL : ∀ m ∈ L, (∃ a ∈ ws, m = wordAt base a) ∨ x + 32 ≤ m.des ∨ w.des + w.len < m.des) :
    Steps (heads ws) (stones x ws) x L w := by
  refine ⟨hx, ?_, ?_⟩
  · intro a ha
    obtain ⟨ha, hlt⟩ := List.mem_filter.mp ha
    have hlt := of_decide_eq_true hlt
    rcases h.site a ha with h₁ | h₁ | h₁ | h₁
    · omega
    · exact ⟨h₁.1, h₁.2⟩
    · omega
    · omega
  · intro m hm
    rcases hL m hm with ⟨a, ha, rfl⟩ | hfar | hout
    · rcases h.site a ha with h₁ | h₁ | h₁ | h₁
      · have hlt : a < 292 := by omega
        exact Or.inl ⟨List.mem_filter.mpr ⟨ha, decide_eq_true hlt⟩, h₁, rfl⟩
      · have hin : 292 ≤ a ∧ a < x := ⟨h₁.1, h₁.2.1⟩
        exact Or.inr (Or.inl ⟨List.mem_filter.mpr ⟨ha, decide_eq_true hin⟩, rfl⟩)
      · exact Or.inr (Or.inr (Or.inl ⟨h₁.1, h₁.2, rfl⟩))
      · exact Or.inr (Or.inr (Or.inr (Or.inl h₁)))
    · exact Or.inr (Or.inr (Or.inr (Or.inl hfar)))
    · exact Or.inr (Or.inr (Or.inr (Or.inr hout)))

/-! ### Heads -/

/-- The words below the heap are list heads, at least one and at most five. -/
structure Heads (hs : List Nat) (L : List Modification) : Prop where
  some : ∃ m ∈ L, m.des < 292
  five : hs.length ≤ 5
  head : ∀ m ∈ L, m.des < 292 → m.des ∈ hs ∧ m.len = 4

/-- The list heads reach 20 bytes each. -/
theorem Heads.reach {hs : List Nat} (h : Heads hs L) (hf : FirstRange L w) {hi : Nat}
    (hhi : hi ≤ 292) (hle : hi ≤ w.des + w.len) : hi - w.des ≤ 100 := by
  have hnear : ∀ a, w.des ≤ a → a < hi → ∃ x ∈ hs, x ≤ a ∧ a < x + 20 := by
    intro a h₁ h₂
    obtain ⟨m, hm, hma, ham⟩ := hf.near a ⟨h₁, by show a < w.des + w.len; omega⟩
    obtain ⟨hin, hlen⟩ := h.head m hm (by omega)
    refine ⟨m.des, hin, hma, ?_⟩
    rw [hlen] at ham
    exact ham
  have := length_le_of_near hnear
  have := h.five
  omega

theorem Heads.low {hs : List Nat} (h : Heads hs L) (hf : FirstRange L w) : w.des < 292 := by
  obtain ⟨m, hm, hlt⟩ := h.some
  have := hf.lowest m hm
  omega

/-- A long range has only heads of large blocks. -/
theorem Heads.high {hs : List Nat} (h : Heads hs L) (hf : FirstRange L w)
    (hlong : 128 < w.len) : 292 < w.des + w.len ∧ ∀ m ∈ L, 192 ≤ m.des := by
  have hend : 292 < w.des + w.len := by
    by_contra hcon
    have := h.reach hf (show w.des + w.len ≤ 292 by omega) (le_refl _)
    omega
  refine ⟨hend, ?_⟩
  intro m hm
  have := h.reach hf (le_refl 292) hend.le
  have := hf.lowest m hm
  omega

@[simp] theorem heads_append (as bs : List Nat) : heads (as ++ bs) = heads as ++ heads bs :=
  List.filter_append as bs

theorem heads_cons_of_ge {a : Nat} {as : List Nat} (h : 292 ≤ a) : heads (a :: as) = heads as := by
  have h₁ : ¬ a < 292 := by omega
  simp [heads, h₁]

theorem heads_eq_nil {as : List Nat} (h : ∀ a ∈ as, 292 ≤ a) : heads as = [] := by
  unfold heads
  rw [List.filter_eq_nil_iff]
  intro a ha
  have := h a ha
  simpa using this

theorem heads_length_le (as : List Nat) : (heads as).length ≤ as.length :=
  List.length_filter_le _ _

/-- Modifications that are words, or behind the list heads. -/
theorem heads_of_words {ws : List Nat} (hsome : ∃ a ∈ ws, a < 292) (hfive : (heads ws).length ≤ 5)
    (hws : ∀ a ∈ ws, wordAt base a ∈ L)
    (hL : ∀ m ∈ L, (∃ a ∈ ws, m = wordAt base a) ∨ 292 ≤ m.des) : Heads (heads ws) L := by
  obtain ⟨a, ha, hlt⟩ := hsome
  refine ⟨⟨_, hws a ha, hlt⟩, hfive, ?_⟩
  intro m hm hlt
  rcases hL m hm with ⟨a, ha, rfl⟩ | hge
  · exact ⟨List.mem_filter.mpr ⟨ha, decide_eq_true hlt⟩, rfl⟩
  · omega

/-- Taking a block off its list stores one head at most, and that is the head of its list. -/
theorem unlinks_heads (hσ : σ.WF) {k : Nat} {as : List Nat} (h : Unlinks σ k as) :
    (heads as).length ≤ 1 ∧ ∀ a ∈ as, a < 292 → a = 4 * k := by
  obtain ⟨a, bs, rfl, ha, hbs⟩ := h
  have hback : ∀ c ∈ bs, 292 ≤ c := by
    intro c hc
    rcases hbs with rfl | ⟨y, hy, _, rfl⟩
    · cases hc
    · have := (hσ.layout hy.1).1
      rw [List.mem_singleton.mp hc]
      omega
  constructor
  · have happ : heads (a :: bs) = heads [a] ++ heads bs := heads_append [a] bs
    rw [happ, heads_eq_nil hback, List.append_nil]
    exact heads_length_le [a]
  · intro c hc hlt
    rcases List.mem_cons.mp hc with rfl | hc
    · rcases ha with ha | ⟨y, hy, _, rfl⟩
      · exact ha
      · have := (hσ.layout hy.1).1
        omega
    · have := hback c hc
      omega

/-- `FreeBlock` stores three heads at most. That of the new block is the highest. -/
theorem free_heads (hσ : σ.WF) {blk lo hi : Nat} (hb : σ.size blk ≠ 0)
    {prev next size back : List Nat} (h : FreeTrace σ blk lo hi prev next size back) :
    (heads (freeWords lo hi prev next size back)).length ≤ 3 ∧
      ∀ a ∈ freeWords lo hi prev next size back, a < 292 →
        (a ∈ prev ++ next ∨ a = 4 * classOf (hi - lo)) ∧ a ≤ 4 * classOf (hi - lo) := by
  have hlo : σ.size lo ≠ 0 := by
    rcases h.prev with ⟨rfl, _⟩ | ⟨hF, _⟩
    · exact hb
    · exact hF.1
  have hlo292 := (hσ.layout hlo).1
  have hlen : lo + 16 ≤ hi := by
    have := hσ.size_ge hb
    rcases h.prev with ⟨_, _⟩ | ⟨_, _, _⟩ <;> rcases h.next with ⟨_, _⟩ | ⟨_, _, _⟩ <;> omega
  -- a neighbour that was first in its list adds the head of its class, which is at most that of
  -- the merged block
  have hprev : (heads prev).length ≤ 1 ∧ ∀ a ∈ prev, a < 292 → a ≤ 4 * classOf (hi - lo) := by
    rcases h.prev with ⟨_, rfl⟩ | ⟨_, hend, hu⟩
    · exact ⟨Nat.zero_le _, fun a ha => absurd ha List.not_mem_nil⟩
    · obtain ⟨hle, hhead⟩ := unlinks_heads hσ hu
      refine ⟨hle, fun a ha hlt => ?_⟩
      rw [hhead a ha hlt]
      refine Nat.mul_le_mul_left 4 (classOf_mono ?_)
      rcases h.next with ⟨_, _⟩ | ⟨_, _, _⟩ <;> omega
  have hnext : (heads next).length ≤ 1 ∧ ∀ a ∈ next, a < 292 → a ≤ 4 * classOf (hi - lo) := by
    rcases h.next with ⟨_, rfl⟩ | ⟨_, hend, hu⟩
    · exact ⟨Nat.zero_le _, fun a ha => absurd ha List.not_mem_nil⟩
    · obtain ⟨hle, hhead⟩ := unlinks_heads hσ hu
      refine ⟨hle, fun a ha hlt => ?_⟩
      rw [hhead a ha hlt]
      refine Nat.mul_le_mul_left 4 (classOf_mono ?_)
      rcases h.prev with ⟨_, _⟩ | ⟨_, _, _⟩ <;> omega
  -- tags and links are in the heap
  have hsize : ∀ a ∈ size, 292 ≤ a := by
    rcases h.size with ⟨_, _, rfl⟩ | rfl
    · exact fun a ha => absurd ha List.not_mem_nil
    · intro a ha
      simp only [List.mem_cons, List.not_mem_nil, or_false] at ha
      omega
  have hback : ∀ a ∈ back, 292 ≤ a := by
    intro a ha
    obtain ⟨y, hy, rfl⟩ := h.mem_back ha
    have := (hσ.layout hy.1).1
    omega
  constructor
  · have hlinks : heads [lo + 4, lo + 8] = [] := by
      apply heads_eq_nil
      intro a ha
      simp only [List.mem_cons, List.not_mem_nil, or_false] at ha
      omega
    have hown : heads [4 * classOf (hi - lo), lo + 4, lo + 8] =
        heads [4 * classOf (hi - lo)] ++ heads [lo + 4, lo + 8] := heads_append [_] [_, _]
    have h₁ := heads_length_le [4 * classOf (hi - lo)]
    have hend : heads [hi] = [] := heads_cons_of_ge (by omega)
    rw [freeWords, heads_append, heads_append, heads_append, heads_append, heads_append,
      heads_eq_nil hsize, heads_eq_nil hback, hend, hown, hlinks]
    simp only [List.length_append, List.length_singleton, List.length_nil] at h₁ ⊢
    omega
  · intro a ha hlt
    simp only [freeWords, List.mem_append, List.mem_cons, List.not_mem_nil, or_false] at ha ⊢
    rcases ha with ha | ha | ha | rfl | (rfl | rfl | rfl) | ha
    · exact ⟨Or.inl (Or.inl ha), hprev.2 a ha hlt⟩
    · exact ⟨Or.inl (Or.inr ha), hnext.2 a ha hlt⟩
    · have := hsize a ha
      omega
    · omega
    · exact ⟨Or.inr rfl, le_refl _⟩
    · omega
    · omega
    · have := hback a ha
      omega

/-! ### The words of the allocator -/

/-- The heads from offset 192 on are those of the lists of large blocks. -/
theorem large_of_high {n : Nat} (h : 192 ≤ 4 * classOf n) : 784 ≤ n := by
  by_contra hlt
  rw [classOf_of_le (by omega)] at h
  omega

/-- The links of a free block of `σ`, seen from `x`. -/
def LinkSites (σ : Shape) (x : Nat) : Prop :=
  ∀ y, σ.Free y → 292 ≤ y ∧ Site x (y + 4) ∧ Site x (y + 8) ∧
    (32 ≤ σ.size y → y = x ∨ x + 32 ≤ y)

/-- Taking a block off its list is one head, or two links. -/
theorem unlinks_few (hx : 292 ≤ x) (hlinks : LinkSites σ x) {n : Nat} {as : List Nat}
    (h : Unlinks σ (classOf n) as) (hhigh : ∀ a ∈ as, 192 ≤ a) : Few x as 2 2 := by
  obtain ⟨a, bs, rfl, ha, hbs⟩ := h
  have hback : Few x bs 1 1 := by
    rcases hbs with rfl | ⟨y, hy, _, rfl⟩
    · exact few_nil.mono (Nat.zero_le _) (Nat.zero_le _)
    · obtain ⟨hge, hsite, _⟩ := hlinks y hy
      exact few_link hsite (by omega)
  -- the first store goes to a head or to the block in front, the second to the block behind
  rcases ha with rfl | ⟨y, hy, _, rfl⟩
  · -- the block behind is as large as the one taken off
    have hlarge := large_of_high (hhigh _ List.mem_cons_self)
    have hfar : Few x bs 0 0 := by
      rcases hbs with rfl | ⟨y, hy, hcls, rfl⟩
      · exact few_nil
      · obtain ⟨_, _, _, hle⟩ := hlinks y hy
        have hsize : 784 ≤ σ.size y := by
          apply large_of_high
          show 192 ≤ 4 * σ.cls y
          rw [hcls]
          exact hhigh _ List.mem_cons_self
        have := hle (by omega)
        exact few_start hx this (by omega)
    exact ((few_head (classOf_lt n)).append hfar).mono (le_refl _) (Nat.zero_le _)
  · obtain ⟨hge, _, hsite, _⟩ := hlinks y hy
    exact (few_link hsite (by omega)).append hback

section free

variable {blk lo hi : Nat} (hσ : σ.WF) (hb : 32 ≤ σ.size blk)
  (hlo : lo = blk ∨ σ.Free lo ∧ lo + σ.size lo = blk)
  (hhi : hi = blk + σ.size blk ∨ σ.Free (blk + σ.size blk) ∧
    hi = blk + σ.size blk + σ.size (blk + σ.size blk))
  (hσ₁ : (σ.fuse lo hi).WF) (hx : FirstLarge (σ.fuse lo hi) x)

include hb hlo hhi hx

/-- The new block is large. -/
theorem le_merged : x ≤ lo ∧ lo + 32 ≤ hi ∧ (σ.fuse lo hi).size lo = hi - lo := by
  have hself : (σ.fuse lo hi).size lo = hi - lo := Tiling.fuse_self _ _ _
  have hlen : lo + 32 ≤ hi := by omega
  exact ⟨hx.le lo (by omega), hlen, hself⟩

include hσ hσ₁

/-- The links of the blocks that were free before. -/
theorem linkSites_fuse (hlive : σ.free blk = false) : LinkSites σ x := by
  obtain ⟨hxlo, hlen, hself⟩ := le_merged hb hlo hhi hx
  have hlox := hx.eq_or hσ₁ lo (by omega)
  intro y hy
  obtain ⟨hge, _, _, _, _⟩ := hσ.layout hy.1
  by_cases hin : lo ≤ y ∧ y < hi
  · rcases free_inside hσ ⟨by omega, hlive⟩ (hlo.imp id fun h => ⟨h.1.1, h.2⟩) hhi hy hin with
      rfl | ⟨rfl, _⟩
    · have hy0 : (σ.fuse y hi).size y ≠ 0 := by omega
      exact ⟨hge, hx.link hσ₁ hy0 (Or.inl rfl), hx.link hσ₁ hy0 (Or.inr rfl), fun _ => hlox⟩
    · -- the neighbour behind is far from the start of the new block
      exact ⟨hge, Or.inr (Or.inr (Or.inr (by omega))), Or.inr (Or.inr (Or.inr (by omega))),
        fun _ => by omega⟩
  · have hsize : (σ.fuse lo hi).size y = σ.size y :=
      Tiling.fuse_of_outside (by omega) (by omega)
    have hy0 : (σ.fuse lo hi).size y ≠ 0 := by
      rw [hsize]
      exact hy.1
    refine ⟨hge, hx.link hσ₁ hy0 (Or.inl rfl), hx.link hσ₁ hy0 (Or.inr rfl), fun h32 => ?_⟩
    exact hx.eq_or hσ₁ y (by omega)

/-- **The words of `FreeBlock`.** Besides the links and the head of the new block, they are the
    first words of that block, back links, and words far behind. -/
theorem free_few (hlive : σ.free blk = false) {prev next size back : List Nat}
    (h : FreeTrace σ blk lo hi prev next size back)
    (hhigh : ∀ a ∈ freeWords lo hi prev next size back, 192 ≤ a) :
    Few x (freeWords lo hi prev next size back) 6 4 ∧
      stones x (freeWords lo hi prev next size back) = stones x (prev ++ next) ∧
      ∀ a ∈ freeWords lo hi prev next size back, a ∈ prev ++ next ∨ a = 4 * classOf (hi - lo) ∨
        a = x + 4 ∨ x + 32 ≤ a ∨ x ≤ a ∧ lo = x := by
  obtain ⟨hxlo, hlen, hself⟩ := le_merged hb hlo hhi hx
  have hlinks := linkSites_fuse hσ hb hlo hhi hσ₁ hx hlive
  have hnode := (hx.node hσ₁).1
  have hlox := hx.eq_or hσ₁ lo (by omega)
  have hlarge := large_of_high (hhigh (4 * classOf (hi - lo)) (by simp [freeWords]))
  have hprev : Few x prev 2 2 := by
    rcases h.prev with ⟨_, rfl⟩ | ⟨_, _, hu⟩
    · exact few_nil.mono (by omega) (by omega)
    · exact unlinks_few hnode hlinks hu fun a ha => hhigh a (by simp [freeWords, ha])
  have hnext : Few x next 2 2 := by
    rcases h.next with ⟨_, rfl⟩ | ⟨_, _, hu⟩
    · exact few_nil.mono (by omega) (by omega)
    · exact unlinks_few hnode hlinks hu fun a ha => hhigh a (by simp [freeWords, ha])
  have hsize : Few x size 0 0 ∧ ∀ a ∈ size, a = lo ∨ x + 32 ≤ a := by
    rcases h.size with ⟨_, _, rfl⟩ | rfl
    · exact ⟨few_nil, fun a ha => absurd ha List.not_mem_nil⟩
    · refine ⟨(few_start hnode hlox (Nat.zero_le 8)).append (few_behind hnode (by omega)), ?_⟩
      intro a ha
      simp only [List.mem_cons, List.not_mem_nil, or_false] at ha
      omega
  have hback : Few x back 0 0 ∧ ∀ a ∈ back, a = x + 4 ∨ x + 32 ≤ a := by
    rcases h.back with rfl | ⟨y, hy, _, hcls, rfl⟩
    · exact ⟨few_nil, fun a ha => absurd ha List.not_mem_nil⟩
    · have hy784 : 784 ≤ σ.size y := by
        apply large_of_high
        show 192 ≤ 4 * σ.cls y
        rw [hcls]
        exact hhigh _ (by simp [freeWords])
      have hyx := (hlinks y hy).2.2.2 (by omega)
      refine ⟨few_start hnode hyx (by omega), ?_⟩
      intro a ha
      rw [List.mem_singleton.mp ha]
      omega
  -- the links of the merged block are words of its own, close to its start
  have hown : Few x [4 * classOf (hi - lo), lo + 4, lo + 8] 2 0 :=
    (few_head (classOf_lt (hi - lo))).append ((few_start hnode hlox (by omega)).append
      (few_start hnode hlox (by omega)))
  have hrest := hsize.1.append ((few_behind hnode (show x + 32 ≤ hi by omega)).append
    (hown.append hback.1))
  refine ⟨hprev.append (hnext.append hrest), ?_, ?_⟩
  · rw [freeWords, ← List.append_assoc, stones_append, hrest.stones_eq_nil, List.append_nil]
  · intro a ha
    simp only [freeWords, List.mem_append, List.mem_cons, List.not_mem_nil, or_false] at ha ⊢
    rcases ha with ha | ha | ha | rfl | (rfl | rfl | rfl) | ha
    · exact Or.inl (Or.inl ha)
    · exact Or.inl (Or.inr ha)
    · have := hsize.2 a ha
      omega
    · omega
    · exact Or.inr (Or.inl rfl)
    · omega
    · omega
    · have := hback.2 a ha
      omega

end free

section alloc

variable (hσ : σ.WF) (hx : FirstLarge σ x) {b r n : Nat}

include hσ hx

/-- **The words of an exact fit.** -/
theorem exact_few {m : Mem} {w : Nat} (hn : 32 ≤ n) (hsize : σ.size b = n) (hw : PopsTo m σ b w)
    (hhigh : ∀ a ∈ [b + n, 4 * classOf n, w], 192 ≤ a) :
    Few x [b + n, 4 * classOf n, w] 2 0 ∧ (w = x + 4 ∨ x + 32 ≤ w) ∧ (lists m).next b ≠ 0 := by
  have hnode := (hx.node hσ).1
  have hxb := hx.le b (by omega)
  rcases hw with ⟨_, rfl⟩ | ⟨hnext, y, hy, _, hcls, rfl⟩
  · have := hhigh 4 (by simp)
    omega
  · have hy784 : 784 ≤ σ.size y := by
      apply large_of_high
      show 192 ≤ 4 * σ.cls y
      rw [hcls, Shape.cls, hsize]
      exact hhigh _ (by simp)
    have hyx := hx.eq_or hσ y (by omega)
    refine ⟨?_, by omega, hnext⟩
    exact (few_behind hnode (show x + 32 ≤ b + n by omega)).append
      ((few_head (classOf_lt n)).append (few_start hnode hyx (by omega)))

/-- **The words of a split.** Besides the two heads they are the first words of the rest, back
    links, and words far behind. -/
theorem split_few (hb : σ.Free b) (hr : 32 ≤ r) (hsum : r + n = σ.size b) {next back : List Nat}
    (ht : SplitTrace σ b r next back) (hhigh : ∀ a ∈ splitWords σ b r next back, 192 ≤ a) :
    Few x (splitWords σ b r next back) 4 0 ∧
      ∀ a ∈ splitWords σ b r next back, a = 4 * σ.cls b ∨ a = 4 * classOf r ∨
        a = x + 4 ∨ x + 32 ≤ a ∨ x ≤ a ∧ b = x := by
  have hnode := (hx.node hσ).1
  have hbx := hx.eq_or hσ b (by omega)
  have hlarge := large_of_high (hhigh (4 * classOf r) (by simp [splitWords]))
  -- the blocks on the two lists are large
  have hlink : ∀ {n' : Nat} {as : List Nat}, 192 ≤ 4 * classOf n' →
      (as = [] ∨ ∃ y, σ.Free y ∧ y ≠ b ∧ σ.cls y = classOf n' ∧ as = [y + 4]) →
      Few x as 0 0 ∧ ∀ a ∈ as, a = x + 4 ∨ x + 32 ≤ a := by
    intro n' as h192 has
    rcases has with rfl | ⟨y, hy, _, hcls, rfl⟩
    · exact ⟨few_nil, fun a ha => absurd ha List.not_mem_nil⟩
    · have hy784 : 784 ≤ σ.size y := by
        apply large_of_high
        show 192 ≤ 4 * σ.cls y
        rw [hcls]
        exact h192
      have hyx := hx.eq_or hσ y (by omega)
      refine ⟨few_start hnode hyx (by omega), ?_⟩
      intro a ha
      rw [List.mem_singleton.mp ha]
      omega
  have hnext := hlink (hhigh (4 * σ.cls b) (by simp [splitWords])) ht.next
  have hback := hlink (hhigh (4 * classOf r) (by simp [splitWords])) ht.back
  constructor
  -- the block begins at `x`, or so far behind it that nothing of it is reached
  · have hsizes : Few x [b, b + r - 4] 0 0 := (few_start hnode hbx (Nat.zero_le 8)).append
      (few_behind hnode (show x + 32 ≤ b + r - 4 by omega))
    have hown : Few x [b + 4, b + 8, 4 * classOf r] 2 0 :=
      (few_start hnode hbx (by omega)).append ((few_start hnode hbx (by omega)).append
        (few_head (classOf_lt r)))
    have hpiece : Few x [b + r, b + σ.size b - 4, b + σ.size b] 0 0 :=
      (few_behind hnode (by omega)).append ((few_behind hnode (by omega)).append
        (few_behind hnode (by omega)))
    exact (few_head (classOf_lt _)).append (hnext.1.append (hsizes.append (hown.append
      (hback.1.append hpiece))))
  · intro a ha
    simp only [splitWords, List.mem_append, List.mem_cons, List.not_mem_nil, or_false] at ha
    rcases ha with rfl | ha | (rfl | rfl) | (rfl | rfl | rfl) | ha | (rfl | rfl | rfl)
    · exact Or.inl rfl
    · have := hnext.2 a ha
      omega
    · omega
    · omega
    · omega
    · omega
    · exact Or.inr (Or.inl rfl)
    · have := hback.2 a ha
      omega
    · omega
    · omega
    · omega

end alloc

end Nvds.Tablet
