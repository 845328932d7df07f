import Nvds.Allocator.Coalescing

/-! # Searching and splitting

    `AllocBlock` scans from the list of the request's class upwards. On a
    well-formed heap the first non-empty list it meets has a block that fits,
    of minimal class; a larger block gives its upper end. `Alloc` finds no
    block only if there is none.

    With the check of the offset, a request that would leave a rest of 16
    bytes stops at the list at offset 0 instead (`LeavesTiny`).
-/

open ByteMemory Program LinkedList Tiling

namespace Nvds.Allocator

variable {chk : Bool} {σ : Shape} {m : Mem} {s s' : Nvm}

/-! ### The search -/

theorem FirstFit.unique {l : Lists} {c d d' : Nat} (h : FirstFit l c d) (h' : FirstFit l c d') :
    d = d' := by
  rcases Nat.lt_trichotomy d d' with hlt | heq | hgt
  · exact absurd (h'.skip d h.le hlt) h.head
  · exact heq
  · exact absurd (h.skip d' h'.le hgt) h'.head

/-- Larger blocks have larger classes. -/
theorem classOf_mono {n k : Nat} (h : n ≤ k) : classOf n ≤ classOf k := by
  rcases Nat.lt_or_ge 1152 k with hlt | hge
  · have := classOf_lt n
    rw [kNumFreeLists_eq] at this
    rw [classOf_of_gt hlt]
    omega
  · rw [classOf_of_le (h.trans hge), classOf_of_le hge]
    omega

/-- The list of a free block is not empty. -/
theorem WellFormedHeap.head_ne_zero (h : WellFormedHeap m σ) {x : Nat} (hx : σ.Free x) :
    (Allocator.lists m).head (σ.cls x) ≠ 0 := by
  obtain ⟨xs, hseg, hall⟩ := h.complete (σ.cls x)
  cases xs with
  | nil => exact absurd (hall x hx rfl) List.not_mem_nil
  | cons y ys =>
    obtain ⟨hy, h0, _⟩ := hseg
    rw [hy]
    exact h0

/-- All lists are empty from a class on exactly if no free block fits. -/
theorem WellFormedHeap.noFit_iff (h : WellFormedHeap m σ) {n : Nat} (h16 : 16 ∣ n)
    (hmax : n ≤ 1152) :
    NoFit (Allocator.lists m) (classOf n) ↔ ∀ x, σ.Free x → σ.size x < n := by
  constructor
  · intro hno x hx
    by_contra hge
    exact h.head_ne_zero hx (hno _ (classOf_mono (not_lt.mp hge)) (classOf_lt _))
  · intro hall d hd hlt
    by_contra h0
    obtain ⟨hF, hcls, _⟩ := h.heap.linked.head d h0
    have hfit := le_of_classOf_le hmax h16 (h.heap.wf.aligned _) (h.heap.wf.size_ge hF.1)
      (show classOf n ≤ σ.cls _ by rw [hcls]; exact hd)
    have := hall _ hF
    omega

/-- The first non-empty list holds blocks of minimal class among those that fit. -/
theorem WellFormedHeap.firstFit_le (h : WellFormedHeap m σ) {n c : Nat}
    (hf : FirstFit (Allocator.lists m) (classOf n) c) {x : Nat} (hx : σ.Free x)
    (hfit : n ≤ σ.size x) : c ≤ σ.cls x := by
  by_contra hlt
  exact h.head_ne_zero hx (hf.skip _ (classOf_mono hfit) (not_le.mp hlt))

/-! ### Splitting -/

/-- The free bytes after a split. -/
theorem split_freeByte (hσ : σ.WF) {b r : Nat} (hb : σ.Free b) (hr : 0 < r)
    (hlt : r < σ.size b) (a : Nat) :
    (σ.split b r).FreeByte a ↔ σ.FreeByte a ∧ ¬ (b + r ≤ a ∧ a < b + σ.size b) := by
  have hself : (σ.split b r).size b = r := split_self _ _ _
  have hother : ∀ x, σ.Free x → x ≠ b → (σ.split b r).size x = σ.size x := by
    intro x hx hne
    refine split_other hne fun heq => hx.1 ?_
    exact hσ.tiled.inside b x hb.1 (by omega) (by omega)
  -- the blocks keep their bytes but for `b`, which keeps the first `r`
  constructor
  · rintro ⟨x, hx, hxa, hax⟩
    rcases (split_free hσ hb hr hlt x).mp hx with ⟨hxF, hne⟩ | rfl
    · rw [hother x hxF hne] at hax
      refine ⟨⟨x, hxF, hxa, hax⟩, ?_⟩
      intro hin
      rcases hσ.tiled.disjoint hxF.1 hb.1 hne with hle | hle
      · omega
      · omega
    · rw [hself] at hax
      exact ⟨⟨x, hb, hxa, by omega⟩, by omega⟩
  · rintro ⟨⟨x, hx, hxa, hax⟩, hout⟩
    by_cases hne : x = b
    · subst hne
      exact ⟨x, (split_free hσ hb hr hlt x).mpr (Or.inr rfl), hxa, by rw [hself]; omega⟩
    · exact ⟨x, (split_free hσ hb hr hlt x).mpr (Or.inl ⟨hx, hne⟩), hxa,
        by rw [hother x hx hne]; exact hax⟩

/-- What `SplitBlock` changes outside the block it splits. -/
theorem SplitTrace.onlyLinks (hσ : σ.WF) {b r : Nat} {next back : List Nat} (hb : σ.Free b)
    (hr : 16 ≤ r) (hlt : r + 16 ≤ σ.size b) (hs : Stores s (splitWords σ b r next back) s')
    (htrace : SplitTrace σ b r next back) {x a : Nat} (hx : σ.size x ≠ 0)
    (hout : x < b ∨ b + σ.size b ≤ x) (hax : x ≤ a) (hxa : a < x + σ.size x)
    (htag : x = b + σ.size b → x + 4 ≤ a) (hlinks : σ.Free x → a < x + 4 ∨ x + 12 ≤ a) :
    s'.mem a = s.mem a := by
  -- stores into `b` itself; the others are heads, links of neighbours in a list, and the header
  -- behind
  have hown : ∀ w, b ≤ w → w + 4 ≤ b + σ.size b → Avoids a w :=
    fun w h₁ h₂ => avoids_inside hσ hx hax hxa hb.1 (by omega) h₁ h₂
  apply hs.same
  intro w hw
  simp only [splitWords, List.mem_append, List.mem_cons, List.not_mem_nil, or_false] at hw
  rcases hw with rfl | hw | (rfl | rfl) | (rfl | rfl | rfl) | hw | rfl | rfl | rfl
  · exact avoids_head hσ hx hax _
  · rcases htrace.next with rfl | ⟨y, hy, _, _, rfl⟩
    · cases hw
    · rw [List.mem_singleton.mp hw]
      exact avoids_link hσ hx hax hxa hlinks hy (Or.inl rfl)
  · exact hown _ le_rfl (by omega)
  · exact hown _ (by omega) (by omega)
  · exact hown _ (by omega) (by omega)
  · exact hown _ (by omega) (by omega)
  · exact avoids_head hσ hx hax _
  · rcases htrace.back with rfl | ⟨y, hy, _, _, rfl⟩
    · cases hw
    · rw [List.mem_singleton.mp hw]
      exact avoids_link hσ hx hax hxa hlinks hy (Or.inl rfl)
  · exact hown _ (by omega) (by omega)
  · exact hown _ (by omega) (by omega)
  · exact avoids_cut hσ hx hax hxa (hσ.end_cut hb.1) fun heq => htag heq.symm

/-- **Splitting.** If the head `b` of the first list that serves a request for `n` bytes is larger,
    `AllocBlock` returns its upper end of `n` bytes and gives a well-formed heap again: the rest is
    at the head of the list of its new class, and no other block changes but for links and the
    free bit behind. -/
theorem allocBlock_splits {n c b : Nat} (h : WellFormedHeap s.mem σ) (h16 : 16 ∣ n)
    (h32 : 32 ≤ n) (hmax : n ≤ kMaxBlockSize) (hf : FirstFit (lists s.mem) (classOf n) c)
    (hhead : (lists s.mem).head c = b) (hlarge : n < σ.size b) :
    ∃ s' r, r + n = σ.size b ∧ allocBlock false n s = .ok (b + r, s') ∧
      WellFormedHeap s'.mem (σ.split b r) ∧
      (σ.split b r).Live (b + r) ∧ (σ.split b r).size (b + r) = n ∧
      (lists s'.mem).head (classOf r) = b ∧
      (∀ a, (σ.split b r).FreeByte a ↔ σ.FreeByte a ∧ ¬ (b + r ≤ a ∧ a < b + r + n)) ∧
      (∀ a, b + r ≤ a → a < b + r + n → σ.FreeByte a) ∧
      (∀ x, x < b ∨ b + σ.size b ≤ x →
        (σ.split b r).size x = σ.size x ∧ (σ.split b r).free x = σ.free x) ∧
      OnlyLinks σ b (b + σ.size b) s.mem s'.mem := by
  have hσ := h.heap.wf
  rw [kMaxBlockSize_eq] at hmax
  have h16b := hσ.aligned b
  rcases allocBlock_eq false h.heap.core h16 h32 hmax with ⟨c', hf', _, heq⟩ | ⟨hno, _⟩
  -- the list of the statement is the one that the scan finds, and the fit is not exact
  · obtain rfl := hf.unique hf'
    obtain ⟨hb, _, hprev⟩ := h.heap.linked.head c hf.head
    rw [hhead] at hb hprev heq
    rw [if_neg (by omega)] at heq
    have hback : σ.size b - (σ.size b - n) = n := by omega
    have hr : b + (σ.size b - n) + n = b + σ.size b := by omega
    have hsplit := splitBlock_run false h.heap.core hb hprev (r := σ.size b - n) (by omega)
      (by omega) (by omega)
    rw [hback] at hsplit
    rcases hsplit with ⟨hchk, _⟩ | ⟨_, s', hrun, _, hcore, hfoot, hcomp, _, _, hrest⟩
    · exact Bool.noConfusion hchk
    have hacq := acquired_split hσ hb (r := σ.size b - n) (by omega) (by omega)
    rw [hback] at hacq
    have hlive := (hacq.live _).mpr (Or.inr rfl)
    -- the stores of the same run
    obtain ⟨next, back, hs, htrace⟩ := splitBlock_stores h.heap.core hb hprev (r := σ.size b - n)
      (by omega) (by omega) (by omega) (by rw [hback]; exact hrun)
    have hother : ∀ x, x < b ∨ b + σ.size b ≤ x →
        (σ.split b (σ.size b - n)).size x = σ.size x :=
      fun x hx => split_other (by omega) (by omega)
    refine ⟨s', σ.size b - n, by omega, by rw [heq]; exact hrun,
      ⟨hcore.inv (hfoot h.heap.footers), hcomp h.complete⟩, hlive, hacq.size, hrest, ?_,
      fun a h₁ h₂ => ⟨b, hb, by omega, by omega⟩, fun x hx => ⟨hother x hx, ?_⟩, ?_, ?_⟩
    · intro a
      rw [split_freeByte hσ hb (by omega) (by omega), hr]
    · have hne : x ≠ b + (σ.size b - n) := by omega
      simp only [Shape.split, Function.update_of_ne hne]
    · intro x a hx hout hax hxa htag hlinks
      exact htrace.onlyLinks hσ hb (by omega) (by omega) hs hx hout hax hxa htag hlinks
    · -- the header behind tells the size of the same block
      have hcut := hcore.wf.end_cut hlive.1
      rw [hacq.size, hr] at hcut
      rw [hcore.headers.size_of_cut hcore.wf hcut,
        h.heap.tags.headers.size_of_cut hσ (hσ.end_cut hb.1), hother _ (Or.inr le_rfl)]
  · exact absurd (hno c hf.le hf.lt) hf.head

/-- A request for 48 bytes on a fresh heap. -/
theorem allocBlock_splits_fresh : ∃ s', allocBlock false 48 (formatted false) = .ok (67108804, s') ∧
    WellFormedHeap s'.mem (Shape.fresh.split 292 67108512) := by
  obtain ⟨t, hrun, _, _, hheap, hcomp, _⟩ := format_run false ⟨0, fun _ => 0, []⟩
  rw [format_formatted] at hrun
  obtain rfl : formatted false = t := by
    injection hrun with hrun
    exact (Prod.mk.inj hrun).2
  have hf : FirstFit (lists (formatted false).mem) (classOf 48) 72 := by
    refine ⟨by decide, by decide, by decide +kernel, ?_⟩
    have hempty : ∀ d < 72, (lists (formatted false).mem).head d = 0 := by decide +kernel
    exact fun d _ hd => hempty d hd
  have hsize : Shape.fresh.size 292 = 67108560 := by decide
  obtain ⟨s', r, hr, hok, hwf, _⟩ := allocBlock_splits ⟨hheap, hcomp⟩ (by decide) (by decide)
    (by decide) hf (show (lists (formatted false).mem).head 72 = 292 by decide +kernel)
    (by rw [hsize]; decide)
  obtain rfl : r = 67108512 := by omega
  exact ⟨s', hok, hwf⟩

/-! ### `Alloc` -/

/-- `Alloc` of `n` bytes returns: 0 if and only if every free block is too small, and else a
    block of the rounded size out of a free one of minimal class among those that fit. -/
def AllocSpec (chk : Bool) (s : Nvm) (σ : Shape) (n : Nat) : Prop :=
  ∃ p s', alloc chk n s = .ok (p, s') ∧
    (p = 0 ↔ ∀ x, σ.Free x → σ.size x < blockSize n) ∧
    (p ≠ 0 → ∃ b, σ.Free b ∧ blockSize n ≤ σ.size b ∧
      p - 4 + blockSize n = b + σ.size b ∧
      (∀ x, σ.Free x → blockSize n ≤ σ.size x → σ.cls b ≤ σ.cls x) ∧
      sizeTag s'.mem (p - 4) = blockSize n ∧ n + 4 ≤ blockSize n ∧ blockSize n < n + 20)

/-- `Alloc` meets its specification, unless it stops at the list at offset 0. -/
theorem WellFormedHeap.alloc (h : WellFormedHeap s.mem σ) {n : Nat} (hn : 13 ≤ n)
    (hmax : n + 4 ≤ kMaxBlockSize) :
    AllocSpec chk s σ n ↔ (chk = true → ¬ LeavesTiny s.mem (blockSize n)) := by
  obtain ⟨hb₁, hb₂, hb₃, hb₄⟩ := blockSize_bounds hn hmax
  rw [kMaxBlockSize_eq] at hb₃
  have hlt : blockSize n < n + 20 := by
    unfold blockSize
    omega
  have hnone := h.noFit_iff hb₄ hb₃
  -- nothing fits, the rest of 16 bytes trips the assertion, or a block is found
  rcases alloc_run chk h.heap.core hn hmax with
    ⟨hno, hrun⟩ | ⟨hchk, ht, hrun⟩ | ⟨ht, s', σ', blk, hrun, hok, c, hf, hblk⟩
  · have htiny := NoFit.not_leavesTiny hb₄ (by omega) hb₃ hno
    refine ⟨fun _ _ => htiny, fun _ => ⟨0, s, hrun, ?_, fun h0 => absurd rfl h0⟩⟩
    exact ⟨fun _ => hnone.mp hno, fun _ => rfl⟩
  · constructor
    · rintro ⟨p, s', hbad, _⟩
      rw [hrun] at hbad
      cases hbad
    · intro hc
      exact absurd ht (hc hchk)
  · obtain ⟨hF, hcls, _⟩ := h.heap.linked.head c hf.head
    have hfit := le_of_classOf_le hb₃ hb₄ (h.heap.wf.aligned _) (h.heap.wf.size_ge hF.1)
      (show classOf (blockSize n) ≤ σ.cls _ by rw [hcls]; exact hf.le)
    refine ⟨fun _ => ht, fun _ => ⟨blk + 4, s', hrun, ⟨fun h0 => by omega, ?_⟩,
      fun _ => ⟨_, hF, hfit, hblk, ?_, ?_, hb₁, hlt⟩⟩⟩
    · intro hall
      have := hall _ hF
      omega
    · intro x hx hxf
      rw [hcls]
      exact h.firstFit_le hf hx hxf
    · have hlive := (hok.acquired.live blk).mpr (Or.inr rfl)
      rw [← hok.acquired.size]
      exact hok.heap.headers.size blk hlive.1

/-- **The search.** On a well-formed heap `Alloc` fails only when there is really no block, takes
    one of minimal class and cuts it to the rounded size, if and only if the head of the first list
    that serves the request is not 16 bytes too large. Without the check of the offset it
    always does. -/
theorem alloc_spec_iff {n : Nat} (h : WellFormedHeap s.mem σ) (hn : 13 ≤ n)
    (hmax : n + 4 ≤ kMaxBlockSize) :
    (AllocSpec true s σ n ↔ ¬ LeavesTiny s.mem (blockSize n)) ∧ AllocSpec false s σ n := by
  constructor
  · rw [h.alloc hn hmax]
    exact ⟨fun ht => ht rfl, fun ht _ => ht⟩
  · exact (h.alloc hn hmax).mpr fun hchk => Bool.noConfusion hchk

theorem alloc_spec_iff_fresh : AllocSpec true (formatted true) Shape.fresh 28 := by
  obtain ⟨t, hrun, _, _, hheap, hcomp, _⟩ := format_run true ⟨0, fun _ => 0, []⟩
  rw [format_formatted] at hrun
  obtain rfl : formatted true = t := by
    injection hrun with hrun
    exact (Prod.mk.inj hrun).2
  exact (alloc_spec_iff ⟨hheap, hcomp⟩ (by decide) (by decide)).1.mpr (by decide +kernel)

/-- Of a block of 48 bytes, a request for 16 bytes would leave 16. -/
theorem exists_not_allocSpec : ∃ s σ, WellFormedHeap s.mem σ ∧
    (∃ x, σ.Free x ∧ blockSize 16 ≤ σ.size x) ∧ ¬ AllocSpec true s σ 16 := by
  have hdec : ((Client.formatted false).trace false KeepsLists [.alloc 44, .free 67108808]).map
      (fun c => ((alloc true 16 c.nvm).toOption.isNone, decide ((lists c.nvm.mem).head 2 ≠ 0))) =
      some (true, true) := by
    decide +kernel
  obtain ⟨c, hc, hval⟩ := Option.map_eq_some_iff.mp hdec
  obtain ⟨hval, hhead⟩ := Prod.mk.inj hval
  obtain ⟨σ, hinv, _, hcomp⟩ :=
    runInv_of_keepsLists (reachable_trace (.init (fresh_formatted false)) hc)
  refine ⟨c.nvm, σ, ⟨hinv.heap, hcomp⟩, ?_, ?_⟩
  · obtain ⟨hF, hcls, _⟩ := hinv.heap.linked.head 2 (of_decide_eq_true hhead)
    refine ⟨_, hF, le_of_classOf_le (by decide) (by decide) (hinv.heap.wf.aligned _)
      (hinv.heap.wf.size_ge hF.1) ?_⟩
    change _ ≤ σ.cls _
    rw [hcls]
    decide
  · rintro ⟨p, s', hrun, _⟩
    rw [hrun] at hval
    cases hval

end Nvds.Allocator
