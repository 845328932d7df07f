import Nvds.Allocator.Heap

/-! # Editing the free lists

    The stores that take a block off its list or put it in front of one.
    `Relinked` is what each of them does: the free lists become `l`, and the
    tags and the bytes of live blocks stay as they are. One lemma for each
    kind of word (a list head, a `prev` link, a `next` link) gives the effect
    of a single store; the edits are sequences of these.
-/

open ByteMemory Program LinkedList Tiling

namespace Nvds.Allocator

variable {chk : Bool} {σ : Shape} {s s' s'' : Nvm} {l l' : Lists} {e : Nat}

/-! ### Single stores -/

/-- `s'` is `s` with the free lists `l`; tags and the bytes of live blocks other
    than `e` have not changed. -/
structure Relinked (σ : Shape) (e : Nat) (s : Nvm) (l : Lists) (s' : Nvm) : Prop where
  base : s'.base = s.base
  eq : lists s'.mem = l
  tags : SameTags s.mem s'.mem
  keeps : Keeps σ e s.mem s'.mem

theorem Relinked.refl (σ : Shape) (e : Nat) (s : Nvm) : Relinked σ e s (lists s.mem) s :=
  ⟨rfl, rfl, SameTags.refl _, Keeps.refl _ _ _⟩

theorem Relinked.trans (h₁ : Relinked σ e s l s') (h₂ : Relinked σ e s' l' s'') :
    Relinked σ e s l' s'' :=
  ⟨h₂.base.trans h₁.base, h₂.eq, h₁.tags.trans h₂.tags, h₁.keeps.trans h₂.keeps⟩

theorem writeHead_run (chk : Bool) (s : Nvm) (hσ : σ.WF) (e : Nat) {c v : Nat} (hc : c < kNumFreeLists)
    (hc0 : chk = true → c ≠ 0) (hv : v < 4294967296) :
    write32 chk (4 * c) v s = .ok ((), s.wr (4 * c) v) ∧
    Relinked σ e s { lists s.mem with head := Function.update (lists s.mem).head c v }
      (s.wr (4 * c) v) := by
  have hB : c < 73 := by rwa [kNumFreeLists_eq] at hc
  constructor
  · apply write32_ok
    · rw [kNVMTabletSize_eq]
      omega
    · intro hchk
      have := hc0 hchk
      omega
  · refine ⟨rfl, lists_store_head hv hc, sameTags_store (by omega) hv (Or.inl ?_),
      Keeps.store (scratch_head hσ hc)⟩
    rw [kHeapBegin_eq]
    omega

section links

variable {x v : Nat} (hσ : σ.WF) (hx : σ.Free x ∨ x = e ∧ σ.size x ≠ 0) (hv : v < 4294967296)

include hσ hx hv

theorem writePrev_run (chk : Bool) (s : Nvm) :
    write32 chk (x + offsetofPrev) v s = .ok ((), s.wr (x + offsetofPrev) v) ∧
    Relinked σ e s { lists s.mem with prev := Function.update (lists s.mem).prev x v }
      (s.wr (x + offsetofPrev) v) := by
  have hx0 : σ.size x ≠ 0 := hx.elim (·.1) (·.2)
  obtain ⟨hlo, hmod, hge, _, hend⟩ := hσ.layout hx0
  rw [offsetofPrev_eq]
  constructor
  · exact write32_ok (by rw [kNVMTabletSize_eq]; omega) (by omega)
  · exact ⟨rfl, lists_store_prev hv (hσ.node hx0),
      sameTags_store (by omega) hv (Or.inr (Or.inl (by omega))),
      Keeps.store (scratch_inside hσ hx (by omega) (by omega))⟩

theorem writeNext_run (chk : Bool) (s : Nvm) :
    write32 chk (x + offsetofNext) v s = .ok ((), s.wr (x + offsetofNext) v) ∧
    Relinked σ e s { lists s.mem with next := Function.update (lists s.mem).next x v }
      (s.wr (x + offsetofNext) v) := by
  have hx0 : σ.size x ≠ 0 := hx.elim (·.1) (·.2)
  obtain ⟨hlo, hmod, hge, _, hend⟩ := hσ.layout hx0
  rw [offsetofNext_eq]
  constructor
  · exact write32_ok (by rw [kNVMTabletSize_eq]; omega) (by omega)
  · exact ⟨rfl, lists_store_next hv (hσ.node hx0),
      sameTags_store (by omega) hv (Or.inr (Or.inr (by omega))),
      Keeps.store (scratch_inside hσ hx (by omega) (by omega))⟩

end links

theorem readHead_run {c : Nat} (hc : c < kNumFreeLists) (hc0 : chk = true → c ≠ 0) :
    read32 chk (4 * c) s = .ok ((lists s.mem).head c, s) := by
  rw [lists_head_eq hc]
  rw [kNumFreeLists_eq] at hc
  apply read32_ok (by rw [kNVMTabletSize_eq]; omega)
  intro hchk
  have := hc0 hchk
  omega

theorem readPrev_run (hσ : σ.WF) {b : Nat} (hb : σ.size b ≠ 0) :
    read32 chk (b + offsetofPrev) s = .ok ((lists s.mem).prev b, s) := by
  obtain ⟨hlo, _, hge, _, hend⟩ := hσ.layout hb
  rw [lists_prev_eq (hσ.node hb), offsetofPrev_eq]
  exact read32_ok (by rw [kNVMTabletSize_eq]; omega) (by omega)

theorem readNext_run (hσ : σ.WF) {b : Nat} (hb : σ.size b ≠ 0) :
    read32 chk (b + offsetofNext) s = .ok ((lists s.mem).next b, s) := by
  obtain ⟨hlo, _, hge, _, hend⟩ := hσ.layout hb
  rw [lists_next_eq (hσ.node hb), offsetofNext_eq]
  exact read32_ok (by rw [kNVMTabletSize_eq]; omega) (by omega)

-- Pointers read from the lists are words.

theorem head_lt (m : Mem) (c : Nat) : (lists m).head c < 4294967296 := by
  simp only [lists]
  split
  · exact word_lt _ _
  · omega

theorem prev_lt (m : Mem) (b : Nat) : (lists m).prev b < 4294967296 := by
  simp only [lists]
  split
  · exact word_lt _ _
  · omega

theorem next_lt (m : Mem) (b : Nat) : (lists m).next b < 4294967296 := by
  simp only [lists]
  split
  · exact word_lt _ _
  · omega

/-! ### Taking a block off its list -/

/-- The first half of `removeBlock`: the link towards the block, a `next` link or
    the head of the list, is led past it. -/
theorem unlinkNext_run (hσ : σ.WF) {L : Nat → Prop} (hl : Linked (lists s.mem) L σ.cls)
    (hL : ∀ x, L x → σ.Free x) {b : Nat} (hb : L b)
    (h16 : chk = true → (lists s.mem).prev b = 0 → σ.size b ≠ 16) (e : Nat) :
    ∃ s', (if (lists s.mem).prev b ≠ 0 then do
        let v ← read32 chk (b + offsetofNext)
        write32 chk ((lists s.mem).prev b + offsetofNext) v
      else do
        let freeList ← getFreeListByBlockSize (σ.size b)
        let v ← read32 chk (b + offsetofNext)
        write32 chk freeList v : NvmM Unit) s = .ok ((), s') ∧
      Relinked σ e s
        { head := ((lists s.mem).remove (σ.cls b) b).head
          prev := (lists s.mem).prev
          next := ((lists s.mem).remove (σ.cls b) b).next } s' := by
  have hbF := hL b hb
  have hnB := next_lt s.mem b
  -- the first block of a list is unlinked at the head, another one at its predecessor
  by_cases hp : (lists s.mem).prev b = 0
  · obtain ⟨hrun, hrel⟩ := writeHead_run chk s hσ e (classOf_lt _)
      (fun hchk => hσ.cls_ne_zero hbF.1 (h16 hchk hp)) hnB
    refine ⟨s.wr (4 * classOf (σ.size b)) ((lists s.mem).next b), ?_, ?_⟩
    · rw [if_neg (by simp [hp]), bind_of_ok (getFreeListByBlockSize_ok (hσ.size_ge hbF.1)),
        bind_of_ok (readNext_run hσ hbF.1)]
      exact hrun
    · simpa only [Lists.remove, hp, if_true, Shape.cls] using hrel
  -- the predecessor is in the list, so its link is memory of the allocator
  · have hpF := hL _ (hl.prev b hb hp).1
    obtain ⟨hrun, hrel⟩ := writeNext_run (e := e) hσ (Or.inl hpF) hnB chk s
    refine ⟨s.wr ((lists s.mem).prev b + offsetofNext) ((lists s.mem).next b), ?_, ?_⟩
    · rw [if_pos hp, bind_of_ok (readNext_run hσ hbF.1)]
      exact hrun
    · simpa only [Lists.remove, hp, if_false] using hrel

/-- The second half: the link back to the block. -/
theorem unlinkPrev_run (chk : Bool) (hσ : σ.WF) {b : Nat} (hb : σ.size b ≠ 0)
    (hprev : (lists s.mem).prev = l.prev) (hF : l.next b ≠ 0 → σ.Free (l.next b)) (e : Nat) :
    ∃ s', (if l.next b ≠ 0 then do
        let v ← read32 chk (b + offsetofPrev)
        write32 chk (l.next b + offsetofPrev) v
      else pure () : NvmM Unit) s = .ok ((), s') ∧
      Relinked σ e s
        { head := (lists s.mem).head
          prev := (l.remove (σ.cls b) b).prev
          next := (lists s.mem).next } s' := by
  by_cases hnx : l.next b = 0
  · refine ⟨s, by rw [if_neg (by simp [hnx]), pure_run], ?_⟩
    simpa only [Lists.remove, hnx, if_true, ← hprev] using Relinked.refl σ e s
  · obtain ⟨hrun, hrel⟩ := writePrev_run (e := e) hσ (Or.inl (hF hnx)) (prev_lt s.mem b) chk s
    refine ⟨s.wr (l.next b + offsetofPrev) ((lists s.mem).prev b), ?_, ?_⟩
    · rw [if_pos hnx, bind_of_ok (readPrev_run hσ hb)]
      exact hrun
    · simpa only [Lists.remove, hnx, if_false, ← hprev] using hrel

/-- `removeBlock` takes the block off its list and touches nothing else. -/
theorem removeBlock_run (hσ : σ.WF) (ht : Headers s.mem σ) {L : Nat → Prop}
    (hl : Linked (lists s.mem) L σ.cls) (hL : ∀ x, L x → σ.Free x) {b : Nat} (hb : L b)
    (h16 : chk = true → (lists s.mem).prev b = 0 → σ.size b ≠ 16) (e : Nat) :
    ∃ s', removeBlock chk b (σ.size b) s = .ok ((), s') ∧
      Relinked σ e s ((lists s.mem).remove (σ.cls b) b) s' := by
  have hbF := hL b hb
  obtain ⟨hlo, _, _, _, hend⟩ := hσ.layout hbF.1
  have htag : word s.mem (b + σ.size b) &&& kFreeMask ≠ 0 :=
    (and_kFreeMask_ne_zero (word_lt _ _)).mpr ((ht.free b hbF.1).mpr hbF.2)
  obtain ⟨s₁, hrun₁, hrel₁⟩ := unlinkNext_run hσ hl hL hb h16 e
  have hprev₁ : (lists s₁.mem).prev = (lists s.mem).prev := by rw [hrel₁.eq]
  obtain ⟨s₂, hrun₂, hrel₂⟩ := unlinkPrev_run chk hσ hbF.1 hprev₁
    (fun hnx => hL _ (hl.next b hb hnx).1) e
  refine ⟨s₂, ?_, ?_⟩
  · rw [removeBlock, bind_of_ok (readTheFreeTag_ok (by simp; omega) (by omega)), assert_of htag,
      bind_of_ok (pure_run _ _), bind_of_ok (readPrev_run hσ hbF.1),
      bind_of_ok (readNext_run hσ hbF.1), bind_of_ok hrun₁]
    exact hrun₂
  · rw [hrel₁.eq] at hrel₂
    exact hrel₁.trans hrel₂

/-- The first block of the list at offset 0 cannot be taken off it. -/
theorem removeBlock_fails (hσ : σ.WF) (ht : Headers s.mem σ) {b : Nat} (hb : σ.Free b)
    (hp : (lists s.mem).prev b = 0) (h16 : σ.size b = 16) :
    removeBlock true b (σ.size b) s = .error .assertion := by
  obtain ⟨hlo, _, _, _, hend⟩ := hσ.layout hb.1
  have htag : word s.mem (b + σ.size b) &&& kFreeMask ≠ 0 :=
    (and_kFreeMask_ne_zero (word_lt _ _)).mpr ((ht.free b hb.1).mpr hb.2)
  have hzero : 4 * classOf (σ.size b) = 0 := by
    rw [h16]
    rfl
  rw [removeBlock, bind_of_ok (readTheFreeTag_ok (by simp; omega) (by omega)), assert_of htag,
    bind_of_ok (pure_run _ _), bind_of_ok (readPrev_run hσ hb.1),
    bind_of_ok (readNext_run hσ hb.1)]
  apply bind_of_error
  rw [hp, if_neg (by simp), bind_of_ok (getFreeListByBlockSize_ok (hσ.size_ge hb.1)),
    bind_of_ok (readNext_run hσ hb.1), hzero]
  rfl

/-- Removing a node without predecessor moves the head of its list on. -/
theorem remove_of_head {c b : Nat} (hp : l.prev b = 0) :
    l.remove c b =
      { head := Function.update l.head c (l.next b)
        prev := if l.next b = 0 then l.prev else Function.update l.prev (l.next b) 0
        next := l.next } := by
  simp only [Lists.remove, hp, if_true]

/-- `splitBlock` takes the head off a list: the next block becomes the head, and
    the first of the list. -/
theorem unlinkHead_run (chk : Bool) (hσ : σ.WF) (hl : Linked (lists s.mem) σ.Free σ.cls) {b : Nat}
    (hb : σ.Free b) (hp : (lists s.mem).prev b = 0) (h16 : σ.size b ≠ 16) (e : Nat) :
    ∃ s₁ s', write32 chk (4 * σ.cls b) ((lists s.mem).next b) s = .ok ((), s₁) ∧
      (if (lists s.mem).next b ≠ 0 then
          write32 chk ((lists s.mem).next b + offsetofPrev) 0
        else pure () : NvmM Unit) s₁ = .ok ((), s') ∧
      Relinked σ e s ((lists s.mem).remove (σ.cls b) b) s' := by
  obtain ⟨hrun₁, hrel₁⟩ := writeHead_run chk s hσ e (classOf_lt _)
    (fun _ => hσ.cls_ne_zero hb.1 h16) (next_lt s.mem b)
  rw [remove_of_head hp]
  by_cases hnx : (lists s.mem).next b = 0
  · refine ⟨_, _, hrun₁, by rw [if_neg (by simp [hnx]), pure_run], ?_⟩
    rw [if_pos hnx]
    exact hrel₁
  · have hN := (hl.next b hb hnx).1
    obtain ⟨hrun₂, hrel₂⟩ := writePrev_run (e := e) hσ (Or.inl hN) (show 0 < 4294967296 by omega)
      chk (s.wr (4 * classOf (σ.size b)) ((lists s.mem).next b))
    refine ⟨_, _, hrun₁, by rw [if_pos hnx]; exact hrun₂, ?_⟩
    rw [if_neg hnx]
    rw [hrel₁.eq] at hrel₂
    exact hrel₁.trans hrel₂

/-- The exact fit takes the head off a list and stores to the `prev` field of the
    next block without a test for one. If there is none, the store goes to offset
    4, and the list of class 1 is lost. -/
theorem popHead_run (chk : Bool) (hσ : σ.WF) (hl : Linked (lists s.mem) σ.Free σ.cls) {b : Nat}
    (hb : σ.Free b) (hp : (lists s.mem).prev b = 0) (h16 : σ.size b ≠ 16) (e : Nat) :
    ∃ s₁ s' l, write32 chk (4 * σ.cls b) ((lists s.mem).next b) s = .ok ((), s₁) ∧
      write32 chk ((lists s.mem).next b + offsetofPrev) 0 s₁ = .ok ((), s') ∧
      Relinked σ e s l s' ∧
      (l = (lists s.mem).remove (σ.cls b) b ∨ (lists s.mem).next b = 0 ∧
        l = ((lists s.mem).remove (σ.cls b) b).drop 1) := by
  obtain ⟨s₁, s', hrun₁, hrun₂, hrel⟩ := unlinkHead_run chk hσ hl hb hp h16 e
  by_cases hnx : (lists s.mem).next b = 0
  · rw [if_neg (by simp [hnx]), pure_run] at hrun₂
    obtain rfl : s₁ = s' := by
      injection hrun₂ with hrun₂
      exact (Prod.mk.inj hrun₂).2
    obtain ⟨hrun₃, hrel₃⟩ := writeHead_run chk s₁ (c := 1) (v := 0) hσ e (by simp) (by omega)
      (by omega)
    have hoff : (lists s.mem).next b + offsetofPrev = 4 * 1 := by
      rw [hnx]
      rfl
    refine ⟨s₁, _, _, hrun₁, by rw [hoff]; exact hrun₃, hrel.trans hrel₃, Or.inr ⟨hnx, ?_⟩⟩
    rw [hrel.eq]
    rfl
  · rw [if_pos hnx] at hrun₂
    exact ⟨s₁, s', _, hrun₁, hrun₂, hrel, Or.inl rfl⟩

/-! ### Putting a block in front of a list -/

/-- The last of the four stores that put a block in front of a list: the back
    link of the old head. The other three have been done in `s`. -/
theorem backLink_run (chk : Bool) (hσ : σ.WF) {c b : Nat} (hbB : b < 4294967296)
    (hl : lists s.mem =
      { head := Function.update l.head c b
        prev := Function.update l.prev b 0
        next := Function.update l.next b (l.head c) })
    (hhead : l.head c ≠ 0 → σ.Free (l.head c)) (e : Nat) :
    ∃ s', (if l.head c ≠ 0 then write32 chk (l.head c + offsetofPrev) b
        else pure () : NvmM Unit) s = .ok ((), s') ∧ Relinked σ e s (l.push c b) s' := by
  by_cases h0 : l.head c = 0
  · refine ⟨s, by rw [if_neg (by simp [h0]), pure_run], ?_⟩
    have hpush : l.push c b = lists s.mem := by
      rw [hl]
      simp only [Lists.push, h0, if_true]
    rw [hpush]
    exact Relinked.refl σ e s
  · obtain ⟨hrun, hrel⟩ := writePrev_run (e := e) hσ (Or.inl (hhead h0)) hbB chk s
    refine ⟨_, by rw [if_pos h0]; exact hrun, ?_⟩
    rw [hl] at hrel
    simpa only [Lists.push, h0, if_false] using hrel

section push

variable {b n : Nat} (hσ : σ.WF) (hb : σ.Free b ∨ b = e ∧ σ.size b ≠ 0)
  (hn0 : chk = true → classOf n ≠ 0)
  (hhead : (lists s.mem).head (classOf n) ≠ 0 → σ.Free ((lists s.mem).head (classOf n)))

include hσ hb hn0 hhead

/-- `freeBlock` puts the block `b` in front of the list for blocks of `n` bytes. -/
theorem pushBlock_run (hn : 16 ≤ n) :
    ∃ s', (do
        let freeList ← getFreeListByBlockSize n
        let head ← read32 chk freeList
        write32 chk freeList b
        write32 chk (b + offsetofPrev) 0
        write32 chk (b + offsetofNext) head
        if head ≠ 0 then write32 chk (head + offsetofPrev) b else pure () : NvmM Unit) s =
      .ok ((), s') ∧ Relinked σ e s ((lists s.mem).push (classOf n) b) s' := by
  have hbB : b < 4294967296 := by
    obtain ⟨_, _, _, _, hend⟩ := hσ.layout (hb.elim (·.1) (·.2))
    omega
  obtain ⟨hrun₁, hrel₁⟩ := writeHead_run chk s hσ e (classOf_lt n) hn0 hbB
  obtain ⟨hrun₂, hrel₂⟩ := writePrev_run hσ hb (show 0 < 4294967296 by omega) chk
    (s.wr (4 * classOf n) b)
  obtain ⟨hrun₃, hrel₃⟩ := writeNext_run hσ hb (head_lt s.mem (classOf n)) chk
    ((s.wr (4 * classOf n) b).wr (b + offsetofPrev) 0)
  rw [hrel₂.eq, hrel₁.eq] at hrel₃
  obtain ⟨s', hrun₄, hrel₄⟩ := backLink_run chk hσ hbB hrel₃.eq hhead e
  refine ⟨s', ?_, ((hrel₁.trans hrel₂).trans hrel₃).trans hrel₄⟩
  rw [bind_of_ok (getFreeListByBlockSize_ok hn), bind_of_ok (readHead_run (classOf_lt n) hn0),
    bind_of_ok hrun₁, bind_of_ok hrun₂, bind_of_ok hrun₃]
  exact hrun₄

/-- `splitBlock` does the same in another order, and goes on with `f`. -/
theorem pushRest_run {α : Type} :
    ∃ s', Relinked σ e s ((lists s.mem).push (classOf n) b) s' ∧ ∀ f : NvmM α, (do
        let head ← read32 chk (4 * classOf n)
        write32 chk (b + offsetofPrev) 0
        write32 chk (b + offsetofNext) head
        write32 chk (4 * classOf n) b
        (if head ≠ 0 then write32 chk (head + offsetofPrev) b else pure ())
        f : NvmM α) s = f s' := by
  have hbB : b < 4294967296 := by
    obtain ⟨_, _, _, _, hend⟩ := hσ.layout (hb.elim (·.1) (·.2))
    omega
  obtain ⟨hrun₁, hrel₁⟩ := writePrev_run hσ hb (show 0 < 4294967296 by omega) chk s
  obtain ⟨hrun₂, hrel₂⟩ := writeNext_run hσ hb (head_lt s.mem (classOf n)) chk
    (s.wr (b + offsetofPrev) 0)
  rw [hrel₁.eq] at hrel₂
  obtain ⟨hrun₃, hrel₃⟩ := writeHead_run chk
    ((s.wr (b + offsetofPrev) 0).wr (b + offsetofNext) ((lists s.mem).head (classOf n)))
    hσ e (classOf_lt n) hn0 hbB
  rw [hrel₂.eq] at hrel₃
  obtain ⟨s', hrun₄, hrel₄⟩ := backLink_run chk hσ hbB hrel₃.eq hhead e
  refine ⟨s', ((hrel₁.trans hrel₂).trans hrel₃).trans hrel₄, ?_⟩
  intro f
  rw [bind_of_ok (readHead_run (classOf_lt n) hn0), bind_of_ok hrun₁, bind_of_ok hrun₂,
    bind_of_ok hrun₃, bind_of_ok hrun₄]

end push

end Nvds.Allocator
