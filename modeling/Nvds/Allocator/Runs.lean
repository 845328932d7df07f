import Nvds.Allocator.Calls
import Nvds.Framework.Transition

/-! # Clients of the allocator

    A client formats the heap and then allocates, frees and writes to what it
    has allocated, in any order. `RunInv` ties the client's own bookkeeping,
    the list of its live allocations, to the live blocks of the heap.

    `Intact` says that the last word of every live block still holds its
    size. It holds as long as the client writes nothing, since a block is
    handed out with that word in order; then every `Free` is a clean one.
-/

open ByteMemory Program LinkedList Tiling Transition

namespace Nvds.Allocator

/-! ### The system -/

/-- A live allocation: `len` bytes at `ptr`. -/
structure Allocation where
  ptr : Nat
  len : Nat
  deriving DecidableEq, Repr

/-- The memory and the allocations the client holds. -/
structure Client where
  nvm : Nvm
  live : List Allocation

/-- What a client does. -/
inductive Op where
  | alloc (n : Nat)
  | free (p : Nat)
  | store (off : Nat) (bs : List UInt8)
  deriving DecidableEq, Repr

/-- The requests a client makes: sizes the allocator serves, live pointers, and
    bytes of its own allocations. -/
def Client.Enabled (c : Client) : Op → Prop
  | .alloc n => 16 ≤ n ∧ n + 4 ≤ kMaxBlockSize
  | .free p => ∃ x ∈ c.live, x.ptr = p
  | .store off bs => ∃ x ∈ c.live, x.ptr ≤ off ∧ off + bs.length ≤ x.ptr + x.len

instance (c : Client) : (op : Op) → Decidable (c.Enabled op)
  | .alloc _ => inferInstanceAs (Decidable (_ ∧ _))
  | .free p => inferInstanceAs (Decidable (∃ x ∈ c.live, x.ptr = p))
  | .store off bs =>
    inferInstanceAs (Decidable (∃ x ∈ c.live, x.ptr ≤ off ∧ off + bs.length ≤ x.ptr + x.len))

/-- One request. -/
def Client.exec (chk : Bool) (c : Client) : Op → Except Fault Client
  | .alloc n => do
    let (p, s) ← alloc chk n c.nvm
    pure ⟨s, if p = 0 then c.live else ⟨p, n⟩ :: c.live⟩
  | .free p => do
    let (_, s) ← free chk p c.nvm
    pure ⟨s, c.live.filter fun x => x.ptr ≠ p⟩
  | .store off bs => pure ⟨{ c.nvm with mem := store c.nvm.mem off bs }, c.live⟩

/-- A request the client makes under the condition `cond`, and which returns. -/
def Step (chk : Bool) (cond : Client → Op → Prop) (c : Client) (op : Op) (c' : Client) : Prop :=
  c.Enabled op ∧ cond c op ∧ c.exec chk op = .ok c'

/-- The heap has just been formatted. -/
def Fresh (chk : Bool) (c : Client) : Prop :=
  ∃ s, format chk s = .ok ((), c.nvm) ∧ c.live = []

/-- The client after a list of requests, none if one of them is not made under
    `cond` or does not return. -/
def Client.trace (chk : Bool) (cond : Client → Op → Prop) [∀ c op, Decidable (cond c op)] :
    Client → List Op → Option Client
  | c, [] => some c
  | c, op :: ops =>
    if c.Enabled op ∧ cond c op then
      match c.exec chk op with
      | .ok c' => c'.trace chk cond ops
      | .error _ => none
    else
      none

theorem reachable_trace {chk : Bool} {cond : Client → Op → Prop}
    [∀ c op, Decidable (cond c op)] {c c' : Client} {ops : List Op}
    (h : Reachable (Fresh chk) (Step chk cond) c) (ht : c.trace chk cond ops = some c') :
    Reachable (Fresh chk) (Step chk cond) c' := by
  induction ops generalizing c with
  | nil =>
    cases ht
    exact h
  | cons op ops ih =>
    rw [Client.trace] at ht
    split at ht
    · next hen =>
      cases hexec : c.exec chk op with
      | error e => rw [hexec] at ht; cases ht
      | ok c₁ =>
        rw [hexec] at ht
        exact ih (.step op h ⟨hen.1, hen.2, hexec⟩) ht
    · cases ht

/-- The client of a heap formatted on zero memory. -/
def Client.formatted (chk : Bool) : Client := ⟨Allocator.formatted chk, []⟩

theorem fresh_formatted (chk : Bool) : Fresh chk (Client.formatted chk) :=
  ⟨_, format_formatted chk, rfl⟩

/-! ### The invariant -/

/-- The client's allocations are the live blocks of the heap `σ`. -/
structure RunInv (chk : Bool) (c : Client) (σ : Shape) : Prop where
  heap : HeapInv c.nvm.mem σ
  roomy : σ.Roomy chk
  live : ∀ x ∈ c.live, 16 ≤ x.len ∧ x.len + 4 ≤ kMaxBlockSize ∧ 4 ≤ x.ptr ∧
    σ.Live (x.ptr - 4) ∧ σ.size (x.ptr - 4) = blockSize x.len
  owned : ∀ b, σ.Live b → ∃ x ∈ c.live, x.ptr = b + 4
  nodup : (c.live.map (·.ptr)).Nodup

/-- The last words of the live blocks hold their sizes. -/
def Intact (m : Mem) (σ : Shape) : Prop := ∀ b, σ.Live b → FooterIntact m b

variable {chk : Bool} {c c' : Client} {σ : Shape} {m m' : Mem}

theorem RunInv.payload (h : RunInv chk c σ) {x : Allocation} (hx : x ∈ c.live) {a : Nat}
    (h₁ : x.ptr ≤ a) (h₂ : a < x.ptr + x.len) : σ.Payload (x.ptr - 4) a := by
  obtain ⟨hlen, hmax, hptr, hlive, hsize⟩ := h.live x hx
  have := (blockSize_bounds (by omega) hmax).1
  exact ⟨hlive, by omega, by omega⟩

/-- The last word of a live block is among its bytes. -/
theorem FooterIntact.keep (hσ : σ.WF) {σ' : Shape} {b e : Nat} (h : FooterIntact m b)
    (hb : σ.Live b) (hbe : b ≠ e) (ht : Tags m σ) (ht' : Tags m' σ')
    (hsize : σ'.size b = σ.size b) (hk : Keeps σ e m m') : FooterIntact m' b := by
  have hge := hσ.size_ge hb.1
  have hsz : sizeTag m b = σ.size b := ht.size b hb.1
  have hsz' : sizeTag m' b = σ.size b := by
    rw [← hsize]
    exact ht'.size b (by rw [hsize]; exact hb.1)
  rw [FooterIntact, hsz] at h
  rw [FooterIntact, hsz']
  refine Eq.trans ?_ h
  exact word_congr fun a h₁ h₂ => hk a (Or.inr ⟨b, hbe, hb, by omega, by omega⟩)

/-- The freshly formatted heap has no live block. -/
theorem runInv_fresh (h : Fresh chk c) :
    RunInv chk c Shape.fresh ∧ Intact c.nvm.mem Shape.fresh ∧
      Complete (lists c.nvm.mem) Shape.fresh.Free Shape.fresh.cls := by
  obtain ⟨s, hs, hlive⟩ := h
  obtain ⟨s', hrun, _, _, hheap, hcomp, _⟩ := format_run chk s
  obtain rfl : c.nvm = s' := by
    rw [hs] at hrun
    injection hrun with hrun
    exact (Prod.mk.inj hrun).2
  have hnone : ∀ b, ¬ Shape.fresh.Live b := fun b hb => Bool.noConfusion hb.2
  refine ⟨⟨hheap, fresh_roomy chk, ?_, fun b hb => absurd hb (hnone b), ?_⟩,
    fun b hb => absurd hb (hnone b), hcomp⟩
  · rw [hlive]
    intro x hx
    cases hx
  · rw [hlive]
    exact List.nodup_nil

/-! ### One step -/

/-- `Alloc` keeps the invariant, whichever of its outcomes is taken. -/
theorem RunInv.alloc (h : RunInv chk c σ) {n : Nat} (hn : 16 ≤ n) (hmax : n + 4 ≤ kMaxBlockSize) :
    (c.exec chk (.alloc n) = .ok c ∧ ¬ LeavesTiny c.nvm.mem (blockSize n)) ∨
    (chk = true ∧ LeavesTiny c.nvm.mem (blockSize n) ∧
      c.exec chk (.alloc n) = .error .assertion) ∨
    ((chk = true → ¬ LeavesTiny c.nvm.mem (blockSize n)) ∧ ∃ c' σ',
      c.exec chk (.alloc n) = .ok c' ∧ RunInv chk c' σ' ∧ Keeps σ 0 c.nvm.mem c'.nvm.mem ∧
      (Intact c.nvm.mem σ → Intact c'.nvm.mem σ') ∧
      (Complete (lists c.nvm.mem) σ.Free σ.cls → ¬ DropsList c.nvm.mem (blockSize n) →
        Complete (lists c'.nvm.mem) σ'.Free σ'.cls)) := by
  rcases alloc_run chk h.heap.core (by omega) hmax with
    ⟨hno, hrun⟩ | ⟨hchk, ht, hrun⟩ | ⟨ht, s', σ', blk, hrun, hcore, _⟩
  · -- no list has a block that is large enough, in particular not the one for 16 bytes more
    left
    constructor
    · simp only [Client.exec, hrun]
      rfl
    · obtain ⟨h₁, h₂, h₃, h₄⟩ := blockSize_bounds (n := n) (by omega) hmax
      rw [kMaxBlockSize_eq] at h₃
      exact NoFit.not_leavesTiny h₄ (by omega) h₃ hno
  · right; left
    refine ⟨hchk, ht, ?_⟩
    simp only [Client.exec, hrun]
    rfl
  · right; right
    -- the block found is live now, and the others are as they were
    have hok := hcore.ok h.heap.footers h.roomy
    have hacq := hok.acquired
    have hlive := (hacq.live blk).mpr (Or.inr rfl)
    refine ⟨ht, ⟨s', ⟨blk + 4, n⟩ :: c.live⟩, σ', ?_,
      ⟨hok.heap, hok.roomy, fun x hx => ?_, fun b hb => ?_, ?_⟩, hok.keeps, fun hint b hb => ?_,
      hok.complete⟩
    · simp only [Client.exec, hrun]
      rfl
    · rcases List.mem_cons.mp hx with rfl | hx
      · exact ⟨hn, hmax, by simp, by simpa using hlive, by simpa using hacq.size⟩
      · obtain ⟨h₁, h₂, h₃, h₄, h₅⟩ := h.live x hx
        exact ⟨h₁, h₂, h₃, (hacq.live _).mpr (Or.inl h₄), by rw [hacq.same _ h₄, h₅]⟩
    · rcases (hacq.live b).mp hb with hb | rfl
      · obtain ⟨x, hx, hxb⟩ := h.owned b hb
        exact ⟨x, List.mem_cons_of_mem _ hx, hxb⟩
      · exact ⟨_, List.mem_cons_self, rfl⟩
    · -- the new pointer is not among the old ones
      refine List.nodup_cons.mpr ⟨fun hmem => hacq.fresh ?_, h.nodup⟩
      obtain ⟨x, hx, hxp⟩ := List.mem_map.mp hmem
      have hxl := (h.live x hx).2.2.2.1
      rw [hxp] at hxl
      simpa using hxl
    · -- the last words of the old blocks are kept, and the new block gets its own
      rcases (hacq.live b).mp hb with hb | rfl
      · have hb0 : b ≠ 0 := by
          have := (h.heap.wf.node hb.1).1
          simp only [kHeapBegin_eq] at this
          omega
        exact (hint b hb).keep h.heap.wf hb hb0 h.heap.tags hok.heap.tags (hacq.same b hb)
          hok.keeps
      · exact hok.footer

/-- A clean `Free` keeps the invariant. -/
theorem RunInv.free (h : RunInv chk c σ) {x : Allocation} (hx : x ∈ c.live)
    (hclean : FreesCleanly c.nvm.mem (x.ptr - 4)) :
    ∃ c' σ', c.exec chk (.free x.ptr) = .ok c' ∧ RunInv chk c' σ' ∧
      Keeps σ (x.ptr - 4) c.nvm.mem c'.nvm.mem ∧
      (Intact c.nvm.mem σ → Intact c'.nvm.mem σ') ∧
      (Complete (lists c.nvm.mem) σ.Free σ.cls →
        Complete (lists c'.nvm.mem) σ'.Free σ'.cls) := by
  obtain ⟨_, _, hptr, hlive, _⟩ := h.live x hx
  obtain ⟨s', σ', hrun, hrel, hheap, hroomy⟩ := free_clean h.heap h.roomy hlive hclean
  have hlv := hrel.live
  have hsame := hrel.same
  have hptr' : x.ptr - 4 + 4 = x.ptr := by omega
  rw [hptr'] at hrun
  -- the client forgets the allocation
  have hmem : ∀ y, y ∈ c.live.filter (fun y => y.ptr ≠ x.ptr) ↔ y ∈ c.live ∧ y.ptr ≠ x.ptr := by
    intro y
    simp
  refine ⟨⟨s', c.live.filter fun y => y.ptr ≠ x.ptr⟩, σ', ?_,
    ⟨hheap, hroomy, ?_, ?_, ?_⟩, hrel.keeps, ?_, hrel.complete⟩
  · simp only [Client.exec, hrun]
    rfl
  · intro y hy
    obtain ⟨hy, hne⟩ := (hmem y).mp hy
    obtain ⟨h₁, h₂, h₃, h₄, h₅⟩ := h.live y hy
    have hne' : y.ptr - 4 ≠ x.ptr - 4 := by omega
    exact ⟨h₁, h₂, h₃, (hlv _).mpr ⟨h₄, hne'⟩, by rw [hsame _ h₄ hne', h₅]⟩
  · intro b hb
    obtain ⟨hb, hne⟩ := (hlv b).mp hb
    obtain ⟨y, hy, hyb⟩ := h.owned b hb
    exact ⟨y, (hmem y).mpr ⟨hy, by omega⟩, hyb⟩
  · exact h.nodup.sublist (List.filter_sublist.map _)
  · intro hint b hb
    obtain ⟨hb, hne⟩ := (hlv b).mp hb
    exact (hint b hb).keep h.heap.wf hb hne h.heap.tags hheap.tags (hsame b hb hne) hrel.keeps

/-- Stores of the client keep the invariant, but not the last words. -/
theorem RunInv.store (h : RunInv chk c σ) {off : Nat} {bs : List UInt8} {x : Allocation}
    (hx : x ∈ c.live) (h₁ : x.ptr ≤ off) (h₂ : off + bs.length ≤ x.ptr + x.len) :
    RunInv chk ⟨{ c.nvm with mem := ByteMemory.store c.nvm.mem off bs }, c.live⟩ σ := by
  refine ⟨h.heap.store_live fun a ha₁ ha₂ => Or.inr ⟨x.ptr - 4, ?_⟩, h.roomy,
    h.live, h.owned, h.nodup⟩
  exact h.payload hx (by omega) (by omega)

/-! ### Live allocations are left alone -/

/-- The payloads are disjoint, inside the heap and aligned. -/
structure Separate (c : Client) : Prop where
  disjoint : c.live.Pairwise fun x y => x.ptr + x.len ≤ y.ptr ∨ y.ptr + y.len ≤ x.ptr
  inside : ∀ x ∈ c.live, kHeapBegin ≤ x.ptr ∧ x.ptr + x.len ≤ kSize
  aligned : ∀ x ∈ c.live, x.ptr % 16 = 8

/-- No payload byte changes but those of the allocation that is freed. -/
def Spares (c : Client) (op : Op) (c' : Client) : Prop :=
  ∀ x ∈ c.live, op ≠ .free x.ptr → ∀ a, x.ptr ≤ a → a < x.ptr + x.len →
    c'.nvm.mem a = c.nvm.mem a

/-- Live allocations do not overlap, and no call of `Alloc` or `Free` under `cond`
    disturbs one. -/
def LiveSafe (cond : Client → Op → Prop) (c : Client) : Prop :=
  Separate c ∧
    ∀ op c', (∀ off bs, op ≠ .store off bs) → Step true cond c op c' → Spares c op c'

/-- Every block freed has its size in the last word, or gets it written there. -/
def CleanFrees (c : Client) : Op → Prop
  | .free p => FreesCleanly c.nvm.mem (p - 4)
  | _ => True

instance : (c : Client) → (op : Op) → Decidable (CleanFrees c op)
  | c, .free p => inferInstanceAs (Decidable (FreesCleanly c.nvm.mem (p - 4)))
  | _, .alloc _ => .isTrue trivial
  | _, .store _ _ => .isTrue trivial

theorem RunInv.separate (h : RunInv chk c σ) : Separate c := by
  have hσ := h.heap.wf
  -- an object and its header fit into the block, and blocks are disjoint
  have hb : ∀ x ∈ c.live, x.len + 4 ≤ σ.size (x.ptr - 4) := by
    intro x hx
    obtain ⟨h₁, h₂, _, _, h₅⟩ := h.live x hx
    rw [h₅]
    exact (blockSize_bounds (by omega) h₂).1
  refine ⟨?_, ?_, ?_⟩
  · have hne : c.live.Pairwise fun x y => x.ptr ≠ y.ptr := List.pairwise_map.mp h.nodup
    refine hne.imp_of_mem fun {x y} hx hy hxy => ?_
    obtain ⟨_, _, hx₄, hxl, _⟩ := h.live x hx
    obtain ⟨_, _, hy₄, hyl, _⟩ := h.live y hy
    have hbx := hb x hx
    have hby := hb y hy
    rcases hσ.tiled.disjoint hxl.1 hyl.1 (by omega) with hle | hle
    · exact Or.inl (by omega)
    · exact Or.inr (by omega)
  · intro x hx
    obtain ⟨_, _, hx₄, hxl, _⟩ := h.live x hx
    have hbx := hb x hx
    have hlo := (hσ.node hxl.1).1
    have hend := hσ.end_le hxl.1
    simp only [kHeapBegin_eq, kHeapEnd_eq, kSize_eq] at hlo hend ⊢
    omega
  · intro x hx
    obtain ⟨_, _, hx₄, hxl, _⟩ := h.live x hx
    have hmod := (hσ.node hxl.1).2
    omega

/-- What one step under `CleanFrees` does: the invariant is kept, and only stores
    reach the payloads. -/
theorem RunInv.step (h : RunInv true c σ) {op : Op} (hs : Step true CleanFrees c op c') :
    ∃ σ', RunInv true c' σ' ∧ ((∀ off bs, op ≠ .store off bs) → Spares c op c') := by
  obtain ⟨hen, hcond, hexec⟩ := hs
  cases op with
  | alloc n =>
    rcases h.alloc hen.1 hen.2 with ⟨hrun, _⟩ | ⟨_, _, hrun⟩ | ⟨_, c₁, σ', hrun, hinv, hk, _⟩
    -- an `Alloc` that finds nothing leaves all as it was
    · rw [hrun] at hexec
      cases hexec
      exact ⟨σ, h, fun _ x _ _ a _ _ => rfl⟩
    · rw [hrun] at hexec
      cases hexec
    · rw [hrun] at hexec
      cases hexec
      -- the bytes of an object are kept as those of a live block
      refine ⟨σ', hinv, fun _ x hx _ a h₁ h₂ => hk a (Or.inr ⟨x.ptr - 4, ?_, h.payload hx h₁ h₂⟩)⟩
      have hlo := (h.heap.wf.node (h.live x hx).2.2.2.1.1).1
      simp only [kHeapBegin_eq] at hlo
      omega
  | free p =>
    obtain ⟨y, hy, rfl⟩ := hen
    obtain ⟨c₁, σ', hrun, hinv, hk, _⟩ := h.free hy hcond
    rw [hrun] at hexec
    cases hexec
    refine ⟨σ', hinv, fun _ x hx hne a h₁ h₂ =>
      hk a (Or.inr ⟨x.ptr - 4, ?_, h.payload hx h₁ h₂⟩)⟩
    have hxy : x.ptr ≠ y.ptr := by
      intro heq
      exact hne (by rw [heq])
    have hx4 := (h.live x hx).2.2.1
    have hy4 := (h.live y hy).2.2.1
    omega
  | store off bs =>
    obtain ⟨x, hx, h₁, h₂⟩ := hen
    cases hexec
    exact ⟨σ, h.store hx h₁ h₂, fun hno => absurd rfl (hno off bs)⟩

/-- **Separation.** In every run whose `Free` calls are all clean, live
    allocations neither overlap nor disturb each other. -/
theorem liveSafe_of_cleanFrees (hreach : Reachable (Fresh true) (Step true CleanFrees) c) :
    LiveSafe CleanFrees c := by
  obtain ⟨σ, hinv⟩ : ∃ σ, RunInv true c σ := by
    refine hreach.invariant (fun c => ∃ σ, RunInv true c σ)
      (fun c hc => ⟨_, (runInv_fresh hc).1⟩) ?_
    intro c op c' ⟨σ, hinv⟩ hs
    obtain ⟨σ', hinv', _⟩ := hinv.step hs
    exact ⟨σ', hinv'⟩
  -- the state is separated by the invariant, and the next step by the step lemma
  refine ⟨hinv.separate, ?_⟩
  intro op c' hno hs
  obtain ⟨_, _, hspares⟩ := hinv.step hs
  exact hspares hno

theorem liveSafe_after_free : ∃ c : Client, c.live.length = 1 ∧ LiveSafe CleanFrees c := by
  have hdec : ((Client.formatted true).trace true CleanFrees
      [.alloc 28, .alloc 44, .free 67108824]).map (fun c => c.live.length) = some 1 := by
    decide +kernel
  obtain ⟨c, hc, hval⟩ := Option.map_eq_some_iff.mp hdec
  exact ⟨c, hval, liveSafe_of_cleanFrees (reachable_trace (.init (fresh_formatted true)) hc)⟩

/-- Three blocks `a`, `b`, `c` from the top down. The client's own bytes in the
    last word of `b` say 64; once `b` and `a` are freed, the allocator takes
    them for the size of the block before `a`, which is `c`. -/
theorem exists_not_liveSafe : ∃ c, Reachable (Fresh true) (Step true fun _ _ => True) c ∧
    ¬ LiveSafe (fun _ _ => True) c := by
  -- what the client wrote last into the object at 67108792 stays behind as the footer of its block
  let ops : List Op := [.alloc 28, .alloc 28, .alloc 28, .store 67108764 (leBytes 4 1000),
    .store 67108816 (leBytes 4 64), .free 67108792]
  have hdec : ((Client.formatted true).trace true (fun _ _ => True) ops).map (fun c =>
      (decide (⟨67108760, 28⟩ ∈ c.live ∧ c.Enabled (.free 67108824)), c.nvm.mem 67108764,
        (c.exec true (.free 67108824)).toOption.map fun c' => c'.nvm.mem 67108764)) =
      some (true, 232, some 0) := by
    decide +kernel
  obtain ⟨c, hc, hval⟩ := Option.map_eq_some_iff.mp hdec
  have hreach := reachable_trace (.init (fresh_formatted true)) hc
  simp only [Prod.mk.injEq, decide_eq_true_eq] at hval
  obtain ⟨⟨hlive, hen⟩, hbefore, hafter⟩ := hval
  refine ⟨c, hreach, ?_⟩
  intro h
  -- so the next `Free` takes the block of the object at 67108760 for a free one
  cases hexec : c.exec true (.free 67108824) with
  | error e => rw [hexec] at hafter; cases hafter
  | ok c' =>
    rw [hexec] at hafter
    have hsp := h.2 (.free 67108824) c' (fun _ _ hne => Op.noConfusion hne)
      ⟨hen, trivial, hexec⟩
    have heq := hsp _ hlive (by decide) 67108764 (by decide) (by decide)
    have hzero : c'.nvm.mem 67108764 = 0 := Option.some.inj hafter
    rw [hzero, hbefore] at heq
    exact absurd heq (by decide)

/-! ### Assertions -/

/-- Requests of a tablet that leaves its objects alone: objects of at most
    `kMaxItemSize` data bytes, and no stores. -/
def ItemSized (_ : Client) : Op → Prop
  | .alloc n => n ≤ 16 + kMaxItemSize
  | .free _ => True
  | .store _ _ => False

instance : (c : Client) → (op : Op) → Decidable (ItemSized c op)
  | _, .alloc _ => inferInstanceAs (Decidable (_ ≤ _))
  | _, .free _ => .isTrue trivial
  | _, .store _ _ => .isFalse id

/-- The request would cut a block so that 16 bytes are left. -/
def CutsTiny (c : Client) : Op → Prop
  | .alloc n => LeavesTiny c.nvm.mem (blockSize n)
  | _ => False

/-- Blocks whose last words are in order are freed cleanly. -/
theorem Intact.cleanly (hint : Intact m σ) {b : Nat} (hb : σ.Live b) : FreesCleanly m b :=
  Or.inr (Or.inr (hint b hb))

/-- The invariant of runs without stores. -/
theorem intact_of_reachable (h : Reachable (Fresh true) (Step true ItemSized) c) :
    ∃ σ, RunInv true c σ ∧ Intact c.nvm.mem σ := by
  -- the footers stay intact since no step stores into an object
  refine h.invariant (fun c => ∃ σ, RunInv true c σ ∧ Intact c.nvm.mem σ) ?_ ?_
  · intro c hc
    obtain ⟨hinv, hint, _⟩ := runInv_fresh hc
    exact ⟨_, hinv, hint⟩
  · intro c op c' ⟨σ, hinv, hint⟩ ⟨hen, hcond, hexec⟩
    cases op with
    | alloc n =>
      rcases hinv.alloc hen.1 hen.2 with
        ⟨hrun, _⟩ | ⟨_, _, hrun⟩ | ⟨_, c₁, σ', hrun, hinv', _, hint', _⟩
      · rw [hrun] at hexec
        cases hexec
        exact ⟨σ, hinv, hint⟩
      · rw [hrun] at hexec
        cases hexec
      · rw [hrun] at hexec
        cases hexec
        exact ⟨σ', hinv', hint' hint⟩
    | free p =>
      obtain ⟨x, hx, rfl⟩ := hen
      obtain ⟨c₁, σ', hrun, hinv', _, hint', _⟩ :=
        hinv.free hx (hint.cleanly (hinv.live x hx).2.2.2.1)
      rw [hrun] at hexec
      cases hexec
      exact ⟨σ', hinv', hint' hint⟩
    | store off bs => exact hcond.elim

/-- **Assertions.** In every reachable state, a request fails an assertion
    exactly if it would leave a block of 16 bytes; every other request returns. -/
theorem no_assertion_fails_iff (h : Reachable (Fresh true) (Step true ItemSized) c) {op : Op}
    (hen : c.Enabled op) (hitem : ItemSized c op) :
    (c.exec true op ≠ .error .assertion ↔ ¬ CutsTiny c op) ∧
      (¬ CutsTiny c op → ∃ c', c.exec true op = .ok c') := by
  obtain ⟨σ, hinv, hint⟩ := intact_of_reachable h
  cases op with
  | alloc n =>
    show (_ ↔ ¬ LeavesTiny c.nvm.mem (blockSize n)) ∧ (¬ LeavesTiny c.nvm.mem (blockSize n) → _)
    rcases hinv.alloc hen.1 hen.2 with ⟨hrun, ht⟩ | ⟨_, ht, hrun⟩ | ⟨ht, c', _, hrun, _⟩
    · simp [hrun, ht]
    · simp [hrun, ht]
    · simp [hrun, ht rfl]
  | free p =>
    obtain ⟨x, hx, rfl⟩ := hen
    obtain ⟨c', _, hrun, _⟩ := hinv.free hx (hint.cleanly (hinv.live x hx).2.2.2.1)
    simp [hrun, CutsTiny]
  | store off bs => exact hitem.elim

/-- Behind a freed block of 48 bytes, a request of the same size passes. -/
theorem no_assertion_fails_iff_after_free :
    ∃ c : Client, Reachable (Fresh true) (Step true ItemSized) c ∧
      ¬ CutsTiny c (.alloc 44) ∧ ∃ c', c.exec true (.alloc 44) = .ok c' := by
  have hdec : ((Client.formatted true).trace true ItemSized
      [.alloc 44, .free 67108808]).map (fun c =>
        decide (¬ LeavesTiny c.nvm.mem (blockSize 44))) = some true := by
    decide +kernel
  obtain ⟨c, hc, hval⟩ := Option.map_eq_some_iff.mp hdec
  have hreach := reachable_trace (.init (fresh_formatted true)) hc
  have hcut : ¬ LeavesTiny c.nvm.mem (blockSize 44) := of_decide_eq_true hval
  have hen : c.Enabled (.alloc 44) := ⟨by decide, by decide⟩
  have hitem : ItemSized c (.alloc 44) := by
    show 44 ≤ 16 + kMaxItemSize
    decide
  exact ⟨c, hreach, hcut, (no_assertion_fails_iff hreach hen hitem).2 hcut⟩

/-- A freed block of 48 bytes serves a request for 32: the rest has 16. -/
theorem assertion_fails_after_free :
    ∃ c op, Reachable (Fresh true) (Step true ItemSized) c ∧ c.Enabled op ∧ ItemSized c op ∧
      c.exec true op = .error .assertion := by
  have hdec : ((Client.formatted true).trace true ItemSized
      [.alloc 44, .free 67108808]).map (fun c => decide (c.Enabled (.alloc 16)) &&
        (match c.exec true (.alloc 16) with | .error .assertion => true | _ => false)) =
      some true := by
    decide +kernel
  obtain ⟨c, hc, hval⟩ := Option.map_eq_some_iff.mp hdec
  rw [Bool.and_eq_true, decide_eq_true_eq] at hval
  refine ⟨c, .alloc 16, reachable_trace (.init (fresh_formatted true)) hc, hval.1, ?_, ?_⟩
  · show 16 ≤ 16 + kMaxItemSize
    omega
  have hmatch := hval.2
  split at hmatch
  · assumption
  · cases hmatch

end Nvds.Allocator
