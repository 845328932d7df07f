import Nvds.Tablet.Model

/-! # Tablets over any allocator

    The operations of a tablet, with the calls of `Alloc` and `Free` left
    open. Filled in with those of `Allocator` they are the operations of
    `Nvds.Tablet.Model`. Filled in with `ghost` they also keep a record of the
    blocks that are in use and of the calls of `Free` that were given no such
    block; the record is written and never read (`serveWith_erase`).
-/

open ByteMemory Program Nvds.Allocator

namespace Nvds.Tablet

/-! ### The calls -/

/-- The calls of an operation over states `G`: accesses of the memory, `Alloc` and `Free`. -/
structure Calls (G : Type) where
  nvm : {α : Type} → NvmM α → Prog G Fault α
  alloc : Nat → Prog G Fault Nat
  free : Nat → Prog G Fault Unit

/-- An allocator on the memory of the tablet. -/
structure Heap where
  alloc : Nat → NvmM Nat
  free : Nat → NvmM Unit

/-- The allocator of `Nvds.Allocator.Model`. -/
def boundaryTags : Heap := ⟨Allocator.alloc true, Allocator.free true⟩

/-- The calls of the code. -/
def plain (A : Heap) : Calls Nvm := ⟨id, A.alloc, A.free⟩

/-! ### The operations -/

variable {G : Type} (c : Calls G) (r : Request)

/-- `newObject`. -/
def newObjectWith (next : Nat) : Prog G Fault Nat := do
  let p ← c.alloc (offsetofData + r.key.length + r.val.length)
  c.nvm (assert (p ≠ 0))
  c.nvm (write true p (objectBytes next r))
  c.nvm (memcpy (p + offsetofData) (r.key ++ r.val))
  pure p

/-- `insertHead`. -/
def insertHeadWith (slot head : Nat) : Prog G Fault Status := do
  let p ← newObjectWith c r head
  c.nvm (write32 true slot p)
  pure .ok

/-- `Put`. -/
def putWith (fuel : Nat) : Prog G Fault Status := do
  c.nvm (assert (r.type = .put))
  let slot := slotOf (bucketOf r)
  let head ← c.nvm (read32 true slot)
  let (q, p) ← c.nvm (search r fuel slot head)
  if p ≠ 0 then
    let valLen ← c.nvm (read16 true (p + offsetofValLen))
    if r.val.length < valLen then
      c.nvm (write16 true (p + offsetofValLen) r.val.length)
      c.nvm (memcpy (p + offsetofData + r.key.length) r.val)
      pure .ok
    else
      let next ← c.nvm (read32 true p)
      -- the old object is freed before there is room for the new one
      c.free p
      let p ← newObjectWith c r next
      c.nvm (write32 true q p)
      pure .ok
  else
    insertHeadWith c r slot head

/-- `Add`. -/
def addWith (fuel : Nat) : Prog G Fault Status := do
  c.nvm (assert (r.type = .add))
  let slot := slotOf (bucketOf r)
  let head ← c.nvm (read32 true slot)
  let (_, p) ← c.nvm (search r fuel slot head)
  if p ≠ 0 then
    pure .error
  else
    insertHeadWith c r slot head

/-- The loop of `Del`. -/
def delLoopWith (q p : Nat) : Nat → Prog G Fault Status
  | 0 => throw .nonTermination
  | fuel + 1 =>
    if p = 0 then
      pure .error
    else do
      let found ← c.nvm (sameKey r p)
      if found then
        let next ← c.nvm (read32 true p)
        c.nvm (write32 true q next)
        c.free p
        pure .ok
      else
        -- neither `p` nor `q` is advanced
        delLoopWith q p fuel

/-- `Del`. -/
def delWith (fuel : Nat) : Prog G Fault Status := do
  c.nvm (assert (r.type = .del))
  let q := slotOf (bucketOf r)
  let p ← c.nvm (read32 true q)
  delLoopWith c r q p fuel

/-- One round of `Worker::Serve` before `Sync`. -/
def serveWith (fuel : Nat) : Prog G Fault Response := do
  c.nvm (modify fun s => { s with modifications := [] })
  match r.type with
  | .put => do
    let status ← putWith c r fuel
    pure ⟨.put, status, []⟩
  | .add => do
    let status ← addWith c r fuel
    pure ⟨.add, status, []⟩
  | .del => do
    let status ← delWith c r fuel
    pure ⟨.del, status, []⟩
  | .get => do
    let (status, val) ← c.nvm (get fuel r)
    pure ⟨.get, status, val⟩

/-! ### The operations of the code -/

theorem delLoopWith_plain (q p fuel : Nat) :
    delLoopWith (plain boundaryTags) r q p fuel = delLoop r q p fuel := by
  induction fuel with
  | zero => rfl
  | succ fuel ih =>
    rw [delLoopWith, delLoop, ih]
    rfl

/-- Over its own allocator this is the round of `Nvds.Tablet.Model`. -/
theorem serveWith_plain (fuel : Nat) : serveWith (plain boundaryTags) r fuel = serve fuel r := by
  have hdel : delWith (plain boundaryTags) r fuel = del fuel r := by
    unfold delWith del
    simp only [delLoopWith_plain]
    rfl
  unfold serveWith serve dispatch
  rw [hdel]
  rfl

/-! ### The record -/

/-- A tablet with the record of its blocks: `live p` bytes are in use at `p`, and
    `wildFrees` are the calls of `Free` for a place where none were. -/
structure Ghost where
  nvm : Nvm
  live : Nat → Nat
  wildFrees : List Nat

/-- An access, which the record does not see. -/
def lift {α : Type} (x : NvmM α) : Prog Ghost Fault α := fun g =>
  match x g.nvm with
  | .ok (a, s) => .ok (a, { g with nvm := s })
  | .error e => .error e

/-- The calls of the code, recorded. -/
def ghost (A : Heap) : Calls Ghost where
  nvm := lift
  alloc n := fun g =>
    match A.alloc n g.nvm with
    | .ok (p, s) =>
      .ok (p, { g with nvm := s, live := if p = 0 then g.live else Function.update g.live p n })
    | .error e => .error e
  free p := fun g =>
    match A.free p g.nvm with
    | .ok (_, s) => .ok ((), {
        nvm := s
        live := Function.update g.live p 0
        wildFrees := if g.live p = 0 then p :: g.wildFrees else g.wildFrees })
    | .error e => .error e

variable {A : Heap} {g g' : Ghost} {α β : Type}

theorem lift_eq_ok {x : NvmM α} {a : α} :
    lift x g = .ok (a, g') ↔ ∃ s, x g.nvm = .ok (a, s) ∧ g' = { g with nvm := s } := by
  unfold lift
  cases hx : x g.nvm with
  | error e => simp
  | ok p =>
    obtain ⟨b, s⟩ := p
    constructor
    · intro h
      cases h
      exact ⟨s, rfl, rfl⟩
    · rintro ⟨s', hs, rfl⟩
      cases hs
      rfl

theorem ghost_nvm_eq_ok {x : NvmM α} {a : α} :
    (ghost A).nvm x g = .ok (a, g') ↔ ∃ s, x g.nvm = .ok (a, s) ∧ g' = { g with nvm := s } :=
  lift_eq_ok

theorem ghost_alloc_eq_ok {n p : Nat} :
    (ghost A).alloc n g = .ok (p, g') ↔ ∃ s, A.alloc n g.nvm = .ok (p, s) ∧
      g' = { g with nvm := s, live := if p = 0 then g.live else Function.update g.live p n } := by
  simp only [ghost]
  cases hx : A.alloc n g.nvm with
  | error e => simp
  | ok x =>
    obtain ⟨b, s⟩ := x
    constructor
    · intro h
      cases h
      exact ⟨s, rfl, rfl⟩
    · rintro ⟨s', hs, rfl⟩
      cases hs
      rfl

theorem ghost_free_eq_ok {p : Nat} {u : Unit} :
    (ghost A).free p g = .ok (u, g') ↔ ∃ s, A.free p g.nvm = .ok (u, s) ∧
      g' = ⟨s, Function.update g.live p 0,
        if g.live p = 0 then p :: g.wildFrees else g.wildFrees⟩ := by
  simp only [ghost]
  cases hx : A.free p g.nvm with
  | error e => simp
  | ok x =>
    obtain ⟨b, s⟩ := x
    constructor
    · intro h
      cases h
      exact ⟨s, rfl, rfl⟩
    · rintro ⟨s', hs, rfl⟩
      cases hs
      rfl

/-! ### The record changes nothing -/

/-- Without the record, `x` is `y`. -/
def Erases (x : Prog Ghost Fault α) (y : NvmM α) : Prop :=
  ∀ g, (x g).map (fun p => (p.1, p.2.nvm)) = y g.nvm

theorem Erases.pure (a : α) : Erases (pure a) (pure a) := fun _ => rfl

theorem Erases.bind {x : Prog Ghost Fault α} {y : NvmM α} {f : α → Prog Ghost Fault β}
    {h : α → NvmM β} (hx : Erases x y) (hf : ∀ a, Erases (f a) (h a)) :
    Erases (x >>= f) (y >>= h) := by
  intro g
  have hg := hx g
  cases hrun : x g with
  | error e =>
    rw [hrun] at hg
    rw [bind_of_error hrun, bind_of_error hg.symm]
    rfl
  | ok p =>
    rw [hrun] at hg
    rw [bind_of_ok hrun, bind_of_ok hg.symm]
    exact hf p.1 p.2

theorem Erases.ite {p : Prop} [Decidable p] {x x' : Prog Ghost Fault α} {y y' : NvmM α}
    (hx : Erases x y) (hx' : Erases x' y') :
    Erases (if p then x else x') (if p then y else y') := by
  split
  · exact hx
  · exact hx'

theorem Erases.lift (x : NvmM α) : Erases (lift x) x := by
  intro g
  unfold Tablet.lift
  cases hx : x g.nvm with
  | error e => rfl
  | ok p => rfl

theorem Erases.alloc (A : Heap) (n : Nat) : Erases ((ghost A).alloc n) (A.alloc n) := by
  intro g
  simp only [ghost]
  cases hx : A.alloc n g.nvm with
  | error e => rfl
  | ok p => rfl

theorem Erases.free (A : Heap) (p : Nat) : Erases ((ghost A).free p) (A.free p) := by
  intro g
  simp only [ghost]
  cases hx : A.free p g.nvm with
  | error e => rfl
  | ok p => rfl

theorem newObjectWith_erase (next : Nat) :
    Erases (newObjectWith (ghost A) r next) (newObjectWith (plain A) r next) :=
  .bind (.alloc A _) fun _ => .bind (.lift _) fun _ => .bind (.lift _) fun _ =>
    .bind (.lift _) fun _ => .pure _

theorem insertHeadWith_erase (slot head : Nat) :
    Erases (insertHeadWith (ghost A) r slot head) (insertHeadWith (plain A) r slot head) :=
  .bind (newObjectWith_erase r head) fun _ => .bind (.lift _) fun _ => .pure _

theorem putWith_erase (fuel : Nat) :
    Erases (putWith (ghost A) r fuel) (putWith (plain A) r fuel) := by
  refine .bind (.lift _) fun _ => .bind (.lift _) fun _ => .bind (.lift _) ?_
  intro qp
  refine .ite (.bind (.lift _) fun _ => .ite ?_ ?_) (insertHeadWith_erase r _ _)
  · exact .bind (.lift _) fun _ => .bind (.lift _) fun _ => .pure _
  · exact .bind (.lift _) fun _ => .bind (.free A _) fun _ =>
      .bind (newObjectWith_erase r _) fun _ => .bind (.lift _) fun _ => .pure _

theorem addWith_erase (fuel : Nat) :
    Erases (addWith (ghost A) r fuel) (addWith (plain A) r fuel) :=
  .bind (.lift _) fun _ => .bind (.lift _) fun _ => .bind (.lift _) fun _ =>
    .ite (.pure _) (insertHeadWith_erase r _ _)

theorem delLoopWith_erase (q p fuel : Nat) :
    Erases (delLoopWith (ghost A) r q p fuel) (delLoopWith (plain A) r q p fuel) := by
  induction fuel with
  | zero => exact fun _ => rfl
  | succ fuel ih =>
    rw [delLoopWith, delLoopWith]
    exact .ite (.pure _) (.bind (.lift _) fun _ => .ite (.bind (.lift _) fun _ =>
      .bind (.lift _) fun _ => .bind (.free A _) fun _ => .pure _) ih)

/-- **Erasure.** A recorded round is a round with a record beside it. -/
theorem serveWith_erase (fuel : Nat) :
    Erases (serveWith (ghost A) r fuel) (serveWith (plain A) r fuel) := by
  have hclear := Erases.lift (modify fun s => { s with modifications := [] } : NvmM Unit)
  refine .bind hclear ?_
  intro _
  cases r.type with
  | put => exact .bind (putWith_erase r fuel) fun _ => .pure _
  | add => exact .bind (addWith_erase r fuel) fun _ => .pure _
  | del =>
    exact .bind (.bind (.lift _) fun _ => .bind (.lift _) fun _ => delLoopWith_erase r _ _ fuel)
      fun _ => .pure _
  | get => exact .bind (.lift _) fun _ => .pure _

end Nvds.Tablet
