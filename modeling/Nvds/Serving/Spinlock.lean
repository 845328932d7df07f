import Nvds.Framework.Sections
import Nvds.Serving.Buffers
import Nvds.Serving.Wakeup

/-! # The spinlocks of the queues and the pools (`spinlock.h`, `server.h`, `infiniband.h`)

    In the model of the threads a call of a queue or a pool is one step. Here
    it is taken apart: a thread tries `test_and_set` until it has the lock of
    the object, then it makes its loads and stores of `root_`, `head_`,
    `tail_` and the links, one after the other, and in the end it clears the
    flag. Between any two of these steps the other threads run. All accesses
    take place in one order.

    The queues and the pools have a lock each, but their links are the same
    field of the buffers. It is who has which buffer that keeps the calls of
    different objects apart, so that they may be taken to be single steps.
-/

open Sections (Pending)

namespace Nvds.Serving

variable {n : Nat} {Req Resp T : Type}

/-! ### The calls -/

/-- The two pools. -/
inductive Pool where
  | recv
  | send
  deriving DecidableEq, Repr

/-- The cells of memory that the calls work on. -/
inductive Loc (n : Nat) where
  | root (p : Pool)
  | head (w : Fin n)
  | tail (w : Fin n)
  | next (b : Nat)
  deriving DecidableEq, Repr

/-- The spinlocks. -/
inductive Lock (n : Nat) where
  | pool (p : Pool)
  | queue (w : Fin n)
  deriving DecidableEq, Repr

/-- What is left of a call behind `lock()`. -/
abbrev Code (n : Nat) := Sections.Code (Loc n) Nat Nat

/-- `Alloc`, access by access. -/
def RegisteredBuffers.allocCode (p : Pool) : Code n :=
  .load (.root p) fun ret =>
  .load (.root p) fun root =>
  if root ≠ 0 then
    .load (.root p) fun root =>
    .load (.next root) fun next =>
    .store (.root p) next (.ret ret)
  else
    .ret ret

/-- `Free`, access by access. -/
def RegisteredBuffers.freeCode (p : Pool) (b : Nat) : Code n :=
  .load (.root p) fun root =>
  .store (.next b) root (.store (.root p) b (.ret 0))

/-- `Enqueue`, access by access. -/
def WorkQueue.enqueueCode (w : Fin n) (work : Nat) : Code n :=
  .load (.head w) fun head =>
  if head = 0 then
    .store (.tail w) work (.store (.head w) work (.ret 0))
  else
    .load (.tail w) fun tail =>
    .store (.next tail) work (.store (.tail w) work (.ret 0))

/-- `Dequeue`, access by access. -/
def WorkQueue.dequeueCode (w : Fin n) : Code n :=
  .load (.head w) fun head =>
  if head = 0 then
    .ret 0
  else
    .load (.head w) fun head =>
    .load (.tail w) fun tail =>
    if head = tail then
      .load (.head w) fun ans =>
      .store (.tail w) 0 (.store (.head w) 0 (.ret ans))
    else
      .load (.head w) fun ans =>
      .load (.head w) fun head =>
      .load (.next head) fun next =>
      .store (.head w) next (.ret ans)

/-- The poller and the workers. -/
inductive Thread (n : Nat) where
  | poller
  | worker (w : Fin n)
  deriving DecidableEq, Repr

/-- The call that the poller is about to make, with the lock it takes. -/
def Poller.call : Poller n → Option (Lock n × Code n)
  | .fill i =>
    if i < kMaxIBQueueDepth then
      some (.pool .recv, RegisteredBuffers.allocCode .recv)
    else
      none
  | .enqueue b w => some (.queue w, WorkQueue.enqueueCode w b)
  | .freeSend b => some (.pool .send, RegisteredBuffers.freeCode .send b)
  | .alloc => some (.pool .recv, RegisteredBuffers.allocCode .recv)
  | _ => none

/-- The call that the worker `w` is about to make. -/
def Worker.call (w : Fin n) : Worker → Option (Lock n × Code n)
  | .poll => some (.queue w, WorkQueue.dequeueCode w)
  | .alloc _ => some (.pool .send, RegisteredBuffers.allocCode .send)
  | .free work => some (.pool .recv, RegisteredBuffers.freeCode .recv work)
  | _ => none

/-- Where the poller stands when the call has returned `r`. -/
def Poller.returned (r : Nat) : Poller n → Poller n
  | .fill i => if r = 0 then .fill i else .fillPost i r
  | .enqueue _ _ => .trySend
  | .freeSend _ => .alloc
  | .alloc => if r = 0 then .tryReceive else .postReceive r
  | p => p

/-- Where a worker stands when the call has returned `r`. -/
def Worker.returned (r : Nat) : Worker → Worker
  | .poll => if r = 0 then .poll else .alloc r
  | .alloc work => if work ≠ 0 ∧ r ≠ 0 then .execute work r else .alloc work
  | .free _ => .poll
  | wk => wk

/-- The assertion about the result of the call that fails, if any. -/
def Poller.failed (r : Nat) : Poller n → Option Assertion
  | .fill _ => if r = 0 then some .receiveBuffer else none
  | _ => none

def Worker.failed (r : Nat) : Worker → Option Assertion
  | .alloc work => if work ≠ 0 ∧ r ≠ 0 then none else some .sendBuffer
  | _ => none

/-- A worker whose assertion fails goes no further. -/
theorem Worker.returned_of_failed {r : Nat} {wk : Worker} (h : wk.failed r ≠ none) :
    wk.returned r = wk := by
  cases wk with
  | alloc work =>
    have hnot : ¬ (work ≠ 0 ∧ r ≠ 0) := by
      intro hne
      exact h (if_pos hne)
    exact if_neg hnot
  | _ => exact absurd rfl h

namespace State

variable (s : State n Req Resp T)

/-- The cells of memory. -/
def cells : Loc n → Nat
  | .root .recv => s.recvRoot
  | .root .send => s.sendRoot
  | .head w => (s.wq w).head
  | .tail w => (s.wq w).tail
  | .next b => s.next b

/-- The state with other contents of the cells. -/
def withCells (m : Loc n → Nat) : State n Req Resp T :=
  { s with
    next := fun b => m (.next b)
    recvRoot := m (.root .recv)
    sendRoot := m (.root .send)
    wq := fun w => ⟨m (.head w), m (.tail w)⟩ }

@[simp] theorem withCells_cells : s.withCells s.cells = s := rfl

@[simp] theorem cells_withCells (m : Loc n → Nat) : (s.withCells m).cells = m := by
  funext x
  cases x with
  | root p => cases p <;> rfl
  | head w => rfl
  | tail w => rfl
  | next b => rfl

@[simp] theorem withCells_withCells (m m' : Loc n → Nat) :
    (s.withCells m).withCells m' = s.withCells m' := rfl

/-- The call that a thread is about to make. -/
def call : Thread n → Option (Lock n × Code n)
  | .poller => s.poller.call
  | .worker w => (s.worker w).call w

/-- The record of what was dispatched, to which `Enqueue` adds. -/
def recorded : Thread n → Fin n → List (Req × Cluster.Address)
  | .poller =>
    match s.poller with
    | .enqueue b w => Function.update s.dispatched w (s.dispatched w ++ [s.entry b])
    | _ => s.dispatched
  | .worker _ => s.dispatched

/-- The state when a thread begins its call. -/
def record (i : Thread n) : State n Req Resp T := { s with dispatched := s.recorded i }

theorem record_eq {i : Thread n} (h : s.recorded i = s.dispatched) : s.record i = s := by
  rw [record, h]

/-- The assertion behind the call of a thread that fails if it has returned `r`. -/
def failed (r : Nat) : Thread n → Option Assertion
  | .poller => s.poller.failed r
  | .worker w => (s.worker w).failed r

/-- A thread goes on behind its call, which has returned `r`. -/
def goOn (r : Nat) : Thread n → State n Req Resp T
  | .poller => { s with poller := s.poller.returned r, aborted := s.poller.failed r }
  | .worker w =>
    { s with
      worker := Function.update s.worker w ((s.worker w).returned r)
      aborted := (s.worker w).failed r }

/-- A thread that goes on behind its call does not change what others are about to do. -/
theorem call_goOn {r : Nat} {i j : Thread n} (h : j ≠ i) : (s.goOn r i).call j = s.call j := by
  cases i with
  | poller =>
    cases j with
    | poller => exact absurd rfl h
    | worker v => rfl
  | worker w =>
    cases j with
    | poller => rfl
    | worker v =>
      have hv : v ≠ w := by
        rintro rfl
        exact h rfl
      simp only [call, goOn, Function.update_of_ne hv]

theorem failed_goOn {r q : Nat} {i j : Thread n} (h : j ≠ i) :
    (s.goOn r i).failed q j = s.failed q j := by
  cases i with
  | poller =>
    cases j with
    | poller => exact absurd rfl h
    | worker v => rfl
  | worker w =>
    cases j with
    | poller => rfl
    | worker v =>
      have hv : v ≠ w := by
        rintro rfl
        exact h rfl
      simp only [failed, goOn, Function.update_of_ne hv]

theorem worker_goOn {r : Nat} {i : Thread n} {v : Fin n} (h : Thread.worker v ≠ i) :
    (s.goOn r i).worker v = s.worker v := by
  cases i with
  | poller => rfl
  | worker w =>
    have hv : v ≠ w := by
      rintro rfl
      exact h rfl
    exact Function.update_of_ne hv _ _

theorem cells_goOn (r : Nat) (i : Thread n) : (s.goOn r i).cells = s.cells := by
  cases i with
  | poller => rfl
  | worker w => rfl

end State

/-- The thread that makes a step. -/
def Label.thread : Label n Req → Option (Thread n)
  | .poll _ => some .poller
  | .serve w => some (.worker w)
  | .receive _ _ => none
  | .complete _ => none

/-! ### What the calls do in one go -/

namespace RegisteredBuffers

theorem run_allocCode (p : Pool) (m : Loc n → Nat) :
    (allocCode p : Code n).run m = (m (.root p), if m (.root p) ≠ 0 then
      Function.update m (.root p) (m (.next (m (.root p)))) else m) := by
  by_cases h : m (.root p) = 0
  · simp [allocCode, Sections.Code.run, h]
  · simp [allocCode, Sections.Code.run, h]

theorem footprint_allocCode {p : Pool} {m : Loc n → Nat} {x : Loc n}
    (h : x ∈ (allocCode p : Code n).footprint m) :
    x = .root p ∨ (m (.root p) ≠ 0 ∧ x = .next (m (.root p))) := by
  by_cases h0 : m (.root p) = 0
  · simp [allocCode, Sections.Code.footprint, h0] at h
    tauto
  · simp [allocCode, Sections.Code.footprint, h0] at h
    tauto

theorem run_freeCode (p : Pool) (b : Nat) (m : Loc n → Nat) :
    (freeCode p b : Code n).run m =
      (0, Function.update (Function.update m (.next b) (m (.root p))) (.root p) b) := rfl

theorem footprint_freeCode {p : Pool} {b : Nat} {m : Loc n → Nat} {x : Loc n}
    (h : x ∈ (freeCode p b : Code n).footprint m) : x = .root p ∨ x = .next b := by
  simp [freeCode, Sections.Code.footprint] at h
  tauto

end RegisteredBuffers

namespace WorkQueue

theorem run_enqueueCode (w : Fin n) (work : Nat) (m : Loc n → Nat) :
    (enqueueCode w work).run m = (0, if m (.head w) = 0 then
      Function.update (Function.update m (.tail w) work) (.head w) work else
      Function.update (Function.update m (.next (m (.tail w))) work) (.tail w) work) := by
  by_cases h : m (.head w) = 0
  · simp [enqueueCode, Sections.Code.run, h]
  · simp [enqueueCode, Sections.Code.run, h]

theorem footprint_enqueueCode {w : Fin n} {work : Nat} {m : Loc n → Nat} {x : Loc n}
    (h : x ∈ (enqueueCode w work).footprint m) :
    x = .head w ∨ x = .tail w ∨ (m (.head w) ≠ 0 ∧ x = .next (m (.tail w))) := by
  by_cases h0 : m (.head w) = 0
  · simp [enqueueCode, Sections.Code.footprint, h0] at h
    tauto
  · simp [enqueueCode, Sections.Code.footprint, h0] at h
    tauto

theorem run_dequeueCode (w : Fin n) (m : Loc n → Nat) :
    (dequeueCode w).run m = (m (.head w), if m (.head w) = 0 then m else
      if m (.head w) = m (.tail w) then
        Function.update (Function.update m (.tail w) 0) (.head w) 0
      else
        Function.update m (.head w) (m (.next (m (.head w))))) := by
  by_cases h : m (.head w) = 0
  · simp [dequeueCode, Sections.Code.run, h]
  · by_cases ht : m (.head w) = m (.tail w)
    · simp [dequeueCode, Sections.Code.run, h, ht.symm]
    · simp [dequeueCode, Sections.Code.run, h, ht]

theorem footprint_dequeueCode {w : Fin n} {m : Loc n → Nat} {x : Loc n}
    (h : x ∈ (dequeueCode w).footprint m) :
    x = .head w ∨ x = .tail w ∨ (m (.head w) ≠ 0 ∧ x = .next (m (.head w))) := by
  by_cases h0 : m (.head w) = 0
  · simp [dequeueCode, Sections.Code.footprint, h0] at h
    tauto
  · by_cases ht : m (.head w) = m (.tail w)
    · simp [dequeueCode, Sections.Code.footprint, h0, ht.symm] at h
      tauto
    · simp [dequeueCode, Sections.Code.footprint, h0, ht] at h
      tauto

end WorkQueue

/-! The body of a call is the call of the model of the threads. -/

namespace State

variable (s : State n Req Resp T)

/-- All links when one link is stored. -/
theorem links_update (b v : Nat) :
    (fun x => if x = b then v else s.next x) = Function.update s.next b v := by
  funext x
  rw [Function.update_apply]

/-- All queues when both ends of one queue are stored. -/
theorem ends_update (w : Fin n) (head tail : Nat) :
    (fun v => (⟨if v = w then head else (s.wq v).head, if v = w then tail else (s.wq v).tail⟩ :
      WorkQueue)) = Function.update s.wq w ⟨head, tail⟩ := by
  funext v
  by_cases hv : v = w
  · subst hv
    simp
  · simp [hv]

/-- When only the head is stored. -/
theorem head_update (w : Fin n) (head : Nat) :
    (fun v => (⟨if v = w then head else (s.wq v).head, (s.wq v).tail⟩ : WorkQueue)) =
      Function.update s.wq w ⟨head, (s.wq w).tail⟩ := by
  funext v
  by_cases hv : v = w
  · subst hv
    simp
  · simp [hv]

/-- When only the tail is stored. -/
theorem tail_update (w : Fin n) (tail : Nat) :
    (fun v => (⟨(s.wq v).head, if v = w then tail else (s.wq v).tail⟩ : WorkQueue)) =
      Function.update s.wq w ⟨(s.wq w).head, tail⟩ := by
  funext v
  by_cases hv : v = w
  · subst hv
    simp
  · simp [hv]

theorem withCells_allocRecv :
    s.withCells ((RegisteredBuffers.allocCode .recv : Code n).run s.cells).2 =
      { s with recvRoot := (RegisteredBuffers.alloc s.next s.recvRoot).2 } := by
  rw [RegisteredBuffers.run_allocCode]
  by_cases h : s.recvRoot = 0
  · simp [withCells, cells, RegisteredBuffers.alloc, h]
  · simp [withCells, cells, RegisteredBuffers.alloc, h]

theorem withCells_allocSend :
    s.withCells ((RegisteredBuffers.allocCode .send : Code n).run s.cells).2 =
      { s with sendRoot := (RegisteredBuffers.alloc s.next s.sendRoot).2 } := by
  rw [RegisteredBuffers.run_allocCode]
  by_cases h : s.sendRoot = 0
  · simp [withCells, cells, RegisteredBuffers.alloc, h]
  · simp [withCells, cells, RegisteredBuffers.alloc, h]

theorem withCells_freeRecv (b : Nat) :
    s.withCells ((RegisteredBuffers.freeCode .recv b : Code n).run s.cells).2 =
      { s with next := Function.update s.next b s.recvRoot, recvRoot := b } := by
  rw [RegisteredBuffers.run_freeCode]
  simp [withCells, cells, Function.update_apply, links_update]

theorem withCells_freeSend (b : Nat) :
    s.withCells ((RegisteredBuffers.freeCode .send b : Code n).run s.cells).2 =
      { s with next := Function.update s.next b s.sendRoot, sendRoot := b } := by
  rw [RegisteredBuffers.run_freeCode]
  simp [withCells, cells, Function.update_apply, links_update]

theorem withCells_enqueue (w : Fin n) (b : Nat) :
    s.withCells ((WorkQueue.enqueueCode w b).run s.cells).2 =
      { s with
        next := ((s.wq w).enqueue s.next b).1
        wq := Function.update s.wq w ((s.wq w).enqueue s.next b).2 } := by
  rw [WorkQueue.run_enqueueCode]
  by_cases h : (s.wq w).head = 0
  · simp [withCells, cells, WorkQueue.enqueue, h, Function.update_apply, ends_update]
  · simp [withCells, cells, WorkQueue.enqueue, h, Function.update_apply, links_update,
      tail_update]

theorem withCells_dequeue (w : Fin n) :
    s.withCells ((WorkQueue.dequeueCode w).run s.cells).2 =
      { s with wq := Function.update s.wq w ((s.wq w).dequeue s.next).2 } := by
  rw [WorkQueue.run_dequeueCode]
  by_cases h : (s.wq w).head = 0
  · simp [withCells, cells, WorkQueue.dequeue, h]
  · by_cases ht : (s.wq w).head = (s.wq w).tail
    · simp [withCells, cells, WorkQueue.dequeue, h, ht.symm, Function.update_apply, ends_update]
    · simp [withCells, cells, WorkQueue.dequeue, h, ht, Function.update_apply, head_update]

end State

namespace Spinlock

/-! ### The threads -/

/-- A server, the flags of its spinlocks, and what is left of the calls of the threads that
    have got their lock. -/
structure State (n : Nat) (Req Resp T : Type) where
  server : Serving.State n Req Resp T
  flag : Lock n → Bool
  code : Thread n → Option (Code n)

/-- The server before its threads take their first step. -/
structure Init (t : Fin n → T) (s : State n Req Resp T) : Prop where
  server : Serving.Init t s.server
  flag : ∀ l, s.flag l = false
  code : ∀ i, s.code i = none

/-- The steps of the system. -/
inductive Label (n : Nat) (Req : Type) where
  /-- A step of a thread in `lock()`, in the body of a call, or in `unlock()`. -/
  | call (i : Thread n)
  /-- Any other step. -/
  | other (l : Serving.Label n Req)

/-- The step `l` is taken by a thread that is at a call. -/
def State.calling (s : State n Req Resp T) (l : Serving.Label n Req) : Bool :=
  match l.thread with
  | none => false
  | some i => (s.server.call i).isSome

/-- A step of a thread at the call `c` under the lock `l`. -/
def State.call (s : State n Req Resp T) (i : Thread n) (l : Lock n) (c : Code n) :
    State n Req Resp T :=
  match s.code i with
  | none =>
    -- `test_and_set`
    if s.flag l then
      s
    else
      { server := s.server.record i
        flag := Function.update s.flag l true
        code := Function.update s.code i (some c) }
  | some (.load x k) =>
    { s with code := Function.update s.code i (some (k (s.server.cells x))) }
  | some (.store x v k) =>
    { s with
      server := s.server.withCells (Function.update s.server.cells x v)
      code := Function.update s.code i (some k) }
  | some (.ret r) =>
    -- `clear`
    { server := s.server.goOn r i
      flag := Function.update s.flag l false
      code := Function.update s.code i none }

/-- One step. A failed assertion ends the process. -/
def step (sv : Service n Req Resp T) (s : State n Req Resp T) :
    Label n Req → Option (State n Req Resp T)
  | .call i =>
    if s.server.aborted ≠ none then
      none
    else
      match s.server.call i with
      | none => none
      | some (l, c) => some (s.call i l c)
  | .other l =>
    if s.calling l then
      none
    else
      match sv.step s.server l with
      | none => none
      | some server => some { s with server }

/-- The states of all interleavings that start with the tablets `t`. -/
abbrev Reachable (sv : Service n Req Resp T) (t : Fin n → T) : State n Req Resp T → Prop :=
  Transition.Reachable (Init t) fun s l s' => step sv s l = some s'

/-! ### What a step can do -/

/-- The effects of the steps, each with the condition under which it happens. -/
inductive Step (sv : Service n Req Resp T) (s : State n Req Resp T) :
    Label n Req → State n Req Resp T → Prop
  | spin {i : Thread n} : s.code i = none → Step sv s (.call i) s
  | enter {i : Thread n} {l : Lock n} {c : Code n} : s.server.aborted = none →
      s.server.call i = some (l, c) → s.code i = none → s.flag l = false →
      Step sv s (.call i)
        { server := s.server.record i
          flag := Function.update s.flag l true
          code := Function.update s.code i (some c) }
  | access {i : Thread n} {k k' : Code n} {m : Loc n → Nat} : s.code i = some k →
      k.Access s.server.cells m k' →
      Step sv s (.call i)
        { s with server := s.server.withCells m, code := Function.update s.code i (some k') }
  | leave {i : Thread n} {l : Lock n} {c : Code n} {r : Nat} : s.server.aborted = none →
      s.server.call i = some (l, c) → s.code i = some (.ret r) →
      Step sv s (.call i)
        { server := s.server.goOn r i
          flag := Function.update s.flag l false
          code := Function.update s.code i none }
  | other {l : Serving.Label n Req} {server : Serving.State n Req Resp T} : s.calling l = false →
      s.server.aborted = none → Serving.Step sv s.server l server →
      Step sv s (.other l) { s with server }

variable {sv : Service n Req Resp T} {s s' : State n Req Resp T}

/-- Every step has one of the effects. -/
theorem step_cases {l : Label n Req} (h : step sv s l = some s') : Step sv s l s' := by
  cases l with
  | call i =>
    simp only [step] at h
    split at h
    · cases h
    · next halive =>
      split at h
      · cases h
      · next l c hcall =>
        cases h
        have halive := not_not.mp halive
        -- a thread in a call waits for the flag, makes its next access or returns
        unfold State.call
        split
        · next hcode =>
          split
          · exact .spin hcode
          · next hflag => exact .enter halive hcall hcode (Bool.eq_false_iff.mpr hflag)
        · next x k hcode => exact .access hcode .load
        · next x v k hcode => exact .access hcode .store
        · next r hcode => exact .leave halive hcall hcode
  | other l =>
    simp only [step] at h
    split at h
    · cases h
    · next hcalling =>
      split at h
      · cases h
      · next server hserver =>
        cases h
        obtain ⟨halive, hstep⟩ := Serving.step_cases hserver
        exact .other (Bool.eq_false_iff.mpr hcalling) halive hstep

end Spinlock

end Nvds.Serving
