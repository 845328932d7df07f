import Nvds.Serving.Areas

/-! # The calls of the queues and the pools are atomic

    Two threads that have different locks touch different cells. So each
    call may be taken to happen at once when its thread gets the lock: the
    interleavings of single accesses refine those of whole calls.
-/

open Sections (Pending)

namespace Nvds.Serving

variable {n : Nat} {Req Resp T : Type}

/-! ### The calls as single steps -/

section calls

variable {sv : Service n Req Resp T} {s : State n Req Resp T} {c : Contents n} {i : Thread n}
  {k : Lock n} {code : Code n}

/-- The threads that are at a call, with its lock and its body. -/
inductive Calls (s : State n Req Resp T) : Thread n → Lock n → Code n → Prop
  | fill {j : Nat} : s.poller = .fill j → j < kMaxIBQueueDepth →
      Calls s .poller (.pool .recv) (RegisteredBuffers.allocCode .recv)
  | enqueue {b : Nat} {w : Fin n} : s.poller = .enqueue b w →
      Calls s .poller (.queue w) (WorkQueue.enqueueCode w b)
  | freeSend {b : Nat} : s.poller = .freeSend b →
      Calls s .poller (.pool .send) (RegisteredBuffers.freeCode .send b)
  | refill : s.poller = .alloc →
      Calls s .poller (.pool .recv) (RegisteredBuffers.allocCode .recv)
  | dequeue {w : Fin n} : s.worker w = .poll →
      Calls s (.worker w) (.queue w) (WorkQueue.dequeueCode w)
  | allocSend {w : Fin n} {work : Nat} : s.worker w = .alloc work →
      Calls s (.worker w) (.pool .send) (RegisteredBuffers.allocCode .send)
  | freeRecv {w : Fin n} {work : Nat} : s.worker w = .free work →
      Calls s (.worker w) (.pool .recv) (RegisteredBuffers.freeCode .recv work)

theorem call_cases (h : s.call i = some (k, code)) : Calls s i k code := by
  -- each place in the code calls one function of a lock
  cases i with
  | poller =>
    simp only [State.call] at h
    cases hp : s.poller with
    | fill j =>
      rw [hp, Poller.call] at h
      split at h
      · next hj =>
        cases h
        exact .fill hp hj
      · cases h
    | enqueue b w =>
      rw [hp] at h
      cases h
      exact .enqueue hp
    | freeSend b =>
      rw [hp] at h
      cases h
      exact .freeSend hp
    | alloc =>
      rw [hp] at h
      cases h
      exact .refill hp
    | _ =>
      rw [hp] at h
      cases h
  | worker w =>
    simp only [State.call] at h
    cases hw : s.worker w with
    | poll =>
      rw [hw] at h
      cases h
      exact .dequeue hw
    | alloc work =>
      rw [hw] at h
      cases h
      exact .allocSend hw
    | free work =>
      rw [hw] at h
      cases h
      exact .freeRecv hw
    | _ =>
      rw [hw] at h
      cases h

/-- The ends of a queue are in it. -/
theorem Represents.ends_mem {next : Nat → Nat} {recvRoot sendRoot : Nat} {wq : Fin n → WorkQueue}
    (h : Represents next recvRoot sendRoot wq c) {w : Fin n} (hhead : (wq w).head ≠ 0) :
    (wq w).head ∈ c.queue w ∧ (wq w).tail ∈ c.queue w := by
  rcases h.queue w with ⟨hnull, _⟩ | ⟨_, ys, hys, hseg⟩
  · exact absurd hnull hhead
  · rw [hys]
    refine ⟨?_, by simp⟩
    cases ys with
    | nil =>
      rw [show (wq w).head = (wq w).tail from hseg]
      simp
    | cons y ys =>
      obtain ⟨rfl, _⟩ := hseg
      simp

/-- A call touches only what its thread may touch. -/
theorem Sound.owns_call (h : Sound s c) (hcall : s.call i = some (k, code)) {x : Loc n}
    (hx : x ∈ code.footprint s.cells) : s.Owns c i k x := by
  -- the first buffer of a pool is in it
  have hrecv : s.recvRoot ≠ 0 → s.recvRoot ∈ c.recvFree := by
    intro h0
    rw [(h.represents.allocRecv h0).1]
    exact List.mem_cons_self
  have hsend : s.sendRoot ≠ 0 → s.sendRoot ∈ c.sendFree := by
    intro h0
    rw [(h.represents.allocSend h0).1]
    exact List.mem_cons_self
  cases call_cases hcall with
  | fill _ _ | refill _ =>
    rcases RegisteredBuffers.footprint_allocCode hx with rfl | ⟨h0, rfl⟩
    · exact rfl
    · exact Or.inl (Or.inl ⟨.pool, rfl, hrecv h0⟩)
  | allocSend _ =>
    rcases RegisteredBuffers.footprint_allocCode hx with rfl | ⟨h0, rfl⟩
    · exact rfl
    · exact Or.inl (Or.inr ⟨.pool, rfl, hsend h0⟩)
  | freeSend hp =>
    rcases RegisteredBuffers.footprint_freeCode hx with rfl | rfl
    · exact rfl
    · exact Or.inr (Or.inr ⟨.poller, rfl, by simp [State.sendHeld, Poller.sendHeld, hp]⟩)
  | @freeRecv w _ hw =>
    rcases RegisteredBuffers.footprint_freeCode hx with rfl | rfl
    · exact rfl
    · exact Or.inr (Or.inl ⟨.worker w, rfl, by simp [State.recvHeld, Worker.recvHeld, hw]⟩)
  | @enqueue _ w hp =>
    rcases WorkQueue.footprint_enqueueCode hx with rfl | rfl | ⟨h0, rfl⟩
    · exact rfl
    · exact rfl
    · exact Or.inl (Or.inl ⟨.workQueue w, rfl, (h.represents.ends_mem h0).2⟩)
  | @dequeue w hw =>
    rcases WorkQueue.footprint_dequeueCode hx with rfl | rfl | ⟨h0, rfl⟩
    · exact rfl
    · exact rfl
    · exact Or.inl (Or.inl ⟨.workQueue w, rfl, (h.represents.ends_mem h0).1⟩)

/-- The only assertion that can fail is the one for the send buffer, when there is none. -/
theorem Sound.failed_cases (h : Sound s c) (hcall : s.call i = some (k, code))
    (hfail : s.failed (code.run s.cells).1 i ≠ none) :
    k = .pool .send ∧ code.run s.cells = (0, s.cells) ∧
      ∃ w work, i = .worker w ∧ s.worker w = .alloc work ∧ s.sendRoot = 0 := by
  cases call_cases hcall with
  | fill hp hj =>
    refine absurd ?_ hfail
    rw [RegisteredBuffers.run_allocCode]
    simp [State.failed, hp, Poller.failed, h.recvRoot_ne_zero hp hj, State.cells]
  | @allocSend w work hw =>
    have hplace : work ∈ s.recvHeld c (.worker w) := by simp [State.recvHeld, Worker.recvHeld, hw]
    have hwork := (h.recv_apart hplace (by simp) (by simp)).1
    have h0 : s.sendRoot = 0 := by
      by_contra h0
      refine hfail ?_
      rw [RegisteredBuffers.run_allocCode]
      simp [State.failed, hw, Worker.failed, hwork, State.cells, h0]
    refine ⟨rfl, ?_, w, work, rfl, hw, h0⟩
    rw [RegisteredBuffers.run_allocCode]
    simp [State.cells, h0]
  | enqueue hp | freeSend hp | refill hp =>
    exact absurd (by simp [State.failed, hp, Poller.failed]) hfail
  | dequeue hw | freeRecv hw => exact absurd (by simp [State.failed, hw, Worker.failed]) hfail

/-- A call that takes place in one go is a step. -/
theorem Sound.step_of_call (h : Sound s c) (halive : s.aborted = none)
    (hcall : s.call i = some (k, code)) (hok : s.failed (code.run s.cells).1 i = none) :
    ∃ l, l.thread = some i ∧ Step sv s l
      (((s.record i).withCells (code.run s.cells).2).goOn (code.run s.cells).1 i) := by
  -- the call as a whole is one step of the atomic server
  cases call_cases hcall with
  | fill hp hj =>
    have h0 := h.recvRoot_ne_zero hp hj
    have hrun : ((RegisteredBuffers.allocCode .recv : Code n).run s.cells).1 = s.recvRoot := by
      rw [RegisteredBuffers.run_allocCode, State.cells]
    refine ⟨.poll 0, rfl, ?_⟩
    rw [hrun]
    rw [s.record_eq (by simp only [State.recorded, hp]), State.withCells_allocRecv]
    convert Step.fillAlloc hp hj h0 using 1
    simp [State.goOn, RegisteredBuffers.alloc, hp, h0, Poller.returned, Poller.failed, halive]
  | @enqueue b w hp =>
    refine ⟨.poll 0, rfl, ?_⟩
    rw [show s.cells = (s.record .poller).cells from rfl, State.withCells_enqueue]
    simp only [State.record, State.recorded, hp]
    convert Step.enqueued hp using 1
    simp [State.goOn, Poller.returned, Poller.failed, halive]
  | freeSend hp =>
    refine ⟨.poll 0, rfl, ?_⟩
    rw [s.record_eq (by simp only [State.recorded, hp]), State.withCells_freeSend]
    convert Step.sendFreed hp using 1
    simp [State.goOn, Poller.returned, Poller.failed, halive, hp]
  | refill hp =>
    have hrun : ((RegisteredBuffers.allocCode .recv : Code n).run s.cells).1 = s.recvRoot := by
      rw [RegisteredBuffers.run_allocCode, State.cells]
    refine ⟨.poll 0, rfl, ?_⟩
    rw [hrun]
    rw [s.record_eq (by simp only [State.recorded, hp]), State.withCells_allocRecv]
    -- when the pool is empty, `Alloc` returns null and the poller goes on without a buffer
    by_cases h0 : s.recvRoot = 0
    · convert Step.noneFree hp h0 using 1
      simp [State.goOn, RegisteredBuffers.alloc, hp, h0, Poller.returned, Poller.failed, halive]
    · convert Step.recvAlloc hp h0 using 1
      simp [State.goOn, RegisteredBuffers.alloc, hp, h0, Poller.returned, Poller.failed, halive]
  | @dequeue w hw =>
    have hrun : ((WorkQueue.dequeueCode w).run s.cells).1 = ((s.wq w).dequeue s.next).1 := by
      rw [WorkQueue.run_dequeueCode, Wakeup.dequeue_fst]
      rfl
    refine ⟨.serve w, rfl, ?_⟩
    rw [hrun]
    rw [show s.record (.worker w) = s from rfl, State.withCells_dequeue]
    by_cases h0 : ((s.wq w).dequeue s.next).1 = 0
    · have hhead : (s.wq w).head = 0 := by rwa [Wakeup.dequeue_fst] at h0
      rw [Wakeup.dequeue_snd_of_empty hhead]
      convert Step.noWork hw h0 using 1
      have hworker : Function.update s.worker w ((s.worker w).returned 0) = s.worker := by
        rw [show (s.worker w).returned 0 = s.worker w by rw [hw]; rfl, Function.update_eq_self]
      have haborted : (s.worker w).failed 0 = s.aborted := by
        rw [halive, hw]
        rfl
      simp only [State.goOn, h0, hworker, haborted, Function.update_eq_self]
    · convert Step.dequeued hw h0 using 1
      simp [State.goOn, hw, h0, Worker.returned, Worker.failed, halive]
  | @allocSend w work hw =>
    have hrun : ((RegisteredBuffers.allocCode .send : Code n).run s.cells).1 = s.sendRoot := by
      rw [RegisteredBuffers.run_allocCode, State.cells]
    -- the assertions of the worker hold, since the call did not fail
    have hne : work ≠ 0 ∧ s.sendRoot ≠ 0 := by
      by_contra hne
      simp [hrun, State.failed, hw, Worker.failed, hne] at hok
    refine ⟨.serve w, rfl, ?_⟩
    rw [hrun]
    rw [show s.record (.worker w) = s from rfl, State.withCells_allocSend]
    convert Step.sendAlloc hw hne.1 hne.2 using 1
    simp [State.goOn, RegisteredBuffers.alloc, hw, hne, Worker.returned, Worker.failed, halive]
  | @freeRecv w work hw =>
    refine ⟨.serve w, rfl, ?_⟩
    rw [show s.record (.worker w) = s from rfl, State.withCells_freeRecv]
    convert Step.recvFreed hw using 1
    simp [State.goOn, hw, Worker.returned, Worker.failed, halive]

end calls

/-- Every effect is one of a step, as long as no assertion has failed. -/
theorem step_of_effect {sv : Service n Req Resp T} {s s' : State n Req Resp T} {l : Label n Req}
    (halive : s.aborted = none) (h : Step sv s l s') : sv.step s l = some s' := by
  cases h with
  | fillFail hp hi h0 | fillAlloc hp hi h0 =>
    simp [Service.step, halive, Service.poll, hp, hi, RegisteredBuffers.alloc, h0]
  | fillDone hp hi => simp [Service.step, halive, Service.poll, hp, hi]
  | fillPost hp | enqueued hp | recvPost hp => simp [Service.step, halive, Service.poll, hp]
  | sendFreed hp => simp [Service.step, halive, Service.poll, hp, RegisteredBuffers.free]
  | noneReceived hp hq | received hp hq | routed hp hq | noneSent hp hq | reaped hp hq =>
    simp [Service.step, halive, Service.poll, hp, hq]
  | noneFree hp h0 | recvAlloc hp h0 =>
    simp [Service.step, halive, Service.poll, hp, RegisteredBuffers.alloc, h0]
  | noWork hw h0 | dequeued hw h0 => simp [Service.step, halive, Service.serve, hw, h0]
  | sendFail hw h0 =>
    have hnot : ¬ (_ ≠ 0 ∧ s.sendRoot ≠ 0) := fun hne => h0.elim hne.1 hne.2
    simp only [Service.step, halive, Service.serve, hw, RegisteredBuffers.alloc, if_neg hnot]
    rfl
  | sendAlloc hw h0 h1 =>
    simp [Service.step, halive, Service.serve, hw, RegisteredBuffers.alloc, h0, h1]
  | executed hw hrun => simp [Service.step, halive, Service.serve, hw, hrun]
  | posted hw => simp [Service.step, halive, Service.serve, hw]
  | recvFreed hw => simp [Service.step, halive, Service.serve, hw, RegisteredBuffers.free]
  | receive hmem => simp [Service.step, halive, hmem]
  | complete hmem => simp [Service.step, halive, hmem]

namespace Spinlock

/-! ### The server with all begun calls finished -/

namespace State

variable (s : State n Req Resp T)

/-- What the call of a thread that has its lock is going to return. -/
def result (i : Thread n) : Option Nat := (s.code i).map fun k => (k.run s.server.cells).1

/-- Where the poller will stand then. -/
def poller : Poller n :=
  match s.result .poller with
  | none => s.server.poller
  | some r => s.server.poller.returned r

/-- Where a worker will stand then. -/
def worker (w : Fin n) : Worker :=
  match s.result (.worker w) with
  | none => s.server.worker w
  | some r => (s.server.worker w).returned r

/-- The server when all threads that have a lock have finished their calls, with `m` in memory. -/
def atomic (m : Loc n → Nat) : Serving.State n Req Resp T :=
  { s.server.withCells m with poller := s.poller, worker := s.worker }

variable {s} {m : Loc n → Nat}

@[simp] theorem cells_atomic : (s.atomic m).cells = m := s.server.cells_withCells m

@[simp] theorem aborted_atomic : (s.atomic m).aborted = s.server.aborted := rfl

theorem poller_of_none (h : s.code .poller = none) : s.poller = s.server.poller := by
  simp [poller, result, h]

theorem worker_of_none {w : Fin n} (h : s.code (.worker w) = none) :
    s.worker w = s.server.worker w := by
  simp [worker, result, h]

theorem poller_atomic (m : Loc n → Nat) (h : s.code .poller = none) : (s.atomic m).poller = s.server.poller :=
  poller_of_none h

theorem worker_atomic (m : Loc n → Nat) {w : Fin n}
    (h : s.code (.worker w) = none) :
    (s.atomic m).worker w = s.server.worker w :=
  worker_of_none h

/-- The calls of the threads that have no lock. -/
theorem call_atomic {i : Thread n} (h : s.code i = none) :
    (s.atomic m).call i = s.server.call i := by
  cases i with
  | poller => simp only [Serving.State.call, atomic, poller_of_none h]
  | worker w => simp only [Serving.State.call, atomic, worker_of_none h]

theorem failed_atomic {i : Thread n} (h : s.code i = none) (r : Nat) :
    (s.atomic m).failed r i = s.server.failed r i := by
  cases i with
  | poller => simp only [Serving.State.failed, atomic, poller_of_none h]
  | worker w => simp only [Serving.State.failed, atomic, worker_of_none h]

/-- When no thread has a lock, it is the server itself. -/
theorem atomic_of_idle (h : ∀ i, s.code i = none) : s.atomic s.server.cells = s.server := by
  have hworker : s.worker = s.server.worker := funext fun w => worker_of_none (h _)
  rw [atomic, poller_of_none (h _), hworker]
  rfl

end State

/-! ### How it changes -/

section change

variable {s s' : State n Req Resp T} {m m' : Loc n → Nat} {i : Thread n} {r : Nat}

theorem recorded_atomic (h : s.code i = none) :
    (s.atomic m).recorded i = s.server.recorded i := by
  cases i with
  | poller => simp only [Serving.State.recorded, State.atomic, State.poller_of_none h]; rfl
  | worker w => rfl

/-- A thread begins a call that does not fail. -/
theorem atomic_begin (hcode : s.code i = none) (hserver : s'.server = s.server.record i)
    (hself : s'.result i = some r) (hother : ∀ j, j ≠ i → s'.result j = s.result j)
    (hok : s.server.failed r i = none) (halive : s.server.aborted = none) :
    s'.atomic m' = (((s.atomic m).record i).withCells m').goOn r i := by
  have hrecord : (s.atomic m).record i =
      { s.atomic m with dispatched := s.server.recorded i } := by
    rw [Serving.State.record, recorded_atomic hcode]
  rw [hrecord, State.atomic, hserver]
  -- only the thread `i` goes on with its result, the others stay in their calls
  cases i with
  | poller =>
    have hpoller : s'.poller = s.server.poller.returned r := by
      simp only [State.poller, hself, hserver, Serving.State.record]
    have hworker : s'.worker = s.worker := by
      funext w
      simp only [State.worker, hother (.worker w) (by simp), hserver, Serving.State.record]
    have hfailed : s.server.poller.failed r = none := hok
    simp [hpoller, hworker, Serving.State.record, Serving.State.goOn, Serving.State.withCells,
      State.atomic, State.poller_of_none hcode, hfailed, halive]
  | worker w =>
    have hpoller : s'.poller = s.poller := by
      simp only [State.poller, hother .poller (by simp), hserver, Serving.State.record]
    have hworker : s'.worker = Function.update s.worker w ((s.server.worker w).returned r) := by
      funext v
      by_cases hv : v = w
      · subst hv
        simp only [State.worker, hself, hserver, Serving.State.record, Function.update_self]
      · simp only [State.worker, hother (.worker v) (by simpa using hv), hserver,
          Serving.State.record, Function.update_of_ne hv]
    have hfailed : (s.server.worker w).failed r = none := hok
    simp [hpoller, hworker, Serving.State.record, Serving.State.goOn, Serving.State.withCells,
      State.atomic, State.worker_of_none hcode, hfailed, halive]

/-- A worker begins a call that will fail. -/
theorem atomic_failing {w : Fin n} (hcode : s.code (.worker w) = none)
    (hserver : s'.server = s.server.record (.worker w)) (hself : s'.result (.worker w) = some r)
    (hother : ∀ j, j ≠ .worker w → s'.result j = s.result j)
    (hfail : (s.server.worker w).failed r ≠ none) : s'.atomic m = s.atomic m := by
  have hserver' : s'.server = s.server := hserver
  have hpoller : s'.poller = s.poller := by
    simp only [State.poller, hother .poller (by simp), hserver']
  have hworker : s'.worker = s.worker := by
    funext v
    by_cases hv : v = w
    · subst hv
      rw [State.worker_of_none hcode]
      simp only [State.worker, hself, hserver', Worker.returned_of_failed hfail]
    · simp only [State.worker, hother (.worker v) (by simpa using hv), hserver']
  rw [State.atomic, State.atomic, hpoller, hworker, hserver']

/-- What is going to be returned does not change: nor does the server with the calls finished. -/
theorem atomic_congr (hserver : s'.server = s.server.withCells s'.server.cells)
    (hresult : ∀ j, s'.result j = s.result j) : s'.atomic m = s.atomic m := by
  have hpoller : s'.poller = s.poller := by
    rw [State.poller, State.poller, hresult, hserver]
    rfl
  have hworker : s'.worker = s.worker := by
    funext w
    rw [State.worker, State.worker, hresult, hserver]
    rfl
  rw [State.atomic, State.atomic, hpoller, hworker, hserver]
  rfl

/-- A thread leaves its call. -/
theorem atomic_leave (hself : s.result i = some r) (hserver : s'.server = s.server.goOn r i)
    (hnone : s'.result i = none) (hother : ∀ j, j ≠ i → s'.result j = s.result j) :
    s'.atomic m = { s.atomic m with aborted := s.server.failed r i } := by
  rw [State.atomic, State.atomic, hserver]
  -- the thread has gone on already when the call took effect
  cases i with
  | poller =>
    have hpoller : s'.poller = s.poller := by
      simp only [State.poller, hself, hnone, hserver, Serving.State.goOn]
    have hworker : s'.worker = s.worker := by
      funext w
      simp only [State.worker, hother (.worker w) (by simp), hserver, Serving.State.goOn]
    simp only [hpoller, hworker, Serving.State.goOn, Serving.State.withCells,
      Serving.State.failed]
  | worker w =>
    have hpoller : s'.poller = s.poller := by
      simp only [State.poller, hother .poller (by simp), hserver, Serving.State.goOn]
    have hworker : s'.worker = s.worker := by
      funext v
      by_cases hv : v = w
      · subst hv
        simp only [State.worker, hself, hnone, hserver, Serving.State.goOn, Function.update_self]
      · simp only [State.worker, hother (.worker v) (by simpa using hv), hserver,
          Serving.State.goOn, Function.update_of_ne hv]
    simp only [hpoller, hworker, Serving.State.goOn, Serving.State.withCells,
      Serving.State.failed]

/-- The poller makes a step outside of the calls. -/
theorem atomic_poll (t : Serving.State n Req Resp T) (m' : Loc n → Nat)
    (hcode : s.code .poller = none) (hworker : t.worker = s.server.worker)
    (hresult : ∀ j, State.result { s with server := t } j = s.result j) :
    State.atomic { s with server := t } m' = { t.withCells m' with worker := s.worker } := by
  have hpoller : State.poller { s with server := t } = t.poller := State.poller_of_none hcode
  have hworker' : State.worker { s with server := t } = s.worker := by
    funext w
    simp only [State.worker, hresult, hworker]
  rw [State.atomic, hpoller, hworker']
  rfl

/-- A worker does. -/
theorem atomic_serve (t : Serving.State n Req Resp T) (m' : Loc n → Nat) {w : Fin n}
    {wk : Worker} (hcode : s.code (.worker w) = none) (hpoller : t.poller = s.server.poller)
    (hworker : t.worker = Function.update s.server.worker w wk)
    (hresult : ∀ j, State.result { s with server := t } j = s.result j) :
    State.atomic { s with server := t } m' =
      { t.withCells m' with poller := s.poller, worker := Function.update s.worker w wk } := by
  have hpoller' : State.poller { s with server := t } = s.poller := by
    simp only [State.poller, hresult, hpoller]
  have hworker' : State.worker { s with server := t } = Function.update s.worker w wk := by
    funext v
    by_cases hv : v = w
    · subst hv
      rw [Function.update_self]
      have hv : State.worker { s with server := t } v = t.worker v := State.worker_of_none hcode
      rw [hv, hworker, Function.update_self]
    · rw [Function.update_of_ne hv]
      simp only [State.worker, hresult, hworker, Function.update_of_ne hv]
  rw [State.atomic, hpoller', hworker']

/-- The network does. -/
theorem atomic_network (t : Serving.State n Req Resp T) (m' : Loc n → Nat)
    (hpoller : t.poller = s.server.poller) (hworker : t.worker = s.server.worker)
    (hresult : ∀ j, State.result { s with server := t } j = s.result j) :
    State.atomic { s with server := t } m' =
      { t.withCells m' with poller := s.poller, worker := s.worker } := by
  have hpoller' : State.poller { s with server := t } = s.poller := by
    simp only [State.poller, hresult, hpoller]
  have hworker' : State.worker { s with server := t } = s.worker := by
    funext w
    simp only [State.worker, hresult, hworker]
  rw [State.atomic, hpoller', hworker']

/-- The poller takes a request from the network, and the link of its buffer changes. -/
theorem step_received {sv : Service n Req Resp T} {link : Nat} {wc : WorkCompletion}
    {rcq : List WorkCompletion} {t : Serving.State n Req Resp T} {c : Contents n}
    (hp : s.server.poller = .tryReceive) (hrcq : s.server.rcq = wc :: rcq)
    (hcode : s.code .poller = none) (hsound : Sound (s.atomic m) c)
    (hpending : Pending s.server.cells s.code m)
    (howns : ∀ i k, s.code i = some k → ∃ l, ∀ x ∈ k.footprint s.server.cells,
      (s.atomic m).Owns c i l x)
    (ht : t = { s.server with
      rcq
      next := Function.update s.server.next wc.wrId link
      peerAddr := Function.update s.server.peerAddr wc.wrId wc.peerAddr
      poller := .dispatch wc.wrId }) :
    ∃ m', Serving.Step sv (s.atomic m) (.poll link) (State.atomic { s with server := t } m') ∧
      Pending t.cells s.code m' ∧
      ∀ i k, s.code i = some k → ∀ x ∈ k.footprint s.server.cells, t.cells x = s.server.cells x := by
  -- the buffer comes from the network, so that nobody else may touch its link
  have hat : (s.atomic m).At c .network wc.wrId := by
    have hmem : wc.wrId ∈ s.server.rcq.map (·.wrId) := by
      rw [hrcq]
      exact List.mem_cons_self
    exact Or.inl ⟨.receiveQueue, rfl, List.mem_append_right _ hmem⟩
  have hapart : ∀ i k, s.code i = some k → ∀ x ∈ k.footprint s.server.cells,
      x ≠ .next wc.wrId := by
    rintro i k hk x hx rfl
    obtain ⟨l, howns⟩ := howns i k hk
    rcases howns _ hx with hother | hother
    · cases hsound.at_unique hat hother
    · cases hsound.at_unique hat hother
  have hcells : t.cells = Function.update s.server.cells (.next wc.wrId) link := by
    subst ht
    funext x
    rcases x with (_ | _) | _ | _ | b
    · rfl
    · rfl
    · rfl
    · rfl
    · simp [Serving.State.cells, Function.update_apply]
  have hsame : ∀ i k, s.code i = some k → ∀ x ∈ k.footprint s.server.cells,
      t.cells x = s.server.cells x := by
    intro i k hk x hx
    rw [hcells]
    exact Function.update_of_ne (hapart i k hk x hx) _ _
  have hresult : ∀ j, State.result { s with server := t } j = s.result j := by
    intro j
    simp only [State.result]
    cases hk : s.code j with
    | none => rfl
    | some k => exact congrArg some (Sections.Code.result_congr (hsame j k hk))
  have hworker : t.worker = s.server.worker := by rw [ht]
  -- the memory of the atomic server gets the same link
  refine ⟨Function.update m (.next wc.wrId) link, ?_, ?_, hsame⟩
  · rw [atomic_poll t (Function.update m (.next wc.wrId) link) hcode hworker hresult]
    convert Serving.Step.received (s.poller_atomic m hcode |>.trans hp)
      (show (s.atomic m).rcq = wc :: rcq from hrcq) using 1
    have hnext : (fun b => Function.update m (.next wc.wrId) link (.next b)) =
        Function.update (s.atomic m).next wc.wrId link := by
      funext b
      simp [State.atomic, Serving.State.withCells, Function.update_apply]
    rw [ht, ← hnext]
    simp [State.atomic, Serving.State.withCells]
  · rw [hcells]
    apply hpending.change
    · intro i k hk x hx
      have hne := hapart i k hk x hx
      exact ⟨Function.update_of_ne hne _ _, Function.update_of_ne hne _ _⟩
    · intro x hx
      by_cases hnext : x = .next wc.wrId
      · rw [hnext, Function.update_self, Function.update_self]
      · rw [Function.update_of_ne hnext, Function.update_of_ne hnext]
        exact hpending.rest x hx

/-- Any step outside of the calls is a step of the server with the calls finished. -/
theorem step_other {sv : Service n Req Resp T} {l : Serving.Label n Req}
    {t : Serving.State n Req Resp T} {c : Contents n}
    (hstep : Serving.Step sv s.server l t) (hcalling : s.calling l = false)
    (hidle : ∀ i, l.thread = some i → s.code i = none) (hsound : Sound (s.atomic m) c)
    (hpending : Pending s.server.cells s.code m)
    (howns : ∀ i k, s.code i = some k → ∃ l, ∀ x ∈ k.footprint s.server.cells,
      (s.atomic m).Owns c i l x) :
    ∃ m', Serving.Step sv (s.atomic m) l (State.atomic { s with server := t } m') ∧
      Pending t.cells s.code m' ∧
      ∀ i k, s.code i = some k → ∀ x ∈ k.footprint s.server.cells, t.cells x = s.server.cells x := by
  have hnone : ∀ i, l.thread = some i → s.server.call i = none := by
    intro i hi
    simpa [State.calling, hi] using hcalling
  -- most steps do not touch the cells at all
  have hquiet : ∀ t u : Serving.State n Req Resp T, t.cells = s.server.cells →
      State.atomic { s with server := t } m = u → Serving.Step sv (s.atomic m) l u →
      ∃ m', Serving.Step sv (s.atomic m) l (State.atomic { s with server := t } m') ∧
        Pending t.cells s.code m' ∧
        ∀ i k, s.code i = some k → ∀ x ∈ k.footprint s.server.cells,
          t.cells x = s.server.cells x := by
    rintro t _ hcells rfl h
    exact ⟨m, h, by rwa [hcells], fun _ _ _ _ _ => by rw [hcells]⟩
  have hresult : ∀ t : Serving.State n Req Resp T, t.cells = s.server.cells →
      ∀ j, State.result { s with server := t } j = s.result j := by
    intro t hcells j
    simp only [State.result, hcells]
  -- steps that are calls are excluded; the others go through as they are, but for the link of a
  -- received buffer
  cases hstep with
  | fillFail hp hi _ | fillAlloc hp hi _ =>
    have hcall := hnone _ rfl
    simp [Serving.State.call, hp, Poller.call, hi] at hcall
  | enqueued hp | sendFreed hp | noneFree hp _ | recvAlloc hp _ =>
    have hcall := hnone _ rfl
    simp [Serving.State.call, hp, Poller.call] at hcall
  | noWork hw _ | dequeued hw _ | sendFail hw _ | sendAlloc hw _ _ | recvFreed hw =>
    have hcall := hnone _ rfl
    simp [Serving.State.call, hw, Worker.call] at hcall
  | fillDone hp hi =>
    have hcode := hidle _ rfl
    exact hquiet _ _ (by rfl) (atomic_poll _ m hcode (by rfl) (hresult _ (by rfl)))
      (.fillDone ((State.poller_atomic m hcode).trans hp) hi)
  | fillPost hp =>
    have hcode := hidle _ rfl
    exact hquiet _ _ (by rfl) (atomic_poll _ m hcode (by rfl) (hresult _ (by rfl)))
      (.fillPost ((State.poller_atomic m hcode).trans hp))
  | noneReceived hp hq =>
    have hcode := hidle _ rfl
    exact hquiet _ _ (by rfl) (atomic_poll _ m hcode (by rfl) (hresult _ (by rfl)))
      (.noneReceived ((State.poller_atomic m hcode).trans hp) hq)
  | received hp hrcq => exact step_received hp hrcq (hidle _ rfl) hsound hpending howns rfl
  | routed hp hw =>
    have hcode := hidle _ rfl
    exact hquiet _ _ (by rfl) (atomic_poll _ m hcode (by rfl) (hresult _ (by rfl)))
      (.routed ((State.poller_atomic m hcode).trans hp) hw)
  | noneSent hp hq =>
    have hcode := hidle _ rfl
    exact hquiet _ _ (by rfl) (atomic_poll _ m hcode (by rfl) (hresult _ (by rfl)))
      (.noneSent ((State.poller_atomic m hcode).trans hp) hq)
  | reaped hp hq =>
    have hcode := hidle _ rfl
    exact hquiet _ _ (by rfl) (atomic_poll _ m hcode (by rfl) (hresult _ (by rfl)))
      (.reaped ((State.poller_atomic m hcode).trans hp) hq)
  | recvPost hp =>
    have hcode := hidle _ rfl
    exact hquiet _ _ (by rfl) (atomic_poll _ m hcode (by rfl) (hresult _ (by rfl)))
      (.recvPost ((State.poller_atomic m hcode).trans hp))
  | executed hw hrun =>
    have hcode := hidle _ rfl
    exact hquiet _ _ (by rfl) (atomic_serve _ m hcode (by rfl) (by rfl) (hresult _ (by rfl)))
      (.executed ((State.worker_atomic m hcode).trans hw) hrun)
  | posted hw =>
    have hcode := hidle _ rfl
    exact hquiet _ _ (by rfl) (atomic_serve _ m hcode (by rfl) (by rfl) (hresult _ (by rfl)))
      (.posted ((State.worker_atomic m hcode).trans hw))
  | receive hmem =>
    exact hquiet _ _ (by rfl) (atomic_network _ m (by rfl) (by rfl) (hresult _ (by rfl)))
      (.receive hmem)
  | complete hmem =>
    exact hquiet _ _ (by rfl) (atomic_network _ m (by rfl) (by rfl) (hresult _ (by rfl)))
      (.complete hmem)

end change

end Spinlock

end Nvds.Serving
