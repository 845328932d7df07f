import Nvds.Serving.Wakeup

/-! # The sections under `mtx_` (`server.h`, `server.cc`)

    `Worker::Enqueue` and the wait of `Serve` are taken apart into the calls
    they make while they hold `mtx_`. In between the worker may spin, if it
    is not the one that holds `mtx_`, and other threads may write to the
    links. The calls of the queue stay single steps.

    This refines the system in which the sections are single steps: the
    section of `Enqueue` takes place when the buffer is appended, that of the
    worker when the predicate is evaluated.
-/

namespace Nvds.Serving.Locks

open Wakeup (Memory)

/-! ### The code -/

/-- Where `Serve` stands. -/
inductive Pc where
  /-- Before the first `Dequeue` of `TryPollWork`. -/
  | tryPollWork
  /-- At the condition of the loop of `TryPollWork`. -/
  | spin
  /-- Before `mtx_` is taken, at first or after waking up. -/
  | lock
  /-- With `mtx_`, before the predicate is evaluated. -/
  | predicate
  /-- With `mtx_`, when the predicate was false. -/
  | wait
  /-- Blocked in `cond_var_.wait`, which has released `mtx_`. -/
  | blocked
  /-- With `mtx_`, when the predicate was true. -/
  | unlock
  /-- Behind the wait, to the end of the round. -/
  | serve
  deriving DecidableEq, Repr

/-- Who holds `mtx_`: nobody, the worker, or a thread in `Enqueue`, with the call it makes
    next. -/
inductive Mtx where
  | free
  | worker
  | enqueue (work : Nat)
  | notify
  | unlock
  deriving DecidableEq, Repr

/-- One worker and its mutex. -/
structure State extends Memory where
  pc : Pc
  notified : Bool
  mtx : Mtx

/-- The worker when its thread starts. -/
structure Init (s : State) : Prop where
  wq : s.wq = ⟨0, 0⟩
  work : s.work = 0
  record : s.obtained = [] ∧ s.served = []
  pc : s.pc = .tryPollWork
  notified : s.notified = false
  mtx : s.mtx = .free

namespace State

variable (s : State)

/-- A step of the thread that is in `Enqueue`. -/
def enqueue : Option State :=
  match s.mtx with
  | .enqueue work => some { s with toMemory := s.toMemory.enqueue work, mtx := .notify }
  | .notify => some { s with notified := s.notified || s.pc = .blocked, mtx := .unlock }
  | .unlock => some { s with mtx := .free }
  | .free => none
  | .worker => none

/-- A step of `Serve`. -/
def serve (early : Bool) : Option State :=
  match s.pc with
  | .tryPollWork => some { s with toMemory := s.dequeue, pc := .spin }
  | .spin =>
    if s.work = 0 ∧ early then
      some { s with toMemory := s.dequeue }
    else
      some { s with pc := if s.work = 0 then .lock else .serve }
  | .lock => if s.mtx = .free then some { s with pc := .predicate, mtx := .worker } else none
  | .predicate =>
    let r := s.predicate
    some { s with toMemory := r.2, pc := if r.1 then .unlock else .wait }
  | .wait => some { s with pc := .blocked, mtx := .free }
  | .blocked => some { s with pc := .lock, notified := false }
  | .unlock => some { s with pc := .serve, mtx := .free }
  | .serve => some { s with toMemory := s.endRound, pc := .tryPollWork }

end State

/-- The steps of the system. -/
inductive Label where
  /-- A thread that calls `Enqueue` takes `mtx_`. -/
  | call (work : Nat)
  | enqueue
  | serve (early : Bool)
  /-- Other threads write to the links. -/
  | links (next : Nat → Nat)

def step (s : State) : Label → Option State
  | .call work => if s.mtx = .free then some { s with mtx := .enqueue work } else none
  | .enqueue => s.enqueue
  | .serve early => s.serve early
  | .links next => some { s with next }

/-- The states of all interleavings. -/
abbrev Reachable : State → Prop :=
  Transition.Reachable Init fun s l s' => step s l = some s'

/-! ### What a step can do -/

/-- The effects of the steps, each with the condition under which it happens. -/
inductive Step (s : State) : Label → State → Prop
  | call {work : Nat} : s.mtx = .free → Step s (.call work) { s with mtx := .enqueue work }
  | append {work : Nat} : s.mtx = .enqueue work →
      Step s .enqueue { s with toMemory := s.toMemory.enqueue work, mtx := .notify }
  | notify : s.mtx = .notify →
      Step s .enqueue { s with notified := s.notified || s.pc = .blocked, mtx := .unlock }
  | leave : s.mtx = .unlock → Step s .enqueue { s with mtx := .free }
  | first {early : Bool} : s.pc = .tryPollWork →
      Step s (.serve early) { s with toMemory := s.dequeue, pc := .spin }
  | again {early : Bool} : s.pc = .spin → s.work = 0 ∧ early →
      Step s (.serve early) { s with toMemory := s.dequeue }
  | polled {early : Bool} : s.pc = .spin → ¬ (s.work = 0 ∧ early) →
      Step s (.serve early) { s with pc := if s.work = 0 then .lock else .serve }
  | lock {early : Bool} : s.pc = .lock → s.mtx = .free →
      Step s (.serve early) { s with pc := .predicate, mtx := .worker }
  | predicate {early : Bool} : s.pc = .predicate →
      Step s (.serve early)
        { s with toMemory := s.predicate.2, pc := if s.predicate.1 then .unlock else .wait }
  | block {early : Bool} : s.pc = .wait →
      Step s (.serve early) { s with pc := .blocked, mtx := .free }
  | wake {early : Bool} : s.pc = .blocked →
      Step s (.serve early) { s with pc := .lock, notified := false }
  | unlock {early : Bool} : s.pc = .unlock →
      Step s (.serve early) { s with pc := .serve, mtx := .free }
  | served {early : Bool} : s.pc = .serve →
      Step s (.serve early) { s with toMemory := s.endRound, pc := .tryPollWork }
  | links {next : Nat → Nat} : Step s (.links next) { s with next }

variable {s s' : State} {l : Label}

theorem enqueue_cases (h : s.enqueue = some s') : Step s .enqueue s' := by
  unfold State.enqueue at h
  split at h
  case h_1 work hm =>
    cases h
    exact .append hm
  case h_2 hm =>
    cases h
    exact .notify hm
  case h_3 hm =>
    cases h
    exact .leave hm
  case h_4 => cases h
  case h_5 => cases h

theorem serve_cases {early : Bool} (h : s.serve early = some s') : Step s (.serve early) s' := by
  -- one case for each place in `Serve`
  unfold State.serve at h
  split at h
  case h_1 hpc =>
    cases h
    exact .first hpc
  case h_2 hpc =>
    split at h
    · next hspin =>
      cases h
      exact .again hpc hspin
    · next hspin =>
      cases h
      exact .polled hpc hspin
  case h_3 hpc =>
    split at h
    · next hm =>
      cases h
      exact .lock hpc hm
    · cases h
  case h_4 hpc =>
    cases h
    exact .predicate hpc
  case h_5 hpc =>
    cases h
    exact .block hpc
  case h_6 hpc =>
    cases h
    exact .wake hpc
  case h_7 hpc =>
    cases h
    exact .unlock hpc
  case h_8 hpc =>
    cases h
    exact .served hpc

/-- Every step has one of the effects. -/
theorem step_cases (h : step s l = some s') : Step s l s' := by
  cases l with
  | call work =>
    dsimp only [step] at h
    split at h
    · next hm =>
      cases h
      exact .call hm
    · cases h
  | enqueue => exact enqueue_cases h
  | serve early => exact serve_cases h
  | links next =>
    cases h
    exact .links

/-! ### Mutual exclusion -/

/-- The places of `Serve` where it has `mtx_`. -/
def Pc.hasMtx : Pc → Bool
  | .predicate | .wait | .unlock => true
  | .tryPollWork | .spin | .lock | .blocked | .serve => false

/-- The worker holds `mtx_` exactly at those places. -/
def Exclusive (s : State) : Prop := s.pc.hasMtx = true ↔ s.mtx = .worker

theorem Exclusive.step (h : Exclusive s) (hstep : Step s l s') : Exclusive s' := by
  unfold Exclusive at *
  cases hstep with
  | call hm => simpa [hm] using h
  | append hm => simpa [hm] using h
  | notify hm => simpa [hm] using h
  | leave hm => simpa [hm] using h
  | first hpc => simpa [hpc, Pc.hasMtx] using h
  | again _ _ => exact h
  | polled hpc _ =>
    by_cases hw : s.work = 0
    · simpa [hpc, hw, Pc.hasMtx] using h
    · simpa [hpc, hw, Pc.hasMtx] using h
  | lock _ _ => simp [Pc.hasMtx]
  | predicate hpc =>
    -- both outcomes keep `mtx_`
    have hm : s.mtx = .worker := h.mp (by rw [hpc]; rfl)
    cases s.predicate.1 <;> simp [hm, Pc.hasMtx]
  | block _ => simp [Pc.hasMtx]
  | wake hpc => simpa [hpc, Pc.hasMtx] using h
  | unlock _ => simp [Pc.hasMtx]
  | served hpc => simpa [hpc, Pc.hasMtx] using h
  | links => exact h

theorem exclusive_of_reachable (h : Reachable s) : Exclusive s := by
  refine h.invariant Exclusive ?_ fun s l s' hs hstep => hs.step (step_cases hstep)
  intro s hs
  simp [Exclusive, hs.pc, hs.mtx, Pc.hasMtx]

/-! ### Sections as single steps -/

/-- The place in terms of the sections: before the predicate is evaluated the section has not
    happened yet, afterwards it has. -/
def Pc.atomic : Pc → Wakeup.Pc
  | .tryPollWork => .tryPollWork
  | .spin => .spin
  | .lock => .lock
  | .predicate => .lock
  | .wait => .blocked
  | .blocked => .blocked
  | .unlock => .serve
  | .serve => .serve

/-- The state in terms of the sections. A notification that is about to be given counts. -/
def State.atomic (s : State) : Wakeup.State where
  toMemory := s.toMemory
  pc := s.pc.atomic
  notified := s.notified || (s.pc = .blocked && s.mtx = .notify)

/-- Every step is a step of the system of sections, or not visible there. -/
theorem Step.atomic (h : Step s l s') (hex : Exclusive s) :
    s'.atomic = s.atomic ∨ ∃ l', Wakeup.step s.atomic l' = s'.atomic := by
  cases h with
  | call hm => exact Or.inl (by simp [State.atomic, hm])
  | @append work hm =>
    refine Or.inr ⟨.enqueue work, ?_⟩
    -- the worker is not in its section, so it sleeps or will evaluate the predicate later
    have hpc : s.pc ≠ .wait := by
      intro hpc
      rw [Exclusive, hpc, hm] at hex
      exact absurd (hex.mp rfl) (by simp)
    have hsleep : s.pc.atomic = .blocked ↔ s.pc = .blocked := by
      cases hp : s.pc <;> simp_all [Pc.atomic]
    simp [Wakeup.step, Wakeup.State.enqueue, Wakeup.State.notifyOne, State.atomic, hm, hsleep]
  | notify hm => exact Or.inl (by simp [State.atomic, hm])
  | leave hm => exact Or.inl (by simp [State.atomic, hm])
  | first hpc =>
    refine Or.inr ⟨.serve true, ?_⟩
    simp [Wakeup.step, Wakeup.State.serve, State.atomic, hpc, Pc.atomic]
  | @again early hpc hspin =>
    refine Or.inr ⟨.serve early, ?_⟩
    simp [Wakeup.step, Wakeup.State.serve, State.atomic, hpc, Pc.atomic, hspin]
  | @polled early hpc hspin =>
    refine Or.inr ⟨.serve early, ?_⟩
    -- the worker has spun long enough: it sleeps, or it has found work
    by_cases hw : s.work = 0
    · simp_all [Wakeup.step, Wakeup.State.serve, State.atomic, Pc.atomic]
    · simp_all [Wakeup.step, Wakeup.State.serve, State.atomic, Pc.atomic]
  | lock hpc hm => exact Or.inl (by simp [State.atomic, hpc, Pc.atomic])
  | predicate hpc =>
    refine Or.inr ⟨.serve true, ?_⟩
    cases hp : s.predicate.1 <;>
      simp [Wakeup.step, Wakeup.State.serve, Wakeup.State.wait, State.atomic, hpc, Pc.atomic, hp]
  | block hpc =>
    exact Or.inl (by simp [State.atomic, hpc, Pc.atomic])
  | wake hpc =>
    refine Or.inr ⟨.serve true, ?_⟩
    simp [Wakeup.step, Wakeup.State.serve, State.atomic, hpc, Pc.atomic]
  | unlock hpc => exact Or.inl (by simp [State.atomic, hpc, Pc.atomic])
  | served hpc =>
    refine Or.inr ⟨.serve true, ?_⟩
    simp [Wakeup.step, Wakeup.State.serve, State.atomic, hpc, Pc.atomic]
  | @links next => exact Or.inr ⟨.links next, rfl⟩

/-- **Refinement.** In terms of the sections, every interleaving of the calls is an interleaving
    of the sections. -/
theorem atomic_of_reachable (h : Reachable s) : Wakeup.Reachable s.atomic := by
  refine h.refines State.atomic ?_ ?_
  · intro s hs
    exact ⟨hs.wq, hs.work, hs.record, by simp [State.atomic, hs.pc, Pc.atomic],
      by simp [State.atomic, hs.notified, hs.pc]⟩
  · intro s l s' hs hstep hatomic
    rcases (step_cases hstep).atomic (exclusive_of_reachable hs) with heq | ⟨l', hl'⟩
    · rw [heq]
      exact hatomic
    · exact .step l' hatomic hl'

/-- Inside the sections, too, a worker that sleeps while its queue is not empty is notified, or
    the thread that is in `Enqueue` is about to notify it. -/
theorem notified_or_notify (h : Reachable s) (hpc : s.pc = .blocked) (hhead : s.wq.head ≠ 0) :
    s.notified = true ∨ s.mtx = .notify := by
  have hinv := Wakeup.inv_of_reachable (atomic_of_reachable h)
  by_contra hnone
  obtain ⟨hn, hm⟩ := not_or.mp hnone
  refine hhead (hinv.asleep ?_ ?_)
  · simp [State.atomic, hpc, Pc.atomic]
  · simp [State.atomic, hm, Bool.eq_false_iff.mpr hn]

end Nvds.Serving.Locks
