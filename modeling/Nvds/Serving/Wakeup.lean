import Nvds.Serving.Model

/-! # Sleeping and waking of a worker (`server.h`, `server.cc`)

    A worker first calls `Dequeue` for some time without holding `mtx_`
    (`TryPollWork`). If that gives no work, it takes `mtx_` and waits on
    `cond_var_` with a predicate that calls `Dequeue` again. `Worker::Enqueue`
    holds `mtx_` while it appends to the queue and notifies.

    The sections under `mtx_` and the calls of the queue are single steps. The
    worker may wake up at any time, notified or not. `Enqueue` may be called
    with anything at any time, and the links of the buffers, which the pools
    share, may change between any two steps.
-/

namespace Nvds.Serving.Wakeup

/-! ### Memory -/

/-- What the calls of the queue work on: the links, `wq_` and the variable `work` of `Serve`,
    which stands for `ans` while `TryPollWork` runs. The last two fields record the work that
    `Dequeue` returned and the work that was served. -/
structure Memory where
  next : Nat → Nat
  wq : WorkQueue
  work : Nat
  obtained : List Nat
  served : List Nat

/-- The work in a variable that may be null. -/
def hand (work : Nat) : List Nat := if work = 0 then [] else [work]

namespace Memory

variable (m : Memory)

/-- `wq_.Enqueue(work)`. -/
def enqueue (work : Nat) : Memory :=
  let r := m.wq.enqueue m.next work
  { m with next := r.1, wq := r.2 }

/-- `work = wq_.Dequeue()`, whatever `work` was. -/
def dequeue : Memory :=
  let r := m.wq.dequeue m.next
  { m with wq := r.2, work := r.1, obtained := m.obtained ++ hand r.1 }

/-- The predicate of the wait, with its side effect on `work`. -/
def predicate : Bool × Memory :=
  if m.work ≠ 0 then
    (true, m)
  else
    (decide (m.dequeue.work ≠ 0), m.dequeue)

/-- The end of a round, where `work` goes out of scope. -/
def endRound : Memory := { m with work := 0, served := m.served ++ [m.work] }

end Memory

/-! ### The worker -/

/-- Where `Serve` stands. -/
inductive Pc where
  /-- Before the first `Dequeue` of `TryPollWork`. -/
  | tryPollWork
  /-- At the condition of the loop of `TryPollWork`. -/
  | spin
  /-- Before `mtx_` is taken, at first or after waking up. -/
  | lock
  /-- Blocked in `cond_var_.wait`, which has released `mtx_`. -/
  | blocked
  /-- Behind the wait, to the end of the round. -/
  | serve
  deriving DecidableEq, Repr

/-- One worker. `notified` is a notification that it has not woken up from. -/
structure State extends Memory where
  pc : Pc
  notified : Bool

/-- The worker when its thread starts. -/
structure Init (s : State) : Prop where
  wq : s.wq = ⟨0, 0⟩
  work : s.work = 0
  record : s.obtained = [] ∧ s.served = []
  pc : s.pc = .tryPollWork
  notified : s.notified = false

namespace State

variable (s : State)

/-- `cond_var_.notify_one()`. Nobody but the worker waits. -/
def notifyOne : State := { s with notified := s.notified || s.pc = .blocked }

/-- `Worker::Enqueue`. -/
def enqueue (work : Nat) : State :=
  { s with toMemory := s.toMemory.enqueue work }.notifyOne

/-- The predicate is evaluated under `mtx_`, and the worker goes on or blocks. -/
def wait : State :=
  let r := s.predicate
  { s with toMemory := r.2, pc := if r.1 then .serve else .blocked }

/-- A step of `Serve`. `early` is `m.cur_period() < 50`, which is read while there is no work. -/
def serve (early : Bool) : State :=
  match s.pc with
  | .tryPollWork => { s with toMemory := s.dequeue, pc := .spin }
  | .spin =>
    if s.work = 0 ∧ early then
      { s with toMemory := s.dequeue }
    else
      { s with pc := if s.work = 0 then .lock else .serve }
  | .lock => s.wait
  | .blocked => { s with pc := .lock, notified := false }
  -- the rest of the round uses neither the queue nor `mtx_`
  | .serve => { s with toMemory := s.endRound, pc := .tryPollWork }

end State

/-- The steps of the system. -/
inductive Label where
  /-- A call of `Enqueue`. -/
  | enqueue (work : Nat)
  | serve (early : Bool)
  /-- Other threads write to the links. -/
  | links (next : Nat → Nat)

def step (s : State) : Label → State
  | .enqueue work => s.enqueue work
  | .serve early => s.serve early
  | .links next => { s with next }

/-- The states of all interleavings. -/
abbrev Reachable : State → Prop :=
  Transition.Reachable Init fun s l s' => step s l = s'

/-- The state after the steps `ls`. -/
def run (s : State) (ls : List Label) : State := ls.foldl step s

theorem reachable_run {s : State} (h : Reachable s) (ls : List Label) : Reachable (run s ls) := by
  induction ls generalizing s with
  | nil => exact h
  | cons l ls ih => exact ih (.step l h rfl)

/-! ### What the queue returns -/

/-- `Dequeue` returns the head, null or not. -/
theorem dequeue_fst (next : Nat → Nat) (q : WorkQueue) : (q.dequeue next).1 = q.head := by
  unfold WorkQueue.dequeue
  split
  · next h => exact h.symm
  · split <;> rfl

/-- `Dequeue` of an empty queue leaves it empty. -/
theorem dequeue_snd_of_empty {next : Nat → Nat} {q : WorkQueue} (h : q.head = 0) :
    (q.dequeue next).2 = q := by
  rw [WorkQueue.dequeue, if_pos h]

theorem hand_of_ne {work : Nat} (h : work ≠ 0) : hand work = [work] := if_neg h

namespace Memory

variable {m : Memory}

theorem dequeue_work : m.dequeue.work = m.wq.head := dequeue_fst m.next m.wq

/-- A `Dequeue` that returns null has found the queue empty, and it still is. -/
theorem head_of_dequeue (h : m.dequeue.work = 0) : m.dequeue.wq.head = 0 := by
  rw [dequeue_work] at h
  show (m.wq.dequeue m.next).2.head = 0
  rw [dequeue_snd_of_empty h, h]

/-- The work that was obtained was served or is in `work`. -/
def Recorded (m : Memory) : Prop := m.obtained = m.served ++ hand m.work

/-- A `Dequeue` loses nothing as long as `work` is null before. -/
theorem Recorded.dequeue (h : m.Recorded) (hw : m.work = 0) : m.dequeue.Recorded := by
  rw [Recorded, hw] at h
  show m.obtained ++ hand m.dequeue.work = m.served ++ hand m.dequeue.work
  rw [h]
  simp [hand]

theorem Recorded.endRound (h : m.Recorded) (hw : m.work ≠ 0) : m.endRound.Recorded := by
  rw [Recorded, hand_of_ne hw] at h
  show m.obtained = (m.served ++ [m.work]) ++ []
  rw [h, List.append_nil]

end Memory

/-! ### What a step of the worker can do -/

/-- The effects of the steps of `Serve`, each with the condition under which it happens. -/
inductive Step (s : State) : State → Prop
  | first : s.pc = .tryPollWork → Step s { s with toMemory := s.dequeue, pc := .spin }
  | again : s.pc = .spin → s.work = 0 → Step s { s with toMemory := s.dequeue }
  | late : s.pc = .spin → s.work = 0 → Step s { s with pc := .lock }
  | polled : s.pc = .spin → s.work ≠ 0 → Step s { s with pc := .serve }
  | goOn : s.pc = .lock → s.work ≠ 0 → Step s { s with pc := .serve }
  | obtain : s.pc = .lock → s.work = 0 → s.dequeue.work ≠ 0 →
      Step s { s with toMemory := s.dequeue, pc := .serve }
  | block : s.pc = .lock → s.work = 0 → s.dequeue.work = 0 →
      Step s { s with toMemory := s.dequeue, pc := .blocked }
  | wake : s.pc = .blocked → Step s { s with pc := .lock, notified := false }
  | served : s.pc = .serve → Step s { s with toMemory := s.endRound, pc := .tryPollWork }

variable {s : State}

theorem wait_cases (hpc : s.pc = .lock) : Step s s.wait := by
  unfold State.wait Memory.predicate
  by_cases hw : s.work ≠ 0
  · rw [if_pos hw]
    exact .goOn hpc hw
  · rw [if_neg hw]
    by_cases hd : s.dequeue.work ≠ 0
    · simp only [hd, decide_true, if_true, ne_eq, not_false_eq_true]
      exact .obtain hpc (not_not.mp hw) hd
    · simp only [hd, decide_false, if_false, Bool.false_eq_true]
      exact .block hpc (not_not.mp hw) (not_not.mp hd)

theorem serve_step (s : State) (early : Bool) : Step s (s.serve early) := by
  unfold State.serve
  split
  case h_1 hpc => exact .first hpc
  case h_2 hpc =>
    split
    · next hspin => exact .again hpc hspin.1
    · split
      · next hw => exact .late hpc hw
      · next hw => exact .polled hpc hw
  case h_3 hpc => exact wait_cases hpc
  case h_4 hpc => exact .wake hpc
  case h_5 hpc => exact .served hpc

/-- Each of the effects happens in some step. -/
theorem Step.exists_serve {s' : State} (h : Step s s') : ∃ early, s.serve early = s' := by
  cases h with
  | first hpc => exact ⟨true, by simp [State.serve, hpc]⟩
  | again hpc hw => exact ⟨true, by simp [State.serve, hpc, hw]⟩
  | late hpc hw => exact ⟨false, by simp [State.serve, hpc, hw]⟩
  | polled hpc hw => exact ⟨true, by simp [State.serve, hpc, hw]⟩
  | goOn hpc hw => exact ⟨true, by simp [State.serve, State.wait, Memory.predicate, hpc, hw]⟩
  | obtain hpc hw hd =>
    exact ⟨true, by simp [State.serve, State.wait, Memory.predicate, hpc, hw, hd]⟩
  | block hpc hw hd =>
    exact ⟨true, by simp [State.serve, State.wait, Memory.predicate, hpc, hw, hd]⟩
  | wake hpc => exact ⟨true, by simp [State.serve, hpc]⟩
  | served hpc => exact ⟨true, by simp [State.serve, hpc]⟩

theorem Step.reachable {s' : State} (h : Step s s') (hs : Reachable s) : Reachable s' := by
  obtain ⟨early, hserve⟩ := h.exists_serve
  exact .step (.serve early) hs hserve

/-! ### The invariant -/

/-- What holds in every interleaving. -/
structure Inv (s : State) : Prop where
  /-- A worker that sleeps and is not notified has an empty queue. -/
  asleep : s.pc = .blocked → s.notified = false → s.wq.head = 0
  /-- Notifications are given to a worker that sleeps, or get lost. -/
  notified : s.notified = true → s.pc = .blocked
  /-- `work` is null wherever `Dequeue` may be called. -/
  empty : s.pc = .tryPollWork ∨ s.pc = .lock ∨ s.pc = .blocked → s.work = 0
  /-- `assert(work != nullptr)`. -/
  full : s.pc = .serve → s.work ≠ 0
  recorded : s.Recorded

theorem Inv.of_init (h : Init s) : Inv s where
  asleep _ _ := by rw [h.wq]
  notified hn := by
    rw [h.notified] at hn
    cases hn
  empty _ := h.work
  full hpc := by
    rw [h.pc] at hpc
    cases hpc
  recorded := by
    rw [Memory.Recorded, h.record.1, h.record.2, h.work]
    rfl

theorem Inv.enqueue (h : Inv s) (work : Nat) : Inv (s.enqueue work) where
  asleep hpc hn := by
    -- a worker that sleeps is notified now
    change s.pc = .blocked at hpc
    change (s.notified || decide (s.pc = .blocked)) = false at hn
    simp [hpc] at hn
  notified hn := by
    change (s.notified || decide (s.pc = .blocked)) = true at hn
    show s.pc = .blocked
    rcases Bool.or_eq_true_iff.mp hn with hn | hn
    · exact h.notified hn
    · exact of_decide_eq_true hn
  empty := h.empty
  full := h.full
  recorded := h.recorded

/-- Away from the wait there is no notification, and no need for one. -/
theorem Inv.awake {m : Memory} {pc : Pc} (h : Inv s) (hpc : s.pc ≠ .blocked) (hpc' : pc ≠ .blocked)
    (hempty : pc = .tryPollWork ∨ pc = .lock → m.work = 0) (hfull : pc = .serve → m.work ≠ 0)
    (hrec : m.Recorded) : Inv { s with toMemory := m, pc } where
  asleep hb := absurd hb hpc'
  notified hn := absurd (h.notified hn) hpc
  empty hb := hempty (hb.imp_right fun hb => hb.resolve_right hpc')
  full := hfull
  recorded := hrec

theorem Inv.serve {s' : State} (h : Inv s) (hstep : Step s s') : Inv s' := by
  cases hstep with
  | first hpc =>
    have hw := h.empty (Or.inl hpc)
    exact h.awake (by rw [hpc]; decide) (by decide) (by simp) (by simp) (h.recorded.dequeue hw)
  | again hpc hw =>
    have heq : ({ s with toMemory := s.dequeue } : State) =
        { s with toMemory := s.dequeue, pc := .spin } := by rw [← hpc]
    rw [heq]
    exact h.awake (by rw [hpc]; decide) (by decide) (by simp) (by simp) (h.recorded.dequeue hw)
  | late hpc hw =>
    exact h.awake (by rw [hpc]; decide) (by decide) (fun _ => hw) (by simp) h.recorded
  | polled hpc hw =>
    exact h.awake (by rw [hpc]; decide) (by decide) (by simp) (fun _ => hw) h.recorded
  | goOn hpc hw => exact absurd (h.empty (Or.inr (Or.inl hpc))) hw
  | obtain hpc hw hd =>
    exact h.awake (by rw [hpc]; decide) (by decide) (by simp) (fun _ => hd) (h.recorded.dequeue hw)
  | block hpc hw hd =>
    -- the predicate has just found the queue empty
    exact ⟨fun _ _ => Memory.head_of_dequeue hd, fun _ => rfl, fun _ => hd, by simp,
      h.recorded.dequeue hw⟩
  | wake hpc =>
    have hw := h.empty (Or.inr (Or.inr hpc))
    exact ⟨by simp, by simp, fun _ => hw, by simp, h.recorded⟩
  | served hpc =>
    exact h.awake (by rw [hpc]; decide) (by decide) (fun _ => rfl) (by simp)
      (h.recorded.endRound (h.full hpc))

theorem inv_step (h : Inv s) (l : Label) : Inv (step s l) := by
  cases l with
  | enqueue work => exact h.enqueue work
  | serve early => exact h.serve (serve_step s early)
  | links next => exact ⟨h.asleep, h.notified, h.empty, h.full, h.recorded⟩

theorem inv_of_reachable (h : Reachable s) : Inv s := by
  refine h.invariant Inv (fun _ => Inv.of_init) ?_
  intro s l s' hs hstep
  rw [← hstep]
  exact inv_step hs l

/-! ### Work in hand -/

theorem Step.served_grows {s' : State} (h : Step s s') : s.served <+: s'.served := by
  cases h with
  | served _ => exact List.prefix_append _ _
  | _ => exact List.prefix_refl _

theorem served_step (s : State) (l : Label) : s.served <+: (step s l).served := by
  cases l with
  | serve early => exact (serve_step s early).served_grows
  | _ => exact List.prefix_refl _

theorem served_run (s : State) (ls : List Label) : s.served <+: (run s ls).served := by
  induction ls generalizing s with
  | nil => exact List.prefix_refl _
  | cons l ls ih => exact (served_step s l).trans (ih (step s l))

/-- A step leaves the work in `work` alone, or ends the round that serves it. -/
theorem Step.hand {s' : State} (h : Step s s') (hinv : Inv s) (hw : s.work ≠ 0) :
    (s'.work = s.work ∧ s'.served = s.served) ∨ s'.served = s.served ++ [s.work] := by
  cases h with
  | first hpc => exact absurd (hinv.empty (Or.inl hpc)) hw
  | again _ hw' => exact absurd hw' hw
  | late _ _ => exact Or.inl ⟨rfl, rfl⟩
  | polled _ _ => exact Or.inl ⟨rfl, rfl⟩
  | goOn _ _ => exact Or.inl ⟨rfl, rfl⟩
  | obtain _ hw' _ => exact absurd hw' hw
  | block _ hw' _ => exact absurd hw' hw
  | wake _ => exact Or.inl ⟨rfl, rfl⟩
  | served _ => exact Or.inr rfl

theorem hand_step (h : Inv s) (hw : s.work ≠ 0) (l : Label) :
    ((step s l).work = s.work ∧ (step s l).served = s.served) ∨
      (step s l).served = s.served ++ [s.work] := by
  cases l with
  | serve early => exact (serve_step s early).hand h hw
  | _ => exact Or.inl ⟨rfl, rfl⟩

/-- After any further steps the work is still in `work`, or it was the next to be served. -/
theorem hand_run (h : Inv s) (hw : s.work ≠ 0) (ls : List Label) :
    ((run s ls).work = s.work ∧ (run s ls).served = s.served) ∨
      s.served ++ [s.work] <+: (run s ls).served := by
  induction ls generalizing s with
  | nil => exact Or.inl ⟨rfl, rfl⟩
  | cons l ls ih =>
    rcases hand_step h hw l with ⟨hwork, hserved⟩ | hserved
    · have hrest := ih (inv_step h l) (by rw [hwork]; exact hw)
      rw [hwork, hserved] at hrest
      exact hrest
    · right
      rw [← hserved]
      exact served_run (step s l) ls

/-- **No lost wakeup.** No interleaving leaves the worker asleep, without a notification, while
    its queue is not empty. Work that was obtained stays in `work` until it is served, and all
    of it is served in turn. -/
theorem no_lost_wakeup (h : Reachable s) :
    ¬ (s.pc = .blocked ∧ s.wq.head ≠ 0 ∧ s.notified = false) ∧
    (s.work ≠ 0 → ∀ ls, ((run s ls).work = s.work ∧ (run s ls).served = s.served) ∨
      s.served ++ [s.work] <+: (run s ls).served) ∧
    s.obtained = s.served ++ hand s.work := by
  have hinv := inv_of_reachable h
  refine ⟨?_, fun hw ls => hand_run hinv hw ls, hinv.recorded⟩
  intro ⟨hpc, hhead, hn⟩
  exact hhead (hinv.asleep hpc hn)

/-- The worker of a new server. -/
def start : State := ⟨⟨fun _ => 0, ⟨0, 0⟩, 0, [], []⟩, .tryPollWork, false⟩

theorem reachable_start : Reachable start :=
  .init ⟨rfl, rfl, ⟨rfl, rfl⟩, rfl, rfl⟩

/-- A worker that went to sleep and was notified of two buffers, and the same worker when it has
    woken up and taken the first. -/
theorem no_lost_wakeup_two :
    (∃ s, s = run start [.serve true, .serve true, .serve false, .serve true, .enqueue 5,
        .enqueue 6] ∧ s.pc = .blocked ∧ s.wq.head = 5 ∧
      ¬ (s.pc = .blocked ∧ s.wq.head ≠ 0 ∧ s.notified = false)) ∧
    ∃ s, s = run start [.serve true, .serve true, .serve false, .serve true, .enqueue 5,
        .enqueue 6, .serve true, .serve true] ∧ s.work = 5 ∧ s.wq.head = 6 ∧
      ∀ ls, ((run s ls).work = 5 ∧ (run s ls).served = []) ∨ [5] <+: (run s ls).served := by
  constructor
  · exact ⟨_, rfl, by decide, by decide, (no_lost_wakeup (reachable_run reachable_start _)).1⟩
  · exact ⟨_, rfl, by decide, by decide,
      (no_lost_wakeup (reachable_run reachable_start _)).2.1 (by decide)⟩

end Nvds.Serving.Wakeup
