import Nvds.Serving.Requests
import Nvds.Serving.Wakeup

/-! # A server whose workers sleep

    The threads of a server as in `Nvds.Serving.Model`, where a worker without
    work is now at one of the places of `TryPollWork` and of the wait, and
    the poller notifies the worker it enqueues a request at.

    In what they share, the threads do nothing they do not do in the server
    without sleep; and each worker, seen alone, is the worker of
    `Nvds.Serving.Wakeup`. So a worker that sleeps without a notification has
    executed all the requests that were enqueued at it.
-/

namespace Nvds.Serving

/-- The variable `work` of `Serve`. -/
def Worker.work : Worker → Nat
  | .poll => 0
  | .alloc work => work
  | .execute work _ => work
  | .postSend work _ => work
  | .free work => work

namespace Sleeping

open Wakeup (Pc hand)

variable {n : Nat} {Req Resp T : Type}

/-! ### The system -/

/-- What the server without sleep does not tell about a worker. -/
structure Thread where
  pc : Pc
  notified : Bool
  obtained : List Nat
  served : List Nat

/-- A `Dequeue` returned `work`, and the thread goes on at `pc`. -/
def Thread.took (t : Thread) (work : Nat) (pc : Pc) : Thread :=
  { t with pc, obtained := t.obtained ++ hand work }

/-- `notify_one`. -/
def Thread.notifyOne (t : Thread) : Thread := { t with notified := t.notified || t.pc = .blocked }

/-- A server and the threads of its workers. -/
structure State (n : Nat) (Req Resp T : Type) where
  server : Serving.State n Req Resp T
  thread : Fin n → Thread

/-- The server before its threads take their first step. -/
structure Init (ts : Fin n → T) (s : State n Req Resp T) : Prop where
  server : Serving.Init ts s.server
  thread : ∀ w, s.thread w = ⟨.tryPollWork, false, [], []⟩

inductive Label (n : Nat) (Req : Type) where
  /-- A step of the poller or of the network. -/
  | other (l : Serving.Label n Req)
  | serve (w : Fin n) (early : Bool)

/-- Not a step of a worker. -/
def isOther : Serving.Label n Req → Bool
  | .serve _ => false
  | _ => true

/-- The threads after a step of the poller: `Enqueue` notifies. -/
def State.notify (s : State n Req Resp T) : Serving.Label n Req → Fin n → Thread
  | .poll _ =>
    match s.server.poller with
    | .enqueue _ w => Function.update s.thread w (s.thread w).notifyOne
    | _ => s.thread
  | _ => s.thread

/-- The worker `w` goes on without touching what it shares. -/
def State.goOn (s : State n Req Resp T) (w : Fin n) (t : Thread) : State n Req Resp T :=
  { s with thread := Function.update s.thread w t }

section
variable (sv : Service n Req Resp T)

/-- The worker `w` takes a step of the server without sleep. -/
def advance (s : State n Req Resp T) (w : Fin n) (f : Serving.State n Req Resp T → Thread) :
    Option (State n Req Resp T) :=
  (sv.step s.server (.serve w)).map fun server => ⟨server, Function.update s.thread w (f server)⟩

/-- A step of `Serve` in the worker `w`. -/
def serve (s : State n Req Resp T) (w : Fin n) (early : Bool) : Option (State n Req Resp T) :=
  let t := s.thread w
  let work := (s.server.worker w).work
  match t.pc with
  | .tryPollWork => advance sv s w fun server => t.took (server.worker w).work .spin
  | .spin =>
    if work = 0 ∧ early then
      advance sv s w fun server => t.took (server.worker w).work .spin
    else
      some (s.goOn w { t with pc := if work = 0 then .lock else .serve })
  | .lock =>
    if work ≠ 0 then
      some (s.goOn w { t with pc := .serve })
    else
      advance sv s w fun server =>
        t.took (server.worker w).work (if (server.worker w).work ≠ 0 then .serve else .blocked)
  | .blocked => some (s.goOn w { t with pc := .lock, notified := false })
  | .serve =>
    advance sv s w fun server =>
      if (server.worker w).work = 0 then
        { t with pc := .tryPollWork, served := t.served ++ [work] }
      else
        t

/-- One step. A failed assertion ends the process. -/
def step (s : State n Req Resp T) (l : Label n Req) : Option (State n Req Resp T) :=
  if s.server.aborted ≠ none then
    none
  else
    match l with
    | .other l =>
      if isOther l then
        (sv.step s.server l).map fun server => ⟨server, s.notify l⟩
      else
        none
    | .serve w early => serve sv s w early

/-- The states of all runs that start with the tablets `ts`. -/
abbrev Reachable (ts : Fin n → T) : State n Req Resp T → Prop :=
  Transition.Reachable (Init ts) fun s l s' => step sv s l = some s'

end

/-! ### What a step can do -/

/-- The effects of the steps on the server without sleep and on the threads. -/
inductive Step (sv : Service n Req Resp T) (s : State n Req Resp T) :
    State n Req Resp T → Prop
  | other {l : Serving.Label n Req} {server : Serving.State n Req Resp T} : isOther l →
      sv.step s.server l = some server → Step sv s ⟨server, s.notify l⟩
  | first {w : Fin n} {server : Serving.State n Req Resp T} : (s.thread w).pc = .tryPollWork →
      sv.step s.server (.serve w) = some server →
      Step sv s ⟨server, Function.update s.thread w
        ((s.thread w).took (server.worker w).work .spin)⟩
  | again {w : Fin n} {server : Serving.State n Req Resp T} : (s.thread w).pc = .spin →
      (s.server.worker w).work = 0 → sv.step s.server (.serve w) = some server →
      Step sv s ⟨server, Function.update s.thread w
        ((s.thread w).took (server.worker w).work .spin)⟩
  | late {w : Fin n} : (s.thread w).pc = .spin → (s.server.worker w).work = 0 →
      Step sv s (s.goOn w { s.thread w with pc := .lock })
  | polled {w : Fin n} : (s.thread w).pc = .spin → (s.server.worker w).work ≠ 0 →
      Step sv s (s.goOn w { s.thread w with pc := .serve })
  | goOn {w : Fin n} : (s.thread w).pc = .lock → (s.server.worker w).work ≠ 0 →
      Step sv s (s.goOn w { s.thread w with pc := .serve })
  | wait {w : Fin n} {server : Serving.State n Req Resp T} : (s.thread w).pc = .lock →
      (s.server.worker w).work = 0 → sv.step s.server (.serve w) = some server →
      Step sv s ⟨server, Function.update s.thread w
        ((s.thread w).took (server.worker w).work
          (if (server.worker w).work ≠ 0 then .serve else .blocked))⟩
  | wake {w : Fin n} : (s.thread w).pc = .blocked →
      Step sv s (s.goOn w { s.thread w with pc := .lock, notified := false })
  | serve {w : Fin n} {server : Serving.State n Req Resp T} : (s.thread w).pc = .serve →
      sv.step s.server (.serve w) = some server →
      Step sv s ⟨server, Function.update s.thread w
        (if (server.worker w).work = 0 then
          { s.thread w with
            pc := .tryPollWork
            served := (s.thread w).served ++ [(s.server.worker w).work] }
        else
          s.thread w)⟩

variable {sv : Service n Req Resp T} {s s' : State n Req Resp T}

theorem advance_cases {w : Fin n} {f : Serving.State n Req Resp T → Thread}
    (h : advance sv s w f = some s') : ∃ server, sv.step s.server (.serve w) = some server ∧
      s' = ⟨server, Function.update s.thread w (f server)⟩ := by
  obtain ⟨server, hstep, heq⟩ := Option.map_eq_some_iff.mp h
  exact ⟨server, hstep, heq.symm⟩

theorem serve_cases {w : Fin n} {early : Bool} (h : serve sv s w early = some s') :
    Step sv s s' := by
  unfold serve at h
  dsimp only at h
  split at h
  case h_1 hpc =>
    obtain ⟨server, hstep, rfl⟩ := advance_cases h
    exact .first hpc hstep
  case h_2 hpc =>
    split at h
    · next hspin =>
      obtain ⟨server, hstep, rfl⟩ := advance_cases h
      exact .again hpc hspin.1 hstep
    · cases h
      split
      · next hw => exact .late hpc hw
      · next hw => exact .polled hpc hw
  case h_3 hpc =>
    split at h
    · next hw =>
      cases h
      exact .goOn hpc hw
    · next hw =>
      obtain ⟨server, hstep, rfl⟩ := advance_cases h
      exact .wait hpc (not_not.mp hw) hstep
  case h_4 hpc =>
    cases h
    exact .wake hpc
  case h_5 hpc =>
    obtain ⟨server, hstep, rfl⟩ := advance_cases h
    exact .serve hpc hstep

/-- Every step has one of the effects. -/
theorem step_cases {l : Label n Req} (h : step sv s l = some s') : Step sv s s' := by
  unfold step at h
  split at h
  · cases h
  · cases l with
    | other l =>
      dsimp only at h
      split at h
      · next hl =>
        obtain ⟨server, hstep, rfl⟩ := Option.map_eq_some_iff.mp h
        exact .other hl hstep
      · cases h
    | serve w early => exact serve_cases h

/-! ### The server without sleep -/

/-- What the threads do is done in the server without sleep. -/
theorem server_of_reachable {ts : Fin n → T} (h : Reachable sv ts s) :
    Serving.Reachable sv ts s.server := by
  refine h.refines State.server (fun s hs => hs.server) ?_
  intro s l s' _ hstep hserver
  cases step_cases hstep with
  | @other l _ _ hl => exact .step l hserver hl
  | @first w _ _ hw => exact .step (.serve w) hserver hw
  | @again w _ _ _ hw => exact .step (.serve w) hserver hw
  | @wait w _ _ _ hw => exact .step (.serve w) hserver hw
  | @serve w _ _ hw => exact .step (.serve w) hserver hw
  | _ => exact hserver

section Server

variable {server server' : Serving.State n Req Resp T} {w : Fin n}

/-- A worker has a buffer unless it is about to call `Dequeue`. -/
theorem work_eq_zero {ts : Fin n → T} (h : Serving.Reachable sv ts server) (w : Fin n) :
    (server.worker w).work = 0 ↔ server.worker w = .poll := by
  obtain ⟨c, hc, _⟩ := served_of_reachable h
  have hheld : ∀ b ∈ (server.worker w).recvHeld, b ≠ 0 := fun b hb =>
    (hc.recv_apart (p := .worker w) hb (by simp) (by simp)).1
  cases hw : server.worker w with
  | poll => simp [Worker.work]
  | _ =>
    rw [hw] at hheld
    simpa [Worker.work, Worker.recvHeld] using hheld

/-- A `Dequeue` of the worker, whatever it returns. -/
theorem serve_poll (h : Serving.Step sv server (.serve w) server') (hw : server.worker w = .poll) :
    server'.next = server.next ∧ server'.wq w = ((server.wq w).dequeue server.next).2 ∧
      (server'.worker w).work = ((server.wq w).dequeue server.next).1 := by
  cases h with
  | noWork _ h0 =>
    have hempty := h0
    rw [Wakeup.dequeue_fst] at hempty
    exact ⟨rfl, (Wakeup.dequeue_snd_of_empty hempty).symm, by rw [hw, h0]; rfl⟩
  | dequeued _ _ => exact ⟨rfl, by simp, by simp [Worker.work]⟩
  | _ => simp_all

/-- A step of a worker that has work. -/
theorem serve_busy (h : Serving.Step sv server (.serve w) server') (hw : server.worker w ≠ .poll) :
    server'.wq w = server.wq w ∧ (server'.worker w = .poll ∨
      (server'.worker w).work = (server.worker w).work ∧ server'.next = server.next) := by
  cases h with
  | noWork hp _ => exact absurd hp hw
  | dequeued hp _ => exact absurd hp hw
  | sendFail _ _ => exact ⟨rfl, Or.inr ⟨rfl, rfl⟩⟩
  | sendAlloc ha _ _ => exact ⟨rfl, Or.inr ⟨by simp [ha, Worker.work], rfl⟩⟩
  | executed he _ => exact ⟨rfl, Or.inr ⟨by simp [he, Worker.work], rfl⟩⟩
  | posted hp => exact ⟨rfl, Or.inr ⟨by simp [hp, Worker.work], rfl⟩⟩
  | recvFreed _ => exact ⟨rfl, Or.inl (by simp)⟩

/-- A step of another worker. -/
theorem serve_apart {v : Fin n} (h : Serving.Step sv server (.serve v) server') (hvw : w ≠ v) :
    server'.wq w = server.wq w ∧ server'.worker w = server.worker w := by
  cases h with
  | noWork _ _ => exact ⟨rfl, rfl⟩
  | dequeued _ _ => simp [hvw]
  | sendFail _ _ => exact ⟨rfl, rfl⟩
  | sendAlloc _ _ _ => simp [hvw]
  | executed _ _ => simp [hvw]
  | posted _ => simp [hvw]
  | recvFreed _ => simp [hvw]

end Server

/-! ### Each worker alone -/

/-- The worker `w` with its queue. -/
def State.worker (s : State n Req Resp T) (w : Fin n) : Wakeup.State where
  next := s.server.next
  wq := s.server.wq w
  work := (s.server.worker w).work
  obtained := (s.thread w).obtained
  served := (s.thread w).served
  pc := (s.thread w).pc
  notified := (s.thread w).notified

/-- A worker is only concerned with the links by what leaves its queue and its thread alone. -/
theorem worker_apart {w : Fin n} (h : Wakeup.Reachable (s.worker w))
    (hwq : s'.server.wq w = s.server.wq w) (hworker : s'.server.worker w = s.server.worker w)
    (hthread : s'.thread w = s.thread w) : Wakeup.Reachable (s'.worker w) := by
  have heq : s'.worker w = Wakeup.step (s.worker w) (.links s'.server.next) := by
    rw [State.worker, hwq, hworker, hthread]
    rfl
  rw [heq]
  exact .step _ h rfl

/-- Nobody is notified away from `Enqueue`. -/
theorem notify_of_ne {l : Serving.Label n Req} (h : ∀ b w, s.server.poller ≠ .enqueue b w) :
    s.notify l = s.thread := by
  unfold State.notify
  split
  · split
    · next b w hp => exact absurd hp (h b w)
    · rfl
  · rfl

/-- A step of the poller or of the network. -/
theorem worker_other {l : Serving.Label n Req} {server : Serving.State n Req Resp T} {w : Fin n}
    (h : Wakeup.Reachable (s.worker w)) (hl : isOther l)
    (hstep : Serving.Step sv s.server l server) :
    Wakeup.Reachable (State.worker ⟨server, s.notify l⟩ w) := by
  have hother : server.wq w = s.server.wq w → server.worker w = s.server.worker w →
      (∀ b v, s.server.poller ≠ .enqueue b v) →
      Wakeup.Reachable (State.worker ⟨server, s.notify l⟩ w) := fun hwq hworker hp =>
    worker_apart h hwq hworker (congrFun (notify_of_ne hp) w)
  cases hstep with
  | @enqueued link b v hp =>
    have hnotify : s.notify (.poll link) = Function.update s.thread v (s.thread v).notifyOne := by
      simp [State.notify, hp]
    rw [hnotify]
    by_cases hvw : w = v
    · subst hvw
      -- a call of `Enqueue` at this worker
      refine .step (.enqueue b) h ?_
      simp only [Wakeup.step, State.worker, Function.update_self]
      rfl
    · exact worker_apart h (by simp [hvw]) rfl (by simp [hvw])
  | fillFail hp _ _ => exact hother rfl rfl (by simp [hp])
  | fillAlloc hp _ _ => exact hother rfl rfl (by simp [hp])
  | fillDone hp _ => exact hother rfl rfl (by simp [hp])
  | fillPost hp => exact hother rfl rfl (by simp [hp])
  | noneReceived hp _ => exact hother rfl rfl (by simp [hp])
  | received hp _ => exact hother rfl rfl (by simp [hp])
  | routed hp _ => exact hother rfl rfl (by simp [hp])
  | noneSent hp _ => exact hother rfl rfl (by simp [hp])
  | reaped hp _ => exact hother rfl rfl (by simp [hp])
  | sendFreed hp => exact hother rfl rfl (by simp [hp])
  | noneFree hp _ => exact hother rfl rfl (by simp [hp])
  | recvAlloc hp _ => exact hother rfl rfl (by simp [hp])
  | recvPost hp => exact hother rfl rfl (by simp [hp])
  | receive _ => exact worker_apart h rfl rfl rfl
  | complete _ => exact worker_apart h rfl rfl rfl
  | _ => cases hl

section Own

variable {server : Serving.State n Req Resp T} {v w : Fin n} {t : Thread}

/-- A step of a worker, seen from another one. -/
theorem worker_serve_apart (h : Wakeup.Reachable (s.worker w))
    (hstep : Serving.Step sv s.server (.serve v) server) (hvw : w ≠ v) :
    Wakeup.Reachable (State.worker ⟨server, Function.update s.thread v t⟩ w) := by
  obtain ⟨hwq, hworker⟩ := serve_apart hstep hvw
  exact worker_apart h hwq hworker (by simp [hvw])

/-- A `Dequeue` of the worker. -/
theorem worker_dequeue (hstep : Serving.Step sv s.server (.serve w) server)
    (hw : s.server.worker w = .poll) {pc : Pc} :
    State.worker ⟨server, Function.update s.thread w
      ((s.thread w).took (server.worker w).work pc)⟩ w =
      { s.worker w with toMemory := (s.worker w).dequeue, pc } := by
  obtain ⟨hnext, hwq, hwork⟩ := serve_poll hstep hw
  simp only [State.worker, Function.update_self, Thread.took, hnext, hwq, hwork]
  rfl

/-- A step that touches nothing but the thread of the worker. -/
theorem worker_goOn (h : Wakeup.Reachable (s.worker w))
    (hstep : w = v →
      Wakeup.Step (s.worker w) { s.worker w with pc := t.pc, notified := t.notified })
    (hrec : t.obtained = (s.thread v).obtained ∧ t.served = (s.thread v).served) :
    Wakeup.Reachable ((s.goOn v t).worker w) := by
  by_cases hvw : w = v
  · have hown : (s.goOn v t).worker w = { s.worker w with pc := t.pc, notified := t.notified } := by
      subst hvw
      simp [State.goOn, State.worker, hrec.1, hrec.2]
    rw [hown]
    exact (hstep hvw).reachable h
  · have hother : (s.goOn v t).worker w = s.worker w := by
      simp [State.goOn, State.worker, hvw]
    rw [hother]
    exact h

/-- A step of a worker that has work: nothing it shares with its own loop changes, until the
    round ends. -/
theorem worker_busy (h : Wakeup.Reachable (s.worker w))
    (hstep : Serving.Step sv s.server (.serve w) server)
    (hpc : (s.thread w).pc = .serve) (hw : (s.server.worker w).work ≠ 0)
    (ht : t = if (server.worker w).work = 0 then
        { s.thread w with
          pc := .tryPollWork
          served := (s.thread w).served ++ [(s.server.worker w).work] }
      else
        s.thread w) :
    Wakeup.Reachable (State.worker ⟨server, Function.update s.thread w t⟩ w) := by
  have hbusy : s.server.worker w ≠ .poll := by
    intro hp
    rw [hp] at hw
    exact hw rfl
  obtain ⟨hwq, hend | ⟨hwork, hnext⟩⟩ := serve_busy hstep hbusy
  · -- the buffer went back to the pool, which the worker sees as a change of the links
    have hround := Wakeup.reachable_run h [.serve true, .links server.next]
    have hzero : (server.worker w).work = 0 := by rw [hend]; rfl
    rw [if_pos hzero] at ht
    convert hround using 1
    simp [Wakeup.run, Wakeup.step, Wakeup.State.serve, Wakeup.Memory.endRound, State.worker, hpc,
      ht, hwq, hzero]
  · rw [if_neg (by rw [hwork]; exact hw)] at ht
    have heq : State.worker ⟨server, Function.update s.thread w t⟩ w = s.worker w := by
      simp [State.worker, ht, hwq, hwork, hnext]
    rw [heq]
    exact h

end Own

/-- **Each worker alone.** In every run of the server each worker is in a state that its own loop
    reaches. -/
theorem worker_of_reachable {ts : Fin n → T} (h : Reachable sv ts s) (w : Fin n) :
    Wakeup.Reachable (s.worker w) := by
  refine h.refines (fun s => s.worker w) ?_ ?_
  · intro s hs
    refine ⟨hs.server.wq w, ?_, ?_, ?_, ?_⟩
    · simp [State.worker, hs.server.worker, Worker.work]
    · simp [State.worker, hs.thread]
    · simp [State.worker, hs.thread]
    · simp [State.worker, hs.thread]
  · intro s l s' hs hstep hworker
    have hinv := Wakeup.inv_of_reachable hworker
    have hpoll := work_eq_zero (server_of_reachable hs) w
    -- a step of the worker `w` is one of the single worker, any other leaves it alone
    cases step_cases hstep with
    | other hl hl' => exact worker_other hworker hl (Serving.step_cases hl').2
    | @first v _ hpc hv =>
      have hv := (Serving.step_cases hv).2
      by_cases hvw : w = v
      · subst hvw
        rw [worker_dequeue hv (hpoll.mp (hinv.empty (Or.inl hpc)))]
        exact (Wakeup.Step.first hpc).reachable hworker
      · exact worker_serve_apart hworker hv hvw
    | @again v _ hpc hw hv =>
      have hv := (Serving.step_cases hv).2
      by_cases hvw : w = v
      · subst hvw
        rw [worker_dequeue hv (hpoll.mp hw), ← hpc]
        exact (Wakeup.Step.again hpc hw).reachable hworker
      · exact worker_serve_apart hworker hv hvw
    | late hpc hw =>
      refine worker_goOn hworker ?_ ⟨rfl, rfl⟩
      intro hvw
      subst hvw
      exact .late hpc hw
    | polled hpc hw =>
      refine worker_goOn hworker ?_ ⟨rfl, rfl⟩
      intro hvw
      subst hvw
      exact .polled hpc hw
    | goOn hpc hw =>
      refine worker_goOn hworker ?_ ⟨rfl, rfl⟩
      intro hvw
      subst hvw
      exact .goOn hpc hw
    | @wait v server hpc hw hv =>
      have hv := (Serving.step_cases hv).2
      by_cases hvw : w = v
      · subst hvw
        -- it has nothing to do, and looks for work before it sleeps
        have hp := hpoll.mp hw
        have hwork : (server.worker w).work = (s.worker w).dequeue.work := (serve_poll hv hp).2.2
        rw [worker_dequeue hv hp, hwork]
        split
        · next hd => exact (Wakeup.Step.obtain hpc hw hd).reachable hworker
        · next hd => exact (Wakeup.Step.block hpc hw (not_not.mp hd)).reachable hworker
      · exact worker_serve_apart hworker hv hvw
    | wake hpc =>
      refine worker_goOn hworker ?_ ⟨rfl, rfl⟩
      intro hvw
      subst hvw
      exact .wake hpc
    | @serve v _ hpc hv =>
      have hv := (Serving.step_cases hv).2
      by_cases hvw : w = v
      · subst hvw
        exact worker_busy hworker hv hpc (hinv.full hpc) rfl
      · exact worker_serve_apart hworker hv hvw

/-- **Sleep.** A worker that sleeps without a notification has executed every request that was
    enqueued at it. -/
theorem executed_of_asleep {ts : Fin n → T} (h : Reachable sv ts s) {w : Fin n}
    (hpc : (s.thread w).pc = .blocked) (hn : (s.thread w).notified = false) :
    s.server.executed w = s.server.dispatched w := by
  have hserver := server_of_reachable h
  have hinv := Wakeup.inv_of_reachable (worker_of_reachable h w)
  have hpoll := (work_eq_zero hserver w).mp (hinv.empty (Or.inr (Or.inr hpc)))
  obtain ⟨c, hc, hserved⟩ := served_of_reachable hserver
  -- the worker holds no request, and its queue is empty
  have hempty : c.queue w = [] := by
    apply (hc.represents.dequeue_eq_zero w).mp
    rw [Wakeup.dequeue_fst]
    exact hinv.asleep hpc hn
  have hdisp := (hserved.inOrder w).dispatched
  rw [hpoll, hempty] at hdisp
  rw [hdisp]
  exact (List.append_nil _).symm

/-! ### A run -/

section run

variable {ts : Fin n → T} {k b : Nat} {w : Fin n} {r : Req} {resp : Resp} {t : T}

/-- As long as nobody sleeps the poller notifies nobody. -/
theorem notify_of_awake (h : ∀ w, (s.thread w).pc ≠ .blocked) (l : Serving.Label n Req) :
    s.notify l = s.thread := by
  unfold State.notify
  split
  · split
    · next b w hp =>
      have hsame : (s.thread w).notifyOne = s.thread w := by
        simp [Thread.notifyOne, h w]
      rw [hsame, Function.update_eq_self]
    · rfl
  · rfl

/-- Then a run of the poller and the network is one of the server whose workers sleep. -/
theorem reachable_others {ls : List (Serving.Label n Req)} {server : Serving.State n Req Resp T}
    (h : Reachable sv ts s) (hls : ∀ l ∈ ls, isOther l) (hawake : ∀ w, (s.thread w).pc ≠ .blocked)
    (hrun : sv.run s.server ls = some server) : Reachable sv ts ⟨server, s.thread⟩ := by
  induction ls generalizing s with
  | nil =>
    cases hrun
    exact h
  | cons l ls ih =>
    rw [Service.run] at hrun
    split at hrun
    · cases hrun
    · next server₁ hstep =>
      obtain ⟨hl, hls⟩ := List.forall_mem_cons.mp hls
      have hnext : step sv s (.other l) = some ⟨server₁, s.thread⟩ := by
        simp [step, (Serving.step_cases hstep).1, hl, hstep, notify_of_awake hawake]
      have h₁ : Reachable sv ts ⟨server₁, s.thread⟩ := h.step _ hnext
      have hrest := ih h₁ hls hawake hrun
      exact hrest

/-- Some steps one after another. -/
theorem reachable_foldlM {ls : List (Label n Req)} (h : Reachable sv ts s)
    (hrun : ls.foldlM (step sv) s = some s') : Reachable sv ts s' := by
  induction ls generalizing s with
  | nil =>
    cases hrun
    exact h
  | cons l ls ih =>
    obtain ⟨s₁, hstep, hrun⟩ := Option.bind_eq_some_iff.mp hrun
    exact ih (h.step l hstep) hrun

/-- A worker without requests goes to sleep. -/
theorem run_asleep (hq : Quiet k s.server) (hpc : (s.thread w).pc = .tryPollWork) :
    [Label.serve w false, .serve w false, .serve w false].foldlM (step sv) s =
      some (s.goOn w { s.thread w with pc := .blocked }) := by
  simp [List.foldlM, step, serve, advance, Service.step, Service.serve, hq.aborted, hpc, hq.worker,
    hq.wq, WorkQueue.dequeue, Thread.took, hand, Worker.work, State.goOn]

/-- A request wakes it up. -/
theorem run_woken (hq : Quiet k s.server) (hpc : (s.thread w).pc = .blocked) (hb : b ∈ s.server.rq)
    (h0 : b ≠ 0) (hroute : sv.route r = some w) :
    [Label.other (.receive ⟨b, 1, 1⟩ r), .other (.poll 0), .other (.poll 0), .other (.poll 0),
      .serve w false, .serve w false].foldlM (step sv) s =
      some ⟨s.server.takenUp b w r, Function.update s.thread w
        ⟨.serve, false, (s.thread w).obtained ++ [b], (s.thread w).served⟩⟩ := by
  simp [List.foldlM, step, serve, advance, State.notify, isOther, Service.step, Service.poll,
    Service.serve, State.receive, hq.aborted, hb, hq.poller, hq.rcq, hroute, hq.wq, hq.worker,
    WorkQueue.enqueue, WorkQueue.dequeue, h0, State.entry, State.takenUp, sender,
    WorkCompletion.peerAddr, hpc, Thread.took, Thread.notifyOne, hand, Worker.work, State.goOn]

/-- It is executed, and the poller posts its buffer again. -/
theorem run_executed {x : Thread} (hq : Quiet k s.server) (hx : x.pc = .serve) (h0 : b ≠ 0)
    (hroot : s.server.sendRoot ≠ 0) (hrun : sv.execute (s.server.tablet w) r = some (resp, t)) :
    [Label.serve w false, .serve w false, .serve w false, .serve w false, .other (.poll 0),
      .other (.poll 0), .other (.poll 0)].foldlM (step sv)
      ⟨s.server.takenUp b w r, Function.update s.thread w x⟩ =
      some ⟨s.server.answered b w r resp t, Function.update s.thread w
        { x with pc := .tryPollWork, served := x.served ++ [b] }⟩ := by
  simp [List.foldlM, step, serve, advance, State.notify, isOther, Service.step, Service.poll,
    Service.serve, hq.aborted, hq.scq, hx, h0, hroot, hrun, State.entry, State.takenUp,
    State.answered, Worker.work, RegisteredBuffers.alloc, RegisteredBuffers.free]

end run

/-- A worker sleeps, is woken up by a request, executes it and sleeps again. -/
theorem executed_of_asleep_again :
    ∃ s, Reachable (Service.ofServer firstServer 1) blankTablets s ∧
      (s.thread firstWorker).pc = .blocked ∧ (s.server.dispatched firstWorker).length = 1 ∧
      s.server.executed firstWorker = s.server.dispatched firstWorker := by
  obtain ⟨server, hpolls, hq, htablet, hrecord⟩ :=
    exists_quiet_zero (Service.ofServer firstServer 1) init_blank
  obtain ⟨c, hc⟩ := (Sound.init init_blank).run hpolls
  obtain ⟨b, hb, h0⟩ := hq.exists_posted hc
  have hroot := hq.sendRoot_ne_zero hc (by decide)
  obtain ⟨resp, t, hexec, _⟩ := repeatable_getSeven.execute _ (unbound_blank firstWorker)
  rw [← htablet] at hexec
  -- the receive queue is filled before the worker starts
  have r₀ : Reachable (Service.ofServer firstServer 1) blankTablets
      ⟨blank, fun _ => ⟨.tryPollWork, false, [], []⟩⟩ := .init ⟨init_blank, fun _ => rfl⟩
  have r₁ := reachable_others r₀
    (by
      intro l hl
      rw [List.eq_of_mem_replicate hl]
      rfl)
    (by simp) hpolls
  have r₂ := reachable_foldlM r₁ (run_asleep (w := firstWorker) hq rfl)
  have r₃ := reachable_foldlM r₂
    (run_woken hq (by simp [State.goOn]) hb h0 repeatable_getSeven.route)
  have r₄ := reachable_foldlM r₃ (run_executed hq rfl h0 hroot hexec)
  have r₅ := reachable_foldlM r₄ (run_asleep (w := firstWorker) hq.answered (by simp))
  refine ⟨_, r₅, by simp [State.goOn], ?_, executed_of_asleep r₅ (by simp [State.goOn])
    (by simp [State.goOn])⟩
  simp [State.goOn, State.answered, State.takenUp, hrecord]

end Sleeping

end Nvds.Serving
