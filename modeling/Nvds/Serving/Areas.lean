import Nvds.Serving.Spinlock

/-! # Who may touch what

    A thread that has a lock may touch the cells of the object, and of the
    links those of the buffers in the object and in its own hands. Since
    every buffer is at one place, two threads with different locks touch
    different cells. A step of one thread leaves the buffers alone that
    another one may touch.
-/

namespace Nvds.Serving

variable {n : Nat} {Req Resp T : Type}

/-! ### Who may touch what -/

/-- Where a buffer can be: in the object of a lock, in the hands of a thread, or with the
    network. -/
inductive Area (n : Nat) where
  | lock (l : Lock n)
  | thread (i : Thread n)
  | network
  deriving DecidableEq

/-- The area of a place. -/
def RecvPlace.area : RecvPlace n → Area n
  | .pool => .lock (.pool .recv)
  | .receiveQueue => .network
  | .workQueue w => .lock (.queue w)
  | .worker w => .thread (.worker w)
  | .poller => .thread .poller

def SendPlace.area : SendPlace n → Area n
  | .pool => .lock (.pool .send)
  | .sendQueue => .network
  | .worker w => .thread (.worker w)
  | .poller => .thread .poller

/-- The buffer `b` is in the area `A`. -/
def State.At (s : State n Req Resp T) (c : Contents n) (A : Area n) (b : Nat) : Prop :=
  (∃ p, p.area = A ∧ b ∈ s.recvHeld c p) ∨ (∃ p, p.area = A ∧ b ∈ s.sendHeld c p)

/-- The cells that the thread `i` may touch when it has the lock `l`. -/
def State.Owns (s : State n Req Resp T) (c : Contents n) (i : Thread n) (l : Lock n) : Loc n → Prop
  | .root p => l = .pool p
  | .head w => l = .queue w
  | .tail w => l = .queue w
  | .next b => s.At c (.lock l) b ∨ s.At c (.thread i) b

/-- The areas that a step takes buffers from or puts them into. -/
def Label.Touches (s : State n Req Resp T) (l : Label n Req) : Area n → Prop
  | .lock k => ∃ i code, l.thread = some i ∧ s.call i = some (k, code)
  | .thread i => l.thread = some i
  | .network => ∀ i, l.thread = some i → s.call i = none

namespace Sound

variable {s : State n Req Resp T} {c : Contents n} {b : Nat}

/-- A buffer is in one area. -/
theorem at_unique (h : Sound s c) {A B : Area n} (hA : s.At c A b) (hB : s.At c B b) : A = B := by
  rcases hA with ⟨p, rfl, hp⟩ | ⟨p, rfl, hp⟩
  · rcases hB with ⟨q, rfl, hq⟩ | ⟨q, rfl, hq⟩
    · rw [h.recv.unique p q b hp hq]
    · exact absurd (h.send.mem hq) (not_send_of_recv (h.recv.mem hp))
  · rcases hB with ⟨q, rfl, hq⟩ | ⟨q, rfl, hq⟩
    · exact absurd (h.send.mem hp) (not_send_of_recv (h.recv.mem hq))
    · rw [h.send.unique p q b hp hq]

/-- Threads with different locks touch different cells. -/
theorem owns_apart (h : Sound s c) {i j : Thread n} {l k : Lock n} (hij : i ≠ j) (hlk : l ≠ k)
    {x : Loc n} (hx : s.Owns c i l x) : ¬ s.Owns c j k x := by
  intro hx'
  cases x with
  | root p => exact hlk (hx.trans hx'.symm)
  | head w => exact hlk (hx.trans hx'.symm)
  | tail w => exact hlk (hx.trans hx'.symm)
  | next b =>
    rcases hx with hx | hx <;> rcases hx' with hx' | hx'
    · exact hlk (Area.lock.inj (h.at_unique hx hx'))
    · cases h.at_unique hx hx'
    · cases h.at_unique hx hx'
    · exact hij (Area.thread.inj (h.at_unique hx hx'))

end Sound

/-! ### What a step leaves alone -/

section frame

variable {sv : Service n Req Resp T} {s s' : State n Req Resp T} {c : Contents n}
  {l : Label n Req}

/-- Only the poller moves the poller. -/
theorem poller_frame (hstep : Step sv s l s') (h : ¬ l.Touches s (.thread .poller)) :
    s'.poller = s.poller := by
  cases hstep with
  | receive => rfl
  | complete => rfl
  | noWork | dequeued | sendFail | sendAlloc | executed | posted | recvFreed => rfl
  | _ => exact absurd rfl h

/-- Only the worker `w` moves the worker `w`. -/
theorem worker_frame (hstep : Step sv s l s') {w : Fin n}
    (h : ¬ l.Touches s (.thread (.worker w))) : s'.worker w = s.worker w := by
  have hne : ∀ {v : Fin n}, l = .serve v → w ≠ v := by
    rintro v rfl rfl
    exact h rfl
  cases hstep with
  | dequeued | sendAlloc | executed | posted | recvFreed =>
    exact Function.update_of_ne (hne rfl) _ _
  | _ => rfl

/-- What a thread is about to do is decided by the thread alone. -/
theorem call_frame (hstep : Step sv s l s') {i : Thread n} (h : ¬ l.Touches s (.thread i)) :
    s'.call i = s.call i := by
  cases i with
  | poller => simp only [State.call, poller_frame hstep h]
  | worker w => simp only [State.call, worker_frame hstep h]

theorem failed_frame (hstep : Step sv s l s') {i : Thread n} (h : ¬ l.Touches s (.thread i))
    (r : Nat) : s'.failed r i = s.failed r i := by
  cases i with
  | poller => simp only [State.failed, poller_frame hstep h]
  | worker w => simp only [State.failed, worker_frame hstep h]

/-- A call leaves the network alone. -/
theorem network_frame (hstep : Step sv s l s') (h : ¬ l.Touches s .network) :
    s'.rq = s.rq ∧ s'.rcq = s.rcq ∧ s'.sq = s.sq ∧ s'.scq = s.scq := by
  obtain ⟨i, hi, hcall⟩ : ∃ i, l.thread = some i ∧ s.call i ≠ none := by
    simpa [Label.Touches] using h
  cases hstep with
  | fillPost hp | received hp _ | reaped hp _ | recvPost hp =>
    cases hi
    exact absurd (by simp [State.call, hp, Poller.call]) hcall
  | posted hw =>
    cases hi
    exact absurd (by simp [State.call, hw, Worker.call]) hcall
  | receive => cases hi
  | complete => cases hi
  | _ => exact ⟨rfl, rfl, rfl, rfl⟩

/-- The contents of an object change in calls under its lock only. -/
theorem recvFree_frame (h : ¬ l.Touches s (.lock (.pool .recv))) :
    (s.track c l).recvFree = c.recvFree := by
  have hcall : ∀ i code, l.thread = some i → s.call i ≠ some (.pool .recv, code) :=
    fun i code hi hc => h ⟨i, code, hi, hc⟩
  cases l with
  | poll link =>
    have hp := hcall .poller
    cases hpc : s.poller with
    | fill i =>
      by_cases hi : i < kMaxIBQueueDepth
      · exact absurd (by rw [State.call, hpc, Poller.call, if_pos hi]) (hp _ rfl)
      · simp only [State.track, hpc, if_neg hi]
    | alloc => exact absurd (by rw [State.call, hpc, Poller.call]) (hp _ rfl)
    | _ => simp only [State.track, hpc]
  | serve w =>
    have hp := hcall (.worker w)
    cases hpc : s.worker w with
    | free work => exact absurd (by rw [State.call, hpc, Worker.call]) (hp _ rfl)
    | _ => simp only [State.track, hpc]
  | receive wc r => rfl
  | complete wc => rfl

theorem sendFree_frame (h : ¬ l.Touches s (.lock (.pool .send))) :
    (s.track c l).sendFree = c.sendFree := by
  have hcall : ∀ i code, l.thread = some i → s.call i ≠ some (.pool .send, code) :=
    fun i code hi hc => h ⟨i, code, hi, hc⟩
  cases l with
  | poll link =>
    have hp := hcall .poller
    cases hpc : s.poller with
    | fill i =>
      by_cases hi : i < kMaxIBQueueDepth
      · simp only [State.track, hpc, if_pos hi]
      · simp only [State.track, hpc, if_neg hi]
    | freeSend b => exact absurd (by rw [State.call, hpc, Poller.call]) (hp _ rfl)
    | _ => simp only [State.track, hpc]
  | serve w =>
    have hp := hcall (.worker w)
    cases hpc : s.worker w with
    | alloc work => exact absurd (by rw [State.call, hpc, Worker.call]) (hp _ rfl)
    | _ => simp only [State.track, hpc]
  | receive wc r => rfl
  | complete wc => rfl

/-- So does the pointer to the first send buffer. -/
theorem sendRoot_frame (hstep : Step sv s l s') (h : ¬ l.Touches s (.lock (.pool .send))) :
    s'.sendRoot = s.sendRoot := by
  have hcall : ∀ i code, l.thread = some i → s.call i ≠ some (.pool .send, code) :=
    fun i code hi hc => h ⟨i, code, hi, hc⟩
  cases hstep with
  | sendFreed hp => exact absurd (by rw [State.call, hp, Poller.call]) (hcall .poller _ rfl)
  | @sendAlloc w _ hw _ _ =>
    exact absurd (by rw [State.call, hw, Worker.call]) (hcall (.worker w) _ rfl)
  | _ => rfl

theorem queue_frame {w : Fin n} (h : ¬ l.Touches s (.lock (.queue w))) :
    (s.track c l).queue w = c.queue w := by
  have hcall : ∀ i code, l.thread = some i → s.call i ≠ some (.queue w, code) :=
    fun i code hi hc => h ⟨i, code, hi, hc⟩
  -- only a call on this queue changes what it holds
  cases l with
  | poll link =>
    have hp := hcall .poller
    cases hpc : s.poller with
    | fill i =>
      by_cases hi : i < kMaxIBQueueDepth
      · simp only [State.track, hpc, if_pos hi]
      · simp only [State.track, hpc, if_neg hi]
    | enqueue b v =>
      have hne : w ≠ v := by
        rintro rfl
        exact hp _ rfl (by rw [State.call, hpc, Poller.call])
      simp only [State.track, hpc]
      exact Function.update_of_ne hne _ _
    | _ => simp only [State.track, hpc]
  | serve v =>
    have hp := hcall (.worker v)
    cases hpc : s.worker v with
    | poll =>
      have hne : w ≠ v := by
        rintro rfl
        exact hp _ rfl (by rw [State.call, hpc, Worker.call])
      simp only [State.track, hpc]
      exact Function.update_of_ne hne _ _
    | _ => simp only [State.track, hpc]
  | receive wc r => rfl
  | complete wc => rfl

/-- A step moves no buffer into or out of the other areas. -/
theorem at_frame (hstep : Step sv s l s') {A : Area n} (hA : ¬ l.Touches s A) {b : Nat} :
    s'.At (s.track c l) A b ↔ s.At c A b := by
  -- place by place, both for receive and for send buffers
  have hrecv : ∀ p : RecvPlace n, p.area = A →
      s'.recvHeld (s.track c l) p = s.recvHeld c p := by
    rintro p rfl
    cases p with
    | pool => exact recvFree_frame hA
    | receiveQueue =>
      obtain ⟨hrq, hrcq, _, _⟩ := network_frame hstep hA
      simp only [State.recvHeld, hrq, hrcq]
    | workQueue w => exact queue_frame hA
    | worker w => simp only [State.recvHeld, worker_frame hstep hA]
    | poller => simp only [State.recvHeld, poller_frame hstep hA]
  have hsend : ∀ p : SendPlace n, p.area = A →
      s'.sendHeld (s.track c l) p = s.sendHeld c p := by
    rintro p rfl
    cases p with
    | pool => exact sendFree_frame hA
    | sendQueue =>
      obtain ⟨_, _, hsq, hscq⟩ := network_frame hstep hA
      simp only [State.sendHeld, hsq, hscq]
    | worker w => simp only [State.sendHeld, worker_frame hstep hA]
    | poller => simp only [State.sendHeld, poller_frame hstep hA]
  have hp : ∀ p : RecvPlace n, p.area = A ∧ b ∈ s'.recvHeld (s.track c l) p ↔
      p.area = A ∧ b ∈ s.recvHeld c p := fun p => and_congr_right fun h => by rw [hrecv p h]
  have hq : ∀ p : SendPlace n, p.area = A ∧ b ∈ s'.sendHeld (s.track c l) p ↔
      p.area = A ∧ b ∈ s.sendHeld c p := fun p => and_congr_right fun h => by rw [hsend p h]
  simp only [State.At, hp, hq]

/-- What other threads may touch is as before. -/
theorem owns_frame (hstep : Step sv s l s') {i : Thread n} {k : Lock n}
    (hi : ¬ l.Touches s (.thread i)) (hk : ¬ l.Touches s (.lock k)) {x : Loc n}
    (hx : s.Owns c i k x) : s'.Owns (s.track c l) i k x := by
  cases x with
  | root p => exact hx
  | head w => exact hx
  | tail w => exact hx
  | next b => exact hx.imp (at_frame hstep hk).mpr (at_frame hstep hi).mpr

/-- A call moves buffers between its object and its thread only, so that the thread may touch
    the same cells as before. -/
theorem owns_of_call (hstep : Step sv s l s') (h : Sound s c) (h' : Sound s' (s.track c l))
    {i : Thread n} {k : Lock n} {code : Code n} (hi : l.thread = some i)
    (hcall : s.call i = some (k, code)) {x : Loc n} (hx : s.Owns c i k x) :
    s'.Owns (s.track c l) i k x := by
  cases x with
  | root p => exact hx
  | head w => exact hx
  | tail w => exact hx
  | next b =>
    -- the buffer is in some area, and it has not come to another one
    obtain ⟨B, hB⟩ : ∃ B, s'.At (s.track c l) B b := by
      rcases hx with (⟨p, _, hp⟩ | ⟨p, _, hp⟩) | (⟨p, _, hp⟩ | ⟨p, _, hp⟩)
      · obtain ⟨q, hq⟩ := (h'.recv.mem_all b).mp (h.recv.mem hp)
        exact ⟨q.area, Or.inl ⟨q, rfl, hq⟩⟩
      · obtain ⟨q, hq⟩ := (h'.send.mem_all b).mp (h.send.mem hp)
        exact ⟨q.area, Or.inr ⟨q, rfl, hq⟩⟩
      · obtain ⟨q, hq⟩ := (h'.recv.mem_all b).mp (h.recv.mem hp)
        exact ⟨q.area, Or.inl ⟨q, rfl, hq⟩⟩
      · obtain ⟨q, hq⟩ := (h'.send.mem_all b).mp (h.send.mem hp)
        exact ⟨q.area, Or.inr ⟨q, rfl, hq⟩⟩
    -- a step outside of the area leaves the buffers there as they were
    by_cases hT : l.Touches s B
    · cases B with
      | lock k' =>
        obtain ⟨i', code', hi', hcall'⟩ := hT
        rw [hi] at hi'
        cases hi'
        rw [hcall] at hcall'
        cases hcall'
        exact Or.inl hB
      | thread i' =>
        have hi' : l.thread = some i' := hT
        rw [hi] at hi'
        cases hi'
        exact Or.inr hB
      | network =>
        have hnone := hT i hi
        rw [hcall] at hnone
        cases hnone
    · have hB' := (at_frame hstep hT).mp hB
      rcases hx with hx | hx
      · rw [h.at_unique hB' hx] at hT
        exact absurd ⟨i, code, hi, hcall⟩ hT
      · rw [h.at_unique hB' hx] at hT
        exact absurd hi hT

end frame

end Nvds.Serving
