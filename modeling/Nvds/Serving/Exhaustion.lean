import Nvds.Serving.Rounds

/-! # When the send buffers run out (`Worker::Serve`)

    A worker asserts that it gets a send buffer for every request it takes
    up. The receive buffer of a request goes back to its pool as soon as the
    response is posted, but the send buffer only when the poller has reaped
    the completion of the send, one in each of its rounds. So the number of
    responses in flight is not bounded by the number of receive buffers: the
    assertion holds as long as some send buffer is not in flight.
-/

namespace Nvds.Serving

variable {n : Nat} {Req Resp T : Type} {sv : Service n Req Resp T} {s s' : State n Req Resp T}
  {c : Contents n} {l : Label n Req} {ls : List (Label n Req)}

/-- A worker fills the send buffer `b`, or it is posted, or its completion is not reaped,
    or the poller is about to free it. -/
def State.InFlight (s : State n Req Resp T) (b : Nat) : Prop :=
  (∃ w, b ∈ (s.worker w).sendHeld) ∨ b ∈ s.sq ∨ b ∈ s.scq.map (·.wrId) ∨ b ∈ s.poller.sendHeld

/-- If the step `l` is the one in which a worker that has taken up a request calls `Alloc`,
    some send buffer is not in flight. -/
def State.Spare (s : State n Req Resp T) (l : Label n Req) : Prop :=
  ∀ w work, l = .serve w → s.worker w = .alloc work → ∃ b ∈ sendBuffers, ¬ s.InFlight b

/-- So it is at every step of a run. -/
def Service.SpareAlong (sv : Service n Req Resp T) (s : State n Req Resp T) :
    List (Label n Req) → Prop
  | [] => True
  | l :: ls => s.Spare l ∧ ∀ s', sv.step s l = some s' → sv.SpareAlong s' ls

/-! ### One step -/

/-- What is not in flight is in the pool. -/
theorem Sound.spare_iff (h : Sound s c) :
    (∃ b ∈ sendBuffers, ¬ s.InFlight b) ↔ s.sendRoot ≠ 0 := by
  constructor
  · rintro ⟨b, hb, hnot⟩ h0
    have hempty := h.represents.sendFree_eq_nil h0
    obtain ⟨p, hp⟩ := (h.send.mem_all b).mp hb
    apply hnot
    cases p with
    | pool => simp [State.sendHeld, hempty] at hp
    | sendQueue =>
      rcases List.mem_append.mp hp with hp | hp
      · exact .inr (.inl hp)
      · exact .inr (.inr (.inl hp))
    | worker w => exact .inl ⟨w, hp⟩
    | poller => exact .inr (.inr (.inr hp))
  -- the first free buffer is in the pool, and so nowhere else
  · intro h0
    have hpool : s.sendRoot ∈ s.sendHeld c .pool := by
      show s.sendRoot ∈ c.sendFree
      rw [(h.represents.allocSend h0).1]
      simp
    refine ⟨s.sendRoot, h.send.mem hpool, ?_⟩
    rintro (⟨w, hw⟩ | hsq | hscq | hp)
    · exact h.send.not_mem (q := .worker w) hpool (by simp) hw
    · exact h.send.not_mem (q := .sendQueue) hpool (by simp) (List.mem_append_left _ hsq)
    · exact h.send.not_mem (q := .sendQueue) hpool (by simp) (List.mem_append_right _ hscq)
    · exact h.send.not_mem (q := .poller) hpool (by simp) hp

/-- A step makes the assertion of `Serve` fail exactly if all send buffers are in flight. -/
theorem Sound.fails_iff (h : Sound s c) (halive : s.aborted = none) (hstep : Step sv s l s') :
    s'.aborted = some .sendBuffer ↔ ¬ s.Spare l := by
  cases hstep with
  | @sendFail w work hw h0 =>
    have hplace : work ∈ s.recvHeld c (.worker w) := by simp [State.recvHeld, Worker.recvHeld, hw]
    have hroot := h0.resolve_left (ne_zero_of_recv (h.recv.mem hplace))
    apply iff_of_true rfl
    intro hspare
    exact h.spare_iff.mp (hspare w work rfl hw) hroot
  | @sendAlloc w work hw h0 hroot =>
    have hspare : s.Spare (.serve w) := fun _ _ _ _ => h.spare_iff.mpr hroot
    simp [halive, hspare]
  | fillFail => simp [State.Spare]
  | noWork hw | dequeued hw | executed hw | posted hw | recvFreed hw =>
    simp_all [State.Spare]
  | _ => simp [halive, State.Spare]

/-! ### Every run -/

/-- There is no step behind a failed assertion. -/
theorem run_aborted (h : s.aborted ≠ none) (hrun : sv.run s ls = some s') : ls = [] ∧ s' = s := by
  cases ls with
  | nil =>
    cases hrun
    exact ⟨rfl, rfl⟩
  | cons l ls =>
    have hstuck : sv.step s l = none := by simp [Service.step, h]
    rw [Service.run, hstuck] at hrun
    cases hrun

theorem Sound.run_fails_iff (h : Sound s c) (halive : s.aborted = none)
    (hrun : sv.run s ls = some s') : s'.aborted ≠ some .sendBuffer ↔ sv.SpareAlong s ls := by
  induction ls generalizing s c with
  | nil =>
    cases hrun
    exact iff_of_true (by simp [halive]) trivial
  | cons l ls ih =>
    rw [Service.run] at hrun
    split at hrun
    · cases hrun
    · next s₁ hs₁ =>
      have hstep := (step_cases hs₁).2
      have hfails := h.fails_iff halive hstep
      -- the steps behind the first one are those of a run from `s₁`
      have hrest : sv.SpareAlong s (l :: ls) ↔ s.Spare l ∧ sv.SpareAlong s₁ ls := by
        refine and_congr_right fun _ => ⟨fun hall => hall s₁ hs₁, ?_⟩
        intro hall s₂ hs₂
        rw [hs₁] at hs₂
        cases hs₂
        exact hall
      rw [hrest]
      by_cases halive₁ : s₁.aborted = none
      · -- the first step did not fail: the rest of the run decides
        have hspare : s.Spare l := by
          by_contra hnot
          rw [halive₁] at hfails
          exact absurd (hfails.mpr hnot) (by simp)
        rw [ih (h.step hstep) halive₁ hrun]
        exact (and_iff_right hspare).symm
      · -- the first step was the last one
        obtain ⟨rfl, rfl⟩ := run_aborted halive₁ hrun
        rw [Ne, hfails, not_not]
        exact (and_iff_left trivial).symm

/-- **A worker obtains a send buffer** for every request it takes up in a run exactly if,
    whenever a worker asks for one, not all send buffers are in flight. -/
theorem sendBuffer_obtained_iff {ts : Fin n → T} (hinit : Init ts s)
    (hrun : sv.run s ls = some s') : s'.aborted ≠ some .sendBuffer ↔ sv.SpareAlong s ls :=
  (Sound.init hinit).run_fails_iff hinit.aborted hrun

/-- A run with as many requests as there are send buffers. -/
theorem sendBuffer_obtained_iff_get : ∃ ls s',
    (Service.ofServer firstServer 1).run blank ls = some s' ∧
      (s'.posted firstWorker).length = kMaxIBQueueDepth ∧
      s'.aborted ≠ some .sendBuffer ∧ (Service.ofServer firstServer 1).SpareAlong blank ls := by
  obtain ⟨ls, s', hrun, hq, _, hposted⟩ :=
    exists_quiet repeatable_getSeven init_blank (unbound_blank _) le_rfl
  have halive : s'.aborted ≠ some .sendBuffer := by simp [hq.aborted]
  exact ⟨ls, s', hrun, hposted, halive, (sendBuffer_obtained_iff init_blank hrun).mp halive⟩

/-- One request more, with none of the sends completed, makes the assertion fail. -/
theorem exists_exhausted : ∃ ls s',
    (Service.ofServer firstServer 1).run blank ls = some s' ∧
      (s'.posted firstWorker).length = kMaxIBQueueDepth ∧ s'.aborted = some .sendBuffer := by
  obtain ⟨ls, s, hrun, hq, _, hposted⟩ :=
    exists_quiet repeatable_getSeven init_blank (unbound_blank _) le_rfl
  obtain ⟨c, hc⟩ := (Sound.init init_blank).run hrun
  obtain ⟨b, hb, h0⟩ := hq.exists_posted hc
  have hroot := hq.sendRoot_eq_zero hc rfl
  have htaken := run_append hrun (run_takenUp hq hb h0 repeatable_getSeven.route)
  have hfail : (Service.ofServer firstServer 1).run (s.takenUp b firstWorker getSeven)
      [.serve firstWorker] =
      some { s.takenUp b firstWorker getSeven with aborted := some .sendBuffer } := by
    simp [Service.run, Service.step, Service.serve, State.takenUp, hq.aborted, hroot,
      RegisteredBuffers.alloc]
  exact ⟨_, _, run_append htaken hfail, hposted, rfl⟩

end Nvds.Serving
