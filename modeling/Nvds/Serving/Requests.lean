import Nvds.Serving.Rounds

/-! # Every request is served once and in order

    The record of a run tells which requests the network delivered, which of
    them were enqueued at a worker, which the worker executed, and what it
    posted. What has arrived and is not enqueued yet is in the completion
    queue or in the hands of the poller; what is enqueued and not executed is
    on the queue or in the hands of the worker. That these are still the
    requests that arrived, with the addresses they came from, rests on the
    places of the buffers: nobody writes to a buffer that is not at his place.
-/

open Custody
open Nvds.Cluster (Address)

namespace Nvds.Serving

variable {n : Nat} {Req Resp T : Type}

/-! ### What has not been done yet -/

/-- The received buffer that is not enqueued yet. -/
def Poller.undispatched : Poller n → List Nat
  | .dispatch b => [b]
  | .enqueue b _ => [b]
  | _ => []

/-- The buffer a worker has taken up and not executed yet. -/
def Worker.pending : Worker → List Nat
  | .alloc work => [work]
  | .execute work _ => [work]
  | _ => []

/-- The buffers of the request that is executed and of its response that is not posted yet. -/
def Worker.unsent : Worker → List (Nat × Nat)
  | .postSend work sb => [(work, sb)]
  | _ => []

/-- The requests that have arrived and are not enqueued yet, in their order. -/
def State.waiting (s : State n Req Resp T) : List (Req × Address) :=
  s.poller.undispatched.map s.entry ++ s.rcq.map fun wc => (s.request wc.wrId, wc.peerAddr)

/-- The requests for the worker `w`. -/
def Service.requestsOf (sv : Service n Req Resp T) (w : Fin n) (es : List (Req × Address)) :
    List (Req × Address) :=
  es.filter fun e => sv.route e.1 = some w

/-- The requests `es` executed one after another on the tablet `t`: a response to each of
    them, for the address the request came from, and the tablet. -/
def Service.answers (sv : Service n Req Resp T) (t : T) :
    List (Req × Address) → Option (List (Resp × Address) × T)
  | [] => some ([], t)
  | e :: es =>
    match sv.execute t e.1 with
    | none => none
    | some (resp, t₁) =>
      match sv.answers t₁ es with
      | none => none
      | some (resps, t₂) => some ((resp, e.2) :: resps, t₂)

variable {sv : Service n Req Resp T} {s s' : State n Req Resp T} {c c' : Contents n}

theorem answers_append {t t₁ t₂ : T} {es : List (Req × Address)} {resps : List (Resp × Address)}
    {e : Req × Address} {resp : Resp} (h : sv.answers t es = some (resps, t₁))
    (he : sv.execute t₁ e.1 = some (resp, t₂)) :
    sv.answers t (es ++ [e]) = some (resps ++ [(resp, e.2)], t₂) := by
  induction es generalizing t resps with
  | nil =>
    cases h
    simp [Service.answers, he]
  | cons e' es ih =>
    rw [Service.answers] at h
    split at h
    · cases h
    · next resp' t' hexec =>
      split at h
      · cases h
      · next resps' t'' hrest =>
        cases h
        rw [List.cons_append, Service.answers, hexec]
        simp [ih hrest]

/-! ### The invariant -/

/-- What the worker `w` with the queue `queue` has done, and what is left to do. -/
structure InOrder (sv : Service n Req Resp T) (t : T) (s : State n Req Resp T) (w : Fin n)
    (queue : List Nat) : Prop where
  dispatched : s.dispatched w = s.executed w ++ ((s.worker w).pending ++ queue).map s.entry
  answered : sv.answers t (s.executed w) = some (s.posted w ++
    (s.worker w).unsent.map (fun x => (s.response x.2, s.peerAddr x.1)), s.tablet w)

/-- The requests that arrived were given to the right workers, which work them off. -/
structure Served (sv : Service n Req Resp T) (ts : Fin n → T) (s : State n Req Resp T)
    (c : Contents n) : Prop where
  arrived : ∀ w, sv.requestsOf w s.arrived = s.dispatched w ++ sv.requestsOf w s.waiting
  routed : ∀ b w, s.poller = .enqueue b w → sv.route (s.request b) = some w
  inOrder : ∀ w, InOrder sv (ts w) s w (c.queue w)

/-- A worker is not concerned by what happens to the buffers of others. -/
theorem InOrder.frame {t : T} {w : Fin n} {queue : List Nat} (h : InOrder sv t s w queue)
    (hworker : s'.worker w = s.worker w) (htablet : s'.tablet w = s.tablet w)
    (hdispatched : s'.dispatched w = s.dispatched w) (hexecuted : s'.executed w = s.executed w)
    (hposted : s'.posted w = s.posted w)
    (hentry : ∀ b ∈ (s.worker w).recvHeld ++ queue, s'.entry b = s.entry b)
    (hresponse : ∀ b ∈ (s.worker w).sendHeld, s'.response b = s.response b) :
    InOrder sv t s' w queue := by
  constructor
  · have hmap : ((s.worker w).pending ++ queue).map s'.entry =
        ((s.worker w).pending ++ queue).map s.entry := by
      refine List.map_congr_left fun b hb => hentry b ?_
      cases hw : s.worker w <;> simp_all [Worker.pending, Worker.recvHeld]
    rw [hdispatched, hexecuted, hworker, hmap, h.dispatched]
  · have hmap : (s.worker w).unsent.map (fun x => (s'.response x.2, s'.peerAddr x.1)) =
        (s.worker w).unsent.map fun x => (s.response x.2, s.peerAddr x.1) := by
      cases hw : s.worker w with
      | postSend work sb =>
        have haddr := congrArg Prod.snd (hentry work (by simp [hw, Worker.recvHeld]))
        have hresp := hresponse sb (by simp [hw, Worker.sendHeld])
        simp only [State.entry] at haddr
        simp [Worker.unsent, haddr, hresp]
      | _ => simp [Worker.unsent]
    rw [hexecuted, hposted, hworker, htablet, hmap, h.answered]

/-- A worker goes on with what it has, without executing a request. -/
theorem InOrder.own {t : T} {w : Fin n} {queue queue' : List Nat} (h : InOrder sv t s w queue)
    (hentry : s'.entry = s.entry) (htablet : s'.tablet w = s.tablet w)
    (hdispatched : s'.dispatched w = s.dispatched w) (hexecuted : s'.executed w = s.executed w)
    (hpending : (s'.worker w).pending ++ queue' = (s.worker w).pending ++ queue)
    (hposted : s'.posted w ++ (s'.worker w).unsent.map (fun x => (s'.response x.2, s'.peerAddr x.1)) =
      s.posted w ++ (s.worker w).unsent.map fun x => (s.response x.2, s.peerAddr x.1)) :
    InOrder sv t s' w queue' := by
  constructor
  · rw [hdispatched, hexecuted, hpending, hentry, h.dispatched]
  · rw [hexecuted, hposted, htablet, h.answered]

namespace Sound

variable {w : Fin n} {b x : Nat}

/-- The buffers on the queue and in the hands of a worker are receive buffers. -/
theorem recv_of_held (h : Sound s c) (hb : b ∈ (s.worker w).recvHeld ++ c.queue w) :
    b ∈ recvBuffers := by
  rcases List.mem_append.mp hb with hb | hb
  · exact h.recv.mem (p := .worker w) hb
  · exact h.recv.mem (p := .workQueue w) hb

/-- They are not at other places. -/
theorem ne_of_held (h : Sound s c) {p : RecvPlace n} (hx : x ∈ s.recvHeld c p)
    (hworker : p ≠ .worker w) (hqueue : p ≠ .workQueue w) :
    ∀ b ∈ (s.worker w).recvHeld ++ c.queue w, b ≠ x := by
  rintro b hb rfl
  rcases List.mem_append.mp hb with hb | hb
  · exact h.recv.not_mem (q := .worker w) hx hworker hb
  · exact h.recv.not_mem (q := .workQueue w) hx hqueue hb

/-- The poller does not have a buffer that is posted. -/
theorem undispatched_ne (h : Sound s c) (hx : x ∈ s.rq) :
    ∀ b ∈ s.poller.undispatched, b ≠ x := by
  rintro b hb rfl
  have hplace : b ∈ s.recvHeld c .receiveQueue := List.mem_append_left _ hx
  apply h.recv.not_mem (q := .poller) hplace (by simp)
  cases hp : s.poller <;> simp_all [Poller.undispatched, State.recvHeld, Poller.recvHeld]

/-- A request that arrives is the last one that waits. -/
theorem waiting_receive (h : Sound s c) {wc : WorkCompletion} (hmem : wc.wrId ∈ s.rq) (r : Req) :
    (s.receive wc r).waiting = s.waiting ++ [(r, wc.peerAddr)] := by
  -- neither the poller nor the completion queue has the buffer yet
  have hother : ∀ wc' ∈ s.rcq, wc'.wrId ≠ wc.wrId := by
    intro wc' hwc' heq
    have hnd := h.recv.nodup .receiveQueue
    refine (List.nodup_append.mp hnd).2.2 wc.wrId hmem wc'.wrId ?_ heq.symm
    exact List.mem_map_of_mem hwc'
  have hundispatched : s.poller.undispatched.map (s.receive wc r).entry =
      s.poller.undispatched.map s.entry := by
    apply List.map_congr_left
    intro b hb
    simp [State.entry, State.receive, Function.update_of_ne (h.undispatched_ne hmem b hb)]
  have hdelivered : s.rcq.map (fun wc' => ((s.receive wc r).request wc'.wrId, wc'.peerAddr)) =
      s.rcq.map fun wc' => (s.request wc'.wrId, wc'.peerAddr) := by
    apply List.map_congr_left
    intro wc' hwc'
    simp [State.receive, Function.update_of_ne (hother wc' hwc')]
  have hlast : (s.receive wc r).request wc.wrId = r := Function.update_self ..
  unfold State.waiting
  rw [show (s.receive wc r).poller = s.poller from rfl,
    show (s.receive wc r).rcq = s.rcq ++ [wc] from rfl, List.map_append, hundispatched, hdelivered,
    List.map_singleton, hlast, List.append_assoc]

end Sound

namespace Served

variable {ts : Fin n → T}

/-- The poller does something that has nothing to do with requests. -/
theorem advance (h : Served sv ts s c) {next : Nat → Nat} {recvRoot sendRoot : Nat}
    {rq : List Nat} {p : Poller n} {aborted : Option Assertion}
    (hbefore : s.poller.undispatched = []) (hafter : p.undispatched = [])
    (hqueue : c'.queue = c.queue) :
    Served sv ts { s with next, recvRoot, sendRoot, rq, poller := p, aborted } c' where
  arrived w := by
    have harr := h.arrived w
    simpa only [State.waiting, hbefore, hafter, List.map_nil, List.nil_append] using harr
  routed b w hp := by
    dsimp only at hp
    subst hp
    simp [Poller.undispatched] at hafter
  inOrder w := by
    rw [hqueue]
    exact (h.inOrder w).frame rfl rfl rfl rfl rfl (fun _ _ => rfl) fun _ _ => rfl

theorem poll {link : Nat} (h : Served sv ts s c) (hs : Sound s c)
    (hstep : Step sv s (.poll link) s') : Served sv ts s' (s.track c (.poll link)) := by
  cases hstep with
  | fillFail hp hi h0 => exact absurd h0 (hs.recvRoot_ne_zero hp hi)
  | fillAlloc hp hi h0 =>
    exact h.advance (by simp [hp, Poller.undispatched]) rfl (by simp [State.track, hp, hi])
  | fillDone hp hi =>
    exact h.advance (by simp [hp, Poller.undispatched]) rfl (by simp [State.track, hp, hi])
  | fillPost hp | noneReceived hp | noneSent hp | sendFreed hp | noneFree hp | recvAlloc hp
  | recvPost hp =>
    exact h.advance (by simp [hp, Poller.undispatched]) rfl (by simp [State.track, hp])
  | @received _ wc rcq hp hrcq =>
    -- the request that waited longest is now in the poller's hands
    have hplace : wc.wrId ∈ s.recvHeld c .receiveQueue := by simp [State.recvHeld, hrcq]
    simp only [State.track, hp]
    refine ⟨?_, ?_, ?_⟩
    · intro w
      have harr := h.arrived w
      simpa [State.waiting, hp, hrcq, Poller.undispatched, State.entry] using harr
    · intro _ _ hp'
      cases hp'
    · intro w
      refine (h.inOrder w).frame rfl rfl rfl rfl rfl ?_ fun _ _ => rfl
      intro b hb
      have hne := hs.ne_of_held hplace (by simp) (by simp) b hb
      simp [State.entry, Function.update_of_ne hne]
  | @routed _ b w hp hw =>
    simp only [State.track, hp]
    refine ⟨?_, ?_, ?_⟩
    · intro v
      have harr := h.arrived v
      simpa [State.waiting, hp, Poller.undispatched, State.entry] using harr
    · intro b' v hp'
      cases hp'
      exact hw
    · intro v
      exact (h.inOrder v).frame rfl rfl rfl rfl rfl (fun _ _ => rfl) fun _ _ => rfl
  | @enqueued _ b w hp =>
    -- it does not wait any more and is the last one on the queue of its worker
    have hroute := h.routed b w hp
    simp only [State.track, hp]
    refine ⟨?_, ?_, ?_⟩
    · intro v
      have harr := h.arrived v
      by_cases hv : v = w
      · subst hv
        simpa [State.waiting, hp, Poller.undispatched, State.entry, Service.requestsOf, hroute]
          using harr
      · simpa [State.waiting, hp, Poller.undispatched, State.entry, Service.requestsOf, hroute, hv,
          Ne.symm hv] using harr
    · intro _ _ hp'
      cases hp'
    · intro v
      by_cases hv : v = w
      · subst hv
        have hin := h.inOrder v
        constructor
        · simp only [Function.update_self]
          show s.dispatched v ++ [s.entry b] =
            s.executed v ++ ((s.worker v).pending ++ (c.queue v ++ [b])).map s.entry
          simp [hin.dispatched]
        · simpa using hin.answered
      · simp only [Function.update_of_ne hv]
        exact (h.inOrder v).frame rfl rfl (by simp [hv]) rfl rfl (fun _ _ => rfl) fun _ _ => rfl
  | @reaped _ wc scq hp hscq =>
    -- the address that is overwritten is in a send buffer
    have hplace : wc.wrId ∈ s.sendHeld c .sendQueue := by simp [State.sendHeld, hscq]
    simp only [State.track, hp]
    refine ⟨?_, ?_, ?_⟩
    · intro w
      have harr := h.arrived w
      simpa [State.waiting, hp, Poller.undispatched, State.entry] using harr
    · intro _ _ hp'
      cases hp'
    · intro w
      refine (h.inOrder w).frame rfl rfl rfl rfl rfl ?_ fun _ _ => rfl
      intro b hb
      have hne : b ≠ wc.wrId := by
        rintro rfl
        exact not_send_of_recv (hs.recv_of_held hb) (hs.send.mem hplace)
      simp [State.entry, Function.update_of_ne hne]

theorem serve {w : Fin n} (h : Served sv ts s c) (hs : Sound s c)
    (hstep : Step sv s (.serve w) s') : Served sv ts s' (s.track c (.serve w)) := by
  cases hstep with
  | noWork hw h0 =>
    rw [hs.track_noWork hw h0]
    exact h
  | dequeued hw h0 =>
    -- the first request on the queue is the one that is taken up
    obtain ⟨hqueue, _⟩ := hs.represents.dequeue (hs.recv.nodup (.workQueue w)) h0
    simp only [State.track, hw]
    refine ⟨h.arrived, h.routed, ?_⟩
    intro v
    by_cases hv : v = w
    · subst hv
      refine (h.inOrder v).own rfl rfl rfl rfl ?_ (by simp [hw, Worker.unsent])
      simpa [hw, Worker.pending] using hqueue.symm
    · simp only [Function.update_of_ne hv]
      exact (h.inOrder v).frame (by simp [hv]) rfl rfl rfl rfl (fun _ _ => rfl) fun _ _ => rfl
  | sendFail hw h0 =>
    simp only [State.track, hw]
    refine ⟨h.arrived, h.routed, ?_⟩
    intro v
    exact (h.inOrder v).frame rfl rfl rfl rfl rfl (fun _ _ => rfl) fun _ _ => rfl
  | sendAlloc hw h0 h1 =>
    simp only [State.track, hw]
    refine ⟨h.arrived, h.routed, ?_⟩
    intro v
    by_cases hv : v = w
    · subst hv
      exact (h.inOrder v).own rfl rfl rfl rfl (by simp [hw, Worker.pending])
        (by simp [hw, Worker.unsent])
    · exact (h.inOrder v).frame (by simp [hv]) rfl rfl rfl rfl (fun _ _ => rfl) fun _ _ => rfl
  | @executed _ work sb resp t hw hrun =>
    -- the request that was taken up is the next one that is executed
    have hplace : sb ∈ s.sendHeld c (.worker w) := by simp [State.sendHeld, Worker.sendHeld, hw]
    simp only [State.track, hw]
    refine ⟨h.arrived, h.routed, ?_⟩
    intro v
    by_cases hv : v = w
    · subst hv
      have hin := h.inOrder v
      have hanswers := hin.answered
      simp only [hw, Worker.unsent, List.map_nil, List.append_nil] at hanswers
      constructor
      · have hdisp := hin.dispatched
        simp only [hw, Worker.pending, List.cons_append, List.nil_append, List.map_cons] at hdisp
        simp only [Function.update_self, Worker.pending, List.nil_append, List.append_assoc,
          List.singleton_append]
        exact hdisp
      · simpa [Worker.unsent, State.entry] using answers_append (e := s.entry work) hanswers hrun
    · refine (h.inOrder v).frame (by simp [hv]) (by simp [hv]) rfl (by simp [hv]) rfl
        (fun _ _ => rfl) ?_
      intro b hb
      -- the response of another worker is in another buffer
      have hne : b ≠ sb := by
        rintro rfl
        exact hs.send.not_mem (q := .worker v) hplace (by simpa using Ne.symm hv) hb
      simp [Function.update_of_ne hne]
  | @posted _ work sb hw =>
    simp only [State.track, hw]
    refine ⟨h.arrived, h.routed, ?_⟩
    intro v
    by_cases hv : v = w
    · subst hv
      exact (h.inOrder v).own rfl rfl rfl rfl (by simp [hw, Worker.pending])
        (by simp [hw, Worker.unsent])
    · exact (h.inOrder v).frame (by simp [hv]) rfl rfl rfl (by simp [hv]) (fun _ _ => rfl)
        fun _ _ => rfl
  | recvFreed hw =>
    simp only [State.track, hw]
    refine ⟨h.arrived, h.routed, ?_⟩
    intro v
    by_cases hv : v = w
    · subst hv
      exact (h.inOrder v).own rfl rfl rfl rfl (by simp [hw, Worker.pending])
        (by simp [hw, Worker.unsent])
    · exact (h.inOrder v).frame (by simp [hv]) rfl rfl rfl rfl (fun _ _ => rfl) fun _ _ => rfl

theorem step {l : Label n Req} (h : Served sv ts s c) (hs : Sound s c)
    (hstep : Step sv s l s') : Served sv ts s' (s.track c l) := by
  cases l with
  | poll link => exact h.poll hs hstep
  | serve w => exact h.serve hs hstep
  | receive wc r =>
    cases hstep with
    | receive hmem =>
      have hplace : wc.wrId ∈ s.recvHeld c .receiveQueue := by simp [State.recvHeld, hmem]
      refine ⟨?_, ?_, ?_⟩
      · intro w
        have harr := h.arrived w
        rw [hs.waiting_receive hmem r]
        simp only [Service.requestsOf, State.receive, List.filter_append] at harr ⊢
        rw [harr, List.append_assoc]
      · intro b w hp
        -- the buffer was posted for receiving, so no request is waiting in it
        have hne := hs.undispatched_ne hmem b
          (by simp [show s.poller = .enqueue b w from hp, Poller.undispatched])
        simpa [State.receive, Function.update_of_ne hne] using h.routed b w hp
      · intro w
        refine (h.inOrder w).frame rfl rfl rfl rfl rfl ?_ fun _ _ => rfl
        intro b hb
        have hne := hs.ne_of_held hplace (by simp) (by simp) b hb
        simp [State.entry, State.receive, Function.update_of_ne hne]
  | complete wc =>
    cases hstep with
    | complete hmem =>
      refine ⟨h.arrived, h.routed, ?_⟩
      intro w
      exact (h.inOrder w).frame rfl rfl rfl rfl rfl (fun _ _ => rfl) fun _ _ => rfl

theorem init (h : Init ts s) : Served sv ts s ⟨recvBuffers, sendBuffers, fun _ => []⟩ := by
  obtain ⟨harrived, hrecord⟩ := h.record
  refine ⟨?_, ?_, ?_⟩
  · intro w
    simp [Service.requestsOf, harrived, hrecord w, State.waiting, h.poller, Poller.undispatched,
      h.network.2.1]
  · intro b w hp
    rw [h.poller] at hp
    cases hp
  · intro w
    constructor
    · simp [hrecord w, h.worker, Worker.pending]
    · simp [hrecord w, h.worker, Worker.unsent, Service.answers, h.tablet]

end Served

/-! ### Every run -/

theorem served_of_reachable {ts : Fin n → T} (h : Reachable sv ts s) :
    ∃ c, Sound s c ∧ Served sv ts s c := by
  refine h.invariant (fun s => ∃ c, Sound s c ∧ Served sv ts s c)
    (fun s hs => ⟨_, .init hs, .init hs⟩) ?_
  rintro s l s' ⟨c, hc, hserved⟩ hstep
  have hstep := (step_cases hstep).2
  exact ⟨_, hc.step hstep, hserved.step hc hstep⟩

/-- What it means that the worker `w`, whose tablet was `t` at first, serves every request
    once and in order. -/
structure ServesInOrder (sv : Service n Req Resp T) (t : T) (s : State n Req Resp T) (w : Fin n) :
    Prop where
  /-- The requests that were enqueued at `w` are the first of those that arrived for it;
      the others are on their way. -/
  dispatched : sv.requestsOf w s.arrived = s.dispatched w ++ sv.requestsOf w s.waiting
  /-- The requests that were executed are the first of those that were enqueued. -/
  executed : s.executed w <+: s.dispatched w
  /-- If there are more, and the worker is about to call `Dequeue`, it gets the next one. -/
  next : s.worker w = .poll → s.executed w ≠ s.dispatched w →
    ∃ b, ((s.wq w).dequeue s.next).1 = b ∧ b ≠ 0 ∧
      s.executed w ++ [s.entry b] <+: s.dispatched w
  /-- The responses that were posted are those of the execution one after another, one to
      each request and for the address it came from, except for one that is not posted yet. -/
  posted : ∃ resps, sv.answers t (s.executed w) = some (resps, s.tablet w) ∧
    (s.posted w = resps ∨
      ∃ work sb resp, s.worker w = .postSend work sb ∧ resps = s.posted w ++ [resp] ∧
        resp = (s.response sb, s.peerAddr work))

/-- **Every request is served once, in order, and answered to its sender**, in every state
    of every run and by every worker. -/
theorem served_in_order {ts : Fin n → T} (h : Reachable sv ts s) (w : Fin n) :
    ServesInOrder sv (ts w) s w := by
  obtain ⟨c, hc, hserved⟩ := served_of_reachable h
  have hin := hserved.inOrder w
  refine ⟨hserved.arrived w, ⟨_, hin.dispatched.symm⟩, ?_, ?_⟩
  · intro hw hmore
    have hdisp := hin.dispatched
    simp only [hw, Worker.pending, List.nil_append] at hdisp
    have h0 : ((s.wq w).dequeue s.next).1 ≠ 0 := by
      intro h0
      rw [(hc.represents.dequeue_eq_zero w).mp h0, List.map_nil, List.append_nil] at hdisp
      exact hmore hdisp.symm
    obtain ⟨hqueue, _⟩ := hc.represents.dequeue (hc.recv.nodup (.workQueue w)) h0
    refine ⟨_, rfl, h0, (c.queue w).tail.map s.entry, ?_⟩
    rw [hdisp, List.append_assoc, List.singleton_append, ← List.map_cons, ← hqueue]
  · refine ⟨_, hin.answered, ?_⟩
    cases hw : s.worker w with
    | postSend work sb =>
      right
      exact ⟨work, sb, _, rfl, by simp [Worker.unsent], rfl⟩
    | _ =>
      left
      simp [Worker.unsent]

/-- As many requests as there are send buffers, all for one key. -/
theorem served_in_order_get : ∃ s, Reachable (Service.ofServer firstServer 1) blankTablets s ∧
    (s.posted firstWorker).length = kMaxIBQueueDepth ∧
    ServesInOrder (Service.ofServer firstServer 1) (blankTablets firstWorker) s firstWorker := by
  obtain ⟨ls, s, hrun, _, _, hposted⟩ :=
    exists_quiet repeatable_getSeven init_blank (unbound_blank _) le_rfl
  have hreach := reachable_run init_blank hrun
  exact ⟨s, hreach, hposted, served_in_order hreach firstWorker⟩

end Nvds.Serving
