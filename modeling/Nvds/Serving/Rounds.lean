import Nvds.Cluster.Connections
import Nvds.Serving.Buffers
import Nvds.Tablet.StartUp

/-! # Runs that serve one request after another

    The receive queue is filled; then a request arrives, is dispatched, taken
    up, executed and answered, and its buffer is posted again, before the next
    one arrives. The network completes no send, so that every round leaves
    one send buffer less in the pool. Such runs show what the threads can
    really get to.
-/

open LinkedList Custody
open Nvds.Cluster (Address IndexManager Server shipped addServers twoJoins unset hostOf)

namespace Nvds.Serving

variable {n : Nat} {Req Resp T : Type} {sv : Service n Req Resp T} {s s' : State n Req Resp T}
  {c : Contents n} {k b : Nat} {w : Fin n} {r : Req} {resp : Resp} {t : T}

/-! ### Between two requests -/

/-- The threads look for work, some receive is posted, and `k` responses are posted whose
    sends the network has not completed. -/
structure Quiet (k : Nat) (s : State n Req Resp T) : Prop where
  poller : s.poller = .tryReceive
  worker : ∀ w, s.worker w = .poll
  wq : ∀ w, (s.wq w).head = 0
  rq : s.rq ≠ []
  rcq : s.rcq = []
  sq : s.sq.length = k
  scq : s.scq = []
  aborted : s.aborted = none

/-- A send buffer is in the pool or posted. -/
theorem Quiet.send_cases (h : Quiet k s) (hs : Sound s c) (hb : b ∈ sendBuffers) :
    b ∈ c.sendFree ∨ b ∈ s.sq := by
  obtain ⟨p, hp⟩ := (hs.send.mem_all b).mp hb
  cases p with
  | pool => exact Or.inl hp
  | sendQueue => exact Or.inr (by simpa [State.sendHeld, h.scq] using hp)
  | worker w => simp [State.sendHeld, h.worker, Worker.sendHeld] at hp
  | poller => simp [State.sendHeld, h.poller, Poller.sendHeld] at hp

/-- As long as not all send buffers are posted there is one in the pool. -/
theorem Quiet.sendRoot_ne_zero (h : Quiet k s) (hs : Sound s c) (hk : k < kMaxIBQueueDepth) :
    s.sendRoot ≠ 0 := by
  intro h0
  have hempty := hs.represents.sendFree_eq_nil h0
  -- else all of them are posted, and these are too many
  have hall : sendBuffers ⊆ s.sq := by
    intro b hb
    rcases h.send_cases hs hb with hb | hb
    · simp [hempty] at hb
    · exact hb
  have hnd : sendBuffers.Nodup := List.nodup_range' ..
  have hlen := (hnd.subperm hall).length_le
  rw [h.sq, sendBuffers, List.length_range'] at hlen
  omega

/-- When all of them are posted the pool is empty. -/
theorem Quiet.sendRoot_eq_zero (h : Quiet k s) (hs : Sound s c) (hk : k = kMaxIBQueueDepth) :
    s.sendRoot = 0 := by
  by_contra h0
  have hpool : s.sendRoot ∈ s.sendHeld c .pool := by
    show s.sendRoot ∈ c.sendFree
    rw [(hs.represents.allocSend h0).1]
    simp
  -- the send queue holds as many buffers as there are
  have hfull : sendBuffers.length ≤ (s.sendHeld c .sendQueue).length := by
    simp [State.sendHeld, h.sq, h.scq, sendBuffers, hk]
  have hposted := hs.send.mem_of_length hfull (hs.send.mem hpool)
  exact hs.send.not_mem hpool (by simp) hposted

/-! ### One round -/

/-- The address the requests come from. -/
def sender : Address := WorkCompletion.peerAddr ⟨0, 1, 1⟩

/-- After the request `r` has arrived in the buffer `b` and the worker `w` has taken it up. -/
def State.takenUp (s : State n Req Resp T) (b : Nat) (w : Fin n) (r : Req) : State n Req Resp T :=
  { s with
    next := Function.update s.next b 0
    peerAddr := Function.update s.peerAddr b sender
    request := Function.update s.request b r
    rq := s.rq.erase b
    wq := Function.update s.wq w ⟨0, 0⟩
    poller := .trySend
    worker := Function.update s.worker w (.alloc b)
    arrived := s.arrived ++ [(r, sender)]
    dispatched := Function.update s.dispatched w (s.dispatched w ++ [(r, sender)]) }

/-- After the response `resp` to it was posted, and the buffer `b` again. -/
def State.answered (s : State n Req Resp T) (b : Nat) (w : Fin n) (r : Req) (resp : Resp) (t : T) :
    State n Req Resp T :=
  { s.takenUp b w r with
    next := Function.update s.next b s.recvRoot
    response := Function.update s.response s.sendRoot resp
    sendRoot := (s.takenUp b w r).next s.sendRoot
    tablet := Function.update s.tablet w t
    poller := .tryReceive
    worker := Function.update s.worker w .poll
    rq := s.rq.erase b ++ [b]
    sq := s.sq ++ [s.sendRoot]
    executed := Function.update s.executed w (s.executed w ++ [(r, sender)])
    posted := Function.update s.posted w (s.posted w ++ [(resp, sender)]) }

theorem run_takenUp (h : Quiet k s) (hb : b ∈ s.rq) (h0 : b ≠ 0) (hroute : sv.route r = some w) :
    sv.run s [.receive ⟨b, 1, 1⟩ r, .poll 0, .poll 0, .poll 0, .serve w] =
      some (s.takenUp b w r) := by
  simp [Service.run, Service.step, Service.poll, Service.serve, State.receive, h.aborted, hb,
    h.poller, h.rcq, hroute, h.wq, h.worker, WorkQueue.enqueue, WorkQueue.dequeue, h0, State.entry,
    State.takenUp, sender, WorkCompletion.peerAddr]

theorem run_answered (h : Quiet k s) (h0 : b ≠ 0) (hroot : s.sendRoot ≠ 0)
    (hrun : sv.execute (s.tablet w) r = some (resp, t)) :
    sv.run (s.takenUp b w r)
      [.serve w, .serve w, .serve w, .serve w, .poll 0, .poll 0, .poll 0] =
      some (s.answered b w r resp t) := by
  simp [Service.run, Service.step, Service.poll, Service.serve, h.aborted, h.scq,
    RegisteredBuffers.alloc, RegisteredBuffers.free, h0, hroot, hrun, State.takenUp,
    State.answered, State.entry]

theorem Quiet.answered (h : Quiet k s) : Quiet (k + 1) (s.answered b w r resp t) where
  poller := rfl
  worker v := by by_cases hv : v = w <;> simp [State.answered, hv, h.worker]
  wq v := by by_cases hv : v = w <;> simp [State.answered, State.takenUp, hv, h.wq]
  rq := by simp [State.answered]
  rcq := h.rcq
  sq := by simp [State.answered, h.sq]
  scq := h.scq
  aborted := h.aborted

/-- A posted buffer that a request can arrive in. -/
theorem Quiet.exists_posted (h : Quiet k s) (hs : Sound s c) : ∃ b ∈ s.rq, b ≠ 0 := by
  obtain ⟨b, hb⟩ := List.exists_mem_of_ne_nil _ h.rq
  refine ⟨b, hb, ?_⟩
  have hplace : b ∈ s.recvHeld c .receiveQueue := by simp [State.recvHeld, hb]
  exact ne_zero_of_recv (hs.recv.mem hplace)

/-! ### Filling the receive queue -/

/-- The poller has posted `i` receives; nothing else has happened. -/
structure Filling (t : Fin n → T) (i : Nat) (s : State n Req Resp T) : Prop where
  poller : s.poller = .fill i
  worker : ∀ w, s.worker w = .poll
  wq : ∀ w, (s.wq w).head = 0
  tablet : s.tablet = t
  rq : s.rq.length = i
  rcq : s.rcq = []
  sq : s.sq = []
  scq : s.scq = []
  aborted : s.aborted = none
  record : ∀ w, s.dispatched w = [] ∧ s.executed w = [] ∧ s.posted w = []

variable {ts : Fin n → T}

section fill

variable (sv)

theorem Filling.next {i : Nat} (h : Filling ts i s) (hs : Sound s c) (hi : i < kMaxIBQueueDepth) :
    ∃ s', sv.run s [.poll 0, .poll 0] = some s' ∧ Filling ts (i + 1) s' := by
  have hroot := hs.recvRoot_ne_zero h.poller hi
  refine ⟨{ s with
    recvRoot := s.next s.recvRoot
    poller := .fill (i + 1)
    rq := s.rq ++ [s.recvRoot] }, ?_, ?_⟩
  · simp [Service.run, Service.step, Service.poll, h.aborted, h.poller, hi, hroot,
      RegisteredBuffers.alloc]
  · exact ⟨rfl, h.worker, h.wq, h.tablet, by simp [h.rq], h.rcq, h.sq, h.scq, h.aborted, h.record⟩

/-- The poller fills the receive queue by itself. -/
theorem exists_filling (h : Init ts s) {i : Nat} (hi : i ≤ kMaxIBQueueDepth) :
    ∃ s', sv.run s (List.replicate (i * 2) (.poll 0)) = some s' ∧ Filling ts i s' := by
  induction i with
  | zero =>
    obtain ⟨hrq, hrcq, hsq, hscq⟩ := h.network
    refine ⟨s, rfl, h.poller, h.worker, ?_, h.tablet, ?_, hrcq, hsq, hscq, h.aborted, h.record.2⟩
    · intro w
      rw [h.wq w]
    · rw [hrq, List.length_nil]
  | succ i ih =>
    obtain ⟨s₁, hrun, hfill⟩ := ih (by omega)
    obtain ⟨c, hc⟩ := (Sound.init h).run hrun
    obtain ⟨s₂, hrun', hfill'⟩ := hfill.next sv hc (by omega)
    refine ⟨s₂, ?_, hfill'⟩
    rw [Nat.succ_mul, List.replicate_add]
    exact run_append hrun hrun'

/-- Then it looks for requests. -/
theorem exists_quiet_zero (h : Init ts s) :
    ∃ s', sv.run s (List.replicate (kMaxIBQueueDepth * 2 + 1) (.poll 0)) = some s' ∧ Quiet 0 s' ∧
      s'.tablet = ts ∧ ∀ w, s'.dispatched w = [] ∧ s'.executed w = [] ∧ s'.posted w = [] := by
  obtain ⟨s₁, hrun, hfill⟩ := exists_filling sv h le_rfl
  have hdone : sv.run s₁ [.poll 0] = some { s₁ with poller := .tryReceive } := by
    simp [Service.run, Service.step, Service.poll, hfill.aborted, hfill.poller]
  have hrq : s₁.rq ≠ [] := by
    intro h0
    have hlen := hfill.rq
    rw [h0] at hlen
    exact absurd hlen (by decide)
  refine ⟨{ s₁ with poller := .tryReceive }, ?_, ?_, hfill.tablet, hfill.record⟩
  · rw [List.replicate_succ']
    exact run_append hrun hdone
  · exact ⟨rfl, hfill.worker, hfill.wq, hrq, hfill.rcq, by rw [hfill.sq]; rfl, hfill.scq,
      hfill.aborted⟩

end fill

/-! ### Many rounds -/

/-- A request for the worker `w` that can be executed again and again on the tablets with
    the property `P`. -/
structure Repeatable (sv : Service n Req Resp T) (w : Fin n) (r : Req) (P : T → Prop) : Prop where
  route : sv.route r = some w
  execute : ∀ t, P t → ∃ resp t', sv.execute t r = some (resp, t') ∧ P t'

/-- As many rounds as there are send buffers, without a send that is completed. -/
theorem exists_quiet {P : T → Prop} (hr : Repeatable sv w r P) (h : Init ts s) (ht : P (ts w))
    (hk : k ≤ kMaxIBQueueDepth) :
    ∃ ls s', sv.run s ls = some s' ∧ Quiet k s' ∧ P (s'.tablet w) ∧ (s'.posted w).length = k := by
  induction k with
  | zero =>
    obtain ⟨s₁, hrun, hq, htab, hrecord⟩ := exists_quiet_zero sv h
    exact ⟨_, s₁, hrun, hq, htab ▸ ht, by rw [(hrecord w).2.2, List.length_nil]⟩
  | succ k ih =>
    obtain ⟨ls, s₁, hrun, hq, ht₁, hposted⟩ := ih (by omega)
    obtain ⟨c, hc⟩ := (Sound.init h).run hrun
    obtain ⟨b, hb, h0⟩ := hq.exists_posted hc
    obtain ⟨resp, t', hexec, ht'⟩ := hr.execute _ ht₁
    have hround := run_append (run_takenUp hq hb h0 hr.route)
      (run_answered hq h0 (hq.sendRoot_ne_zero hc (by omega)) hexec)
    refine ⟨_, _, run_append hrun hround, hq.answered, ?_, ?_⟩
    · simpa [State.answered] using ht'
    · simp [State.answered, hposted]

/-! ### A server of the shipped configuration -/

/-- The index after both servers have joined. -/
def joinedIndex : IndexManager shipped :=
  match addServers 0 twoJoins (unset shipped) with
  | .ok im => im
  | .error _ => unset shipped

/-- The first server. -/
def firstServer : Server shipped :=
  match (Server.new (hostOf shipped 1)).joinResponse 0 joinedIndex with
  | .ok s => s
  | .error _ => Server.new (hostOf shipped 1)

/-- Its worker. -/
def firstWorker : Fin shipped.kNumTabletsPerServer := ⟨0, shipped.tablets_pos⟩

/-- The tablets, built in memory that was 0. -/
def blankTablets : Fin shipped.kNumTabletsPerServer → Tablet.Replicated :=
  fun _ => ⟨Tablet.newTablet 0 fun _ => 0, [fun _ => 0]⟩

/-- A request for a key that was never put. -/
def getSeven : Request := Tablet.request .get 7 [] nil_length_lt

/-- The first server before its threads start. -/
def blank : State shipped.kNumTabletsPerServer Request Response Tablet.Replicated where
  next := RegisteredBuffers.link recvBase kMaxIBQueueDepth
    (RegisteredBuffers.link sendBase kMaxIBQueueDepth fun _ => 0)
  peerAddr := fun _ => sender
  request := fun _ => getSeven
  response := fun _ => ⟨.get, .ok, []⟩
  recvRoot := recvBase
  sendRoot := sendBase
  wq := fun _ => ⟨0, 0⟩
  tablet := blankTablets
  poller := .fill 0
  worker := fun _ => .poll
  rq := []
  rcq := []
  sq := []
  scq := []
  aborted := none
  arrived := []
  dispatched := fun _ => []
  executed := fun _ => []
  posted := fun _ => []

theorem init_blank : Init blankTablets blank where
  next := ⟨fun _ => 0, rfl⟩
  recvRoot := rfl
  sendRoot := rfl
  wq _ := rfl
  tablet := rfl
  poller := rfl
  worker _ := rfl
  network := ⟨rfl, rfl, rfl, rfl⟩
  aborted := rfl
  record := ⟨rfl, fun _ => ⟨rfl, rfl, rfl⟩⟩

/-- The bucket of `getSeven` is empty. -/
def Unbound (t : Tablet.Replicated) : Prop :=
  ByteMemory.word t.master.mem (Tablet.slotOf (Tablet.bucketOf getSeven)) = 0

theorem unbound_blank (w : Fin shipped.kNumTabletsPerServer) : Unbound (blankTablets w) :=
  (Tablet.Region.tableZero_iff 0 _).mp (fun _ _ => rfl) _ (Tablet.bucketOf_lt _)

/-- A `GET` does not change what the buckets hold. -/
theorem executeOn_getSeven {t : Tablet.Replicated} (h : Unbound t) :
    executeOn 1 t getSeven =
      some (⟨.get, .error, []⟩, ⟨{ t.master with modifications := [] }, t.backups⟩) := by
  have hget := Tablet.get_empty (s := { t.master with modifications := [] }) (r := getSeven) rfl h
    1 le_rfl
  have hserve : Tablet.serve 1 getSeven t.master =
      .ok (⟨.get, .error, []⟩, { t.master with modifications := [] }) := by
    show (Tablet.get 1 getSeven >>= fun x => pure (⟨.get, x.1, x.2⟩ : Response))
      { t.master with modifications := [] } = _
    rw [Program.bind_of_ok hget]
    rfl
  unfold executeOn
  rw [hserve]
  rfl

theorem repeatable_getSeven :
    Repeatable (Service.ofServer firstServer 1) firstWorker getSeven Unbound where
  route := by
    show routeOf firstServer getSeven = some firstWorker
    decide +kernel
  execute t ht := ⟨_, _, executeOn_getSeven ht, ht⟩

/-! ### Where the buffers can be -/

/-- **No buffer is lost or at two places.** In every state of a run, every receive buffer is
    at one of the places of `RecvPlace` and every send buffer at one of the places of
    `SendPlace`, once; the pools and the queues are those that the links and the ends
    represent. So no more than `kMaxIBQueueDepth` receives are ever posted. -/
theorem buffers_partitioned {ts : Fin n → T} (h : Reachable sv ts s) :
    (∃ c, Represents s.next s.recvRoot s.sendRoot s.wq c ∧
      Partition recvBuffers (s.recvHeld c) ∧ Partition sendBuffers (s.sendHeld c)) ∧
    s.rq.length + s.rcq.length ≤ kMaxIBQueueDepth := by
  obtain ⟨c, hc⟩ := sound_of_reachable h
  refine ⟨⟨c, hc.represents, hc.recv, hc.send⟩, ?_⟩
  have hlen := hc.recv.length_le .receiveQueue
  simpa [State.recvHeld, recvBuffers] using hlen

/-- With every send buffer posted. -/
theorem buffers_partitioned_posted : ∃ s, Reachable (Service.ofServer firstServer 1) blankTablets s ∧
    s.sq.length = kMaxIBQueueDepth ∧
    ∃ c, Represents s.next s.recvRoot s.sendRoot s.wq c ∧ Partition recvBuffers (s.recvHeld c) ∧
      Partition sendBuffers (s.sendHeld c) := by
  obtain ⟨ls, s, hrun, hq, _⟩ :=
    exists_quiet repeatable_getSeven init_blank (unbound_blank _) le_rfl
  have hreach := reachable_run init_blank hrun
  exact ⟨s, hreach, hq.sq, (buffers_partitioned hreach).1⟩

/-- Between `TrySend` and `Free` a send buffer is only in the hands of the poller: it is not
    in the pool, no worker holds it, and it is not posted any more. -/
theorem exists_reaped : ∃ s, Reachable (Service.ofServer firstServer 1) blankTablets s ∧
    ∃ b ∈ sendBuffers, (∀ xs, Seg s.next s.sendRoot xs 0 → b ∉ xs) ∧
      (∀ w, b ∉ (s.worker w).sendHeld) ∧ b ∉ s.sq ∧ b ∉ s.scq.map (·.wrId) := by
  obtain ⟨ls, s, hrun, hq, _⟩ :=
    exists_quiet (k := 1) repeatable_getSeven init_blank (unbound_blank _) (by decide)
  obtain ⟨b, hsq⟩ := List.length_eq_one_iff.mp hq.sq
  -- the send is completed, and the poller reaps it
  have hreap : (Service.ofServer firstServer 1).run s [.complete ⟨b, 0, 0⟩, .poll 0, .poll 0] =
      some { s with
        sq := []
        peerAddr := Function.update s.peerAddr b (WorkCompletion.peerAddr ⟨b, 0, 0⟩)
        poller := .freeSend b } := by
    simp [Service.run, Service.step, Service.poll, State.complete, hq.aborted, hq.poller, hq.rcq,
      hq.scq, hsq]
  have hrun' := run_append hrun hreap
  refine ⟨_, reachable_run init_blank hrun', b, ?_⟩
  obtain ⟨c, hc⟩ := (Sound.init init_blank).run hrun'
  obtain ⟨s', hs'⟩ : ∃ s', s' = { s with
    sq := []
    peerAddr := Function.update s.peerAddr b (WorkCompletion.peerAddr ⟨b, 0, 0⟩)
    poller := .freeSend b } := ⟨_, rfl⟩
  rw [← hs'] at hc ⊢
  have hplace : b ∈ s'.sendHeld c .poller := by simp [hs', State.sendHeld, Poller.sendHeld]
  have hposted : b ∉ s'.sendHeld c .sendQueue := hc.send.not_mem hplace (by simp)
  refine ⟨hc.send.mem hplace, ?_, ?_, ?_, ?_⟩
  · intro xs hxs
    rw [hxs.unique hc.represents.sendFree]
    exact hc.send.not_mem (q := .pool) hplace (by simp)
  · intro w
    exact hc.send.not_mem (q := .worker w) hplace (by simp)
  · exact fun hsq => hposted (List.mem_append_left _ hsq)
  · exact fun hscq => hposted (List.mem_append_right _ hscq)

end Nvds.Serving
