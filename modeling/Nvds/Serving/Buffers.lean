import Nvds.Framework.Custody
import Nvds.Framework.Intrusive
import Nvds.Serving.Model

/-! # Where the buffers are

    Every buffer is at exactly one place in every state of the server: on the
    free list of its pool, with the network, on a work queue, or in the hands
    of a worker or of the poller. The pools and the queues share the links of
    the buffers; that each operation reads and writes only links of buffers it
    has at its place keeps them apart.
-/

open LinkedList Custody

namespace Nvds.Serving

variable {n : Nat} {Req Resp T : Type}

/-! ### The contents of pools and queues -/

/-- The buffers on the free lists of the two pools and on the work queues. -/
structure Contents (n : Nat) where
  recvFree : List Nat
  sendFree : List Nat
  queue : Fin n → List Nat

/-- The links, the roots of the pools and the ends of the queues represent the contents `c`. -/
structure Represents (next : Nat → Nat) (recvRoot sendRoot : Nat) (wq : Fin n → WorkQueue)
    (c : Contents n) : Prop where
  recvFree : Seg next recvRoot c.recvFree 0
  sendFree : Seg next sendRoot c.sendFree 0
  queue : ∀ w, IsQueue next (wq w).head (wq w).tail (c.queue w)

namespace Represents

variable {next : Nat → Nat} {recvRoot sendRoot b : Nat} {wq : Fin n → WorkQueue} {c : Contents n}

/-- The links of buffers that are in no pool and on no queue do not matter. -/
theorem relink (h : Represents next recvRoot sendRoot wq c) (hr : b ∉ c.recvFree)
    (hs : b ∉ c.sendFree) (hq : ∀ w, b ∉ c.queue w) (v : Nat) :
    Represents (Function.update next b v) recvRoot sendRoot wq c where
  recvFree := h.recvFree.update hr v
  sendFree := h.sendFree.update hs v
  queue w := (h.queue w).update (hq w) v

theorem recvFree_eq_nil (h : Represents next recvRoot sendRoot wq c) (h0 : recvRoot = 0) :
    c.recvFree = [] := by
  subst h0
  exact h.recvFree.eq_nil

theorem sendFree_eq_nil (h : Represents next recvRoot sendRoot wq c) (h0 : sendRoot = 0) :
    c.sendFree = [] := by
  subst h0
  exact h.sendFree.eq_nil

theorem allocRecv (h : Represents next recvRoot sendRoot wq c) (h0 : recvRoot ≠ 0) :
    c.recvFree = recvRoot :: c.recvFree.tail ∧
    Represents next (next recvRoot) sendRoot wq { c with recvFree := c.recvFree.tail } := by
  obtain ⟨ys, hys, hseg⟩ := h.recvFree.pop h0
  rw [hys]
  exact ⟨rfl, hseg, h.sendFree, h.queue⟩

theorem allocSend (h : Represents next recvRoot sendRoot wq c) (h0 : sendRoot ≠ 0) :
    c.sendFree = sendRoot :: c.sendFree.tail ∧
    Represents next recvRoot (next sendRoot) wq { c with sendFree := c.sendFree.tail } := by
  obtain ⟨ys, hys, hseg⟩ := h.sendFree.pop h0
  rw [hys]
  exact ⟨rfl, h.recvFree, hseg, h.queue⟩

theorem freeRecv (h : Represents next recvRoot sendRoot wq c) (h0 : b ≠ 0) (hr : b ∉ c.recvFree)
    (hs : b ∉ c.sendFree) (hq : ∀ w, b ∉ c.queue w) :
    Represents (Function.update next b recvRoot) b sendRoot wq
      { c with recvFree := b :: c.recvFree } where
  recvFree := h.recvFree.push hr h0
  sendFree := h.sendFree.update hs _
  queue w := (h.queue w).update (hq w) _

theorem freeSend (h : Represents next recvRoot sendRoot wq c) (h0 : b ≠ 0) (hr : b ∉ c.recvFree)
    (hs : b ∉ c.sendFree) (hq : ∀ w, b ∉ c.queue w) :
    Represents (Function.update next b sendRoot) recvRoot b wq
      { c with sendFree := b :: c.sendFree } where
  recvFree := h.recvFree.update hr _
  sendFree := h.sendFree.push hs h0
  queue w := (h.queue w).update (hq w) _

/-- `Enqueue` writes the link of the last buffer of its queue only, so all other lists have
    to be apart from this queue. -/
theorem enqueue (h : Represents next recvRoot sendRoot wq c) (h0 : b ≠ 0) (w : Fin n)
    (hnd : (c.queue w).Nodup) (hr : ∀ x ∈ c.queue w, x ∉ c.recvFree)
    (hs : ∀ x ∈ c.queue w, x ∉ c.sendFree)
    (hq : ∀ x ∈ c.queue w, ∀ v, v ≠ w → x ∉ c.queue v) :
    Represents ((wq w).enqueue next b).1 recvRoot sendRoot
      (Function.update wq w ((wq w).enqueue next b).2)
      { c with queue := Function.update c.queue w (c.queue w ++ [b]) } := by
  have hw := h.queue w
  unfold WorkQueue.enqueue
  split
  · next hnull =>
    -- the first buffer of the queue: no link is written
    refine ⟨h.recvFree, h.sendFree, ?_⟩
    intro v
    by_cases hv : v = w
    · subst hv
      simp only [Function.update_self, hw.head_eq_zero.mp hnull, List.nil_append]
      exact .single h0
    · simp only [Function.update_of_ne hv]
      exact h.queue v
  · next hhead =>
    -- the link of the last buffer is written, which is on no other list
    have htail : (wq w).tail ∈ c.queue w := by
      rcases hw with ⟨hnull, _⟩ | ⟨_, ys, hys, _⟩
      · exact absurd hnull hhead
      · rw [hys]
        simp
    refine ⟨h.recvFree.update (hr _ htail) b, h.sendFree.update (hs _ htail) b, ?_⟩
    intro v
    by_cases hv : v = w
    · subst hv
      simp only [Function.update_self]
      exact hw.append hhead hnd h0
    · simp only [Function.update_of_ne hv]
      exact (h.queue v).update (hq _ htail v hv) b

/-- `Dequeue` returns null on an empty queue. -/
theorem dequeue_eq_zero (h : Represents next recvRoot sendRoot wq c) (w : Fin n) :
    ((wq w).dequeue next).1 = 0 ↔ c.queue w = [] := by
  rw [← (h.queue w).head_eq_zero]
  unfold WorkQueue.dequeue
  split
  · next hnull => simp [hnull]
  · split <;> rfl

/-- Else it takes off the first buffer. -/
theorem dequeue (h : Represents next recvRoot sendRoot wq c) {w : Fin n}
    (hnd : (c.queue w).Nodup) (h0 : ((wq w).dequeue next).1 ≠ 0) :
    c.queue w = ((wq w).dequeue next).1 :: (c.queue w).tail ∧
    Represents next recvRoot sendRoot (Function.update wq w ((wq w).dequeue next).2)
      { c with queue := Function.update c.queue w (c.queue w).tail } := by
  have hw := h.queue w
  unfold WorkQueue.dequeue at h0 ⊢
  by_cases hhead : (wq w).head = 0
  · simp [hhead] at h0
  · rw [if_neg hhead]
    -- the new contents of the queue `w`; the others stay as they are
    have key : ∀ (q : WorkQueue) (ys : List Nat), IsQueue next q.head q.tail ys →
        Represents next recvRoot sendRoot (Function.update wq w q)
          { c with queue := Function.update c.queue w ys } := by
      refine fun q ys hq => ⟨h.recvFree, h.sendFree, ?_⟩
      intro v
      by_cases hv : v = w
      · subst hv
        simpa only [Function.update_self] using hq
      · simpa only [Function.update_of_ne hv] using h.queue v
    by_cases hlast : (wq w).head = (wq w).tail
    · rw [if_pos hlast]
      have hone := hw.pop_last hhead hnd hlast
      rw [hone]
      exact ⟨rfl, key _ _ .empty⟩
    · rw [if_neg hlast]
      obtain ⟨ys, hys, hrest⟩ := hw.pop hhead hlast
      rw [hys]
      exact ⟨rfl, key _ _ hrest⟩

end Represents

/-! ### The places of a buffer -/

/-- The places of a receive buffer. -/
inductive RecvPlace (n : Nat) where
  | pool
  /-- Posted, and not yet returned by `TryReceive`. -/
  | receiveQueue
  | workQueue (w : Fin n)
  | worker (w : Fin n)
  | poller
  deriving DecidableEq

/-- The places of a send buffer. -/
inductive SendPlace (n : Nat) where
  | pool
  /-- Posted, and not yet returned by `TrySend`. -/
  | sendQueue
  | worker (w : Fin n)
  | poller
  deriving DecidableEq

/-- The receive buffer in the hands of the poller. -/
def Poller.recvHeld : Poller n → List Nat
  | .fillPost _ b => [b]
  | .dispatch b => [b]
  | .enqueue b _ => [b]
  | .postReceive b => [b]
  | _ => []

/-- The send buffer in the hands of the poller. -/
def Poller.sendHeld : Poller n → List Nat
  | .freeSend b => [b]
  | _ => []

/-- The receive buffer in the hands of a worker. -/
def Worker.recvHeld : Worker → List Nat
  | .poll => []
  | .alloc work => [work]
  | .execute work _ => [work]
  | .postSend work _ => [work]
  | .free work => [work]

/-- The send buffer in the hands of a worker. -/
def Worker.sendHeld : Worker → List Nat
  | .execute _ sb => [sb]
  | .postSend _ sb => [sb]
  | _ => []

/-- The receive buffers at each place. -/
def State.recvHeld (s : State n Req Resp T) (c : Contents n) : RecvPlace n → List Nat
  | .pool => c.recvFree
  | .receiveQueue => s.rq ++ s.rcq.map (·.wrId)
  | .workQueue w => c.queue w
  | .worker w => (s.worker w).recvHeld
  | .poller => s.poller.recvHeld

/-- The send buffers at each place. -/
def State.sendHeld (s : State n Req Resp T) (c : Contents n) : SendPlace n → List Nat
  | .pool => c.sendFree
  | .sendQueue => s.sq ++ s.scq.map (·.wrId)
  | .worker w => (s.worker w).sendHeld
  | .poller => s.poller.sendHeld

/-- How many buffers the poller has taken from the pool to fill the receive queue. -/
def Poller.filled : Poller n → Nat
  | .fill i => i
  | .fillPost i _ => i + 1
  | _ => kMaxIBQueueDepth

/-- Pools and queues are well linked, every buffer is at one place, and there are enough
    buffers left to fill the receive queue. -/
structure Sound (s : State n Req Resp T) (c : Contents n) : Prop where
  represents : Represents s.next s.recvRoot s.sendRoot s.wq c
  recv : Partition recvBuffers (s.recvHeld c)
  send : Partition sendBuffers (s.sendHeld c)
  filled : kMaxIBQueueDepth ≤ c.recvFree.length + s.poller.filled

theorem ne_zero_of_recv {b : Nat} (h : b ∈ recvBuffers) : b ≠ 0 := by
  simp only [recvBuffers, recvBase, List.mem_range'_1] at h
  omega

theorem ne_zero_of_send {b : Nat} (h : b ∈ sendBuffers) : b ≠ 0 := by
  simp only [sendBuffers, sendBase, List.mem_range'_1] at h
  omega

theorem not_send_of_recv {b : Nat} (h : b ∈ recvBuffers) : b ∉ sendBuffers := by
  simp only [recvBuffers, sendBuffers, recvBase, sendBase, List.mem_range'_1] at h ⊢
  omega

namespace Sound

variable {s : State n Req Resp T} {c : Contents n} {b : Nat}

/-- A receive buffer that is somewhere else is in no pool and on no queue. -/
theorem recv_apart (h : Sound s c) {p : RecvPlace n} (hb : b ∈ s.recvHeld c p)
    (hpool : p ≠ .pool) (hqueue : ∀ w, p ≠ .workQueue w) :
    b ≠ 0 ∧ b ∉ c.recvFree ∧ b ∉ c.sendFree ∧ ∀ w, b ∉ c.queue w := by
  have hall := h.recv.mem hb
  refine ⟨ne_zero_of_recv hall, h.recv.not_mem hb hpool, ?_, fun w => h.recv.not_mem hb (hqueue w)⟩
  intro hs
  exact not_send_of_recv hall (h.send.mem (p := .pool) hs)

/-- So is a send buffer that is not in its pool. -/
theorem send_apart (h : Sound s c) {p : SendPlace n} (hb : b ∈ s.sendHeld c p)
    (hpool : p ≠ .pool) :
    b ≠ 0 ∧ b ∉ c.recvFree ∧ b ∉ c.sendFree ∧ ∀ w, b ∉ c.queue w := by
  have hall := h.send.mem hb
  refine ⟨ne_zero_of_send hall, ?_, h.send.not_mem hb hpool, ?_⟩
  · intro hr
    exact not_send_of_recv (h.recv.mem (p := .pool) hr) hall
  · intro w hw
    exact not_send_of_recv (h.recv.mem (p := .workQueue w) hw) hall

/-- The pool is not empty before the receive queue is full. -/
theorem recvRoot_ne_zero (h : Sound s c) {i : Nat} (hp : s.poller = .fill i)
    (hi : i < kMaxIBQueueDepth) : s.recvRoot ≠ 0 := by
  intro h0
  have hfull := h.filled
  simp only [hp, h.represents.recvFree_eq_nil h0, Poller.filled, List.length_nil] at hfull
  omega

/-- The queue of a worker is apart from the pools and from the other queues. -/
theorem queue_apart (h : Sound s c) {w : Fin n} (hb : b ∈ c.queue w) :
    b ∉ c.recvFree ∧ b ∉ c.sendFree ∧ ∀ v, v ≠ w → b ∉ c.queue v := by
  have hplace : b ∈ s.recvHeld c (.workQueue w) := hb
  refine ⟨h.recv.not_mem (q := .pool) hplace (by simp), ?_, ?_⟩
  · intro hs
    exact not_send_of_recv (h.recv.mem hplace) (h.send.mem (p := .pool) hs)
  · intro v hv
    exact h.recv.not_mem (q := .workQueue v) hplace (by simpa using Ne.symm hv)

end Sound

/-! ### One step -/

/-- What the pools and the queues hold after a step. -/
def State.track (s : State n Req Resp T) (c : Contents n) : Label n Req → Contents n
  | .poll _ =>
    match s.poller with
    | .fill i => if i < kMaxIBQueueDepth then { c with recvFree := c.recvFree.tail } else c
    | .enqueue b w => { c with queue := Function.update c.queue w (c.queue w ++ [b]) }
    | .freeSend b => { c with sendFree := b :: c.sendFree }
    | .alloc => { c with recvFree := c.recvFree.tail }
    | _ => c
  | .serve w =>
    match s.worker w with
    | .poll => { c with queue := Function.update c.queue w (c.queue w).tail }
    | .alloc _ => { c with sendFree := c.sendFree.tail }
    | .free work => { c with recvFree := work :: c.recvFree }
    | _ => c
  | _ => c

namespace Sound

variable {sv : Service n Req Resp T} {s s' : State n Req Resp T} {c : Contents n} {b : Nat}

/-- A work request that is completed stays at its place. -/
theorem perm_complete {wc : WorkCompletion} {posted : List Nat} {done : List WorkCompletion}
    (h : wc.wrId ∈ posted) :
    (posted.erase wc.wrId ++ (done ++ [wc]).map (·.wrId)).Perm (posted ++ done.map (·.wrId)) := by
  have hposted := List.perm_cons_erase h
  calc posted.erase wc.wrId ++ (done ++ [wc]).map (·.wrId)
    _ = posted.erase wc.wrId ++ (done.map (·.wrId) ++ [wc.wrId]) := by
      rw [List.map_append, List.map_singleton]
    _ |>.Perm (wc.wrId :: (posted.erase wc.wrId ++ done.map (·.wrId))) := by
      rw [← List.append_assoc]
      exact List.perm_append_singleton _ _
    _ |>.Perm (posted ++ done.map (·.wrId)) := hposted.symm.append_right _

/-- The poller goes on with the buffers it has. -/
theorem goto (h : Sound s c) {p : Poller n} (hrecv : p.recvHeld = s.poller.recvHeld)
    (hsend : p.sendHeld = s.poller.sendHeld)
    (hfilled : kMaxIBQueueDepth ≤ c.recvFree.length + p.filled) :
    Sound { s with poller := p } c where
  represents := h.represents
  recv := h.recv.congr fun r => by cases r <;> simp [State.recvHeld, hrecv]
  send := h.send.congr fun r => by cases r <;> simp [State.sendHeld, hsend]
  filled := hfilled

/-- The poller takes a receive buffer from the pool. -/
theorem take (h : Sound s c) {p : Poller n} (h0 : s.recvRoot ≠ 0) (hbefore : s.poller.recvHeld = [])
    (hafter : p.recvHeld = [s.recvRoot]) (hsend : p.sendHeld = s.poller.sendHeld)
    (hfilled : kMaxIBQueueDepth ≤ c.recvFree.tail.length + p.filled) :
    Sound { s with recvRoot := s.next s.recvRoot, poller := p }
      { c with recvFree := c.recvFree.tail } := by
  obtain ⟨hfree, hrep⟩ := h.represents.allocRecv h0
  refine ⟨hrep, ?_, ?_, hfilled⟩
  · refine h.recv.move (p := .pool) (q := .poller) (x := s.recvRoot) (by simp) (.of_eq hfree) ?_ ?_
    · simp [State.recvHeld, hbefore, hafter]
    · intro r hr hr'
      cases r <;> grind [State.recvHeld]
  · apply h.send.congr
    intro r
    cases r <;> simp [State.sendHeld, hsend]

/-- The poller posts the receive buffer it has. -/
theorem post (h : Sound s c) {p : Poller n} (hbefore : s.poller.recvHeld = [b])
    (hafter : p.recvHeld = []) (hsend : p.sendHeld = s.poller.sendHeld)
    (hfilled : kMaxIBQueueDepth ≤ c.recvFree.length + p.filled) :
    Sound { s with rq := s.rq ++ [b], poller := p } c := by
  refine ⟨h.represents, ?_, ?_, hfilled⟩
  · refine h.recv.move (p := .poller) (q := .receiveQueue) (x := b) (by simp) ?_ ?_ ?_
    · simp [State.recvHeld, hbefore, hafter]
    · simp [State.recvHeld]
    · intro r hr hr'
      cases r <;> grind [State.recvHeld]
  · apply h.send.congr
    intro r
    cases r <;> simp [State.sendHeld, hsend]

theorem poll {link : Nat} (h : Sound s c) (hstep : Step sv s (.poll link) s') :
    Sound s' (s.track c (.poll link)) := by
  cases hstep with
  | fillFail hp hi h0 => exact absurd h0 (h.recvRoot_ne_zero hp hi)
  | fillAlloc hp hi h0 =>
    have hfull := h.filled
    rw [(h.represents.allocRecv h0).1] at hfull
    simp only [State.track, hp, if_pos hi, Poller.filled, List.length_cons] at hfull ⊢
    apply h.take h0 (by simp [hp, Poller.recvHeld]) rfl (by simp [hp, Poller.sendHeld])
    simp only [Poller.filled]
    omega
  | fillDone hp hi =>
    simp only [State.track, hp, if_neg hi]
    exact h.goto (by simp [hp, Poller.recvHeld]) (by simp [hp, Poller.sendHeld])
      (by simp [Poller.filled])
  | fillPost hp =>
    have hfull := h.filled
    simp only [State.track, hp] at hfull ⊢
    exact h.post (by simp [hp, Poller.recvHeld]) rfl (by simp [hp, Poller.sendHeld]) hfull
  | noneReceived hp hrcq =>
    simp only [State.track, hp]
    exact h.goto (by simp [hp, Poller.recvHeld]) (by simp [hp, Poller.sendHeld])
      (by simp [Poller.filled])
  | @received _ wc rcq hp hrcq =>
    -- no list reads the link of a buffer that comes from the network
    simp only [State.track, hp]
    have hplace : wc.wrId ∈ s.recvHeld c .receiveQueue := by simp [State.recvHeld, hrcq]
    obtain ⟨_, hr, hs, hq⟩ := h.recv_apart hplace (by simp) (by simp)
    refine ⟨h.represents.relink hr hs hq link, ?_, ?_, by simp [Poller.filled]⟩
    · refine h.recv.move (p := .receiveQueue) (q := .poller) (x := wc.wrId) (by simp) ?_ ?_ ?_
      · simp [State.recvHeld, hrcq]
      · simp [State.recvHeld, Poller.recvHeld, hp]
      · intro r hr hr'
        cases r <;> grind [State.recvHeld]
    · apply h.send.congr
      intro p
      cases p <;> simp [State.sendHeld, Poller.sendHeld, hp]
  | routed hp hw =>
    simp only [State.track, hp]
    exact h.goto (by simp [hp, Poller.recvHeld]) (by simp [hp, Poller.sendHeld])
      (by simp [Poller.filled])
  | @enqueued _ b w hp =>
    -- the link that is written is the one of the last buffer of the queue
    simp only [State.track, hp]
    have hplace : b ∈ s.recvHeld c .poller := by simp [State.recvHeld, Poller.recvHeld, hp]
    obtain ⟨h0, _, _, _⟩ := h.recv_apart hplace (by simp) (by simp)
    refine ⟨h.represents.enqueue h0 w (h.recv.nodup (.workQueue w)) ?_
      ?_ ?_, ?_, ?_, by simp [Poller.filled]⟩
    · intro x hx
      exact (h.queue_apart hx).1
    · intro x hx
      exact (h.queue_apart hx).2.1
    · intro x hx
      exact (h.queue_apart hx).2.2
    · refine h.recv.move (p := .poller) (q := .workQueue w) (x := b) (by simp) ?_ ?_ ?_
      · simp [State.recvHeld, Poller.recvHeld, hp]
      · simp [State.recvHeld]
      · intro r hr hr'
        cases r <;> grind [State.recvHeld, Function.update_apply]
    · apply h.send.congr
      intro p
      cases p <;> simp [State.sendHeld, Poller.sendHeld, hp]
  | noneSent hp hscq =>
    simp only [State.track, hp]
    exact h.goto (by simp [hp, Poller.recvHeld]) (by simp [hp, Poller.sendHeld])
      (by simp [Poller.filled])
  | @reaped _ wc scq hp hscq =>
    simp only [State.track, hp]
    refine ⟨h.represents, ?_, ?_, by simp [Poller.filled]⟩
    · apply h.recv.congr
      intro p
      cases p <;> simp [State.recvHeld, Poller.recvHeld, hp]
    · refine h.send.move (p := .sendQueue) (q := .poller) (x := wc.wrId) (by simp) ?_ ?_ ?_
      · simp [State.sendHeld, hscq]
      · simp [State.sendHeld, Poller.sendHeld, hp]
      · intro r hr hr'
        cases r <;> grind [State.sendHeld]
  | @sendFreed _ b hp =>
    -- the link that is written is the one of the buffer in the poller's hands
    simp only [State.track, hp]
    have hplace : b ∈ s.sendHeld c .poller := by simp [State.sendHeld, Poller.sendHeld, hp]
    obtain ⟨h0, hr, hs, hq⟩ := h.send_apart hplace (by simp)
    refine ⟨h.represents.freeSend h0 hr hs hq, ?_, ?_, by simp [Poller.filled]⟩
    · apply h.recv.congr
      intro p
      cases p <;> simp [State.recvHeld, Poller.recvHeld, hp]
    · refine h.send.move (p := .poller) (q := .pool) (x := b) (by simp) ?_ ?_ ?_
      · simp [State.sendHeld, Poller.sendHeld, hp]
      · simp [State.sendHeld]
      · intro r hr hr'
        cases r <;> grind [State.sendHeld]
  | noneFree hp h0 =>
    -- an empty pool stays empty
    have hempty := h.represents.recvFree_eq_nil h0
    have hsame : { c with recvFree := c.recvFree.tail } = c := by
      obtain ⟨recvFree, sendFree, queue⟩ := c
      subst hempty
      rfl
    simp only [State.track, hp, hsame]
    exact h.goto (by simp [hp, Poller.recvHeld]) (by simp [hp, Poller.sendHeld])
      (by simp [Poller.filled])
  | recvAlloc hp h0 =>
    simp only [State.track, hp]
    exact h.take h0 (by simp [hp, Poller.recvHeld]) rfl (by simp [hp, Poller.sendHeld])
      (by simp [Poller.filled])
  | recvPost hp =>
    simp only [State.track, hp]
    exact h.post (by simp [hp, Poller.recvHeld]) rfl (by simp [hp, Poller.sendHeld])
      (by simp [Poller.filled])

/-- A call of `Dequeue` that returns null leaves the queue as it is. -/
theorem track_noWork {w : Fin n} (h : Sound s c) (hw : s.worker w = .poll)
    (h0 : ((s.wq w).dequeue s.next).1 = 0) : s.track c (.serve w) = c := by
  have hempty := (h.represents.dequeue_eq_zero w).mp h0
  obtain ⟨recvFree, sendFree, queue⟩ := c
  simp only [State.track, hw]
  dsimp only at hempty
  rw [hempty, List.tail_nil, ← hempty, Function.update_eq_self]

theorem serve {w : Fin n} (h : Sound s c) (hstep : Step sv s (.serve w) s') :
    Sound s' (s.track c (.serve w)) := by
  cases hstep with
  | noWork hw h0 =>
    rw [h.track_noWork hw h0]
    exact h
  | dequeued hw h0 =>
    obtain ⟨hqueue, hrep⟩ := h.represents.dequeue (h.recv.nodup (.workQueue w)) h0
    simp only [State.track, hw]
    refine ⟨hrep, ?_, ?_, h.filled⟩
    · refine h.recv.move (p := .workQueue w) (q := .worker w) (by simp) (.of_eq ?_) ?_ ?_
        (x := ((s.wq w).dequeue s.next).1)
      · simpa [State.recvHeld] using hqueue
      · simp [State.recvHeld, Worker.recvHeld, hw]
      · intro r hr hr'
        cases r <;> grind [State.recvHeld, Function.update_apply]
    · apply h.send.congr
      intro p
      cases p <;> grind [State.sendHeld, Worker.sendHeld, Function.update_apply]
  | @sendFail _ work hw h0 =>
    -- `Dequeue` does not return null to a worker that goes on, so it is the pool that is empty
    have hplace : work ∈ s.recvHeld c (.worker w) := by simp [State.recvHeld, Worker.recvHeld, hw]
    have hwork := (h.recv_apart hplace (by simp) (by simp)).1
    have hempty := h.represents.sendFree_eq_nil (h0.resolve_left hwork)
    have hsame : { c with sendFree := c.sendFree.tail } = c := by
      obtain ⟨recvFree, sendFree, queue⟩ := c
      subst hempty
      rfl
    simp only [State.track, hw, hsame]
    exact ⟨h.represents, h.recv, h.send, h.filled⟩
  | @sendAlloc _ work hw h0 h1 =>
    obtain ⟨hfree, hrep⟩ := h.represents.allocSend h1
    simp only [State.track, hw]
    refine ⟨hrep, ?_, ?_, h.filled⟩
    · apply h.recv.congr
      intro p
      cases p <;> grind [State.recvHeld, Worker.recvHeld, Function.update_apply]
    · refine h.send.move (p := .pool) (q := .worker w) (x := s.sendRoot) (by simp) (.of_eq hfree)
        ?_ ?_
      · simp [State.sendHeld, Worker.sendHeld, hw]
      · intro r hr hr'
        cases r <;> grind [State.sendHeld, Function.update_apply]
  | executed hw hrun =>
    -- the worker keeps both buffers
    simp only [State.track, hw]
    refine ⟨h.represents, ?_, ?_, h.filled⟩
    · apply h.recv.congr
      intro p
      cases p <;> grind [State.recvHeld, Worker.recvHeld, Function.update_apply]
    · apply h.send.congr
      intro p
      cases p <;> grind [State.sendHeld, Worker.sendHeld, Function.update_apply]
  | @posted _ work sb hw =>
    simp only [State.track, hw]
    refine ⟨h.represents, ?_, ?_, h.filled⟩
    · apply h.recv.congr
      intro p
      cases p <;> grind [State.recvHeld, Worker.recvHeld, Function.update_apply]
    · refine h.send.move (p := .worker w) (q := .sendQueue) (x := sb) (by simp) ?_ ?_ ?_
      · simp [State.sendHeld, Worker.sendHeld, hw]
      · simp [State.sendHeld]
      · intro r hr hr'
        cases r <;> grind [State.sendHeld, Function.update_apply]
  | @recvFreed _ work hw =>
    simp only [State.track, hw]
    have hplace : work ∈ s.recvHeld c (.worker w) := by simp [State.recvHeld, Worker.recvHeld, hw]
    obtain ⟨h0, hr, hs, hq⟩ := h.recv_apart hplace (by simp) (by simp)
    have hfull := h.filled
    refine ⟨h.represents.freeRecv h0 hr hs hq, ?_, ?_, by simp only [List.length_cons]; omega⟩
    · refine h.recv.move (p := .worker w) (q := .pool) (x := work) (by simp) ?_ ?_ ?_
      · simp [State.recvHeld, Worker.recvHeld, hw]
      · simp [State.recvHeld]
      · intro r hr hr'
        cases r <;> grind [State.recvHeld, Function.update_apply]
    · apply h.send.congr
      intro p
      cases p <;> grind [State.sendHeld, Worker.sendHeld, Function.update_apply]

theorem step {l : Label n Req} (h : Sound s c) (hstep : Step sv s l s') :
    Sound s' (s.track c l) := by
  cases l with
  | poll link => exact h.poll hstep
  | serve w => exact h.serve hstep
  | receive wc r =>
    cases hstep with
    | receive hmem =>
      refine ⟨h.represents, h.recv.perm ?_, h.send, h.filled⟩
      intro p
      cases p with
      | receiveQueue => exact perm_complete hmem
      | _ => rfl
  | complete wc =>
    cases hstep with
    | complete hmem =>
      refine ⟨h.represents, h.recv, h.send.perm ?_, h.filled⟩
      intro p
      cases p with
      | sendQueue => exact perm_complete hmem
      | _ => rfl

end Sound

/-! ### Every run -/

/-- The links after some rounds of the constructor's loop. -/
theorem foldl_link (bufs num : Nat) (next : Nat → Nat) (k b : Nat) :
    (List.range k).foldl (fun next i =>
      Function.update next (bufs + i) (if i + 1 < num then bufs + (i + 1) else 0)) next b =
    if bufs ≤ b ∧ b < bufs + k then (if b + 1 < bufs + num then b + 1 else 0) else next b := by
  induction k with
  | zero =>
    rw [if_neg (by omega)]
    rfl
  | succ k ih =>
    rw [List.range_succ, List.foldl_append, List.foldl_cons, List.foldl_nil,
      Function.update_apply]
    by_cases hb : b = bufs + k
    · subst hb
      grind
    · rw [if_neg hb, ih]
      grind

/-- The constructor chains its buffers. -/
theorem seg_of_links {next : Nat → Nat} {a k : Nat} (ha : a ≠ 0)
    (h : ∀ b, a ≤ b → b < a + (k + 1) → next b = if b + 1 < a + (k + 1) then b + 1 else 0) :
    Seg next a (List.range' a (k + 1)) 0 := by
  induction k generalizing a with
  | zero =>
    refine ⟨rfl, ha, ?_⟩
    rw [h a (Nat.le_refl a) (by omega), if_neg (by omega)]
    rfl
  | succ k ih =>
    refine ⟨rfl, ha, ?_⟩
    rw [h a (Nat.le_refl a) (by omega), if_pos (by omega)]
    apply ih (by omega)
    intro b hb hlt
    rw [h b (by omega) (by omega), show a + 1 + (k + 1) = a + (k + 1 + 1) by omega]

theorem seg_link {a num : Nat} (ha : a ≠ 0) (hnum : num ≠ 0) (next : Nat → Nat) :
    Seg (RegisteredBuffers.link a num next) a (List.range' a num) 0 := by
  obtain ⟨k, rfl⟩ := Nat.exists_eq_succ_of_ne_zero hnum
  apply seg_of_links ha
  intro b hb hlt
  rw [RegisteredBuffers.link, foldl_link, if_pos ⟨hb, hlt⟩]

/-- The links of buffers that belong to another pool are left alone. -/
theorem seg_link_other {a num a' num' : Nat} (ha : a ≠ 0) (hnum : num ≠ 0)
    (hout : a + num ≤ a' ∨ a' + num' ≤ a) (next : Nat → Nat) :
    Seg (RegisteredBuffers.link a' num' (RegisteredBuffers.link a num next)) a
      (List.range' a num) 0 := by
  apply (seg_link ha hnum next).congr
  intro b hb
  have := List.mem_range'_1.mp hb
  rw [RegisteredBuffers.link, foldl_link, if_neg (by omega)]

theorem Sound.init {t : Fin n → T} {s : State n Req Resp T} (h : Init t s) :
    Sound s ⟨recvBuffers, sendBuffers, fun _ => []⟩ := by
  obtain ⟨raw, hnext⟩ := h.next
  obtain ⟨hrq, hrcq, hsq, hscq⟩ := h.network
  refine ⟨⟨?_, ?_, ?_⟩, ?_, ?_, ?_⟩
  · rw [h.recvRoot, hnext]
    exact seg_link (by decide) (by decide) _
  · rw [h.sendRoot, hnext]
    exact seg_link_other (by decide) (by decide) (by decide) _
  · intro w
    rw [h.wq w]
    exact .empty
  · refine .initial (p := .pool) (List.nodup_range' ..) rfl ?_
    intro q hq
    cases q <;> simp_all [State.recvHeld, h.worker, h.poller, Worker.recvHeld, Poller.recvHeld]
  · refine .initial (p := .pool) (List.nodup_range' ..) rfl ?_
    intro q hq
    cases q <;> simp_all [State.sendHeld, h.worker, h.poller, Worker.sendHeld, Poller.sendHeld]
  · simp [h.poller, Poller.filled, recvBuffers]

theorem Sound.run {sv : Service n Req Resp T} {s s' : State n Req Resp T} {c : Contents n}
    {ls : List (Label n Req)} (h : Sound s c) (hrun : sv.run s ls = some s') :
    ∃ c', Sound s' c' := by
  refine run_invariant (fun s => ∃ c, Sound s c) ?_ ⟨c, h⟩ hrun
  rintro s l s' ⟨c, hc⟩ hstep
  exact ⟨_, hc.step (step_cases hstep).2⟩

/-- In every state of a run the buffers are where they belong. -/
theorem sound_of_reachable {sv : Service n Req Resp T} {t : Fin n → T} {s : State n Req Resp T}
    (h : Reachable sv t s) : ∃ c, Sound s c := by
  refine h.invariant (fun s => ∃ c, Sound s c) (fun s hs => ⟨_, .init hs⟩) ?_
  rintro s l s' ⟨c, hc⟩ hstep
  exact ⟨_, hc.step (step_cases hstep).2⟩

/-- There is a buffer for every receive that `Poll` fills the receive queue with. -/
theorem fill_assertion_holds {sv : Service n Req Resp T} {t : Fin n → T} {s : State n Req Resp T}
    (h : Reachable sv t s) : s.aborted ≠ some .receiveBuffer := by
  refine (h.invariant (fun s => (∃ c, Sound s c) ∧ s.aborted ≠ some .receiveBuffer)
    (fun s hs => ⟨⟨_, .init hs⟩, by simp [hs.aborted]⟩) ?_).2
  rintro s l s' ⟨⟨c, hc⟩, _⟩ hs
  obtain ⟨halive, hstep⟩ := step_cases hs
  refine ⟨⟨_, hc.step hstep⟩, ?_⟩
  cases hstep with
  | fillFail hp hi h0 => exact absurd h0 (hc.recvRoot_ne_zero hp hi)
  | sendFail => simp
  | _ => simp [halive]

end Nvds.Serving
