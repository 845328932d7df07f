import Nvds.Cluster.Server
import Nvds.Framework.Transition
import Nvds.Tablet.Sync

/-! # The threads of a server (`server.h`, `server.cc`, `infiniband.h`, `infiniband.cc`)

    The poller takes requests from the network and puts them on the queues of
    the workers; each worker takes them off its queue, executes them and
    posts the responses. Both get their buffers from two pools, one for
    receiving and one for sending. Queues and pools are linked through the
    same field `next` of the buffers.

    A step is one access to what the threads share: a call of a queue or a
    pool, whose spinlock makes it atomic, a call of the network, or the
    execution of a request. The network completes the posted receives and
    sends in any order and at any time. The verbs calls are taken to succeed.

    A buffer is a number and null is 0: the receive buffers are
    1, ..., `kMaxIBQueueDepth`, the send buffers are the next
    `kMaxIBQueueDepth` numbers.
-/

open Nvds.Cluster (Address Config Server)

namespace Nvds.Serving

/-! ### Buffer pools -/

/-- `Server::kMaxIBQueueDepth`. -/
def kMaxIBQueueDepth : Nat := 128

/-- The address of `recv_bufs_.bufs_`. -/
def recvBase : Nat := 1

/-- The address of `send_bufs_.bufs_`. -/
def sendBase : Nat := 1 + kMaxIBQueueDepth

/-- The receive buffers. -/
def recvBuffers : List Nat := List.range' recvBase kMaxIBQueueDepth

/-- The send buffers. -/
def sendBuffers : List Nat := List.range' sendBase kMaxIBQueueDepth

namespace RegisteredBuffers

/-- The loop of the constructor: every one of the `num` buffers from `bufs` on is linked
    to the one behind it, the last to null. -/
def link (bufs num : Nat) (next : Nat → Nat) : Nat → Nat :=
  (List.range num).foldl (fun next i =>
    Function.update next (bufs + i) (if i + 1 < num then bufs + (i + 1) else 0)) next

/-- `Alloc`: the buffer, or null, and the new `root_`. -/
def alloc (next : Nat → Nat) (root : Nat) : Nat × Nat :=
  (root, if root ≠ 0 then next root else root)

/-- `Free`: the new links and the new `root_`. -/
def free (next : Nat → Nat) (root b : Nat) : (Nat → Nat) × Nat :=
  (Function.update next b root, b)

end RegisteredBuffers

/-! ### Work queues -/

/-- `class WorkQueue`. -/
structure WorkQueue where
  head : Nat
  tail : Nat
  deriving DecidableEq, Repr

namespace WorkQueue

/-- `Enqueue`. The link of `work` itself is left as it is. -/
def enqueue (next : Nat → Nat) (q : WorkQueue) (work : Nat) : (Nat → Nat) × WorkQueue :=
  if q.head = 0 then
    (next, ⟨work, work⟩)
  else
    (Function.update next q.tail work, ⟨q.head, work⟩)

/-- `Dequeue`. -/
def dequeue (next : Nat → Nat) (q : WorkQueue) : Nat × WorkQueue :=
  if q.head = 0 then
    (0, q)
  else if q.head = q.tail then
    (q.head, ⟨0, 0⟩)
  else
    (q.head, ⟨next q.head, q.tail⟩)

end WorkQueue

/-! ### The state of a server -/

/-- `Infiniband::kPort`. -/
def kPort : Int := 1

/-- The fields of an `ibv_wc` that `PollCQ` uses. -/
structure WorkCompletion where
  wrId : Nat
  slid : Nat
  srcQp : Nat
  deriving DecidableEq, Repr

/-- The `peer_addr` that `PollCQ` records. -/
def WorkCompletion.peerAddr (wc : WorkCompletion) : Address := ⟨kPort, wc.slid, wc.srcQp⟩

/-- Where `Poll` stands, with the buffer in its variable `b`. -/
inductive Poller (n : Nat) where
  /-- The loop that fills the receive queue, before `Alloc` and before `PostReceive`. -/
  | fill (i : Nat)
  | fillPost (i b : Nat)
  | tryReceive
  /-- In `Dispatch`, before the worker is looked up and before `Enqueue`. -/
  | dispatch (b : Nat)
  | enqueue (b : Nat) (w : Fin n)
  | trySend
  | freeSend (b : Nat)
  | alloc
  | postReceive (b : Nat)

/-- Where `Serve` stands, with the buffers in its variables `work` and `sb`. -/
inductive Worker where
  /-- In `TryPollWork` or in `wait`, before a call of `Dequeue`. -/
  | poll
  | alloc (work : Nat)
  | execute (work sb : Nat)
  | postSend (work sb : Nat)
  | free (work : Nat)

/-- The assertions of the two threads. -/
inductive Assertion where
  /-- `assert(b)`, when the receive queue is filled. -/
  | receiveBuffer
  /-- `assert(work != nullptr && sb != nullptr)`. -/
  | sendBuffer
  deriving DecidableEq, Repr

/-- The shared memory, the threads and the queue pair `qp_`, whose completion queues hold
    what `PollCQ` has not returned yet. The last four fields are a record of what happened:
    the requests the network delivered, and by worker those that were enqueued, those that
    were executed and the responses that were posted, each with the address it came from
    or went to. -/
structure State (n : Nat) (Req Resp T : Type) where
  next : Nat → Nat
  peerAddr : Nat → Address
  request : Nat → Req
  response : Nat → Resp
  recvRoot : Nat
  sendRoot : Nat
  wq : Fin n → WorkQueue
  tablet : Fin n → T
  poller : Poller n
  worker : Fin n → Worker
  rq : List Nat
  rcq : List WorkCompletion
  sq : List Nat
  scq : List WorkCompletion
  aborted : Option Assertion
  arrived : List (Req × Address)
  dispatched : Fin n → List (Req × Address)
  executed : Fin n → List (Req × Address)
  posted : Fin n → List (Resp × Address)

variable {n : Nat} {Req Resp T : Type}

/-- The server before its threads take their first step, with the tablets `t`. What the
    buffers hold is left open. -/
structure Init (t : Fin n → T) (s : State n Req Resp T) : Prop where
  next : ∃ raw, s.next = RegisteredBuffers.link recvBase kMaxIBQueueDepth
    (RegisteredBuffers.link sendBase kMaxIBQueueDepth raw)
  recvRoot : s.recvRoot = recvBase
  sendRoot : s.sendRoot = sendBase
  wq : ∀ w, s.wq w = ⟨0, 0⟩
  tablet : s.tablet = t
  poller : s.poller = .fill 0
  worker : ∀ w, s.worker w = .poll
  network : s.rq = [] ∧ s.rcq = [] ∧ s.sq = [] ∧ s.scq = []
  aborted : s.aborted = none
  record : s.arrived = [] ∧ ∀ w, s.dispatched w = [] ∧ s.executed w = [] ∧ s.posted w = []

/-- The request in a receive buffer and the address it came from. -/
def State.entry (s : State n Req Resp T) (b : Nat) : Req × Address := (s.request b, s.peerAddr b)

/-! ### The network -/

/-- The receive of a posted buffer is completed by the request `r`. -/
def State.receive (s : State n Req Resp T) (wc : WorkCompletion) (r : Req) :
    State n Req Resp T :=
  { s with
    rq := s.rq.erase wc.wrId
    rcq := s.rcq ++ [wc]
    request := Function.update s.request wc.wrId r
    arrived := s.arrived ++ [(r, wc.peerAddr)] }

/-- The send of a posted buffer is completed. -/
def State.complete (s : State n Req Resp T) (wc : WorkCompletion) : State n Req Resp T :=
  { s with sq := s.sq.erase wc.wrId, scq := s.scq ++ [wc] }

@[simp] theorem State.receive_aborted (s : State n Req Resp T) (wc : WorkCompletion) (r : Req) :
    (s.receive wc r).aborted = s.aborted := rfl

@[simp] theorem State.complete_aborted (s : State n Req Resp T) (wc : WorkCompletion) :
    (s.complete wc).aborted = s.aborted := rfl

/-! ### The threads -/

/-- What the threads do with a request: the worker that `Dispatch` chooses for it, and the
    execution in `Serve`, from `MakeRequest` to `Sync`. There is no worker if the index lies
    outside of `workers_`, and no result if a call does not return. -/
structure Service (n : Nat) (Req Resp T : Type) where
  route : Req → Option (Fin n)
  execute : T → Req → Option (Resp × T)

/-- The steps of the system. -/
inductive Label (n : Nat) (Req : Type) where
  | poll (link : Nat)
  | serve (w : Fin n)
  /-- A posted receive is completed by the request `r`. -/
  | receive (wc : WorkCompletion) (r : Req)
  /-- A posted send is completed. -/
  | complete (wc : WorkCompletion)

namespace Service

variable (sv : Service n Req Resp T)

/-- A step of `Poll`. `link` is what the field `next` of a received buffer holds. -/
def poll (link : Nat) (s : State n Req Resp T) : Option (State n Req Resp T) :=
  match s.poller with
  | .fill i =>
    if i < kMaxIBQueueDepth then
      let r := RegisteredBuffers.alloc s.next s.recvRoot
      if r.1 = 0 then
        some { s with aborted := some .receiveBuffer }
      else
        some { s with recvRoot := r.2, poller := .fillPost i r.1 }
    else
      some { s with poller := .tryReceive }
  | .fillPost i b => some { s with rq := s.rq ++ [b], poller := .fill (i + 1) }
  | .tryReceive =>
    match s.rcq with
    | [] => some { s with poller := .trySend }
    | wc :: rcq =>
      -- `PollCQ` records the sender and does not touch `next`, whose value is left open
      some { s with
        rcq
        next := Function.update s.next wc.wrId link
        peerAddr := Function.update s.peerAddr wc.wrId wc.peerAddr
        poller := .dispatch wc.wrId }
  | .dispatch b =>
    match sv.route (s.request b) with
    | none => none
    | some w => some { s with poller := .enqueue b w }
  | .enqueue b w =>
    let r := (s.wq w).enqueue s.next b
    some { s with
      next := r.1
      wq := Function.update s.wq w r.2
      dispatched := Function.update s.dispatched w (s.dispatched w ++ [s.entry b])
      poller := .trySend }
  | .trySend =>
    match s.scq with
    | [] => some { s with poller := .alloc }
    | wc :: scq =>
      -- `PollCQ` overwrites the address in the send buffer as well
      some { s with
        scq
        peerAddr := Function.update s.peerAddr wc.wrId wc.peerAddr
        poller := .freeSend wc.wrId }
  | .freeSend b =>
    let r := RegisteredBuffers.free s.next s.sendRoot b
    some { s with next := r.1, sendRoot := r.2, poller := .alloc }
  | .alloc =>
    -- at most one receive is posted in each round
    let r := RegisteredBuffers.alloc s.next s.recvRoot
    if r.1 ≠ 0 then
      some { s with recvRoot := r.2, poller := .postReceive r.1 }
    else
      some { s with recvRoot := r.2, poller := .tryReceive }
  | .postReceive b => some { s with rq := s.rq ++ [b], poller := .tryReceive }

/-- A step of `Serve` in the worker `w`. -/
def serve (w : Fin n) (s : State n Req Resp T) : Option (State n Req Resp T) :=
  match s.worker w with
  | .poll =>
    let r := (s.wq w).dequeue s.next
    -- null: `TryPollWork` and `wait` call `Dequeue` again
    if r.1 = 0 then
      some s
    else
      some { s with
        wq := Function.update s.wq w r.2
        worker := Function.update s.worker w (.alloc r.1) }
  | .alloc work =>
    let r := RegisteredBuffers.alloc s.next s.sendRoot
    if work ≠ 0 ∧ r.1 ≠ 0 then
      some { s with
        sendRoot := r.2
        worker := Function.update s.worker w (.execute work r.1) }
    else
      some { s with aborted := some .sendBuffer }
  | .execute work sb =>
    match sv.execute (s.tablet w) (s.request work) with
    | none => none
    | some (resp, t) =>
      some { s with
        response := Function.update s.response sb resp
        tablet := Function.update s.tablet w t
        executed := Function.update s.executed w (s.executed w ++ [s.entry work])
        worker := Function.update s.worker w (.postSend work sb) }
  | .postSend work sb =>
    some { s with
      sq := s.sq ++ [sb]
      posted := Function.update s.posted w (s.posted w ++ [(s.response sb, s.peerAddr work)])
      worker := Function.update s.worker w (.free work) }
  | .free work =>
    -- the send buffer is left to the poller
    let r := RegisteredBuffers.free s.next s.recvRoot work
    some { s with
      next := r.1
      recvRoot := r.2
      worker := Function.update s.worker w .poll }

/-- One step. A failed assertion ends the process. -/
def step (s : State n Req Resp T) (l : Label n Req) : Option (State n Req Resp T) :=
  if s.aborted ≠ none then
    none
  else
    match l with
    | .poll link => sv.poll link s
    | .serve w => sv.serve w s
    | .receive wc r =>
      if wc.wrId ∈ s.rq then some (s.receive wc r) else none
    | .complete wc =>
      if wc.wrId ∈ s.sq then some (s.complete wc) else none

end Service

/-- The state after the steps `ls`, if all of them are possible. -/
def Service.run (sv : Service n Req Resp T) (s : State n Req Resp T) :
    List (Label n Req) → Option (State n Req Resp T)
  | [] => some s
  | l :: ls =>
    match sv.step s l with
    | none => none
    | some s' => sv.run s' ls

/-- The states of all runs that start with the tablets `t`. -/
abbrev Reachable (sv : Service n Req Resp T) (t : Fin n → T) : State n Req Resp T → Prop :=
  Transition.Reachable (Init t) fun s l s' => sv.step s l = some s'

/-! ### What a step can do -/

/-- The effects of the steps, each with the condition under which it happens. -/
inductive Step (sv : Service n Req Resp T) (s : State n Req Resp T) :
    Label n Req → State n Req Resp T → Prop
  | fillFail {link i : Nat} : s.poller = .fill i → i < kMaxIBQueueDepth → s.recvRoot = 0 →
      Step sv s (.poll link) { s with aborted := some .receiveBuffer }
  | fillAlloc {link i : Nat} : s.poller = .fill i → i < kMaxIBQueueDepth → s.recvRoot ≠ 0 →
      Step sv s (.poll link)
        { s with recvRoot := s.next s.recvRoot, poller := .fillPost i s.recvRoot }
  | fillDone {link i : Nat} : s.poller = .fill i → ¬ i < kMaxIBQueueDepth →
      Step sv s (.poll link) { s with poller := .tryReceive }
  | fillPost {link i b : Nat} : s.poller = .fillPost i b →
      Step sv s (.poll link) { s with rq := s.rq ++ [b], poller := .fill (i + 1) }
  | noneReceived {link : Nat} : s.poller = .tryReceive → s.rcq = [] →
      Step sv s (.poll link) { s with poller := .trySend }
  | received {link : Nat} {wc : WorkCompletion} {rcq : List WorkCompletion} :
      s.poller = .tryReceive → s.rcq = wc :: rcq →
      Step sv s (.poll link) { s with
        rcq
        next := Function.update s.next wc.wrId link
        peerAddr := Function.update s.peerAddr wc.wrId wc.peerAddr
        poller := .dispatch wc.wrId }
  | routed {link b : Nat} {w : Fin n} : s.poller = .dispatch b →
      sv.route (s.request b) = some w →
      Step sv s (.poll link) { s with poller := .enqueue b w }
  | enqueued {link b : Nat} {w : Fin n} : s.poller = .enqueue b w →
      Step sv s (.poll link) { s with
        next := ((s.wq w).enqueue s.next b).1
        wq := Function.update s.wq w ((s.wq w).enqueue s.next b).2
        dispatched := Function.update s.dispatched w (s.dispatched w ++ [s.entry b])
        poller := .trySend }
  | noneSent {link : Nat} : s.poller = .trySend → s.scq = [] →
      Step sv s (.poll link) { s with poller := .alloc }
  | reaped {link : Nat} {wc : WorkCompletion} {scq : List WorkCompletion} :
      s.poller = .trySend → s.scq = wc :: scq →
      Step sv s (.poll link) { s with
        scq
        peerAddr := Function.update s.peerAddr wc.wrId wc.peerAddr
        poller := .freeSend wc.wrId }
  | sendFreed {link b : Nat} : s.poller = .freeSend b →
      Step sv s (.poll link) { s with
        next := Function.update s.next b s.sendRoot
        sendRoot := b
        poller := .alloc }
  | noneFree {link : Nat} : s.poller = .alloc → s.recvRoot = 0 →
      Step sv s (.poll link) { s with poller := .tryReceive }
  | recvAlloc {link : Nat} : s.poller = .alloc → s.recvRoot ≠ 0 →
      Step sv s (.poll link)
        { s with recvRoot := s.next s.recvRoot, poller := .postReceive s.recvRoot }
  | recvPost {link b : Nat} : s.poller = .postReceive b →
      Step sv s (.poll link) { s with rq := s.rq ++ [b], poller := .tryReceive }
  | noWork {w : Fin n} : s.worker w = .poll → ((s.wq w).dequeue s.next).1 = 0 →
      Step sv s (.serve w) s
  | dequeued {w : Fin n} : s.worker w = .poll → ((s.wq w).dequeue s.next).1 ≠ 0 →
      Step sv s (.serve w) { s with
        wq := Function.update s.wq w ((s.wq w).dequeue s.next).2
        worker := Function.update s.worker w (.alloc ((s.wq w).dequeue s.next).1) }
  | sendFail {w : Fin n} {work : Nat} : s.worker w = .alloc work → work = 0 ∨ s.sendRoot = 0 →
      Step sv s (.serve w) { s with aborted := some .sendBuffer }
  | sendAlloc {w : Fin n} {work : Nat} : s.worker w = .alloc work → work ≠ 0 → s.sendRoot ≠ 0 →
      Step sv s (.serve w) { s with
        sendRoot := s.next s.sendRoot
        worker := Function.update s.worker w (.execute work s.sendRoot) }
  | executed {w : Fin n} {work sb : Nat} {resp : Resp} {t : T} : s.worker w = .execute work sb →
      sv.execute (s.tablet w) (s.request work) = some (resp, t) →
      Step sv s (.serve w) { s with
        response := Function.update s.response sb resp
        tablet := Function.update s.tablet w t
        executed := Function.update s.executed w (s.executed w ++ [s.entry work])
        worker := Function.update s.worker w (.postSend work sb) }
  | posted {w : Fin n} {work sb : Nat} : s.worker w = .postSend work sb →
      Step sv s (.serve w) { s with
        sq := s.sq ++ [sb]
        posted := Function.update s.posted w (s.posted w ++ [(s.response sb, s.peerAddr work)])
        worker := Function.update s.worker w (.free work) }
  | recvFreed {w : Fin n} {work : Nat} : s.worker w = .free work →
      Step sv s (.serve w) { s with
        next := Function.update s.next work s.recvRoot
        recvRoot := work
        worker := Function.update s.worker w .poll }
  | receive {wc : WorkCompletion} {r : Req} : wc.wrId ∈ s.rq →
      Step sv s (.receive wc r) (s.receive wc r)
  | complete {wc : WorkCompletion} : wc.wrId ∈ s.sq →
      Step sv s (.complete wc) (s.complete wc)

variable {sv : Service n Req Resp T} {s s' : State n Req Resp T} {l : Label n Req}

theorem poll_cases {link : Nat} (h : sv.poll link s = some s') : Step sv s (.poll link) s' := by
  -- one case for each place in `Poll`, split where the source branches
  unfold Service.poll at h
  split at h
  case h_1 i hp =>
    dsimp only [RegisteredBuffers.alloc] at h
    split at h
    · next hi =>
      split at h
      · next h0 =>
        cases h
        exact .fillFail hp hi h0
      · next h0 =>
        cases h
        exact .fillAlloc hp hi h0
    · next hi =>
      cases h
      exact .fillDone hp hi
  case h_2 i b hp =>
    cases h
    exact .fillPost hp
  case h_3 hp =>
    split at h
    · next hrcq =>
      cases h
      exact .noneReceived hp hrcq
    · next wc rcq hrcq =>
      cases h
      exact .received hp hrcq
  case h_4 b hp =>
    split at h
    · cases h
    · next w hw =>
      cases h
      exact .routed hp hw
  case h_5 b w hp =>
    cases h
    exact .enqueued hp
  case h_6 hp =>
    split at h
    · next hscq =>
      cases h
      exact .noneSent hp hscq
    · next wc scq hscq =>
      cases h
      exact .reaped hp hscq
  case h_7 b hp =>
    cases h
    exact .sendFreed hp
  case h_8 hp =>
    dsimp only [RegisteredBuffers.alloc] at h
    split at h
    · next h0 =>
      cases h
      exact .recvAlloc hp h0
    · next h0 =>
      cases h
      exact .noneFree hp (not_not.mp h0)
  case h_9 b hp =>
    cases h
    exact .recvPost hp

theorem serve_cases {w : Fin n} (h : sv.serve w s = some s') : Step sv s (.serve w) s' := by
  -- one case for each place in `Serve`
  unfold Service.serve at h
  split at h
  case h_1 hw =>
    dsimp only at h
    split at h
    · next h0 =>
      cases h
      exact .noWork hw h0
    · next h0 =>
      cases h
      exact .dequeued hw h0
  case h_2 work hw =>
    dsimp only [RegisteredBuffers.alloc] at h
    split at h
    · next h0 =>
      rw [if_pos h0.2] at h
      cases h
      exact .sendAlloc hw h0.1 h0.2
    · next h0 =>
      cases h
      exact .sendFail hw (by tauto)
  case h_3 work sb hw =>
    split at h
    · cases h
    · next resp t hrun =>
      cases h
      exact .executed hw hrun
  case h_4 work sb hw =>
    cases h
    exact .posted hw
  case h_5 work hw =>
    cases h
    exact .recvFreed hw

/-- Every step has one of the effects. -/
theorem step_cases (h : sv.step s l = some s') : s.aborted = none ∧ Step sv s l s' := by
  unfold Service.step at h
  split at h
  · cases h
  · next halive =>
    refine ⟨not_not.mp halive, ?_⟩
    cases l with
    | poll link => exact poll_cases h
    | serve w => exact serve_cases h
    | receive wc r =>
      dsimp only at h
      split at h
      · next hmem =>
        cases h
        exact .receive hmem
      · cases h
    | complete wc =>
      dsimp only at h
      split at h
      · next hmem =>
        cases h
        exact .complete hmem
      · cases h

theorem run_append {s'' : State n Req Resp T} {ls ms : List (Label n Req)}
    (h : sv.run s ls = some s') (h' : sv.run s' ms = some s'') :
    sv.run s (ls ++ ms) = some s'' := by
  induction ls generalizing s with
  | nil =>
    cases h
    exact h'
  | cons l ls ih =>
    rw [List.cons_append, Service.run]
    rw [Service.run] at h
    split at h
    · cases h
    · exact ih h

/-- A run is made of steps. -/
theorem run_invariant (inv : State n Req Resp T → Prop) {ls : List (Label n Req)}
    (hstep : ∀ s l s', inv s → sv.step s l = some s' → inv s') (hs : inv s)
    (h : sv.run s ls = some s') : inv s' := by
  induction ls generalizing s with
  | nil =>
    cases h
    exact hs
  | cons l ls ih =>
    rw [Service.run] at h
    split at h
    · cases h
    · next s₁ hs₁ => exact ih (hstep s l s₁ hs hs₁) h

theorem reachable_run {t : Fin n → T} {ls : List (Label n Req)} (hinit : Init t s)
    (h : sv.run s ls = some s') : Reachable sv t s' :=
  run_invariant (Reachable sv t) (fun _ l _ hs hstep => .step l hs hstep) (.init hinit) h

/-! ### The service of nvds -/

/-- The worker that `Dispatch` of `server` enqueues a request at. -/
def routeOf {c : Config} (server : Server c) (r : Request) :
    Option (Fin c.kNumTabletsPerServer) :=
  match server.dispatch r.keyHash with
  | .error _ => none
  | .ok (worker, _) =>
    if h : worker < c.kNumTabletsPerServer then some ⟨worker, h⟩ else none

/-- The execution of a request on a tablet, with the replication. -/
def executeOn (fuel : Nat) (t : Tablet.Replicated) (r : Request) :
    Option (Response × Tablet.Replicated) :=
  match Tablet.serve fuel r t.master with
  | .error _ => none
  | .ok (resp, s) => some (resp, Tablet.sync ⟨s, t.backups⟩)

/-- The threads of `server`. -/
def Service.ofServer {c : Config} (server : Server c) (fuel : Nat) :
    Service c.kNumTabletsPerServer Request Response Tablet.Replicated :=
  ⟨routeOf server, executeOn fuel⟩

end Nvds.Serving
