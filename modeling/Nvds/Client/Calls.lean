import Nvds.Serving.Buffers

/-! # The calls of a client (`client.h`, `client.cc`, `infiniband.cc`)

    A call takes a send and a receive buffer from their pools, posts the
    receive, sends the request and waits for the first receive to complete.
    `PostReceive` and `PostSendAndWait` throw a `TransportException` where the
    verbs call or the completion reports an error; the caller may catch it
    and go on calling.

    The receive queue completes the posted receives in the order in which
    they were posted. A request whose send completes without an error is
    answered; responses to earlier requests may arrive first. A request whose
    send completes with an error may have reached the server all the same.
-/

open Program LinkedList Nvds.Serving

namespace Nvds.Client

/-! ### The state -/

/-- `Client::kMaxIBQueueDepth`. -/
def kMaxIBQueueDepth : Nat := 128

/-- The address of `send_bufs_.bufs_`. -/
def sendBase : Nat := 1

/-- The address of `recv_bufs_.bufs_`. -/
def recvBase : Nat := 1 + kMaxIBQueueDepth

/-- The send buffers. -/
def sendBuffers : List Nat := List.range' sendBase kMaxIBQueueDepth

/-- The receive buffers. -/
def recvBuffers : List Nat := List.range' recvBase kMaxIBQueueDepth

/-- The response to the request of a call. -/
structure Message where
  call : Nat
  resp : Response
  deriving DecidableEq, Repr

/-- A client and what the network holds of it. -/
structure State where
  /-- The links of the buffers, and the roots of the two pools. -/
  next : Nat → Nat
  sendRoot : Nat
  recvRoot : Nat
  /-- The receives that are posted, the oldest first. -/
  posted : List Nat
  /-- The responses on their way. -/
  inFlight : List Message
  /-- The receives that have completed, with what was received. -/
  completed : List (Nat × Message)
  /-- How many calls there were. -/
  calls : Nat

/-- What the network does during one call. -/
structure Network where
  /-- The result of `ibv_post_recv`, 0 for success; likewise below. -/
  postReceive : Nat
  postSend : Nat
  wcStatus : Nat
  /-- A request whose send completes with an error gets to the server. -/
  reaches : Bool
  answer : Response
  /-- The calls whose responses arrive before the one to this call, if they are on their way. -/
  late : List Nat

/-- The `TransportException`s of `RequestAndWait`, with their error numbers. -/
inductive TransportException where
  /-- `ibv_post_recv failed`. -/
  | postReceive (err : Nat)
  /-- `ibv_post_send failed`. -/
  | postSend (err : Nat)
  /-- `PostSendAndWait failed`. -/
  | completion (status : Nat)
  deriving DecidableEq, Repr

/-- Why a call does not return. -/
inductive Stop where
  | thrown (e : TransportException)
  /-- An `assert` failed: the process ends. -/
  | assertion
  /-- `Receive` is still polling. -/
  | waiting
  deriving DecidableEq, Repr

/-- A call on the client. An exception leaves the state as it is then. -/
abbrev ClientM (α : Type) := Caught State Stop α

/-! ### The code -/

/-- `assert(p)`. -/
def check (p : Prop) [Decidable p] : ClientM Unit :=
  if p then pure () else throw .assertion

/-- `send_bufs_.Alloc()`. -/
def allocSend : ClientM Nat := fun s =>
  let a := RegisteredBuffers.alloc s.next s.sendRoot
  (.ok a.1, { s with sendRoot := a.2 })

/-- `send_bufs_.Free(b)`. -/
def freeSend (b : Nat) : ClientM Unit := fun s =>
  let f := RegisteredBuffers.free s.next s.sendRoot b
  (.ok (), { s with next := f.1, sendRoot := f.2 })

/-- `recv_bufs_.Alloc()`. -/
def allocRecv : ClientM Nat := fun s =>
  let a := RegisteredBuffers.alloc s.next s.recvRoot
  (.ok a.1, { s with recvRoot := a.2 })

/-- `recv_bufs_.Free(b)`. -/
def freeRecv (b : Nat) : ClientM Unit := fun s =>
  let f := RegisteredBuffers.free s.next s.recvRoot b
  (.ok (), { s with next := f.1, recvRoot := f.2 })

/-- `PostReceive`. -/
def postReceive (net : Network) (b : Nat) : ClientM Unit := fun s =>
  if net.postReceive ≠ 0 then
    (.error (.thrown (.postReceive net.postReceive)), s)
  else
    (.ok (), { s with posted := s.posted ++ [b] })

/-- The request is on the server, and its response on the way. -/
def State.reach (s : State) (net : Network) : State :=
  { s with inFlight := s.inFlight ++ [⟨s.calls, net.answer⟩] }

/-- `PostSendAndWait`. -/
def postSendAndWait (net : Network) : ClientM Unit := fun s =>
  if net.postSend ≠ 0 then
    (.error (.thrown (.postSend net.postSend)), s)
  else if net.wcStatus ≠ 0 then
    (.error (.thrown (.completion net.wcStatus)), if net.reaches then s.reach net else s)
  else
    (.ok (), s.reach net)

/-- The response to call `k` arrives, if it is on its way. It is received into the oldest
    posted buffer, and dropped if there is none. -/
def State.arrive (s : State) (k : Nat) : State :=
  match s.inFlight.find? (fun m => m.call = k) with
  | none => s
  | some m =>
    let rest := s.inFlight.filter fun m => m.call ≠ k
    match s.posted with
    | [] => { s with inFlight := rest }
    | b :: bs => { s with inFlight := rest, posted := bs, completed := s.completed ++ [(b, m)] }

/-- `Receive`: the first receive that completes. -/
def receive (net : Network) : ClientM (Nat × Message) := fun s =>
  let s := (net.late ++ [s.calls]).foldl State.arrive s
  match s.completed with
  | [] => (.error .waiting, s)
  | c :: cs => (.ok c, { s with completed := cs })

/-- `RequestAndWait`: the receive buffer and the response in it. -/
def requestAndWait (net : Network) : ClientM (Nat × Message) := do
  modify fun s => { s with calls := s.calls + 1 }
  let sb ← allocSend
  check (sb ≠ 0)
  let rb ← allocRecv
  check (rb ≠ 0)
  postReceive net rb
  postSendAndWait net
  freeSend sb
  let c ← receive net
  check (rb = c.1)
  pure c

/-- The shape of the four calls: `ans` is what they take from the response. -/
def callWith {β : Type} (ans : Response → β) (net : Network) : ClientM β := do
  let c ← requestAndWait net
  freeRecv c.1
  pure (ans c.2.resp)

/-- `Client::Get`. -/
def get (net : Network) : ClientM (List UInt8) := callWith (fun resp => resp.val) net

/-- `Client::Put`. -/
def put (net : Network) : ClientM Bool := callWith (fun resp => decide (resp.status = .ok)) net

/-- `Client::Add`. -/
def add (net : Network) : ClientM Bool := callWith (fun resp => decide (resp.status = .ok)) net

/-- `Client::Del`. -/
def del (net : Network) : ClientM Bool := callWith (fun resp => decide (resp.status = .ok)) net

/-! ### Sequences of calls -/

/-- What a call returns. -/
inductive Returned where
  | text (val : List UInt8)
  | flag (ok : Bool)
  deriving DecidableEq, Repr

/-- A call, and what the network does during it. -/
structure Call where
  type : RequestType
  net : Network

/-- One of the four calls. -/
def Call.run (c : Call) : ClientM Returned :=
  match c.type with
  | .put => do
    let ok ← put c.net
    pure (.flag ok)
  | .add => do
    let ok ← add c.net
    pure (.flag ok)
  | .get => do
    let val ← get c.net
    pure (.text val)
  | .del => do
    let ok ← del c.net
    pure (.flag ok)

/-- A call that was made: how it ended, and the state then. -/
structure Made where
  call : Call
  result : Except Stop Returned
  after : State

/-- The caller goes on: the call returned, or threw an exception. -/
def goesOn : Except Stop Returned → Bool
  | .ok _ => true
  | .error (.thrown _) => true
  | .error _ => false

/-- The calls of a caller that catches every `TransportException`. -/
def runCalls : State → List Call → List Made
  | _, [] => []
  | s, c :: cs =>
    let r := c.run s
    ⟨c, r.1, r.2⟩ :: if goesOn r.1 then runCalls r.2 cs else []

/-- All of `bufs` are on the pool with root `root`, each once. -/
def Pooled (next : Nat → Nat) (root : Nat) (bufs : List Nat) : Prop :=
  ∃ xs, Seg next root xs 0 ∧ xs.Perm bufs

/-- What the response is for the caller. -/
def Call.answer (c : Call) : Returned :=
  if c.type = .get then .text c.net.answer.val else .flag (decide (c.net.answer.status = .ok))

/-- After the call the client is as usable as before: all buffers are back, none is posted, the
    assertions held, and a call that returned has returned the response to its own request. -/
structure Usable (m : Made) : Prop where
  sendPool : Pooled m.after.next m.after.sendRoot sendBuffers
  recvPool : Pooled m.after.next m.after.recvRoot recvBuffers
  posted : m.after.posted = []
  assertion : m.result ≠ .error .assertion
  own : ∀ a, m.result = .ok a → a = m.call.answer

/-- A client as it is constructed. -/
structure Fresh (s : State) : Prop where
  next : ∃ raw, s.next = RegisteredBuffers.link recvBase kMaxIBQueueDepth
    (RegisteredBuffers.link sendBase kMaxIBQueueDepth raw)
  sendRoot : s.sendRoot = sendBase
  recvRoot : s.recvRoot = recvBase
  posted : s.posted = []
  inFlight : s.inFlight = []
  completed : s.completed = []

/-- A verbs call or a completion of the call reports an error. -/
def Network.Fails (net : Network) : Prop :=
  net.postReceive ≠ 0 ∨ net.postSend ≠ 0 ∨ net.wcStatus ≠ 0

/-! ### A call that no error interrupts -/

variable {s s' : State} {net : Network} {c : Call}

/-- The client between two calls: nothing is posted, on its way or waiting to be polled. -/
structure Ready (s : State) : Prop where
  sendPool : Pooled s.next s.sendRoot sendBuffers
  recvPool : Pooled s.next s.recvRoot recvBuffers
  posted : s.posted = []
  inFlight : s.inFlight = []
  completed : s.completed = []

theorem Pooled.root_ne_zero {next : Nat → Nat} {root : Nat} {bufs : List Nat}
    (h : Pooled next root bufs) (hne : bufs ≠ []) : root ≠ 0 := by
  obtain ⟨xs, hseg, hperm⟩ := h
  intro h0
  rw [h0] at hseg
  rw [hseg.eq_nil] at hperm
  exact hne hperm.nil_eq.symm

/-- A pool that has given away a buffer is not complete. -/
theorem Pooled.not_pooled_tail {next : Nat → Nat} {root : Nat} {bufs : List Nat}
    (h : Pooled next root bufs) (h0 : root ≠ 0) : ¬ Pooled next (next root) bufs := by
  intro htail
  obtain ⟨xs, hseg, hperm⟩ := h
  obtain ⟨xs', hseg', hperm'⟩ := htail
  obtain ⟨ys, rfl, hys⟩ := hseg.pop h0
  rw [hseg'.unique hys] at hperm'
  have hlen := hperm.length_eq
  rw [← hperm'.length_eq, List.length_cons] at hlen
  omega

theorem Ready.sendRoot_ne_zero (h : Ready s) : s.sendRoot ≠ 0 :=
  h.sendPool.root_ne_zero (by decide)

theorem Ready.recvRoot_ne_zero (h : Ready s) : s.recvRoot ≠ 0 :=
  h.recvPool.root_ne_zero (by decide)

theorem arrive_of_nil (h : s.inFlight = []) (k : Nat) : s.arrive k = s := by
  rw [State.arrive, h]
  rfl

/-- The only response on its way arrives in the only posted buffer. -/
theorem arrive_own {m : Message} {b : Nat} (hfly : s.inFlight = [m]) (hpost : s.posted = [b])
    (k : Nat) : s.arrive k = if m.call = k then
      { s with inFlight := [], posted := [], completed := s.completed ++ [(b, m)] } else s := by
  by_cases hk : m.call = k
  · simp [State.arrive, hfly, hpost, hk]
  · simp [State.arrive, hfly, hk]

theorem foldl_arrive_of_nil (h : s.inFlight = []) (ks : List Nat) :
    ks.foldl State.arrive s = s := by
  induction ks with
  | nil => rfl
  | cons k ks ih => rw [List.foldl_cons, arrive_of_nil h, ih]

/-- It arrives once, whatever else is said to arrive. -/
theorem foldl_arrive_own {m : Message} {b : Nat} (hfly : s.inFlight = [m]) (hpost : s.posted = [b])
    (ks : List Nat) : (ks ++ [m.call]).foldl State.arrive s =
      { s with inFlight := [], posted := [], completed := s.completed ++ [(b, m)] } := by
  induction ks with
  | nil =>
    show s.arrive m.call = _
    rw [arrive_own hfly hpost, if_pos rfl]
  | cons k ks ih =>
    rw [List.cons_append, List.foldl_cons, arrive_own hfly hpost]
    by_cases hk : m.call = k
    · rw [if_pos hk, foldl_arrive_of_nil rfl]
    · rw [if_neg hk, ih]

/-- `Receive` returns it. -/
theorem receive_own {m : Message} {b : Nat} (hfly : s.inFlight = [m]) (hpost : s.posted = [b])
    (hcomp : s.completed = []) (hcall : m.call = s.calls) (net : Network) :
    receive net s = (.ok (b, m), { s with inFlight := [], posted := [] }) := by
  have harrive := foldl_arrive_own hfly hpost net.late
  rw [hcall] at harrive
  unfold receive
  rw [harrive, hcomp]
  rfl

theorem check_of {p : Prop} [Decidable p] (hp : p) : check p s = (.ok (), s) := by
  rw [check, if_pos hp]
  rfl

theorem allocSend_run (h0 : s.sendRoot ≠ 0) :
    allocSend s = (.ok s.sendRoot, { s with sendRoot := s.next s.sendRoot }) := by
  rw [allocSend, RegisteredBuffers.alloc, if_pos h0]

theorem allocRecv_run (h0 : s.recvRoot ≠ 0) :
    allocRecv s = (.ok s.recvRoot, { s with recvRoot := s.next s.recvRoot }) := by
  rw [allocRecv, RegisteredBuffers.alloc, if_pos h0]

/-- The client once it has taken its two buffers. -/
def State.taken (s : State) : State :=
  { s with sendRoot := s.next s.sendRoot, recvRoot := s.next s.recvRoot, calls := s.calls + 1 }

/-- A call takes its two buffers, whatever comes then. -/
theorem requestAndWait_start (h : Ready s) : requestAndWait net s = (do
    postReceive net s.recvRoot
    postSendAndWait net
    freeSend s.sendRoot
    let c ← receive net
    check (s.recvRoot = c.1)
    pure c : ClientM (Nat × Message)) s.taken := by
  have hs0 := h.sendRoot_ne_zero
  have hr0 := h.recvRoot_ne_zero
  have hmodify : (modify fun s => { s with calls := s.calls + 1 } : ClientM PUnit) s =
      (.ok (), { s with calls := s.calls + 1 }) := rfl
  unfold requestAndWait
  rw [caught_of_ok hmodify, caught_of_ok (allocSend_run (by exact hs0)),
    caught_of_ok (check_of (by exact hs0)), caught_of_ok (allocRecv_run (by exact hr0)),
    caught_of_ok (check_of (by exact hr0))]
  rfl

/-- The client while its request is on the server. -/
def State.sent (s : State) (net : Network) : State :=
  { s.taken with posted := [s.recvRoot], inFlight := [⟨s.calls + 1, net.answer⟩] }

theorem Ready.eq (h : Ready s) : s = ⟨s.next, s.sendRoot, s.recvRoot, [], [], [], s.calls⟩ := by
  obtain ⟨next, sendRoot, recvRoot, posted, inFlight, completed, calls⟩ := s
  obtain ⟨_, _, hposted, hfly, hcomp⟩ := h
  simp only at hposted hfly hcomp
  rw [hposted, hfly, hcomp]

/-- `PostReceive` and `PostSendAndWait` without an error. -/
theorem post_ok (h : Ready s) (hok : ¬ net.Fails) :
    postReceive net s.recvRoot s.taken = (.ok (), { s.taken with posted := [s.recvRoot] }) ∧
    postSendAndWait net { s.taken with posted := [s.recvRoot] } = (.ok (), s.sent net) := by
  obtain ⟨hrecv, hsend, hwc⟩ : net.postReceive = 0 ∧ net.postSend = 0 ∧ net.wcStatus = 0 := by
    unfold Network.Fails at hok
    omega
  rw [postReceive, if_neg (not_not.mpr hrecv), postSendAndWait, if_neg (not_not.mpr hsend),
    if_neg (not_not.mpr hwc), h.eq]
  exact ⟨rfl, rfl⟩

/-- The send buffer is back on top of its pool. -/
theorem freeSend_run (s : State) (net : Network) : freeSend s.sendRoot (s.sent net) =
    (.ok (), { s.sent net with sendRoot := s.sendRoot }) := by
  have hnext : Function.update s.next s.sendRoot (s.next s.sendRoot) = s.next :=
    Function.update_eq_self _ _
  unfold freeSend RegisteredBuffers.free
  simp only [State.sent, State.taken, hnext]

/-- **A call without an error** gets its own response, and the send buffer is back. -/
theorem requestAndWait_ok (h : Ready s) (hok : ¬ net.Fails) :
    requestAndWait net s = (.ok (s.recvRoot, ⟨s.calls + 1, net.answer⟩),
      { s with recvRoot := s.next s.recvRoot, calls := s.calls + 1 }) := by
  obtain ⟨hpost, hwait⟩ := post_ok h hok
  have hreceive := receive_own (s := { s.sent net with sendRoot := s.sendRoot })
    (m := ⟨s.calls + 1, net.answer⟩) (b := s.recvRoot) rfl rfl h.completed rfl net
  rw [requestAndWait_start h, caught_of_ok hpost, caught_of_ok hwait,
    caught_of_ok (freeSend_run s net), caught_of_ok hreceive, caught_of_ok (check_of rfl), h.eq]
  rfl

/-- Each of the four calls returns its own response, and leaves the client as it was. -/
theorem Call.run_ok (h : Ready s) (hok : ¬ c.net.Fails) :
    c.run s = (.ok c.answer, { s with calls := s.calls + 1 }) := by
  have hwith : ∀ {β : Type} (ans : Response → β), callWith ans c.net s =
      (.ok (ans c.net.answer), { s with calls := s.calls + 1 }) := by
    intro β ans
    have hnext : Function.update s.next s.recvRoot (s.next s.recvRoot) = s.next :=
      Function.update_eq_self _ _
    have hfree : freeRecv s.recvRoot
        { s with recvRoot := s.next s.recvRoot, calls := s.calls + 1 } =
        (.ok (), { s with calls := s.calls + 1 }) := by
      unfold freeRecv RegisteredBuffers.free
      simp only [hnext]
    unfold callWith
    rw [caught_of_ok (requestAndWait_ok h hok), caught_of_ok hfree]
    rfl
  unfold Call.run Call.answer
  cases c.type with
  | put => exact caught_of_ok (hwith _)
  | add => exact caught_of_ok (hwith _)
  | get => exact caught_of_ok (hwith _)
  | del => exact caught_of_ok (hwith _)

/-! ### A call that throws -/

/-- **A call with an error** keeps its send buffer. -/
theorem requestAndWait_fails (h : Ready s) (hf : net.Fails) :
    ∃ e s', requestAndWait net s = (.error (.thrown e), s') ∧ s'.next = s.next ∧
      s'.sendRoot = s.next s.sendRoot := by
  rw [requestAndWait_start h]
  -- the three places that throw, in the order of the source
  by_cases hrecv : net.postReceive = 0
  · have hpost : postReceive net s.recvRoot s.taken =
        (.ok (), { s.taken with posted := s.posted ++ [s.recvRoot] }) := by
      rw [postReceive, if_neg (not_not.mpr hrecv)]
      rfl
    rw [caught_of_ok hpost]
    by_cases hsend : net.postSend = 0
    · have hwc : net.wcStatus ≠ 0 := by
        rcases hf with hne | hne | hne
        · exact absurd hrecv hne
        · exact absurd hsend hne
        · exact hne
      have hthrow : postSendAndWait net { s.taken with posted := s.posted ++ [s.recvRoot] } =
          (.error (.thrown (.completion net.wcStatus)), if net.reaches then
            { s.taken with posted := s.posted ++ [s.recvRoot] }.reach net
          else
            { s.taken with posted := s.posted ++ [s.recvRoot] }) := by
        rw [postSendAndWait, if_neg (not_not.mpr hsend), if_pos hwc]
      refine ⟨_, _, caught_of_error hthrow, ?_⟩
      cases net.reaches with
      | true => exact ⟨rfl, rfl⟩
      | false => exact ⟨rfl, rfl⟩
    · have hthrow : postSendAndWait net { s.taken with posted := s.posted ++ [s.recvRoot] } =
          (.error (.thrown (.postSend net.postSend)),
            { s.taken with posted := s.posted ++ [s.recvRoot] }) := by
        rw [postSendAndWait, if_pos hsend]
      exact ⟨_, _, caught_of_error hthrow, rfl, rfl⟩
  · have hthrow : postReceive net s.recvRoot s.taken =
        (.error (.thrown (.postReceive net.postReceive)), s.taken) := by
      rw [postReceive, if_pos hrecv]
    exact ⟨_, _, caught_of_error hthrow, rfl, rfl⟩

/-- So does each of the four calls. -/
theorem Call.run_fails (h : Ready s) (hf : c.net.Fails) :
    ∃ e s', c.run s = (.error (.thrown e), s') ∧ s'.next = s.next ∧
      s'.sendRoot = s.next s.sendRoot := by
  obtain ⟨e, s', hrun, hkeep⟩ := requestAndWait_fails h hf
  refine ⟨e, s', ?_, hkeep⟩
  have hwith : ∀ {β : Type} (ans : Response → β), callWith ans c.net s = (.error (.thrown e), s') :=
    fun ans => caught_of_error hrun
  unfold Call.run
  cases c.type with
  | put => exact caught_of_error (hwith _)
  | add => exact caught_of_error (hwith _)
  | get => exact caught_of_error (hwith _)
  | del => exact caught_of_error (hwith _)

/-! ### Sequences of calls -/

theorem Fresh.ready (h : Fresh s) : Ready s := by
  obtain ⟨raw, hnext⟩ := h.next
  refine ⟨⟨sendBuffers, ?_, List.Perm.refl _⟩, ⟨recvBuffers, ?_, List.Perm.refl _⟩, h.posted,
    h.inFlight, h.completed⟩
  · rw [h.sendRoot, hnext]
    exact seg_link_other (by decide) (by decide) (by decide) _
  · rw [h.recvRoot, hnext]
    exact seg_link (by decide) (by decide) _

theorem Ready.usable (h : Ready s) (c : Call) :
    Usable ⟨c, .ok c.answer, { s with calls := s.calls + 1 }⟩ := by
  refine ⟨h.sendPool, h.recvPool, h.posted, ?_, ?_⟩
  · intro hbad
    cases hbad
  · intro a ha
    cases ha
    rfl

theorem Ready.usable_iff (h : Ready s) (cs : List Call) :
    (∀ m ∈ runCalls s cs, Usable m) ↔ ∀ c ∈ cs, ¬ c.net.Fails := by
  induction cs generalizing s with
  | nil => simp [runCalls]
  | cons c cs ih =>
    rw [runCalls, List.forall_mem_cons, List.forall_mem_cons]
    by_cases hf : c.net.Fails
    · -- the send buffer is missing from its pool
      obtain ⟨e, s', hrun, hnext, hroot⟩ := c.run_fails h hf
      refine iff_of_false ?_ fun hno => hno.1 hf
      intro hall
      have hpool := hall.1.sendPool
      rw [hrun] at hpool
      simp only [hnext, hroot] at hpool
      exact h.sendPool.not_pooled_tail h.sendRoot_ne_zero hpool
    · have hrun := c.run_ok h hf
      have h' : Ready { s with calls := s.calls + 1 } :=
        ⟨h.sendPool, h.recvPool, h.posted, h.inFlight, h.completed⟩
      rw [hrun]
      constructor
      · intro hall
        exact ⟨hf, (ih h').mp hall.2⟩
      · intro hno
        exact ⟨h.usable c, (ih h').mpr hno.2⟩

/-- **A client is usable** after each of its calls exactly if none of them meets an error. -/
theorem client_usable_iff (h : Fresh s) (cs : List Call) :
    (∀ m ∈ runCalls s cs, Usable m) ↔ ∀ c ∈ cs, ¬ c.net.Fails :=
  h.ready.usable_iff cs

/-- A new client in memory that was 0. -/
def newClient : State where
  next := RegisteredBuffers.link recvBase kMaxIBQueueDepth
    (RegisteredBuffers.link sendBase kMaxIBQueueDepth fun _ => 0)
  sendRoot := sendBase
  recvRoot := recvBase
  posted := []
  inFlight := []
  completed := []
  calls := 0

theorem newClient_fresh : Fresh newClient := ⟨⟨fun _ => 0, rfl⟩, rfl, rfl, rfl, rfl, rfl⟩

/-- A `GET` that is answered by the value `[v]`; its send completes with `status`. -/
def getCall (status : Nat) (v : UInt8) : Call := ⟨.get, 0, 0, status, false, ⟨.get, .ok, [v]⟩, []⟩

theorem client_usable_iff_two :
    (runCalls newClient [getCall 0 1, getCall 0 2]).map (fun m => m.result) =
      [.ok (.text [1]), .ok (.text [2])] ∧
    ∀ m ∈ runCalls newClient [getCall 0 1, getCall 0 2], Usable m := by
  constructor
  · decide +kernel
  · rw [client_usable_iff newClient_fresh]
    simp only [List.forall_mem_cons, getCall, Network.Fails]
    exact ⟨by decide, by decide, fun c hc => absurd hc List.not_mem_nil⟩

/-- One failed send, with the status 12 (`IBV_WC_RETRY_EXC_ERR`): the call that follows takes the
    buffer it left posted for its own, and the assertion fails. -/
theorem exists_unusable : Fresh newClient ∧
    (runCalls newClient [getCall 12 1, getCall 0 2]).map (fun m => m.result) =
      [.error (.thrown (.completion 12)), .error .assertion] ∧
    ¬ ∀ m ∈ runCalls newClient [getCall 12 1, getCall 0 2], Usable m := by
  refine ⟨newClient_fresh, ?_, ?_⟩
  · decide +kernel
  · rw [newClient_fresh.ready.usable_iff]
    intro hno
    exact hno _ List.mem_cons_self (by right; right; decide)

end Nvds.Client
