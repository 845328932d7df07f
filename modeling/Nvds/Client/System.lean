import Nvds.Client.Datagrams
import Nvds.Framework.Linearizability
import Nvds.Hash
import Nvds.Serving.OneMap

/-! # Clients, network and servers (`client.h`, `client.cc`)

    Every client calls `Get`, `Put`, `Add` and `Del` one after another; the
    clients do so at the same time. A request is a datagram to the server
    that the client's index gives for the key, the response one to the
    address the request came from. Datagrams arrive in any order and at any
    time, each at most once; some may be lost. The verbs calls are taken to
    succeed.
-/

open Arrays ByteMemory Program
open Nvds.Cluster Nvds.Serving
open Linearizability (Event)

namespace Nvds.Client

/-! ### The operations -/

/-- A call of `Get`, `Put`, `Add` or `Del`. -/
inductive Op where
  | get (key : List UInt8)
  | put (key val : List UInt8)
  | add (key val : List UInt8)
  | del (key : List UInt8)
  deriving DecidableEq, Repr

namespace Op

def type : Op → RequestType
  | .get _ => .get
  | .put _ _ => .put
  | .add _ _ => .add
  | .del _ => .del

def key : Op → List UInt8
  | .get key => key
  | .put key _ => key
  | .add key _ => key
  | .del key => key

/-- The value, a null pointer for `Get` and `Del`. -/
def val : Op → Option (List UInt8)
  | .get _ => none
  | .put _ val => some val
  | .add _ val => some val
  | .del _ => none

/-- `key_len + val_len`. -/
def size (op : Op) : Nat := op.key.length + (op.val.getD []).length

/-- What the operation means: what it returns, and what it does to the map. -/
def act (op : Op) (M : Tablet.Store) : Returned × Tablet.Store :=
  match op with
  | .get key => (.text ((M key).getD []), M)
  | .put key val => (.flag true, Function.update M key (some val))
  | .add key val =>
    if M key = none then (.flag true, Function.update M key (some val)) else (.flag false, M)
  | .del key => (.flag (M key).isSome, Function.update M key none)

end Op

/-- The map that the clients are to see. -/
def mapObject : Linearizability.Object Op Returned Tablet.Store := ⟨fun _ => none, Op.act⟩

/-! ### A client -/

/-- Where a call stands, with the buffers in the variables `sb` and `rb`. -/
inductive Pc where
  | idle
  /-- In `PostSendAndWait`, behind `PostSend`. -/
  | sending (op : Op) (sb rb : Nat)
  /-- In `Receive`. -/
  | receiving (op : Op) (rb : Nat)
  /-- An assertion failed, or an access was out of bounds. -/
  | failed (op : Op)

/-- A client: the links of the buffers, the roots of the two pools, what the buffers hold, the
    receives that are posted, and those that have completed. -/
structure Node where
  next : Nat → Nat
  sendRoot : Nat
  recvRoot : Nat
  buf : Nat → Mem
  rq : List Nat
  rcq : List Nat
  pc : Pc

/-- A request on its way. -/
structure Datagram where
  src : Address
  dst : Address
  msg : List UInt8
  deriving DecidableEq

namespace Node

variable {c : Config}

/-- `RequestAndWait` up to the end of `PostSend`: the client with the address `self`, and what it
    sends. There is no result if an assertion fails or the index has no server for the key. -/
def begin (im : IndexManager c) (self : Address) (op : Op) (n : Node) : Option (Node × Datagram) :=
  -- assert(key_len + val_len <= kMaxItemSize)
  if op.size ≤ kMaxItemSize then
    match im.getServerOf (hash op.key) with
    | .error _ => none
    | .ok server =>
      let sb := RegisteredBuffers.alloc n.next n.sendRoot
      let rb := RegisteredBuffers.alloc n.next n.recvRoot
      -- assert(sb != nullptr), assert(rb != nullptr)
      if sb.1 ≠ 0 ∧ rb.1 ≠ 0 then
        match sendRequest op.type op.key op.val (hash op.key) ⟨Client.kSendBufSize, n.buf sb.1⟩ with
        | .error _ => none
        | .ok (msg, b) =>
          some ({ n with
            sendRoot := sb.2
            recvRoot := rb.2
            buf := Function.update n.buf sb.1 b.buf
            rq := n.rq ++ [rb.1]
            pc := .sending op sb.1 rb.1 }, ⟨self, server.ibAddr, msg⟩)
      else
        none
  else
    none

/-- The send has completed: `Free(sb)`. -/
def sent (n : Node) (op : Op) (sb rb : Nat) : Node :=
  let f := RegisteredBuffers.free n.next n.sendRoot sb
  { n with next := f.1, sendRoot := f.2, pc := .receiving op rb }

/-- A response arrives: in the oldest buffer that is posted, if there is one. It must not be
    larger than the buffer. -/
def arrive (grh msg : List UInt8) (n : Node) : Option Node :=
  match n.rq with
  -- it is dropped
  | [] => some n
  | b :: rq =>
    match deliver grh msg ⟨Client.kRecvBufSize, n.buf b⟩ with
    | .error _ => none
    | .ok (_, rb) =>
      some { n with rq, rcq := n.rcq ++ [b], buf := Function.update n.buf b rb.buf }

/-- `Receive` returns, and then the call: what it returns, or nothing if an assertion fails.
    There is no step while no receive has completed. -/
def finish (n : Node) (op : Op) (rb : Nat) : Option (Node × Option Returned) :=
  match n.rcq with
  | [] => none
  | b :: rcq =>
    -- assert(rb == ib_.Receive(qp_))
    if rb = b then
      match readAnswer op.type ⟨Client.kRecvBufSize, n.buf b⟩ with
      | .error _ => some ({ n with rcq, pc := .failed op }, none)
      | .ok (v, _) =>
        let f := RegisteredBuffers.free n.next n.recvRoot b
        some ({ n with rcq, next := f.1, recvRoot := f.2, pc := .idle }, some v)
    else
      some ({ n with rcq, pc := .failed op }, none)

end Node

/-! ### The system -/

/-- The servers, the clients, the requests on their way, the responses that were delivered, and
    what was called and returned. -/
structure Sys (P : Type) (c : Config) where
  cluster : Deployment c
  node : P → Node
  flying : List Datagram
  delivered : List (Response × Address)
  history : List (Event P Op Returned)

/-- A new client. -/
structure Node.Fresh (n : Node) : Prop where
  next : ∃ raw, n.next = RegisteredBuffers.link recvBase kMaxIBQueueDepth
    (RegisteredBuffers.link sendBase kMaxIBQueueDepth raw)
  sendRoot : n.sendRoot = sendBase
  recvRoot : n.recvRoot = recvBase
  rq : n.rq = []
  rcq : n.rcq = []
  pc : n.pc = .idle

variable {P : Type} [DecidableEq P] {c : Config}

/-- Nothing was called. -/
structure Sys.Initial (ts : Fin c.kNumServers → Fin c.kNumTabletsPerServer → Tablet.Replicated)
    (s : Sys P c) : Prop where
  cluster : s.cluster.Initial ts
  node : ∀ p, (s.node p).Fresh
  network : s.flying = [] ∧ s.delivered = []
  history : s.history = []

/-- How often the response `m` was posted. -/
def postedCount (s : Deployment c) (m : Response × Address) : Nat :=
  ∑ x : Fin c.kNumServers × Fin c.kNumTabletsPerServer, ((s.servers x.1).posted x.2).count m

/-- What does not change: the servers that joined, each with its own state and its tablets, and
    the clients, each with its address and the index it got when it joined. -/
structure Setting (P : Type) (c : Config) where
  joins : List (String × JoinBody)
  server : Fin c.kNumServers → Server c
  fuel : Nat
  self : P → Address
  view : P → IndexManager c

/-- The address under which the server `i` joined. -/
def Setting.addressOf (S : Setting P c) (i : Fin c.kNumServers) : Option Address :=
  S.joins[i.val]?.map fun x => x.2.ibAddr

def Setting.service (S : Setting P c) (i : Fin c.kNumServers) :
    Service c.kNumTabletsPerServer Request Response Tablet.Replicated :=
  Service.ofServer (S.server i) S.fuel

inductive Label (P : Type) (c : Config) where
  | call (p : P) (op : Op)
  | sent (p : P)
  | ret (p : P)
  /-- A request arrives at a server. -/
  | arrive (i : Fin c.kNumServers)
  /-- Another step of a server. -/
  | work (i : Fin c.kNumServers)
  /-- A response arrives at a client. -/
  | respond (p : P)

/-- One step of a client, of a server or of the network between them. -/
inductive Step (S : Setting P c) (s : Sys P c) : Label P c → Sys P c → Prop
  | call {p : P} {op : Op} {n : Node} {d : Datagram} : (s.node p).pc = .idle →
      (s.node p).begin (S.view p) (S.self p) op = some (n, d) →
      Step S s (.call p op) { s with
        node := Function.update s.node p n
        flying := s.flying ++ [d]
        history := s.history ++ [.call p op] }
  | fail {p : P} {op : Op} : (s.node p).pc = .idle →
      (s.node p).begin (S.view p) (S.self p) op = none →
      Step S s (.call p op) { s with
        node := Function.update s.node p { s.node p with pc := .failed op }
        history := s.history ++ [.call p op] }
  | sent {p : P} {op : Op} {sb rb : Nat} : (s.node p).pc = .sending op sb rb →
      Step S s (.sent p) { s with node := Function.update s.node p ((s.node p).sent op sb rb) }
  | ret {p : P} {op : Op} {rb : Nat} {n : Node} {v : Returned} :
      (s.node p).pc = .receiving op rb → (s.node p).finish op rb = some (n, some v) →
      Step S s (.ret p) { s with
        node := Function.update s.node p n
        history := s.history ++ [.ret p v] }
  | abort {p : P} {op : Op} {rb : Nat} {n : Node} :
      (s.node p).pc = .receiving op rb → (s.node p).finish op rb = some (n, none) →
      Step S s (.ret p) { s with node := Function.update s.node p n }
  | arrive {i : Fin c.kNumServers} {d : Datagram} {grh : List UInt8} {rb rb' : Buffer}
      {wc : WorkCompletion} {r : Request}
      {s' : Serving.State c.kNumTabletsPerServer Request Response Tablet.Replicated} :
      d ∈ s.flying → S.addressOf i = some d.dst → wc.peerAddr = d.src → grh.length = kIBUDPadding →
      rb.size = Nvds.kRecvBufSize → receiveRequest grh d.msg rb = .ok (r, rb') →
      (S.service i).step (s.cluster.servers i) (.receive wc r) = some s' →
      Step S s (.arrive i) { s with
        cluster := ⟨Function.update s.cluster.servers i s', s.cluster.log ++ [(r, wc.peerAddr)]⟩
        flying := s.flying.erase d }
  | work {i : Fin c.kNumServers} {l : Serving.Label c.kNumTabletsPerServer Request}
      {s' : Serving.State c.kNumTabletsPerServer Request Response Tablet.Replicated} :
      (∀ wc r, l ≠ .receive wc r) → (S.service i).step (s.cluster.servers i) l = some s' →
      Step S s (.work i) { s with
        cluster := ⟨Function.update s.cluster.servers i s', s.cluster.log⟩ }
  | respond {p : P} {resp : Response} {sb sb' : Buffer} {grh msg : List UInt8} {n : Node} :
      s.delivered.count (resp, S.self p) < postedCount s.cluster (resp, S.self p) →
      sb.size = Nvds.kSendBufSize → sendResponse resp sb = .ok (msg, sb') →
      grh.length = kIBUDPadding → (s.node p).arrive grh msg = some n →
      Step S s (.respond p) { s with
        node := Function.update s.node p n
        delivered := s.delivered ++ [(resp, S.self p)] }

end Nvds.Client
