import Nvds.Cluster.Servers
import Nvds.Framework.Transition

/-! # The coordinator (`coordinator.h`, `coordinator.cc`, `session.cc`)

    Servers and clients join by a message to the coordinator. It answers the
    servers together, once all of them have joined, and a client at once.

    The coordinator is driven by one event loop. A session receives one
    message at a time: `Start` posts a receive when the connection is
    accepted, and the next receive is posted when an answer has been sent.
-/

open Arrays Transition

namespace Nvds.Cluster

variable {c : Config}

/-! ### Messages -/

/-- `Message::SenderType`. -/
inductive SenderType where
  | coordinator
  | server
  | client
  deriving DecidableEq, Repr

/-- `Message::Type`. -/
inductive MessageType where
  | reqJoin
  | reqLeave
  | resJoin
  | resClusterInfo
  | qpInfoExch
  | ackReject
  | ackError
  | ackOk
  deriving DecidableEq, Repr

/-- A message to the coordinator. Only the body of a server's `REQ_JOIN` is read. -/
structure Message where
  senderType : SenderType
  type : MessageType
  body : JoinBody
  deriving DecidableEq, Repr

/-- The message is the join request of a server. -/
def Message.IsServerJoin (msg : Message) : Prop :=
  msg.senderType = .server ∧ msg.type = .reqJoin

instance (msg : Message) : Decidable msg.IsServerJoin :=
  inferInstanceAs (Decidable (_ ∧ _))

/-- The message is the join request of a client. -/
def Message.IsClientJoin (msg : Message) : Prop :=
  msg.senderType = .client ∧ msg.type = .reqJoin

/-- The body of a `RES_JOIN`. -/
inductive ResJoin (c : Config) where
  | server (id : Nat) (indexManager : IndexManager c)
  | client (indexManager : IndexManager c)
  deriving DecidableEq

/-- The index in a `RES_JOIN`. -/
def ResJoin.indexManager : ResJoin c → IndexManager c
  | .server _ im => im
  | .client im => im

/-- A connection. -/
abbrev SessionId := Nat

/-! ### The handlers -/

/-- `class Coordinator`, with the static counter of `AllocServerId`. `posted` are the
    calls of `AsyncSendMessage` so far. -/
structure Coordinator (c : Config) where
  numServers : Nat
  totalStorage : Nat
  nextServerId : Nat
  indexManager : IndexManager c
  sessions : List SessionId
  posted : List (SessionId × ResJoin c)

namespace Coordinator

/-- `ResponseAllJoins`. -/
def responseAllJoins (co : Coordinator c) : Call (Coordinator c) := do
  check (co.sessions.length = c.kNumServers)
  let msgs := co.sessions.mapIdx fun i session => (session, ResJoin.server i co.indexManager)
  pure { co with posted := co.posted ++ msgs, sessions := [] }

/-- The members after a server was added to the index. -/
def enroll (session : SessionId) (body : JoinBody) (indexManager : IndexManager c)
    (co : Coordinator c) : Coordinator c :=
  { co with
    indexManager
    nextServerId := u32 (co.nextServerId + 1)
    sessions := co.sessions ++ [session]
    numServers := u32 (co.numServers + 1)
    totalStorage := (co.totalStorage + body.size) % 18446744073709551616 }

/-- `HandleServerRequestJoin`; `addr` is the address of the peer. -/
def handleServerRequestJoin (addr : String) (session : SessionId) (body : JoinBody)
    (co : Coordinator c) : Call (Coordinator c) := do
  if co.numServers ≥ c.kNumServers then
    -- too many servers, ignored
    pure co
  else
    let indexManager ← addServer co.nextServerId addr body co.indexManager
    let co := co.enroll session body indexManager
    check (co.numServers ≤ c.kNumServers)
    if co.numServers = c.kNumServers then
      co.responseAllJoins
    else
      pure co

/-- `HandleClientRequestJoin`. -/
def handleClientRequestJoin (session : SessionId) (co : Coordinator c) : Call (Coordinator c) := do
  check (co.numServers = c.kNumServers)
  pure { co with posted := co.posted ++ [(session, ResJoin.client co.indexManager)] }

/-- `HandleMessageFromServer`. -/
def handleMessageFromServer (addr : String) (session : SessionId) (msg : Message)
    (co : Coordinator c) : Call (Coordinator c) :=
  match msg.type with
  | .reqJoin => co.handleServerRequestJoin addr session msg.body
  | .reqLeave | .ackReject | .ackError | .ackOk => pure co
  | _ => .error .assertion

/-- `HandleMessageFromClient`. -/
def handleMessageFromClient (session : SessionId) (msg : Message) (co : Coordinator c) :
    Call (Coordinator c) :=
  match msg.type with
  | .reqJoin => co.handleClientRequestJoin session
  | .reqLeave | .ackReject | .ackError | .ackOk => pure co
  | _ => .error .assertion

/-- `HandleRecvMessage`. -/
def handleRecvMessage (addr : String) (session : SessionId) (msg : Message)
    (co : Coordinator c) : Call (Coordinator c) :=
  match msg.senderType with
  | .server => co.handleMessageFromServer addr session msg
  | .client => co.handleMessageFromClient session msg
  | .coordinator => .error .assertion

/-- The coordinator when it starts. -/
def Initial (co : Coordinator c) : Prop :=
  co.numServers = 0 ∧ co.totalStorage = 0 ∧ co.nextServerId = 0 ∧ co.sessions = [] ∧ co.posted = []

end Coordinator

/-! ### Runs -/

/-- The coordinator and its sessions: which were accepted, on which a receive is posted,
    which sends have completed (by their position in `posted`), and the messages received. -/
structure System (c : Config) where
  coordinator : Coordinator c
  accepted : List SessionId
  receiving : List SessionId
  completed : List Nat
  received : List (SessionId × Message)

/-- What the event loop handles. -/
inductive Event where
  /-- A connection is accepted. -/
  | accept (session : SessionId)
  /-- A message has arrived on a session. -/
  | recv (session : SessionId) (msg : Message)
  /-- Send `n` has completed. -/
  | sent (n : Nat)

/-- A join request of a server is well-formed. -/
def Message.WellFormed (c : Config) (msg : Message) : Prop :=
  msg.IsServerJoin → msg.body.WellFormed c

/-- A join request that is entered is well-formed; one too many is not looked into. -/
def Coordinator.Takes (co : Coordinator c) (msg : Message) : Prop :=
  co.numServers < c.kNumServers → msg.WellFormed c

theorem Message.WellFormed.takes {msg : Message} (h : msg.WellFormed c) (co : Coordinator c) :
    co.Takes msg := fun _ => h

/-- One event; `peer` is `GetPeerAddr` of the sessions. -/
def Step (peer : SessionId → String) (s : System c) (e : Event) (s' : System c) : Prop :=
  match e with
  | .accept session =>
    session ∉ s.accepted ∧
    s' = { s with
      accepted := session :: s.accepted
      receiving := session :: s.receiving }
  | .recv session msg =>
    session ∈ s.receiving ∧ s.coordinator.Takes msg ∧
    ∃ co, s.coordinator.handleRecvMessage (peer session) session msg = .ok co ∧
    s' = { s with
      coordinator := co
      receiving := s.receiving.erase session
      received := s.received ++ [(session, msg)] }
  | .sent n =>
    n ∉ s.completed ∧ ∃ session res, s.coordinator.posted[n]? = some (session, res) ∧
    -- `HandleSendMessage`
    s' = { s with
      completed := n :: s.completed
      receiving := session :: s.receiving }

/-- The start of a run, with an index of any contents `im`. -/
def System.Initial (im : IndexManager c) (s : System c) : Prop :=
  s.coordinator.Initial ∧ s.coordinator.indexManager = im ∧ s.accepted = [] ∧ s.receiving = [] ∧
    s.completed = [] ∧ s.received = []

/-- The join requests of servers, with the session and the body of each. -/
def serverJoins (received : List (SessionId × Message)) : List (SessionId × JoinBody) :=
  received.filterMap fun x =>
    if x.2.IsServerJoin then some (x.1, x.2.body) else none

end Nvds.Cluster
