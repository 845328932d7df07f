import Nvds.Cluster.Encoding
import Nvds.Cluster.Session
import Nvds.Cluster.Turns

/-! # The coordinator on its sockets (`basic_server.cc`, `session.cc`, `coordinator.cc`)

    Under the messages of the join protocol there are byte streams. Here the
    coordinator reads and writes them: an accepted session posts a receive,
    what it hands on is parsed and handled, the answers are written header
    first and body second, while the network moves as many bytes at a time as
    it likes. The peers may send any messages.

    The library for JSON texts is a parameter: what `dump` writes and what
    `parse` reads.
-/

open Json Transition

namespace Nvds.Cluster

/-! ### Messages as bytes -/

/-- The JSON texts: `dump` and `json::parse`, which throws on what is no JSON. -/
structure JsonText where
  dump : Value → List UInt8
  parse : List UInt8 → Option Value

/-- The value of a `SenderType`. -/
def SenderType.byte : SenderType → UInt8
  | .coordinator => 0
  | .server => 1
  | .client => 2

/-- The `SenderType` of a value, if there is one. -/
def SenderType.ofByte (b : UInt8) : Option SenderType :=
  match b.toNat with
  | 0 => some .coordinator
  | 1 => some .server
  | 2 => some .client
  | _ => none

/-- The value of a `Message::Type`. -/
def MessageType.byte : MessageType → UInt8
  | .reqJoin => 0
  | .reqLeave => 1
  | .resJoin => 2
  | .resClusterInfo => 3
  | .qpInfoExch => 4
  | .ackReject => 5
  | .ackError => 6
  | .ackOk => 7

/-- The `Message::Type` of a value, if there is one. -/
def MessageType.ofByte (b : UInt8) : Option MessageType :=
  match b.toNat with
  | 0 => some .reqJoin
  | 1 => some .reqLeave
  | 2 => some .resJoin
  | 3 => some .resClusterInfo
  | 4 => some .qpInfoExch
  | 5 => some .ackReject
  | 6 => some .ackError
  | 7 => some .ackOk
  | _ => none

/-- The body that `Server::Join` sends. -/
def JoinBody.toJson (body : JoinBody) : Value :=
  .object [("size", ofNat body.size), ("ib_addr", body.ibAddr.toJson),
    ("tablet_qpis", ofList QueuePairInfo.toJson body.tabletQpis)]

/-- What `HandleServerRequestJoin` and `AddServer` read of it. -/
def JoinBody.fromJson (j : Value) : Decoded JoinBody := do
  let size ← member j "size" >>= toUnsigned 64
  let ibAddr ← member j "ib_addr" >>= Address.fromJson
  let tabletQpis ← member j "tablet_qpis" >>= toList QueuePairInfo.fromJson
  pure ⟨size, ibAddr, tabletQpis⟩

/-- The body is not read. -/
def JoinBody.unread : JoinBody := ⟨0, ⟨0, 0, 0⟩, []⟩

/-- The body as far as it is read: `AddServer` is not called for a server too many, so what it
    would not find is `unread`, which no server could be entered with. -/
def JoinBody.ofJson (j : Value) : Decoded JoinBody := do
  let size ← member j "size" >>= toUnsigned 64
  match JoinBody.fromJson j with
  | .ok body => pure body
  | .error _ => pure { unread with size }

variable {c : Config}

/-- The body of a `RES_JOIN` (`ResponseAllJoins`, `HandleClientRequestJoin`). -/
def ResJoin.toJson : ResJoin c → Value
  | .server id im => .object [("id", ofNat id), ("index_manager", im.toJson)]
  | .client im => .object [("index_manager", im.toJson)]

/-- The message of a `RES_JOIN`. -/
def ResJoin.message (text : JsonText) (res : ResJoin c) : Session.Message :=
  .new SenderType.coordinator.byte MessageType.resJoin.byte (text.dump res.toJson)

/-- The message that `Server::Join` sends. -/
def JoinBody.message (text : JsonText) (body : JoinBody) : Session.Message :=
  .new SenderType.server.byte MessageType.reqJoin.byte (text.dump body.toJson)

/-- What `Join` reads of the body of a `RES_JOIN`. The unions of the tablets it is decoded into
    hold `storage`. -/
def ResJoin.fromJson (storage : Vector Nat c.kNumReplicas) (j : Value) :
    Decoded (Nat × IndexManager c) := do
  let id ← member j "id" >>= toUnsigned 32
  let im ← member j "index_manager" >>= IndexManager.fromJson storage
  pure (id, im)

/-- The rest of `Join` for the message that `RecvMessage` has returned. There is no server if an
    assertion fails or the body cannot be read. -/
def Server.finishJoin (text : JsonText) (storage : Vector Nat c.kNumReplicas)
    (m : Session.Message) (srv : Server c) : Option (Server c) := do
  guard (m.header.senderType = SenderType.coordinator.byte)
  guard (m.header.type = MessageType.resJoin.byte)
  let j ← text.parse m.body
  let (id, im) ← (ResJoin.fromJson storage j).toOption
  (srv.joinResponse id im).toOption

/-- What `HandleRecvMessage` finds in a message. There is no result if the handler does not
    return, for a type without a case or a body without a size; a sender type without a case is
    passed over. -/
def decodeMessage (text : JsonText) (m : Session.Message) : Option (Option Message) :=
  match SenderType.ofByte m.header.senderType with
  | none => some none
  | some senderType =>
    match MessageType.ofByte m.header.type with
    | none => none
    | some type =>
      if senderType = .server ∧ type = .reqJoin then
        match text.parse m.body with
        | none => none
        | some j =>
          match JoinBody.ofJson j with
          | .error _ => none
          | .ok body => some (some ⟨senderType, type, body⟩)
      else
        some (some ⟨senderType, type, .unread⟩)

/-! ### The state -/

/-- How far an `AsyncSendMessage` has got: what is left of the header, with the body behind
    it, or of the body. -/
inductive Writing where
  | header (left rest : List UInt8)
  | body (left : List UInt8)

namespace Writing

/-- The bytes that are not written yet. -/
def left : Writing → List UInt8
  | .header left rest => left ++ rest
  | .body left => left

/-- `async_write` writes at most `k` bytes of its buffer: these, and what is left then. -/
def write (k : Nat) : Writing → List UInt8 × Writing
  | .header left rest => (left.take k, .header (left.drop k) rest)
  | .body left => (left.take k, .body (left.drop k))

theorem write_left (k : Nat) (w : Writing) : (w.write k).1 ++ (w.write k).2.left = w.left := by
  cases w with
  | header left rest => simp [Writing.write, Writing.left, ← List.append_assoc]
  | body left => simp [Writing.write, Writing.left]

end Writing

namespace System

/-- The record of a connection that is accepted. -/
def accepts (s : System c) (x : SessionId) : System c :=
  { s with accepted := x :: s.accepted, receiving := x :: s.receiving }

/-- Of a message after which the coordinator is `co`. -/
def handles (s : System c) (x : SessionId) (msg : Message) (co : Coordinator c) : System c :=
  { s with
    coordinator := co
    receiving := s.receiving.erase x
    received := s.received ++ [(x, msg)] }

/-- Of a send that is completed, behind which a receive is posted. -/
def completes (s : System c) (x : SessionId) (n : Nat) : System c :=
  { s with completed := n :: s.completed, receiving := x :: s.receiving }

end System

/-- An `AsyncSendMessage` in progress; `n` is its position in `posted`. -/
structure Sending where
  n : Nat
  writing : Writing

/-- The coordinator with its sockets: of each session, the stream from the peer, the sends in
    progress and the stream to the peer. `system` has the coordinator itself, and a record of
    what happened on the sockets, in the terms of the protocol on messages. -/
structure Net (c : Config) where
  system : System c
  inbound : SessionId → Session.Link
  sends : SessionId → List Sending
  outbound : SessionId → Session.Pipe

/-- The calls of `AsyncSendMessage` on the session `x` among `posted`, the first of which is
    number `n`. -/
def startFrom (text : JsonText) (x : SessionId) :
    Nat → List (SessionId × ResJoin c) → List Sending
  | _, [] => []
  | n, (session, res) :: posted =>
    if session = x then
      let m := res.message text
      ⟨n, .header m.header.bytes m.body⟩ :: startFrom text x (n + 1) posted
    else
      startFrom text x (n + 1) posted

namespace Net

/-- The start of a run. -/
def Initial (im : IndexManager c) (s : Net c) : Prop :=
  s.system.Initial im ∧ (∀ x, (s.inbound x).Initial) ∧ (∀ x, s.sends x = []) ∧
    ∀ x, s.outbound x = Session.Pipe.new

/-- The stream from the peer of `x` has changed. -/
def setInbound (s : Net c) (x : SessionId) (link : Session.Link) : Net c :=
  { s with inbound := Function.update s.inbound x link }

/-- The stream to the peer of `x` has changed. -/
def setOutbound (s : Net c) (x : SessionId) (pipe : Session.Pipe) : Net c :=
  { s with outbound := Function.update s.outbound x pipe }

/-- The steps of the coordinator, the network and the peers. -/
inductive Step (text : JsonText) (peer : SessionId → String) (s : Net c) : SessionId → Net c → Prop
  /-- A new connection is accepted, and `Start` posts a receive. -/
  | accept {x : SessionId} {link : Session.Link} :
      x ∉ s.system.accepted → (s.inbound x).step .post = some link →
      Step text peer s x { s.setInbound x link with system := s.system.accepts x }
  /-- The peer calls `SendMessage` for the next message, or has written some bytes of it. -/
  | peerSend {x : SessionId} {senderType type : UInt8} {body : List UInt8} {link : Session.Link} :
      (s.inbound x).step (.send senderType type body) = some link →
      Step text peer s x (s.setInbound x link)
  | peerWrite {x : SessionId} {k : Nat} {link : Session.Link} :
      (s.inbound x).step (.write k) = some link → Step text peer s x (s.setInbound x link)
  /-- The coordinator reads from the socket. -/
  | read {x : SessionId} {k : Nat} {link : Session.Link} :
      (s.inbound x).step (.read k) = some link → Step text peer s x (s.setInbound x link)
  /-- It has a header. -/
  | header {x : SessionId} {link : Session.Link} :
      (s.inbound x).step .complete = some link →
      link.pipe.received = (s.inbound x).pipe.received → Step text peer s x (s.setInbound x link)
  /-- It has a message that it passes over. -/
  | pass {x : SessionId} {link : Session.Link} {m : Session.Message} :
      (s.inbound x).step .complete = some link →
      link.pipe.received = (s.inbound x).pipe.received ++ [m] → decodeMessage text m = some none →
      Step text peer s x (s.setInbound x link)
  /-- It has a message, and the handler returns. -/
  | handle {x : SessionId} {link : Session.Link} {m : Session.Message} {msg : Message}
      {co : Coordinator c} :
      (s.inbound x).step .complete = some link →
      link.pipe.received = (s.inbound x).pipe.received ++ [m] →
      decodeMessage text m = some (some msg) → s.system.coordinator.Takes msg →
      s.system.coordinator.handleRecvMessage (peer x) x msg = .ok co →
      Step text peer s x { s.setInbound x link with
        system := s.system.handles x msg co
        sends := fun y => s.sends y ++ startFrom text y s.system.coordinator.posted.length
          (co.posted.drop s.system.coordinator.posted.length) }
  /-- Some bytes of a send in progress are written. -/
  | write {x : SessionId} {before after : List Sending} {n k : Nat} {w : Writing} :
      s.sends x = before ++ ⟨n, w⟩ :: after →
      Step text peer s x
        { s.setOutbound x { s.outbound x with wire := (s.outbound x).wire ++ (w.write k).1 } with
          sends := Function.update s.sends x (before ++ ⟨n, (w.write k).2⟩ :: after) }
  /-- The header of a send is written, and the body is next. -/
  | headerWritten {x : SessionId} {before after : List Sending} {n : Nat} {body : List UInt8} :
      s.sends x = before ++ ⟨n, .header [] body⟩ :: after →
      Step text peer s x
        { s with sends := Function.update s.sends x (before ++ ⟨n, .body body⟩ :: after) }
  /-- A send is completed, and `HandleSendMessage` posts a receive. -/
  | written {x : SessionId} {before after : List Sending} {n : Nat} {link : Session.Link} :
      s.sends x = before ++ ⟨n, .body []⟩ :: after → (s.inbound x).step .post = some link →
      Step text peer s x { s.setInbound x link with
        system := s.system.completes x n
        sends := Function.update s.sends x (before ++ after) }
  /-- The peer calls `RecvMessage`, reads from its socket, or has a header or a message. -/
  | peerRecv {x : SessionId} {pipe : Session.Pipe} :
      (s.outbound x).post = some pipe → Step text peer s x (s.setOutbound x pipe)
  | peerRead {x : SessionId} {k : Nat} {pipe : Session.Pipe} :
      (s.outbound x).read k = some pipe → Step text peer s x (s.setOutbound x pipe)
  | peerComplete {x : SessionId} {pipe : Session.Pipe} :
      (s.outbound x).complete = some pipe → Step text peer s x (s.setOutbound x pipe)

end Net

end Nvds.Cluster
