import Nvds.Cluster.Index
import Nvds.Framework.Framing
import Nvds.Framework.Transition

/-! # Sessions (`message.h`, `session.h`, `session.cc`)

    A session sends and receives messages over a TCP connection: a packed
    header and a body, whose length the header tells. `RecvMessage` blocks
    until it has both; `AsyncRecvMessage` reads what has arrived, however it
    is cut up, and calls a handler for the header and one for the body.

    TCP delivers the bytes that were written in their order; how many a
    single read gets is left open.
-/

open ByteMemory Transition

namespace Nvds.Cluster.Session

/-! ### Messages -/

/-- `Message::Header`. -/
structure Header where
  senderType : UInt8
  type : UInt8
  bodyLen : Nat
  bodyLen_lt : bodyLen < 4294967296

/-- `Message::kHeaderSize`, the size of the packed fields. -/
def kHeaderSize : Nat := 6

/-- The bytes of a header. -/
def Header.bytes (h : Header) : List UInt8 := [h.senderType, h.type] ++ leBytes 4 h.bodyLen

/-- The header that stands in the first bytes of `bs`. -/
def Header.ofBytes (bs : List UInt8) : Header where
  senderType := bs.getD 0 0
  type := bs.getD 1 0
  bodyLen := leValue ((bs.drop 2).take 4)
  bodyLen_lt := by
    refine (leValue_lt _).trans_le ?_
    exact Nat.pow_le_pow_right (by decide) (List.length_take_le 4 _)

/-- `class Message`. -/
structure Message where
  header : Header
  body : List UInt8

/-- The constructor of a message, which sets `body_len`. -/
def Message.new (senderType type : UInt8) (body : List UInt8) : Message :=
  ⟨⟨senderType, type, u32 body.length, u32_lt _⟩, body⟩

/-- The bytes that `SendMessage` writes, and `AsyncSendMessage`. -/
def Message.bytes (m : Message) : List UInt8 := m.header.bytes ++ m.body

theorem Header.ofBytes_bytes (h : Header) : Header.ofBytes h.bytes = h := by
  obtain ⟨senderType, type, bodyLen, hlt⟩ := h
  have hlen : leValue (((Header.bytes ⟨senderType, type, bodyLen, hlt⟩).drop 2).take 4) = bodyLen := by
    show leValue ((leBytes 4 bodyLen).take 4) = bodyLen
    rw [List.take_of_length_le (length_leBytes 4 bodyLen).le, leValue_leBytes]
    exact Nat.mod_eq_of_lt hlt
  simp only [Header.ofBytes, Header.mk.injEq]
  exact ⟨rfl, rfl, hlen⟩

/-- The frames of a session. -/
def format : Framing.Format Header where
  size := kHeaderSize
  encode := Header.bytes
  decode := Header.ofBytes
  bodyLen := Header.bodyLen
  length_encode h := by simp [Header.bytes, kHeaderSize]
  decode_encode := Header.ofBytes_bytes
  size_pos := by decide

/-- A message as a frame. -/
def Message.frame (m : Message) : Header × List UInt8 := (m.header, m.body)

/-- The bytes of messages one after another. -/
def bytesOf (ms : List Message) : List UInt8 := format.stream (ms.map Message.frame)

/-- The header has room for the length of the body. -/
def Message.Fits (m : Message) : Prop := m.header.bodyLen = m.body.length

instance (m : Message) : Decidable m.Fits := inferInstanceAs (Decidable (_ = _))

theorem fits_new {body : List UInt8} (h : body.length < 4294967296) (senderType type : UInt8) :
    (Message.new senderType type body).Fits :=
  u32_of_lt h

theorem fits_frames {ms : List Message} (h : ∀ m ∈ ms, m.Fits) :
    ∀ f ∈ ms.map Message.frame, format.Fits f := by
  intro f hf
  obtain ⟨m, hm, rfl⟩ := List.mem_map.mp hf
  exact h m hm

theorem bytesOf_append (ms ms' : List Message) : bytesOf (ms ++ ms') = bytesOf ms ++ bytesOf ms' := by
  rw [bytesOf, List.map_append, Framing.Format.stream_append]
  rfl

theorem bytesOf_singleton (m : Message) : bytesOf [m] = m.bytes :=
  Framing.Format.stream_singleton m.frame

/-! ### Blocking calls -/

/-- `boost::asio::read`: wait for `n` bytes. There is no result if the connection ends before. -/
def readBytes (n : Nat) (stream : List UInt8) : Option (List UInt8 × List UInt8) :=
  if n ≤ stream.length then some (stream.take n, stream.drop n) else none

/-- `RecvMessage`: the message and the bytes behind it. -/
def recvMessage (stream : List UInt8) : Option (Message × List UInt8) := do
  let (got, stream) ← readBytes kHeaderSize stream
  let header := Header.ofBytes got
  let (body, stream) ← readBytes header.bodyLen stream
  pure (⟨header, body⟩, stream)

theorem readBytes_append (bs rest : List UInt8) :
    readBytes bs.length (bs ++ rest) = some (bs, rest) := by
  unfold readBytes
  rw [if_pos (by rw [List.length_append]; exact Nat.le_add_right _ _), List.take_left,
    List.drop_left]

/-- `RecvMessage` returns the message that `SendMessage` has written. -/
theorem recvMessage_bytes {m : Message} (h : m.Fits) (rest : List UInt8) :
    recvMessage (m.bytes ++ rest) = some (m, rest) := by
  have hheader : readBytes kHeaderSize (m.header.bytes ++ (m.body ++ rest)) =
      some (m.header.bytes, m.body ++ rest) := by
    have hread := readBytes_append m.header.bytes (m.body ++ rest)
    rwa [show m.header.bytes.length = kHeaderSize from format.length_encode m.header] at hread
  have hbody : readBytes m.header.bodyLen (m.body ++ rest) = some (m.body, rest) := by
    rw [show m.header.bodyLen = m.body.length from h]
    exact readBytes_append m.body rest
  unfold recvMessage Message.bytes
  rw [List.append_assoc, hheader]
  simp only [Option.bind_eq_bind, Option.bind_some, Header.ofBytes_bytes, hbody]
  rfl

/-! ### `AsyncRecvMessage` -/

/-- Where the receiving of a message stands: no receive is posted, the header is being read,
    or the body, for which the string has been made `len` bytes long. -/
inductive Receiving where
  | idle
  | header (got : List UInt8)
  | body (header : Header) (len : Nat) (got : List UInt8)

/-- The bytes that were read and belong to a message not handed on yet. -/
def Receiving.held : Receiving → List UInt8
  | .idle => []
  | .header got => got
  | .body h _ got => h.bytes ++ got

/-- The receiving end of a connection: the bytes on the way, where the session stands, and
    the messages that were handed to `recv_msg_handler_`. -/
structure Pipe where
  wire : List UInt8
  receiving : Receiving
  received : List Message
  fault : Option Fault

/-- `header_handler`. The number of transferred bytes is that of the bytes read. -/
def headerHandler (got : List UInt8) : Call Receiving := do
  check (got.length ≥ kHeaderSize)
  let header := Header.ofBytes got
  let len := kHeaderSize + header.bodyLen - got.length
  pure (.body header len [])

namespace Pipe

/-- The pipe of a new connection. -/
def new : Pipe := ⟨[], .idle, [], none⟩

/-- `AsyncRecvMessage`, on a session that is not receiving. -/
def post (p : Pipe) : Option Pipe :=
  match p.receiving with
  | .idle => some { p with receiving := .header [] }
  | _ => none

/-- The next `k` bytes are read, where at most as many as `async_read` still wants. -/
def read (k : Nat) (p : Pipe) : Option Pipe :=
  if 0 < k ∧ k ≤ p.wire.length then
    match p.receiving with
    | .idle => none
    | .header got =>
      if got.length + k ≤ kHeaderSize then
        some { p with wire := p.wire.drop k, receiving := .header (got ++ p.wire.take k) }
      else none
    | .body h len got =>
      if got.length + k ≤ h.bodyLen then
        if got.length + k ≤ len then
          some { p with wire := p.wire.drop k, receiving := .body h len (got ++ p.wire.take k) }
        else
          some { p with fault := some .outOfBounds }
      else none
  else none

/-- `async_read` has all it wants, and its handler is called. -/
def complete (p : Pipe) : Option Pipe :=
  match p.receiving with
  | .idle => none
  | .header got =>
    if got.length = kHeaderSize then
      match headerHandler got with
      | .ok receiving => some { p with receiving }
      | .error e => some { p with fault := some e }
    else none
  | .body h len got =>
    if got.length = h.bodyLen then
      -- what was not read of the string is filled with zeros
      let msg : Message := ⟨h, got ++ List.replicate (len - got.length) 0⟩
      some { p with receiving := .idle, received := p.received ++ [msg] }
    else none

/-- Nothing can be read and no handler is to be called. -/
def Quiet (p : Pipe) : Prop := (∀ k, p.read k = none) ∧ p.complete = none

end Pipe

/-! ### What is left to hand on -/

/-- No more was read than was wanted, and the string of the body is as long as the body. -/
def Receiving.Within : Receiving → Prop
  | .idle => True
  | .header got => got.length ≤ kHeaderSize
  | .body h len got => got.length ≤ h.bodyLen ∧ len = h.bodyLen

/-- The messages `todo` are yet to be handed on; of their bytes, `rest` is not on the wire yet. -/
structure Pipe.Holds (p : Pipe) (todo : List Message) (rest : List UInt8) : Prop where
  fault : p.fault = none
  within : p.receiving.Within
  bytes : p.receiving.held ++ (p.wire ++ rest) = bytesOf todo

namespace Pipe.Holds

variable {p p' : Pipe} {todo : List Message} {rest : List UInt8}

theorem new : Pipe.new.Holds [] [] := ⟨rfl, trivial, rfl⟩

/-- Bytes are written. -/
theorem push {bs : List UInt8} (h : p.Holds todo (bs ++ rest)) :
    Pipe.Holds { p with wire := p.wire ++ bs } todo rest := by
  refine ⟨h.fault, h.within, ?_⟩
  rw [← h.bytes, List.append_assoc]

/-- More messages are to be written. -/
theorem append (h : p.Holds todo rest) (ms : List Message) :
    p.Holds (todo ++ ms) (rest ++ bytesOf ms) := by
  refine ⟨h.fault, h.within, ?_⟩
  rw [bytesOf_append, ← h.bytes]
  simp only [List.append_assoc]

theorem post (h : p.Holds todo rest) (hpost : p.post = some p') :
    p'.Holds todo rest ∧ p'.received = p.received := by
  unfold Pipe.post at hpost
  split at hpost
  · next hidle =>
    cases hpost
    have hbytes := h.bytes
    rw [hidle] at hbytes
    exact ⟨⟨h.fault, Nat.zero_le _, hbytes⟩, rfl⟩
  · cases hpost

/-- A read takes bytes from the wire and stays inside the string. -/
theorem read {k : Nat} (h : p.Holds todo rest) (hread : p.read k = some p') :
    p'.Holds todo rest ∧ p'.received = p.received := by
  have hsplit : p.wire.take k ++ (p.wire.drop k ++ rest) = p.wire ++ rest := by
    rw [← List.append_assoc, List.take_append_drop]
  have hwithin := h.within
  have hbytes := h.bytes
  unfold Pipe.read at hread
  split at hread
  · next hk =>
    -- the bytes move from the wire to the buffer: the two together are as before
    have htake : (p.wire.take k).length = k := List.length_take_of_le hk.2
    split at hread
    · cases hread
    · next got hrecv =>
      split at hread
      · next hle =>
        cases hread
        rw [hrecv] at hbytes
        refine ⟨⟨h.fault, ?_, ?_⟩, rfl⟩
        · show (got ++ p.wire.take k).length ≤ kHeaderSize
          rw [List.length_append, htake]
          exact hle
        · show (got ++ p.wire.take k) ++ (p.wire.drop k ++ rest) = _
          rw [List.append_assoc, hsplit]
          exact hbytes
      · cases hread
    · next header len got hrecv =>
      rw [hrecv] at hbytes hwithin
      obtain ⟨_, hlen⟩ := hwithin
      split at hread
      · next hle =>
        rw [if_pos (hlen ▸ hle)] at hread
        cases hread
        refine ⟨⟨h.fault, ⟨?_, hlen⟩, ?_⟩, rfl⟩
        · rw [List.length_append, htake]
          exact hle
        · show (header.bytes ++ (got ++ p.wire.take k)) ++ (p.wire.drop k ++ rest) = _
          rw [List.append_assoc, List.append_assoc, hsplit, ← List.append_assoc]
          exact hbytes
      · cases hread
  · cases hread

/-- A handler goes on to the body, or hands on the first message that is left. -/
theorem complete (h : p.Holds todo rest) (hfits : ∀ m ∈ todo, m.Fits)
    (hdone : p.complete = some p') :
    (p'.Holds todo rest ∧ p'.received = p.received) ∨
      ∃ m ms, todo = m :: ms ∧ p'.Holds ms rest ∧ p'.received = p.received ++ [m] := by
  have hframes := fits_frames hfits
  have hwithin := h.within
  have hbytes := h.bytes
  unfold Pipe.complete at hdone
  split at hdone
  · cases hdone
  · next got hrecv =>
    split at hdone
    · next hlen =>
      rw [hrecv] at hbytes
      -- the header of the next message
      obtain ⟨body, gs, hgs, henc, hrest⟩ := Framing.Format.stream_header hbytes hlen
      have hrun : headerHandler got =
          .ok (.body (Header.ofBytes got) (Header.ofBytes got).bodyLen []) := by
        unfold headerHandler check
        rw [if_pos hlen.ge, hlen]
        show Except.ok (Receiving.body _ (kHeaderSize + _ - kHeaderSize) []) = _
        rw [Nat.add_sub_cancel_left]
      rw [hrun] at hdone
      cases hdone
      left
      refine ⟨⟨h.fault, ⟨Nat.zero_le _, rfl⟩, ?_⟩, rfl⟩
      show ((Header.ofBytes got).bytes ++ []) ++ (p.wire ++ rest) = _
      rw [List.append_nil, show (Header.ofBytes got).bytes = got from henc]
      exact hbytes
    · cases hdone
  -- the body is complete: the message is the next one that was sent
  · next header len got hrecv =>
    split at hdone
    · next hlen =>
      rw [hrecv] at hbytes hwithin
      obtain ⟨_, hroom⟩ := hwithin
      have hframe : format.encode header ++ (got ++ (p.wire ++ rest)) =
          format.stream (todo.map Message.frame) := by
        rw [← List.append_assoc]
        exact hbytes
      obtain ⟨gs, hgs, hrest⟩ := Framing.Format.stream_frame hframes hframe hlen
      obtain ⟨m, ms, rfl, hm, rfl⟩ := List.map_eq_cons_iff.mp hgs
      cases hdone
      right
      refine ⟨m, ms, rfl, ⟨h.fault, trivial, hrest⟩, ?_⟩
      have heq : m = ⟨header, got⟩ := by
        obtain ⟨rfl, rfl⟩ := Prod.mk.inj hm
        rfl
      show p.received ++ [⟨header, got ++ List.replicate (len - got.length) 0⟩] = _
      rw [hroom, hlen, Nat.sub_self, List.replicate_zero, List.append_nil, heq]
    · cases hdone

/-- A session that is idle has no message in part. -/
theorem complete_idle (hdone : p.complete = some p') {m : Message}
    (hreceived : p'.received = p.received ++ [m]) : p'.receiving = .idle := by
  unfold Pipe.complete at hdone
  split at hdone
  · cases hdone
  · -- a header does not hand on a message
    have hsame : p'.received = p.received := by
      split at hdone
      · split at hdone <;> cases hdone <;> rfl
      · cases hdone
    rw [hsame] at hreceived
    cases List.self_eq_append_right.mp hreceived
  · split at hdone
    · cases hdone
      rfl
    · cases hdone

/-- A receiver that can do nothing has handed on all that was written and waits for a header. -/
theorem quiet (h : p.Holds todo []) (hfits : ∀ m ∈ todo, m.Fits) (hquiet : p.Quiet)
    (hrecv : p.receiving ≠ .idle) : todo = [] ∧ p.receiving = .header [] := by
  have hframes := fits_frames hfits
  obtain ⟨hread, hdone⟩ := hquiet
  have hwithin := h.within
  have hbytes := h.bytes
  rw [List.append_nil] at hbytes
  -- a byte on the wire could be read
  have hone : p.wire ≠ [] → 0 < 1 ∧ 1 ≤ p.wire.length := fun hne =>
    ⟨Nat.one_pos, List.length_pos_iff.mpr hne⟩
  unfold Pipe.complete at hdone
  cases hplace : p.receiving with
  | idle => exact absurd hplace hrecv
  | header got =>
    rw [hplace] at hbytes hwithin hdone
    dsimp only at hdone
    have hlt : got.length < kHeaderSize := by
      refine lt_of_le_of_ne hwithin fun heq => ?_
      rw [if_pos heq] at hdone
      split at hdone <;> cases hdone
    -- a header that is not yet there would leave a byte on the wire
    have htodo : todo = [] := by
      by_contra hne
      have hwire := Framing.Format.rest_ne_nil_of_header hbytes
        (fun hnil => hne (List.map_eq_nil_iff.mp hnil)) hlt
      have hnone := hread 1
      unfold Pipe.read at hnone
      rw [if_pos (hone hwire), hplace] at hnone
      dsimp only at hnone
      rw [if_pos (Nat.succ_le_of_lt hlt)] at hnone
      cases hnone
    refine ⟨htodo, ?_⟩
    rw [htodo] at hbytes
    have hnil : got = [] := (List.append_eq_nil_iff.mp hbytes).1
    rw [hnil]
  | body header len got =>
    rw [hplace] at hbytes hwithin hdone
    dsimp only at hdone
    have hlt : got.length < header.bodyLen := by
      refine lt_of_le_of_ne hwithin.1 fun heq => ?_
      rw [if_pos heq] at hdone
      cases hdone
    have hframe : format.encode header ++ (got ++ p.wire) = format.stream (todo.map Message.frame) := by
      rw [← List.append_assoc]
      exact hbytes
    -- the rest of the body is on the wire, so it could be read
    have hwire := Framing.Format.rest_ne_nil hframes hframe hlt
    have hnone := hread 1
    unfold Pipe.read at hnone
    rw [if_pos (hone hwire), hplace] at hnone
    dsimp only at hnone
    rw [if_pos (Nat.succ_le_of_lt hlt)] at hnone
    split at hnone <;> cases hnone

end Pipe.Holds

/-! ### Runs of a connection -/

/-- One direction of a connection: the messages `SendMessage` was called with, what the last
    call has yet to write, and the receiving end. -/
structure Link where
  sent : List Message
  writing : List UInt8
  pipe : Pipe

/-- What happens on a connection. -/
inductive LinkEvent where
  /-- `SendMessage` is called. -/
  | send (senderType type : UInt8) (body : List UInt8)
  /-- It has written the next `k` bytes. -/
  | write (k : Nat)
  /-- `AsyncRecvMessage` is called. -/
  | post
  | read (k : Nat)
  | complete

namespace Link

/-- The connection is accepted. -/
def Initial (l : Link) : Prop := l = ⟨[], [], Pipe.new⟩

/-- One step. A fault ends the process. -/
def step (l : Link) (e : LinkEvent) : Option Link :=
  if l.pipe.fault ≠ none then
    none
  else
    match e with
    | .send senderType type body =>
      if l.writing = [] then
        let m := Message.new senderType type body
        some { l with sent := l.sent ++ [m], writing := m.bytes }
      else none
    | .write k =>
      if k ≤ l.writing.length then
        some { l with
          writing := l.writing.drop k
          pipe := { l.pipe with wire := l.pipe.wire ++ l.writing.take k } }
      else none
    | .post => l.pipe.post.map fun pipe => { l with pipe }
    | .read k => (l.pipe.read k).map fun pipe => { l with pipe }
    | .complete => l.pipe.complete.map fun pipe => { l with pipe }

theorem step_complete {l l' : Link} (hstep : l.step .complete = some l') :
    ∃ pipe, l.pipe.complete = some pipe ∧ { l with pipe } = l' := by
  unfold Link.step at hstep
  split at hstep
  · cases hstep
  · exact Option.map_eq_some_iff.mp hstep

theorem step_of_read {l : Link} {k : Nat} {pipe : Pipe} (hfault : l.pipe.fault = none)
    (h : l.pipe.read k = some pipe) : l.step (.read k) = some { l with pipe } := by
  simp [Link.step, hfault, h]

theorem step_of_complete {l : Link} {pipe : Pipe} (hfault : l.pipe.fault = none)
    (h : l.pipe.complete = some pipe) : l.step .complete = some { l with pipe } := by
  simp [Link.step, hfault, h]

/-- Only a session that is receiving completes something. -/
theorem busy_of_complete {l l' : Link} (hstep : l.step .complete = some l') :
    l.pipe.receiving ≠ .idle := by
  intro hidle
  obtain ⟨pipe, hdone, _⟩ := step_complete hstep
  rw [Pipe.complete, hidle] at hdone
  cases hdone

/-- A step that does not post a receive does not find the session idle and leave it busy. -/
theorem receiving_of_step {l l' : Link} {e : LinkEvent} (hstep : l.step e = some l')
    (he : e ≠ .post) (hbusy : l'.pipe.receiving ≠ .idle) : l.pipe.receiving ≠ .idle := by
  intro hidle
  unfold Link.step at hstep
  split at hstep
  · cases hstep
  -- only a posted receive makes an idle receiver busy
  · cases e with
    | post => exact he rfl
    | send senderType type body =>
      dsimp only at hstep
      split at hstep
      · cases hstep
        exact hbusy hidle
      · cases hstep
    | write k =>
      dsimp only at hstep
      split at hstep
      · cases hstep
        exact hbusy hidle
      · cases hstep
    | read k =>
      obtain ⟨pipe, hread, _⟩ := Option.map_eq_some_iff.mp hstep
      rw [Pipe.read, hidle] at hread
      split at hread <;> cases hread
    | complete =>
      obtain ⟨pipe, hdone, _⟩ := Option.map_eq_some_iff.mp hstep
      rw [Pipe.complete, hidle] at hdone
      cases hdone

/-- Only the handlers hand on a message. -/
theorem received_of_step {l l' : Link} {e : LinkEvent} (hstep : l.step e = some l')
    (he : e ≠ .complete) : l'.pipe.received = l.pipe.received := by
  unfold Link.step at hstep
  split at hstep
  · cases hstep
  -- a message is handed over by `complete` alone
  · cases e with
    | complete => exact absurd rfl he
    | send senderType type body =>
      dsimp only at hstep
      split at hstep <;> cases hstep
      rfl
    | write k =>
      dsimp only at hstep
      split at hstep <;> cases hstep
      rfl
    | post =>
      obtain ⟨pipe, hpost, rfl⟩ := Option.map_eq_some_iff.mp hstep
      unfold Pipe.post at hpost
      split at hpost <;> cases hpost
      rfl
    | read k =>
      obtain ⟨pipe, hread, rfl⟩ := Option.map_eq_some_iff.mp hstep
      unfold Pipe.read at hread
      split at hread
      · split at hread
        · cases hread
        · split at hread <;> cases hread
          rfl
        · split at hread
          · split at hread <;> cases hread <;> rfl
          · cases hread
      · cases hread

/-- The state after the events `es`, if all of them are possible. -/
def run (l : Link) : List LinkEvent → Option Link
  | [] => some l
  | e :: es => (l.step e).bind fun l' => run l' es

/-- The states of all runs of a connection. -/
abbrev Reachable : Link → Prop :=
  Transition.Reachable Initial fun l e l' => l.step e = some l'

/-- What was handed on and what is left make up what was sent. -/
structure Inv (l : Link) : Prop where
  lengths : ∀ m ∈ l.sent, m.header.bodyLen = u32 m.body.length
  left : (∀ m ∈ l.sent, m.Fits) →
    ∃ todo, l.sent = l.pipe.received ++ todo ∧ l.pipe.Holds todo l.writing

theorem Inv.step {l l' : Link} {e : LinkEvent} (h : l.Inv) (hstep : l.step e = some l') :
    l'.Inv := by
  unfold Link.step at hstep
  split at hstep
  · cases hstep
  · cases e with
    | send senderType type body =>
      dsimp only at hstep
      split at hstep
      · next hidle =>
        cases hstep
        constructor
        · intro m hm
          rcases List.mem_append.mp hm with hm | hm
          · exact h.lengths m hm
          · rw [List.mem_singleton.mp hm]
            rfl
        · intro hfits
          obtain ⟨todo, hsent, hholds⟩ := h.left fun m hm => hfits m (List.mem_append_left _ hm)
          -- a send adds its message to what is still to come
          have hnext := hholds.append [Message.new senderType type body]
          rw [hidle, bytesOf_singleton] at hnext
          refine ⟨todo ++ [Message.new senderType type body], ?_, hnext⟩
          show l.sent ++ [_] = _
          rw [hsent, List.append_assoc]
      · cases hstep
    | write k =>
      dsimp only at hstep
      split at hstep
      · cases hstep
        refine ⟨h.lengths, fun hfits => ?_⟩
        obtain ⟨todo, hsent, hholds⟩ := h.left hfits
        refine ⟨todo, hsent, Pipe.Holds.push ?_⟩
        rw [List.take_append_drop]
        exact hholds
      · cases hstep
    | post =>
      obtain ⟨pipe, hpost, rfl⟩ := Option.map_eq_some_iff.mp hstep
      refine ⟨h.lengths, fun hfits => ?_⟩
      obtain ⟨todo, hsent, hholds⟩ := h.left hfits
      obtain ⟨hholds', hreceived⟩ := hholds.post hpost
      exact ⟨todo, hsent.trans (by rw [hreceived]), hholds'⟩
    | read k =>
      obtain ⟨pipe, hread, rfl⟩ := Option.map_eq_some_iff.mp hstep
      refine ⟨h.lengths, fun hfits => ?_⟩
      obtain ⟨todo, hsent, hholds⟩ := h.left hfits
      obtain ⟨hholds', hreceived⟩ := hholds.read hread
      exact ⟨todo, hsent.trans (by rw [hreceived]), hholds'⟩
    | complete =>
      obtain ⟨pipe, hdone, rfl⟩ := Option.map_eq_some_iff.mp hstep
      refine ⟨h.lengths, fun hfits => ?_⟩
      obtain ⟨todo, hsent, hholds⟩ := h.left hfits
      have htodo : ∀ m ∈ todo, m.Fits := fun m hm =>
        hfits m (hsent ▸ List.mem_append_right _ hm)
      -- what was to come becomes received when its body is complete
      rcases hholds.complete htodo hdone with ⟨hholds', hreceived⟩ | ⟨m, ms, rfl, hholds', hreceived⟩
      · exact ⟨todo, hsent.trans (by rw [hreceived]), hholds'⟩
      · refine ⟨ms, hsent.trans ?_, hholds'⟩
        rw [hreceived, List.append_assoc]
        rfl

theorem reachable_run {l l' : Link} {es : List LinkEvent} (h : Reachable l)
    (hrun : l.run es = some l') : Reachable l' := by
  induction es generalizing l with
  | nil =>
    cases hrun
    exact h
  | cons e es ih =>
    obtain ⟨l₁, hstep, hrest⟩ := Option.bind_eq_some_iff.mp hrun
    exact ih (h.step e hstep) hrest

theorem inv_of_reachable {l : Link} (h : Reachable l) : l.Inv := by
  refine h.invariant Inv ?_ fun _ _ _ hinv => hinv.step
  rintro l rfl
  exact ⟨fun m hm => absurd hm List.not_mem_nil, fun _ => ⟨[], rfl, .new⟩⟩

/-- What the receiving end has got. -/
structure Delivered (l : Link) : Prop where
  /-- No assertion fails and the string of a body is not left. -/
  fault : l.pipe.fault = none
  /-- The messages that were handed on are the first that were sent. -/
  inOrder : l.pipe.received <+: l.sent
  /-- Between messages, the bytes of the others are still there. -/
  between : l.pipe.receiving = .idle →
    l.pipe.wire ++ l.writing = bytesOf (l.sent.drop l.pipe.received.length)
  /-- If nothing more can happen, all messages were handed on. -/
  complete : l.writing = [] → l.pipe.Quiet → l.pipe.receiving ≠ .idle →
    l.pipe.received = l.sent ∧ l.pipe.receiving = .header []

end Link

/-- **Messages arrive as they were sent.** However the bytes of a connection are cut up, the
    handler gets the messages that were sent, whole and in their order, as long as the
    length of each body is a value of `body_len`. -/
theorem delivered_of_reachable {l : Link} (h : Link.Reachable l)
    (hlen : ∀ m ∈ l.sent, m.body.length < 4294967296) : l.Delivered := by
  have hinv := Link.inv_of_reachable h
  have hfits : ∀ m ∈ l.sent, m.Fits := fun m hm =>
    (hinv.lengths m hm).trans (u32_of_lt (hlen m hm))
  obtain ⟨todo, hsent, hholds⟩ := hinv.left hfits
  have hdrop : l.sent.drop l.pipe.received.length = todo := by
    rw [hsent, List.drop_left]
  constructor
  · exact hholds.fault
  · exact ⟨todo, hsent.symm⟩
  · intro hidle
    have hbytes := hholds.bytes
    rw [hidle] at hbytes
    rw [hdrop]
    exact hbytes
  · intro hwriting hquiet hrecv
    rw [hwriting] at hholds
    have htodo : ∀ m ∈ todo, m.Fits := fun m hm => hfits m (hsent ▸ List.mem_append_right _ hm)
    obtain ⟨rfl, hplace⟩ := hholds.quiet htodo hquiet hrecv
    rw [List.append_nil] at hsent
    exact ⟨hsent.symm, hplace⟩

/-- A message of three bytes, written and read in pieces. -/
def pieces : List LinkEvent :=
  [.post, .send 1 0 [7, 8, 9], .write 4, .read 1, .read 3, .write 5, .read 2, .complete, .read 1,
    .read 2, .complete]

theorem delivered_of_reachable_pieces : ∃ l : Link, l.pipe.received.length = 1 ∧ l.Delivered := by
  have hall : (Link.run ⟨[], [], Pipe.new⟩ pieces).map (fun l =>
      (l.pipe.received.length, decide (∀ m ∈ l.sent, m.body.length < 4294967296))) =
      some (1, true) := by
    decide
  cases hrun : Link.run ⟨[], [], Pipe.new⟩ pieces with
  | none =>
    rw [hrun] at hall
    cases hall
  | some l =>
    rw [hrun] at hall
    obtain ⟨hone, hlen⟩ := Prod.mk.inj (Option.some.inj hall)
    have hreach : Link.Reachable l := Link.reachable_run (.init rfl) hrun
    exact ⟨l, hone, delivered_of_reachable hreach (of_decide_eq_true hlen)⟩

end Nvds.Cluster.Session
