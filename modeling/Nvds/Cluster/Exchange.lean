import Nvds.Cluster.Sockets

/-! # Messages from end to end

    What one side puts into the body of a message the other side reads out of
    it: the join request of a server at the coordinator, and the answer at
    the server. Each is shown for any JSON text of the value, since the order
    of members is not kept. Then the steps by which one message gets through
    a connection, in either direction.
-/

open Arrays Json Transition

namespace Nvds.Cluster

variable {c : Config} {text : JsonText} {m : Session.Message} {msg : Message}

/-! ### Join requests as JSON -/

/-- The fields are values of their types; the size is of type `uint64_t`. -/
def JoinBody.Typed (body : JoinBody) : Prop :=
  body.size < 2 ^ 64 ∧ body.ibAddr.Typed ∧ ∀ qpi ∈ body.tabletQpis, qpi.Typed

instance (body : JoinBody) : Decidable body.Typed := inferInstanceAs (Decidable (_ ∧ _ ∧ _))

theorem JoinBody.decode_encode {body : JoinBody} (h : body.Typed) :
    JoinBody.fromJson body.toJson = .ok body := by
  obtain ⟨hsize, haddr, hqpis⟩ := h
  have hlist := toList_ofList fun qpi hqpi => QueuePairInfo.decode_encode (hqpis qpi hqpi)
  simp only [JoinBody.fromJson, JoinBody.toJson, member, find, String.reduceEq, if_true, if_false]
  simp only [bind, Except.bind, toUnsigned_ofNat hsize, Address.decode_encode haddr, hlist]
  rfl

/-- What can be read as a whole is read. -/
theorem JoinBody.ofJson_of_fromJson {j : Value} {body : JoinBody}
    (h : JoinBody.fromJson j = .ok body) : JoinBody.ofJson j = .ok body := by
  have hrun := h
  unfold JoinBody.fromJson at hrun
  unfold JoinBody.ofJson
  cases hsize : member j "size" >>= toUnsigned 64 with
  | error e =>
    rw [hsize] at hrun
    cases hrun
  | ok size =>
    rw [h]
    rfl

/-! The decoders look members up by their keys. -/

theorem respects_address : Respects Address.fromJson :=
  .bind (.member (respects_toSigned 32) "ib_port") fun _ =>
  .bind (.member (respects_toUnsigned 16) "lid") fun _ =>
  .bind (.member (respects_toUnsigned 32) "qpn") fun _ => respects_pure _

theorem respects_queuePairInfo : Respects QueuePairInfo.fromJson :=
  .bind (.member (respects_toUnsigned 16) "lid") fun _ =>
  .bind (.member (respects_toUnsigned 32) "qpn") fun _ =>
  .bind (.member (respects_toUnsigned 32) "psn") fun _ =>
  .bind (.member (respects_toUnsigned 32) "rkey") fun _ =>
  .bind (.member (respects_toUnsigned 64) "vaddr") fun _ => respects_pure _

theorem respects_joinBody : Respects JoinBody.fromJson :=
  .bind (.member (respects_toUnsigned 64) "size") fun _ =>
  .bind (.member respects_address "ib_addr") fun _ =>
  .bind (.member (.toList respects_queuePairInfo) "tablet_qpis") fun _ => respects_pure _

/-- The header is that of the join request of a server. -/
def Session.Message.IsServerJoin (m : Session.Message) : Prop :=
  m.header.senderType = SenderType.server.byte ∧ m.header.type = MessageType.reqJoin.byte

/-- The body is a JSON text of the value `j`. -/
def IsText (text : JsonText) (body : List UInt8) (j : Value) : Prop :=
  ∃ j', text.parse body = some j' ∧ j.Equiv j'

/-- **A join request survives the wire**, whatever the order in which its members are written. -/
theorem decodeMessage_join {body : JoinBody} (hm : m.IsServerJoin)
    (htext : IsText text m.body body.toJson) (h : body.Typed) :
    decodeMessage text m = some (some ⟨.server, .reqJoin, body⟩) := by
  obtain ⟨j, hparse, hequiv⟩ := htext
  have hbody := JoinBody.ofJson_of_fromJson
    (respects_joinBody _ _ _ hequiv (JoinBody.decode_encode h))
  have hsender : SenderType.ofByte m.header.senderType = some .server := by
    rw [hm.1]
    rfl
  have htype : MessageType.ofByte m.header.type = some .reqJoin := by
    rw [hm.2]
    rfl
  unfold decodeMessage
  rw [hsender, htype]
  simp [hparse, hbody]

theorem SenderType.byte_of_ofByte {b : UInt8} {t : SenderType} (h : SenderType.ofByte b = some t) :
    b = t.byte := by
  unfold SenderType.ofByte at h
  split at h
  all_goals cases h
  all_goals exact UInt8.toNat_inj.mp ‹_›

theorem MessageType.byte_of_ofByte {b : UInt8} {t : MessageType}
    (h : MessageType.ofByte b = some t) : b = t.byte := by
  unfold MessageType.ofByte at h
  split at h
  all_goals cases h
  all_goals exact UInt8.toNat_inj.mp ‹_›

/-- What is handled has the types of the header. -/
theorem isServerJoin_of_decoded (h : decodeMessage text m = some (some msg))
    (hjoin : msg.IsServerJoin) : m.IsServerJoin := by
  have htypes : SenderType.ofByte m.header.senderType = some msg.senderType ∧
      MessageType.ofByte m.header.type = some msg.type := by
    unfold decodeMessage at h
    split at h
    · cases h
    · next hsender =>
      split at h
      · cases h
      · next htype =>
        rw [hsender, htype]
        split at h
        · split at h
          · cases h
          · split at h
            · cases h
            · cases h
              exact ⟨rfl, rfl⟩
        · cases h
          exact ⟨rfl, rfl⟩
  rw [hjoin.1, hjoin.2] at htypes
  exact ⟨SenderType.byte_of_ofByte htypes.1, MessageType.byte_of_ofByte htypes.2⟩

/-! ### Answers as JSON -/

theorem respects_tabletInfo (storage : Vector Nat c.kNumReplicas) :
    Respects (TabletInfo.fromJson storage) := by
  refine .bind (.member (respects_toUnsigned 32) "id") fun _ =>
    .bind (.member (respects_toUnsigned 32) "server_id") fun _ =>
    .bind (.member respects_toBool "is_backup") fun isBackup =>
    .bind (.member (.toArray respects_queuePairInfo _) "qpis") fun _ => ?_
  cases isBackup with
  | true => exact .bind (.member (respects_toUnsigned 32) "master") fun _ => respects_pure _
  | false =>
    exact .bind (.member (.toArray (respects_toUnsigned 32) _) "backups") fun _ => respects_pure _

theorem respects_serverInfo : Respects (ServerInfo.fromJson (c := c)) :=
  .bind (.member (respects_toUnsigned 32) "id") fun _ =>
  .bind (.member respects_toBool "active") fun _ =>
  .bind (.member respects_toString "addr") fun _ =>
  .bind (.member respects_address "ib_addr") fun _ =>
  .bind (.member (.toArray (respects_toUnsigned 32) _) "tablets") fun _ => respects_pure _

theorem respects_indexManager (storage : Vector Nat c.kNumReplicas) :
    Respects (IndexManager.fromJson storage) :=
  .bind (.member (.toArray (respects_toUnsigned 32) _) "key_tablet_map") fun _ =>
  .bind (.member (.toArray (respects_tabletInfo storage) _) "tablets") fun _ =>
  .bind (.member (.toArray respects_serverInfo _) "servers") fun _ => respects_pure _

theorem respects_resJoin (storage : Vector Nat c.kNumReplicas) :
    Respects (ResJoin.fromJson storage) :=
  .bind (.member (respects_toUnsigned 32) "id") fun _ =>
  .bind (.member (respects_indexManager storage) "index_manager") fun _ => respects_pure _

theorem ResJoin.decode_encode (storage : Vector Nat c.kNumReplicas) {id : Nat}
    {im : IndexManager c} (hid : id < 2 ^ 32) (him : im.Typed) :
    ∃ im', ResJoin.fromJson storage (ResJoin.server id im).toJson = .ok (id, im') ∧
      im.SameAs im' := by
  obtain ⟨im', hrun, hsame⟩ := IndexManager.decode_encode storage him
  refine ⟨im', ?_, hsame⟩
  simp only [ResJoin.fromJson, ResJoin.toJson, member, find, String.reduceEq, if_true, if_false]
  simp only [bind, Except.bind, toUnsigned_ofNat hid, hrun]
  rfl

section answers

variable (storage : Vector Nat c.kNumReplicas) {im : IndexManager c}

/-- The answer to a server is decoded to an index that agrees with the one it was made from. -/
theorem finishJoin_server {id : Nat} (hid : id < 2 ^ 32) (him : im.Typed)
    (htext : IsText text (text.dump (ResJoin.server id im).toJson) (ResJoin.server id im).toJson) :
    ∃ im', im.SameAs im' ∧ ∀ srv : Server c, srv.finishJoin text storage
      ((ResJoin.server id im).message text) = (srv.joinResponse id im').toOption := by
  obtain ⟨im', hdecode, hsame⟩ := ResJoin.decode_encode storage hid him
  obtain ⟨j, hparse, hequiv⟩ := htext
  have hread := respects_resJoin storage _ _ _ hequiv hdecode
  refine ⟨im', hsame, fun srv => ?_⟩
  have hbody : text.parse ((ResJoin.server id im).message text).body = some j := hparse
  unfold Server.finishJoin
  rw [hbody]
  simp [ResJoin.message, Session.Message.new, hread, Except.toOption]

/-- The answer to a client has no id, so a server cannot read it. -/
theorem finishJoin_client
    (htext : IsText text (text.dump (ResJoin.client im).toJson) (ResJoin.client im).toJson)
    (srv : Server c) :
    srv.finishJoin text storage ((ResJoin.client im).message text) = none := by
  obtain ⟨j, hparse, hequiv⟩ := htext
  have hmissing : member j "id" = .error .missing := hequiv.missing rfl
  have hread : ResJoin.fromJson storage j = .error .missing := by
    unfold ResJoin.fromJson
    rw [hmissing]
    rfl
  have hbody : text.parse ((ResJoin.client im).message text).body = some j := hparse
  unfold Server.finishJoin
  rw [hbody]
  simp [ResJoin.message, Session.Message.new, hread, Except.toOption]

end answers

/-! ### A message from end to end -/

namespace Session

variable (m : Session.Message)

/-- How a pipe stands when its first message is in the place `r`, with `wire` behind it. -/
def Pipe.first (wire : List UInt8) (r : Receiving) : Pipe := ⟨wire, r, [], none⟩

/-- The header is read. -/
theorem Pipe.first_header :
    (Pipe.first m.bytes (.header [])).read kHeaderSize =
      some (Pipe.first m.body (.header m.header.bytes)) ∧
    (Pipe.first m.body (.header m.header.bytes)).complete =
      some (Pipe.first m.body (.body m.header m.header.bodyLen [])) := by
  have hlen : m.header.bytes.length = kHeaderSize := format.length_encode m.header
  constructor
  · simp [Pipe.first, Pipe.read, Message.bytes, hlen, kHeaderSize]
  · simp [Pipe.first, Pipe.complete, headerHandler, hlen, check, Header.ofBytes_bytes, bind,
      Except.bind, pure, Except.pure]

/-- Then the body. -/
theorem Pipe.first_body (h0 : m.body ≠ []) (hfits : m.Fits) :
    (Pipe.first m.body (.body m.header m.header.bodyLen [])).read m.body.length =
      some (Pipe.first [] (.body m.header m.header.bodyLen m.body)) ∧
    (Pipe.first [] (.body m.header m.header.bodyLen m.body)).complete =
      some ⟨[], .idle, [m], none⟩ := by
  have hlen : m.header.bodyLen = m.body.length := hfits
  constructor
  · simp [Pipe.first, Pipe.read, hlen, List.length_pos_iff.mpr h0]
  · simp [Pipe.first, Pipe.complete, hlen]

end Session

section runs

variable {peer : SessionId → String} {im₀ : IndexManager c} {s : Net c} {x : SessionId}

@[simp] theorem Net.setInbound_self (l : Session.Link) : (s.setInbound x l).inbound x = l :=
  Function.update_self ..

@[simp] theorem Net.setInbound_setInbound (l l' : Session.Link) :
    (s.setInbound x l).setInbound x l' = s.setInbound x l' := by
  simp [Net.setInbound]

/-- A peer connects and sends a message, which arrives and is handled. -/
theorem handled_run {senderType type : UInt8} {body : List UInt8} {co : Coordinator c}
    (h : Reachable (Net.Initial im₀) (Net.Step text peer) s)
    (hnew : s.inbound x = ⟨[], [], Session.Pipe.new⟩) (haccept : x ∉ s.system.accepted)
    (hbody : body ≠ []) (hlt : body.length < 4294967296)
    (hdecode : decodeMessage text (.new senderType type body) = some (some msg))
    (htakes : s.system.coordinator.Takes msg)
    (hrun : s.system.coordinator.handleRecvMessage (peer x) x msg = .ok co) :
    Reachable (Net.Initial im₀) (Net.Step text peer)
      { system := (s.system.accepts x).handles x msg co
        inbound := Function.update s.inbound x
          ⟨[.new senderType type body], [], ⟨[], .idle, [.new senderType type body], none⟩⟩
        sends := fun y => s.sends y ++ startFrom text y s.system.coordinator.posted.length
          (co.posted.drop s.system.coordinator.posted.length)
        outbound := s.outbound } := by
  obtain ⟨m, hm⟩ : ∃ m, m = Session.Message.new senderType type body := ⟨_, rfl⟩
  have hfits : m.Fits := hm ▸ Session.fits_new hlt senderType type
  have hne : m.body ≠ [] := by rwa [hm]
  obtain ⟨hread, hheader⟩ := Session.Pipe.first_header m
  obtain ⟨hread', hdone⟩ := Session.Pipe.first_body m hne hfits
  rw [← hm] at hdecode ⊢
  -- the connection
  have r₁ : Reachable (Net.Initial im₀) (Net.Step text peer)
      (Net.setInbound { s with system := s.system.accepts x } x
        ⟨[], [], .first [] (.header [])⟩) :=
    h.step x (.accept haccept (by rw [hnew]; rfl))
  -- the message is written, and read in two parts
  have r₂ := r₁.step x (@Net.Step.peerSend _ _ _ _ x senderType type body
    ⟨[m], m.bytes, .first [] (.header [])⟩ (by rw [Net.setInbound_self, hm]; rfl))
  rw [Net.setInbound_setInbound] at r₂
  have hwrite : Session.Link.step ⟨[m], m.bytes, .first [] (.header [])⟩ (.write m.bytes.length) =
      some ⟨[m], [], .first m.bytes (.header [])⟩ := by
    simp [Session.Link.step, Session.Pipe.first]
  have r₃ := r₂.step x (.peerWrite (by rw [Net.setInbound_self]; exact hwrite))
  rw [Net.setInbound_setInbound] at r₃
  have r₄ := r₃.step x (.read (by
    rw [Net.setInbound_self]
    exact Session.Link.step_of_read rfl hread))
  rw [Net.setInbound_setInbound] at r₄
  have r₅ := r₄.step x (.header (by
    rw [Net.setInbound_self]
    exact Session.Link.step_of_complete rfl hheader) (by rw [Net.setInbound_self]; rfl))
  rw [Net.setInbound_setInbound] at r₅
  have r₆ := r₅.step x (.read (by
    rw [Net.setInbound_self]
    exact Session.Link.step_of_read rfl hread'))
  rw [Net.setInbound_setInbound] at r₆
  have r₇ := r₆.step x (.handle (by
    rw [Net.setInbound_self]
    exact Session.Link.step_of_complete rfl hdone) (by rw [Net.setInbound_self]; rfl) hdecode
    htakes hrun)
  rw [Net.setInbound_setInbound] at r₇
  exact r₇

/-- The sends on `x` and the stream to its peer have changed. -/
def Net.setSends (s : Net c) (x : SessionId) (snds : List Sending) (pipe : Session.Pipe) : Net c :=
  { s.setOutbound x pipe with sends := Function.update s.sends x snds }

section setSends

variable {snds snds' : List Sending} {pipe pipe' : Session.Pipe}

@[simp] theorem Net.setSends_sends : (s.setSends x snds pipe).sends x = snds :=
  Function.update_self ..

@[simp] theorem Net.setSends_outbound : (s.setSends x snds pipe).outbound x = pipe :=
  Function.update_self ..

@[simp] theorem Net.setOutbound_setSends :
    (s.setSends x snds pipe).setOutbound x pipe' = s.setSends x snds pipe' := by
  simp [Net.setSends, Net.setOutbound]

theorem Net.setSends_self (hsends : s.sends x = snds) :
    s.setSends x snds pipe = s.setOutbound x pipe := by
  rw [Net.setSends, ← hsends, Function.update_eq_self]
  rfl

/-- The only send on `x` writes some bytes. -/
theorem Net.Step.write_only {n : Nat} (k : Nat) (v : Writing) :
    Net.Step text peer (s.setSends x [⟨n, v⟩] pipe) x (s.setSends x [⟨n, (v.write k).2⟩]
      { pipe with wire := pipe.wire ++ (v.write k).1 }) := by
  have hstep := @Net.Step.write _ text peer (s.setSends x [⟨n, v⟩] pipe) x [] [] n k v
    Net.setSends_sends
  rw [Net.setSends_outbound, Net.setOutbound_setSends] at hstep
  simpa [Net.setSends] using hstep

/-- It goes on to the body. -/
theorem Net.Step.headerWritten_only {n : Nat} (body : List UInt8) :
    Net.Step text peer (s.setSends x [⟨n, .header [] body⟩] pipe) x
      (s.setSends x [⟨n, .body body⟩] pipe) := by
  have hstep := @Net.Step.headerWritten _ text peer (s.setSends x [⟨n, .header [] body⟩] pipe)
    x [] [] n body Net.setSends_sends
  simpa [Net.setSends, Net.setOutbound] using hstep

/-- It is completed. -/
theorem Net.Step.written_only {n : Nat} {link : Session.Link}
    (hpost : (s.inbound x).step .post = some link) :
    Net.Step text peer (s.setSends x [⟨n, .body []⟩] pipe) x
      (Net.setSends { s.setInbound x link with system := s.system.completes x n } x [] pipe) := by
  have hstep := @Net.Step.written _ text peer (s.setSends x [⟨n, .body []⟩] pipe) x [] [] n link
    Net.setSends_sends hpost
  simpa [Net.setSends, Net.setOutbound, Net.setInbound] using hstep

end setSends

/-- The answer is written and the peer reads it. -/
theorem answered_run {n : Nat} {link : Session.Link}
    (h : Reachable (Net.Initial im₀) (Net.Step text peer) s)
    (hsends : s.sends x = [⟨n, .header m.header.bytes m.body⟩])
    (hpost : (s.inbound x).step .post = some link) (hout : s.outbound x = Session.Pipe.new)
    (hbody : m.body ≠ []) (hfits : m.Fits) :
    Reachable (Net.Initial im₀) (Net.Step text peer)
      { system := s.system.completes x n
        inbound := Function.update s.inbound x link
        sends := Function.update s.sends x []
        outbound := Function.update s.outbound x ⟨[], .idle, [m], none⟩ } := by
  obtain ⟨hread, hheader⟩ := Session.Pipe.first_header m
  obtain ⟨hread', hdone⟩ := Session.Pipe.first_body m hbody hfits
  -- the peer waits for the answer, which is written header first
  have r₁ : Reachable (Net.Initial im₀) (Net.Step text peer)
      (s.setSends x [⟨n, .header m.header.bytes m.body⟩] (.first [] (.header []))) := by
    rw [Net.setSends_self hsends]
    exact h.step x (.peerRecv (by rw [hout]; rfl))
  have r₂ := r₁.step x (.write_only m.header.bytes.length _)
  have hheaderLeft : (Writing.header m.header.bytes m.body).write m.header.bytes.length =
      (m.header.bytes, .header [] m.body) := by
    simp [Writing.write]
  rw [hheaderLeft] at r₂
  have r₃ := (r₂.step x (.headerWritten_only m.body)).step x (.write_only m.body.length _)
  have hbodyLeft : (Writing.body m.body).write m.body.length = (m.body, .body []) := by
    simp [Writing.write]
  rw [hbodyLeft] at r₃
  have r₄ := r₃.step x (.written_only hpost)
  -- all of it is on the wire, and is read in two parts
  have r₅ := r₄.step x (.peerRead (by
    rw [Net.setSends_outbound]
    exact hread))
  rw [Net.setOutbound_setSends] at r₅
  have r₆ := r₅.step x (.peerComplete (by
    rw [Net.setSends_outbound]
    exact hheader))
  rw [Net.setOutbound_setSends] at r₆
  have r₇ := r₆.step x (.peerRead (by
    rw [Net.setSends_outbound]
    exact hread'))
  rw [Net.setOutbound_setSends] at r₇
  have r₈ := r₇.step x (.peerComplete (by
    rw [Net.setSends_outbound]
    exact hdone))
  rw [Net.setOutbound_setSends] at r₈
  exact r₈

end runs

end Nvds.Cluster
