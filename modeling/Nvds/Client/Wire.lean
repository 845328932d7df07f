import Nvds.Tablet.Ownership

/-! # Requests and responses on the wire (`request.h`, `response.h`, `client.cc`)

    A client builds a request in a send buffer and the network places its
    bytes into a receive buffer of the server, behind the header of an
    unreliable datagram. The response goes back the same way. Client and
    server define the sizes of their buffers by themselves; an access outside
    a buffer is a fault.
-/

open ByteMemory Program Transition Nvds.Allocator

namespace Nvds

/-! ### Sizes -/

/-- `kSendBufSize` of `common.h`, which the server uses. -/
def kSendBufSize : Nat := 1024 + 128

/-- `kRecvBufSize` of `common.h`, which the server uses. -/
def kRecvBufSize : Nat := 1024 * 2 + 128

def kIBUDPadding : Nat := 40

/-- `kSendBufSize` of `class Client`. -/
def Client.kSendBufSize : Nat := 1024 * 2 + 128

/-- `kRecvBufSize` of `class Client`. -/
def Client.kRecvBufSize : Nat := 1024 + 128

/-- The values of `enum class Type : uint8_t`. -/
def RequestType.code : RequestType → UInt8
  | .put => 0
  | .add => 1
  | .get => 2
  | .del => 3

/-- The type of a request by its value. -/
def RequestType.ofCode (c : UInt8) : Option RequestType :=
  if c = 0 then some .put
  else if c = 1 then some .add
  else if c = 2 then some .get
  else if c = 3 then some .del
  else none

theorem RequestType.ofCode_code (t : RequestType) : RequestType.ofCode t.code = some t := by
  cases t <;> rfl

/-- The values of `enum class Status : uint8_t`. -/
def Status.code : Status → UInt8
  | .ok => 0
  | .error => 1
  | .noMem => 2

namespace Client

/-! ### Buffers -/

/-- `Infiniband::Buffer`: `size` bytes at `buf`. -/
structure Buffer where
  size : Nat
  buf : Mem

/-- A call on one buffer. -/
abbrev BufM (α : Type) := Prog Buffer Fault α

/-- Store `bs` at the offset `off`. -/
def fill (off : Nat) (bs : List UInt8) : BufM Unit := fun b =>
  if off + bs.length ≤ b.size then
    .ok ((), { b with buf := store b.buf off bs })
  else
    .error .outOfBounds

/-- Read `len` bytes at the offset `off`. -/
def fetch (off len : Nat) : BufM (List UInt8) := fun b =>
  if off + len ≤ b.size then
    .ok (load b.buf off len, b)
  else
    .error .outOfBounds

/-- `PostSend` of the first `len` bytes: what goes onto the wire. -/
def postSend (len : Nat) : BufM (List UInt8) := fetch 0 (u32 len)

/-- A message arrives in a receive buffer, behind the bytes `grh`. -/
def deliver (grh msg : List UInt8) : BufM Unit := do
  fill 0 grh
  fill kIBUDPadding msg

/-! ### Requests -/

/-- `Request::New`. The value is a null pointer for `GET` and `DEL`. -/
def Request.new (t : RequestType) (key : List UInt8) (val : Option (List UInt8)) (keyHash : Nat) :
    BufM Unit := do
  fill 0 [t.code]
  -- the lengths are cut to 16 bits
  fill 2 (leBytes 2 key.length)
  fill 4 (leBytes 2 (val.getD []).length)
  fill 8 (leBytes 8 keyHash)
  fill 16 key
  if val ≠ none ∧ 0 < (val.getD []).length then
    fill (16 + key.length) (val.getD [])
  else
    pure ()

/-- `Request::Len`. -/
def Request.len : BufM Nat := do
  let keyLen ← fetch 2 2
  let valLen ← fetch 4 2
  pure (16 + leValue keyLen + leValue valLen)

/-- The part of `RequestAndWait` that builds the request and posts it. -/
def sendRequest (t : RequestType) (key : List UInt8) (val : Option (List UInt8)) (keyHash : Nat) :
    BufM (List UInt8) := do
  Request.new t key val keyHash
  let len ← Request.len
  postSend len

/-- `MakeRequest`, with the fields as the server reads them. `Request::New` stores no other type
    than those of `RequestType`, and the lengths are those of 16-bit fields. -/
def makeRequest : BufM Request := do
  let type ← fetch kIBUDPadding 1
  let keyLen ← fetch (kIBUDPadding + 2) 2
  let valLen ← fetch (kIBUDPadding + 4) 2
  let keyHash ← fetch (kIBUDPadding + 8) 8
  let key ← fetch (kIBUDPadding + 16) (leValue keyLen)
  let val ← fetch (kIBUDPadding + 16 + leValue keyLen) (leValue valLen)
  if h : key.length < 65536 ∧ val.length < 65536 ∧ leValue keyHash < 18446744073709551616 then
    if ht : (RequestType.ofCode (type.getD 0 0)).isSome then
      pure ⟨(RequestType.ofCode (type.getD 0 0)).get ht, key, val, leValue keyHash, h.1, h.2.1, h.2.2⟩
    else
      throw .assertion
  else
    throw .assertion

/-- A request arrives at the server. -/
def receiveRequest (grh msg : List UInt8) : BufM Request := do
  deliver grh msg
  makeRequest

/-! ### Responses -/

/-- `Response::New`, and what `Serve` and `Get` then store in the response. -/
def Response.new (resp : Response) : BufM Unit := do
  fill 0 [resp.type.code]
  fill 1 [Status.ok.code]
  fill 2 (leBytes 2 0)
  if resp.type = .get ∧ resp.status = .ok then
    -- the value is copied before its length is set
    fill 4 resp.val
    fill 2 (leBytes 2 resp.val.length)
  else
    pure ()
  fill 1 [resp.status.code]

/-- `Response::Len`. -/
def Response.len : BufM Nat := do
  let type ← fetch 0 1
  let valLen ← fetch 2 2
  pure (4 + if type = [RequestType.get.code] then leValue valLen else 0)

/-- The end of a round of `Serve`. -/
def sendResponse (resp : Response) : BufM (List UInt8) := do
  Response.new resp
  let len ← Response.len
  postSend len

/-- The end of `Client::Get`: the string it returns. -/
def receiveValue (grh msg : List UInt8) : BufM (List UInt8) := do
  deliver grh msg
  let valLen ← fetch (kIBUDPadding + 2) 2
  fetch (kIBUDPadding + 4) (leValue valLen)

/-! ### Runs on buffers that are large enough -/

variable {b : Buffer} {t : RequestType} {key val grh msg : List UInt8} {keyHash : Nat}

theorem fill_run {off : Nat} {bs : List UInt8} (h : off + bs.length ≤ b.size) :
    fill off bs b = .ok ((), { b with buf := store b.buf off bs }) := if_pos h

theorem fetch_run {off len : Nat} (h : off + len ≤ b.size) :
    fetch off len b = .ok (load b.buf off len, b) := if_pos h

/-- A field of a record that lies at `off`. -/
theorem fetch_field {off : Nat} {fs : List (Nat × List UInt8)} (h : Holds b.buf off fs)
    {f : Nat × List UInt8} (hf : f ∈ fs) {len : Nat} (hlen : f.2.length = len)
    (hin : off + f.1 + len ≤ b.size) : fetch (off + f.1) len b = .ok (f.2, b) := by
  rw [fetch_run hin, ← hlen, h f hf]

/-- **Delivery.** The message is found behind the padding. -/
theorem deliver_run (msg : List UInt8) (hgrh : grh.length = kIBUDPadding)
    (hsize : kIBUDPadding + msg.length ≤ b.size) :
    ∃ m, deliver grh msg b = .ok ((), ⟨b.size, m⟩) ∧ load m kIBUDPadding msg.length = msg := by
  unfold deliver
  refine ⟨store (store b.buf 0 grh) kIBUDPadding msg, ?_, load_store_same _ _ _⟩
  rw [bind_of_ok (fill_run (by omega))]
  exact fill_run hsize

/-! ### Requests survive -/

/-- The fields of a request, with their offsets. -/
def requestFields (t : RequestType) (key val : List UInt8) (keyHash : Nat) :
    List (Nat × List UInt8) :=
  [(0, [t.code]), (2, leBytes 2 key.length), (4, leBytes 2 val.length), (8, leBytes 8 keyHash),
    (16, key), (16 + key.length, val)]

theorem requestFields_apart (t : RequestType) (key val : List UInt8) (keyHash : Nat) :
    (requestFields t key val keyHash).Pairwise Apart := by
  simp only [requestFields, Apart, List.pairwise_cons, List.forall_mem_cons, List.length_singleton,
    length_leBytes, List.not_mem_nil, List.Pairwise.nil, and_true, false_implies, implies_true]
  omega

theorem requestFields_within {f : Nat × List UInt8} (hf : f ∈ requestFields t key val keyHash) :
    f.1 + f.2.length ≤ 16 + key.length + val.length := by
  revert f
  simp only [requestFields, List.forall_mem_cons, List.length_singleton, length_leBytes,
    List.not_mem_nil, false_implies, implies_true, and_true]
  omega

theorem Request.new_run {val : Option (List UInt8)}
    (hsize : 16 + key.length + (val.getD []).length ≤ b.size) :
    Request.new t key val keyHash b =
      .ok ((), { b with buf := storeAll b.buf (requestFields t key (val.getD []) keyHash) }) := by
  unfold Request.new
  rw [bind_of_ok (fill_run (by simp; omega)), bind_of_ok (fill_run (by simp; omega)),
    bind_of_ok (fill_run (by simp; omega)), bind_of_ok (fill_run (by simp; omega)),
    bind_of_ok (fill_run (by simp; omega))]
  by_cases hval : 0 < (val.getD []).length
  · have hne : val ≠ none := by
      intro hnone
      rw [hnone] at hval
      exact absurd hval (by decide)
    rw [if_pos ⟨hne, hval⟩]
    exact fill_run hsize
  · rw [if_neg fun h => hval h.2, pure_run]
    -- nothing is stored for an empty value
    have hnil : val.getD [] = [] := List.length_eq_zero_iff.mp (by omega)
    have hsame : ∀ m : Mem, store m (16 + key.length) [] = m := by
      intro m
      funext a
      exact store_of_not_mem (by simp; omega)
    rw [hnil, requestFields, storeAll, List.foldl_cons, List.foldl_cons, List.foldl_cons,
      List.foldl_cons, List.foldl_cons, List.foldl_cons, List.foldl_nil, hsame]

theorem leValue_length {n : Nat} (h : n < 65536) : leValue (leBytes 2 n) = n := by
  rw [leValue_leBytes]
  exact Nat.mod_eq_of_lt h

/-- **A request is sent** with all its fields. -/
theorem sendRequest_run (t : RequestType) (keyHash : Nat) {val : Option (List UInt8)}
    (hkey : key.length < 65536)
    (hval : (val.getD []).length < 65536)
    (hsize : 16 + key.length + (val.getD []).length ≤ b.size) :
    ∃ m b', sendRequest t key val keyHash b =
      .ok (load m 0 (16 + key.length + (val.getD []).length), b') ∧
      Holds m 0 (requestFields t key (val.getD []) keyHash) := by
  obtain ⟨m, hm⟩ : ∃ m, m = storeAll b.buf (requestFields t key (val.getD []) keyHash) := ⟨_, rfl⟩
  have hholds : Holds m 0 (requestFields t key (val.getD []) keyHash) := by
    rw [hm]
    exact holds_storeAll _ (requestFields_apart _ _ _ _)
  refine ⟨m, ⟨b.size, m⟩, ?_, hholds⟩
  unfold sendRequest
  rw [bind_of_ok (Request.new_run hsize), ← hm]
  -- the length of the message is read back from the header in the buffer
  have hlen : Request.len ⟨b.size, m⟩ =
      .ok (16 + key.length + (val.getD []).length, ⟨b.size, m⟩) := by
    have hk : fetch 2 2 ⟨b.size, m⟩ = .ok (leBytes 2 key.length, ⟨b.size, m⟩) :=
      fetch_field (f := (2, leBytes 2 key.length)) hholds (by simp [requestFields])
        (length_leBytes _ _) (by simp; omega)
    have hv : fetch 4 2 ⟨b.size, m⟩ = .ok (leBytes 2 (val.getD []).length, ⟨b.size, m⟩) :=
      fetch_field (f := (4, leBytes 2 (val.getD []).length)) hholds (by simp [requestFields])
        (length_leBytes _ _) (by simp; omega)
    unfold Request.len
    rw [bind_of_ok hk, bind_of_ok hv, pure_run, leValue_length hkey, leValue_length hval]
  rw [bind_of_ok hlen, postSend, u32_of_lt (by omega)]
  exact fetch_run (by simpa using hsize)

/-- **A request is read** as it was sent. -/
theorem makeRequest_run (hkey : key.length < 65536) (hval : val.length < 65536)
    (hhash : keyHash < 18446744073709551616)
    (h : Holds b.buf kIBUDPadding (requestFields t key val keyHash))
    (hsize : kIBUDPadding + (16 + key.length + val.length) ≤ b.size) :
    makeRequest b = .ok (⟨t, key, val, keyHash, hkey, hval, hhash⟩, b) := by
  have ht : fetch kIBUDPadding 1 b = .ok ([t.code], b) :=
    fetch_field (f := (0, [t.code])) h (by simp [requestFields]) rfl (by simp; omega)
  have hk : fetch (kIBUDPadding + 2) 2 b = .ok (leBytes 2 key.length, b) :=
    fetch_field (f := (2, leBytes 2 key.length)) h (by simp [requestFields]) (length_leBytes _ _)
      (by simp; omega)
  have hv : fetch (kIBUDPadding + 4) 2 b = .ok (leBytes 2 val.length, b) :=
    fetch_field (f := (4, leBytes 2 val.length)) h (by simp [requestFields]) (length_leBytes _ _)
      (by simp; omega)
  have hh : fetch (kIBUDPadding + 8) 8 b = .ok (leBytes 8 keyHash, b) :=
    fetch_field (f := (8, leBytes 8 keyHash)) h (by simp [requestFields]) (length_leBytes _ _)
      (by simp; omega)
  have hkeys : fetch (kIBUDPadding + 16) key.length b = .ok (key, b) :=
    fetch_field (f := (16, key)) h (by simp [requestFields]) rfl (by simp; omega)
  have hvals : fetch (kIBUDPadding + 16 + key.length) val.length b = .ok (val, b) := by
    rw [Nat.add_assoc]
    exact fetch_field (f := (16 + key.length, val)) h (by simp [requestFields]) rfl
      (by simp; omega)
  -- every field is read where the client has put it, behind the padding
  have hhash' : leValue (leBytes 8 keyHash) = keyHash := by
    rw [leValue_leBytes]
    exact Nat.mod_eq_of_lt hhash
  have hcode : RequestType.ofCode ([t.code].getD 0 0) = some t := RequestType.ofCode_code t
  unfold makeRequest
  rw [bind_of_ok ht, bind_of_ok hk, bind_of_ok hv, bind_of_ok hh, leValue_length hkey,
    leValue_length hval, bind_of_ok hkeys, bind_of_ok hvals,
    dif_pos ⟨hkey, hval, by rw [hhash']; exact hhash⟩, dif_pos (by rw [hcode]; rfl)]
  simp only [hcode, Option.get_some, hhash', pure_run]

/-- **Requests survive the wire.** The request the server reads is the one the client sent. -/
theorem request_survives {val : Option (List UInt8)} {sb rb : Buffer}
    (hitem : key.length + (val.getD []).length ≤ kMaxItemSize)
    (hhash : keyHash < 18446744073709551616) (hsb : sb.size = Client.kSendBufSize)
    (hrb : rb.size = Nvds.kRecvBufSize) (hgrh : grh.length = kIBUDPadding) :
    ∃ msg sb' r rb', sendRequest t key val keyHash sb = .ok (msg, sb') ∧
      receiveRequest grh msg rb = .ok (r, rb') ∧
      r.type = t ∧ r.key = key ∧ r.val = val.getD [] ∧ r.keyHash = keyHash := by
  rw [kMaxItemSize_eq] at hitem
  rw [Client.kSendBufSize] at hsb
  rw [Nvds.kRecvBufSize] at hrb
  have hkey : key.length < 65536 := by omega
  have hval : (val.getD []).length < 65536 := by omega
  have hfits : 16 + key.length + (val.getD []).length ≤ sb.size := by omega
  obtain ⟨m, sb', hsend, hholds⟩ := sendRequest_run t keyHash hkey hval hfits
  have hlen : (load m 0 (16 + key.length + (val.getD []).length)).length =
    16 + key.length + (val.getD []).length := length_load _ _ _
  have hpad : kIBUDPadding = 40 := rfl
  -- the network copies the message behind the header that it adds
  obtain ⟨m', hdel, hcopy⟩ := deliver_run (b := rb)
    (load m 0 (16 + key.length + (val.getD []).length)) hgrh (by omega)
  rw [hlen] at hcopy
  have hholds' := hholds.copy hcopy fun f hf => requestFields_within hf
  refine ⟨_, sb', ⟨t, key, val.getD [], keyHash, hkey, hval, hhash⟩, ⟨rb.size, m'⟩, hsend, ?_,
    rfl, rfl, rfl, rfl⟩
  unfold receiveRequest
  rw [bind_of_ok hdel]
  apply makeRequest_run hkey hval hhash hholds'
  show kIBUDPadding + _ ≤ rb.size
  omega

/-! ### Values survive -/

/-- The fields of the response to a `GET`. -/
def responseFields (status : Status) (val : List UInt8) : List (Nat × List UInt8) :=
  [(0, [RequestType.get.code]), (1, [status.code]), (2, leBytes 2 val.length), (4, val)]

/-- What `Serve` leaves in the send buffer after a `GET`. -/
theorem Response.new_run {resp : Response} (htype : resp.type = .get)
    (hempty : resp.status ≠ .ok → resp.val = []) (hsize : 4 + resp.val.length ≤ b.size) :
    ∃ m, Response.new resp b = .ok ((), ⟨b.size, m⟩) ∧
      Holds m 0 (responseFields resp.status resp.val) := by
  have hhead : ∀ m : Mem, load (store m 0 [RequestType.get.code]) 0 1 = [RequestType.get.code] :=
    fun m => load_store_same m 0 [RequestType.get.code]
  unfold Response.new
  rw [bind_of_ok (fill_run (by simp; omega)), bind_of_ok (fill_run (by simp; omega)),
    bind_of_ok (fill_run (by simp; omega)), htype]
  -- with the status `OK` the length is written again, and the value behind it
  by_cases hok : resp.status = .ok
  · rw [if_pos ⟨rfl, hok⟩, bind_of_ok (fill_run (by simp; omega)), bind_of_ok (fill_run (by simp; omega))]
    refine ⟨_, fill_run (by simp; omega), ?_⟩
    simp only [Holds, responseFields, List.forall_mem_cons, Nat.zero_add, List.not_mem_nil,
      false_implies, implies_true, and_true]
    refine ⟨?_, load_store_same _ _ _, ?_, ?_⟩
    · show load _ 0 1 = _
      rw [load_store_disjoint (by simp), load_store_disjoint (by simp),
        load_store_disjoint (by simp), load_store_disjoint (by simp),
        load_store_disjoint (by simp), hhead]
    · rw [load_store_disjoint (by simp), load_store_same]
    · rw [load_store_disjoint (by simp), load_store_disjoint (by simp), load_store_same]
  · -- the length stays 0
    rw [if_neg fun h => hok h.2, hempty hok]
    refine ⟨_, fill_run (by simp; omega), ?_⟩
    simp only [Holds, responseFields, List.forall_mem_cons, Nat.zero_add, List.not_mem_nil,
      false_implies, implies_true, and_true]
    refine ⟨?_, load_store_same _ _ _, ?_, rfl⟩
    · show load _ 0 1 = _
      rw [load_store_disjoint (by simp), load_store_disjoint (by simp),
        load_store_disjoint (by simp), hhead]
    · rw [load_store_disjoint (by simp)]
      exact load_store_same _ 2 (leBytes 2 0)

/-- **The response to a `GET`** holds the value, of length 0 if the key is not bound. -/
theorem sendResponse_run {resp : Response} (htype : resp.type = .get)
    (hempty : resp.status ≠ .ok → resp.val = []) (hval : resp.val.length < 65536)
    (hsize : 4 + resp.val.length ≤ b.size) :
    ∃ m b', sendResponse resp b = .ok (load m 0 (4 + resp.val.length), b') ∧
      Holds m 0 (responseFields resp.status resp.val) := by
  obtain ⟨m, hnew, hholds⟩ := Response.new_run htype hempty hsize
  refine ⟨m, ⟨b.size, m⟩, ?_, hholds⟩
  have ht : fetch 0 1 ⟨b.size, m⟩ = .ok ([RequestType.get.code], ⟨b.size, m⟩) :=
    fetch_field (f := (0, [RequestType.get.code])) hholds (by simp [responseFields]) rfl
      (by simp; omega)
  have hv : fetch 2 2 ⟨b.size, m⟩ = .ok (leBytes 2 resp.val.length, ⟨b.size, m⟩) :=
    fetch_field (f := (2, leBytes 2 resp.val.length)) hholds (by simp [responseFields])
      (length_leBytes _ _) (by simp; omega)
  have hlen : Response.len ⟨b.size, m⟩ = .ok (4 + resp.val.length, ⟨b.size, m⟩) := by
    unfold Response.len
    rw [bind_of_ok ht, bind_of_ok hv, pure_run, if_pos rfl, leValue_length hval]
  unfold sendResponse
  rw [bind_of_ok hnew, bind_of_ok hlen, postSend, u32_of_lt (by omega)]
  exact fetch_run (by simpa using hsize)

/-- **A value survives the wire**: `Get` returns the bytes of the response. -/
theorem value_survives {resp : Response} {sb rb : Buffer} (htype : resp.type = .get)
    (hempty : resp.status ≠ .ok → resp.val = []) (hval : resp.val.length ≤ kMaxItemSize)
    (hsb : sb.size = Nvds.kSendBufSize) (hrb : rb.size = Client.kRecvBufSize)
    (hgrh : grh.length = kIBUDPadding) :
    ∃ msg sb' rb', sendResponse resp sb = .ok (msg, sb') ∧
      receiveValue grh msg rb = .ok (resp.val, rb') := by
  rw [kMaxItemSize_eq] at hval
  rw [Nvds.kSendBufSize] at hsb
  rw [Client.kRecvBufSize] at hrb
  have hpad : kIBUDPadding = 40 := rfl
  have hlt : resp.val.length < 65536 := by omega
  obtain ⟨m, sb', hsend, hholds⟩ := sendResponse_run (b := sb) htype hempty hlt (by omega)
  have hlen : (load m 0 (4 + resp.val.length)).length = 4 + resp.val.length := length_load _ _ _
  -- the network copies the message behind the header that it adds
  obtain ⟨m', hdel, hcopy⟩ := deliver_run (b := rb) (load m 0 (4 + resp.val.length)) hgrh
    (by omega)
  rw [hlen] at hcopy
  have hholds' : Holds m' kIBUDPadding (responseFields resp.status resp.val) := by
    apply hholds.copy hcopy
    simp only [responseFields, List.forall_mem_cons, List.length_singleton, length_leBytes,
      List.not_mem_nil, false_implies, implies_true, and_true]
    omega
  have hv : fetch (kIBUDPadding + 2) 2 ⟨rb.size, m'⟩ =
      .ok (leBytes 2 resp.val.length, ⟨rb.size, m'⟩) :=
    fetch_field (f := (2, leBytes 2 resp.val.length)) hholds' (by simp [responseFields])
      (length_leBytes _ _) (by simp; omega)
  have hb : fetch (kIBUDPadding + 4) resp.val.length ⟨rb.size, m'⟩ =
      .ok (resp.val, ⟨rb.size, m'⟩) :=
    fetch_field (f := (4, resp.val)) hholds' (by simp [responseFields]) rfl (by simp; omega)
  refine ⟨_, sb', ⟨rb.size, m'⟩, hsend, ?_⟩
  unfold receiveValue
  rw [bind_of_ok hdel, bind_of_ok hv, leValue_length hlt]
  exact hb

/-! ### The tablets that requests reach -/

/-- An empty tablet, and the empty map of what was stored. -/
def Started (Valid : Mem → Tablet.Blocks → Prop) (p : Tablet.Ghost × Tablet.Store) : Prop :=
  Tablet.Start Valid p.1 ∧ p.2 = fun _ => none

/-- A completed operation for an item that is not too large. -/
def Served (hash : List UInt8 → Nat) (A : Tablet.Heap) (p : Tablet.Ghost × Tablet.Store)
    (r : Request) (p' : Tablet.Ghost × Tablet.Store) : Prop :=
  r.key.length + r.val.length ≤ kMaxItemSize ∧ Tablet.Step hash A p.1 r p'.1 ∧
    p'.2 = (p.2.serve r).2

open Tablet

variable {hash : List UInt8 → Nat} {Valid : Mem → Blocks → Prop} {A : Heap} {g : Ghost}
  {M : Store} {ch : Nat → List Entry} {r : Request} {p : Ghost × Store}

/-- No item of the map is too large. -/
def Bounded (M : Store) : Prop := ∀ k v, M k = some v → k.length + v.length ≤ kMaxItemSize

theorem Bounded.serve (h : Bounded M) (hr : r.key.length + r.val.length ≤ kMaxItemSize) :
    Bounded (M.serve r).2 := by
  -- an update keeps the bound if the item it stores does
  have hupdate : ∀ w : Option (List UInt8), (∀ v, w = some v → v = r.val) →
      Bounded (Function.update M r.key w) := by
    intro w hw k v hv
    by_cases hk : k = r.key
    · rw [hk, Function.update_self] at hv
      rw [hk, hw v hv]
      exact hr
    · rw [Function.update_of_ne hk] at hv
      exact h k v hv
  have hput : Bounded (Function.update M r.key (some r.val)) :=
    hupdate _ fun v hv => (Option.some.inj hv).symm
  have hdel : Bounded (Function.update M r.key none) :=
    hupdate _ fun v hv => by cases hv
  unfold Store.serve
  cases r.type with
  | put => exact hput
  | add =>
    cases M r.key with
    | none => exact hput
    | some v => exact h
  | get => cases M r.key <;> exact h
  | del =>
    cases M r.key with
    | none => exact h
    | some v => exact hdel

/-- In every state the tablet represents the map of what was stored. -/
theorem reached_represents (hA : A.Spec Valid)
    (h : Reachable (Started Valid) (Served hash A) p) :
    ∃ ch, Owned hash Valid p.1 ch ∧ Represents hash ch p.2 ∧ Bounded p.2 := by
  refine h.invariant
    (fun p => ∃ ch, Owned hash Valid p.1 ch ∧ Represents hash ch p.2 ∧ Bounded p.2) ?_ ?_
  · intro p hp
    obtain ⟨hstart, hempty⟩ := hp
    have howned : Owned hash Valid p.1 fun _ => [] := hstart.owned hA
    refine ⟨_, howned, ?_, ?_⟩
    · rw [hempty]
      exact howned.chains.represents
    · rw [hempty]
      intro k v hv
      cases hv
  · intro p r p' hinv hstep
    obtain ⟨ch, howned, hM, hbound⟩ := hinv
    obtain ⟨hsize, ⟨hh, fuel, resp, hrun⟩, hnext⟩ := hstep
    obtain ⟨ch', howned', _, hM'⟩ := serveWith_owned hA howned hM hh hrun
    rw [hnext]
    exact ⟨ch', howned', hM', hbound.serve hsize⟩

/-- A `GET` is answered from the map. -/
theorem serveWith_get (h : Owned hash Valid g ch) (hM : Represents hash ch M) (ht : r.type = .get)
    (hh : r.keyHash = hash r.key) {fuel : Nat} (hfuel : (ch (bucketOf r)).length < fuel) :
    ∃ g', serveWith (ghost A) r fuel g = .ok ((M.serve r).1, g') := by
  obtain ⟨s, hs⟩ : ∃ s : Nvm, s = { g.nvm with modifications := [] } := ⟨_, rfl⟩
  have hc : Chains hash s.mem g.live ch := by
    rw [hs]
    exact h.chains
  have hget := get_run hc hM ht hh hfuel
  have hclear : (ghost A).nvm (modify fun s => { s with modifications := [] }) g =
      .ok ((), { g with nvm := s }) := by
    rw [hs]
    rfl
  have hlift := (ghost_nvm_eq_ok (A := A) (g := { g with nvm := s })).mpr ⟨s, hget, rfl⟩
  refine ⟨{ g with nvm := s }, ?_⟩
  unfold serveWith Store.serve
  rw [bind_of_ok hclear, ht]
  show ((ghost A).nvm (get fuel r) >>= _) _ = _
  rw [bind_of_ok hlift]
  cases M r.key with
  | none => rfl
  | some v => rfl

/-- The answer to a `GET`: the value that is bound, or `ERROR` without a value. -/
theorem serve_get (M : Store) (ht : r.type = .get) :
    (M.serve r).1.type = .get ∧ (M.serve r).1.val = (M r.key).getD [] ∧
      ((M.serve r).1.status ≠ .ok → (M.serve r).1.val = []) := by
  unfold Store.serve
  rw [ht]
  cases M r.key with
  | none => exact ⟨rfl, rfl, fun _ => rfl⟩
  | some v => exact ⟨rfl, rfl, fun hne => absurd rfl hne⟩

theorem Bounded.length_le (h : Bounded M) (k : List UInt8) :
    ((M k).getD []).length ≤ kMaxItemSize := by
  cases hv : M k with
  | none => exact Nat.zero_le _
  | some v =>
    have := h k v hv
    show v.length ≤ kMaxItemSize
    omega

/-- **Requests and values survive the wire.** The server reads the request that was sent, its
    object needs a block that `Alloc` does not refuse, and a `GET` returns what is stored under
    its key, or nothing. -/
theorem survives_wire (hA : A.Spec Valid) (hhash : ∀ k, hash k < 18446744073709551616)
    (h : Reachable (Started Valid) (Served hash A) p) (t : RequestType) (key : List UInt8)
    (val : Option (List UInt8)) (hitem : key.length + (val.getD []).length ≤ kMaxItemSize)
    (sb rb sb' rb' : Buffer) (grh grh' : List UInt8)
    (hsb : sb.size = Client.kSendBufSize) (hrb : rb.size = Nvds.kRecvBufSize)
    (hsb' : sb'.size = Nvds.kSendBufSize) (hrb' : rb'.size = Client.kRecvBufSize)
    (hgrh : grh.length = kIBUDPadding) (hgrh' : grh'.length = kIBUDPadding) :
    ∃ msg b₁ r b₂, sendRequest t key val (hash key) sb = .ok (msg, b₁) ∧
      receiveRequest grh msg rb = .ok (r, b₂) ∧
      (r.type = t ∧ r.key = key ∧ r.val = val.getD [] ∧ r.keyHash = hash key) ∧
      (∃ n, n ≤ kMaxBlockSize ∧
        roundupBlockSize (u32 (offsetofData + r.key.length + r.val.length + 4)) = pure n) ∧
      (t = .get → ∃ n, ∀ fuel, n ≤ fuel → ∃ resp g' msg' b₃ b₄,
        serveWith (ghost A) r fuel p.1 = .ok (resp, g') ∧
        sendResponse resp sb' = .ok (msg', b₃) ∧
        receiveValue grh' msg' rb' = .ok ((p.2 key).getD [], b₄)) := by
  obtain ⟨msg, b₁, r, b₂, hsend, hrecv, hfields⟩ :=
    request_survives (t := t) hitem (hhash key) hsb hrb hgrh
  obtain ⟨ht, hkey, hval, hh⟩ := hfields
  obtain ⟨ch, howned, hM, hbound⟩ := reached_represents hA h
  refine ⟨msg, b₁, r, b₂, hsend, hrecv, ⟨ht, hkey, hval, hh⟩, ?_, ?_⟩
  · rw [kMaxItemSize_eq] at hitem
    rw [hkey, hval, offsetofData_eq, u32_of_lt (by omega)]
    refine ⟨_, ?_, if_pos (by rw [kMaxBlockSize_eq]; omega)⟩
    rw [kMaxBlockSize_eq]
    omega
  -- the answer of a `GET`: the handler returns, and its bytes reach the client
  · intro hget
    refine ⟨(ch (bucketOf r)).length + 1, ?_⟩
    intro fuel hfuel
    have htype : r.type = .get := ht.trans hget
    have hhash' : r.keyHash = hash r.key := by rw [hh, hkey]
    obtain ⟨g', hserve⟩ := serveWith_get (A := A) howned hM htype hhash' hfuel
    obtain ⟨hresp, hbytes, hempty⟩ := serve_get p.2 htype
    rw [hkey] at hbytes
    obtain ⟨msg', b₃, b₄, hback, hvalue⟩ := value_survives hresp hempty
      (by rw [hbytes]; exact hbound.length_le key) hsb' hrb' hgrh'
    rw [hbytes] at hvalue
    exact ⟨_, g', msg', b₃, b₄, hserve, hback, hvalue⟩

theorem firstByte_lt (k : List UInt8) : firstByte k < 18446744073709551616 := by
  have := (k.headD 0).toNat_lt
  unfold firstByte
  omega

/-- A buffer of zeros. -/
def zeros (n : Nat) : Buffer := ⟨n, fun _ => 0⟩

/-- A value is put and got back over the wire. -/
theorem survives_wire_item : ∃ p r fuel resp g' msg msg' b₁ b₂ b₃ b₄,
    Reachable (Started HeapWith) (Served firstByte mended) p ∧ p.2 [1] = some [2, 3] ∧
    sendRequest .get [1] none 1 (zeros Client.kSendBufSize) = .ok (msg, b₁) ∧
    receiveRequest (List.replicate 40 7) msg (zeros Nvds.kRecvBufSize) = .ok (r, b₂) ∧
    serveWith (ghost mended) r fuel p.1 = .ok (resp, g') ∧
    sendResponse resp (zeros Nvds.kSendBufSize) = .ok (msg', b₃) ∧
    receiveValue (List.replicate 40 7) msg' (zeros Client.kRecvBufSize) = .ok ([2, 3], b₄) := by
  have hpass : (serveWith (ghost mended) (item .put) 2 freshGhost).isOk = true := by
    decide +kernel
  cases hrun : serveWith (ghost mended) (item .put) 2 freshGhost with
  | error e =>
    rw [hrun] at hpass
    cases hpass
  | ok y =>
    obtain ⟨resp₀, g⟩ := y
    -- after one `PUT` a client asks for the value
    have hstep : Served firstByte mended (freshGhost, fun _ => none) (item .put)
        (g, (Store.serve (fun _ => none) (item .put)).2) :=
      ⟨by decide, ⟨by decide, 2, resp₀, hrun⟩, rfl⟩
    have hinit : Started HeapWith (freshGhost, fun _ => none) := ⟨start_freshGhost, rfl⟩
    have hreach := Reachable.step (item .put) (.init hinit) hstep
    obtain ⟨msg, b₁, r, b₂, hsend, hrecv, _, _, hget⟩ := survives_wire mended_spec firstByte_lt
      hreach .get [1] none (by decide) (zeros _) (zeros _) (zeros _) (zeros _)
      (List.replicate 40 7) (List.replicate 40 7) rfl rfl rfl rfl rfl rfl
    obtain ⟨fuel, hfuel⟩ := hget rfl
    obtain ⟨resp, g', msg', b₃, b₄, hserve, hback, hvalue⟩ := hfuel fuel le_rfl
    exact ⟨_, r, fuel, resp, g', msg, msg', b₁, b₂, b₃, b₄, hreach, rfl, hsend, hrecv, hserve,
      hback, hvalue⟩

end Client

end Nvds
