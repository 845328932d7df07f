import Nvds.Client.Calls
import Nvds.Client.Wire

/-! # What a call gets back

    The four calls read the response out of the receive buffer: `Get` the
    value, the others the status. Whatever a tablet answers, the bytes that
    the server posts are read as this answer.
-/

open ByteMemory Program

namespace Nvds

theorem RequestType.code_inj {t t' : RequestType} (h : t.code = t'.code) : t = t' := by
  have hcode := congrArg RequestType.ofCode h
  rw [RequestType.ofCode_code, RequestType.ofCode_code] at hcode
  exact Option.some.inj hcode

theorem Status.code_eq_ok {s : Status} : s.code = Status.ok.code ↔ s = .ok := by
  cases s <;> decide

namespace Client

/-- What the call of type `t` returns for the response in `rb`. -/
def readAnswer (t : RequestType) : BufM Returned :=
  if t = .get then do
    let valLen ← fetch (kIBUDPadding + 2) 2
    let val ← fetch (kIBUDPadding + 4) (leValue valLen)
    pure (.text val)
  else do
    let status ← fetch (kIBUDPadding + 1) 1
    pure (.flag (decide (status = [Status.ok.code])))

/-- What it should return. -/
def answerOf (t : RequestType) (resp : Response) : Returned :=
  if t = .get then .text resp.val else .flag (decide (resp.status = .ok))

/-- The responses of a tablet: only a `GET` that succeeds has a value, a value that was stored. -/
structure IsAnswer (resp : Response) : Prop where
  value : resp.val ≠ [] → resp.type = .get ∧ resp.status = .ok
  size : resp.val.length ≤ kMaxItemSize

variable {b sb rb : Buffer} {resp : Response} {grh : List UInt8}

/-- A record arrives with all its fields. -/
theorem deliver_holds (rb : Buffer) {m : Mem} {n : Nat} {fs : List (Nat × List UInt8)}
    (h : Holds m 0 fs) (hin : ∀ f ∈ fs, f.1 + f.2.length ≤ n) (hgrh : grh.length = kIBUDPadding)
    (hsize : kIBUDPadding + n ≤ rb.size) :
    ∃ m', deliver grh (load m 0 n) rb = .ok ((), ⟨rb.size, m'⟩) ∧ Holds m' kIBUDPadding fs := by
  have hlen : (load m 0 n).length = n := length_load _ _ _
  obtain ⟨m', hdel, hcopy⟩ := deliver_run (b := rb) (load m 0 n) hgrh (by omega)
  rw [hlen] at hcopy
  exact ⟨m', hdel, h.copy hcopy hin⟩

/-! ### Responses without a value -/

/-- The fields that every response has. -/
def statusFields (resp : Response) : List (Nat × List UInt8) :=
  [(0, [resp.type.code]), (1, [resp.status.code])]

/-- What `Serve` leaves in the send buffer after a request other than `GET`. -/
theorem Response.new_status (htype : resp.type ≠ .get) (hsize : 4 ≤ b.size) :
    ∃ m, Response.new resp b = .ok ((), ⟨b.size, m⟩) ∧ Holds m 0 (statusFields resp) ∧
      load m 2 2 = leBytes 2 0 := by
  unfold Response.new
  rw [bind_of_ok (fill_run (by simp; omega)), bind_of_ok (fill_run (by simp; omega)),
    bind_of_ok (fill_run (by simp; omega)), if_neg fun h => htype h.1]
  refine ⟨_, fill_run (by simp; omega), ?_, ?_⟩
  · simp only [Holds, statusFields, List.forall_mem_cons, Nat.zero_add, List.not_mem_nil,
      false_implies, implies_true, and_true]
    constructor
    · show load _ 0 1 = _
      rw [load_store_disjoint (by simp), load_store_disjoint (by simp),
        load_store_disjoint (by simp)]
      exact load_store_same _ 0 [resp.type.code]
    · exact load_store_same _ 1 [resp.status.code]
  · rw [load_store_disjoint (by simp)]
    exact load_store_same _ 2 (leBytes 2 0)

/-- It is four bytes long. -/
theorem sendResponse_status (htype : resp.type ≠ .get) (hsize : 4 ≤ b.size) :
    ∃ m b', sendResponse resp b = .ok (load m 0 4, b') ∧ Holds m 0 (statusFields resp) := by
  obtain ⟨m, hnew, hholds, hlen⟩ := Response.new_status (b := b) htype hsize
  refine ⟨m, ⟨b.size, m⟩, ?_, hholds⟩
  have ht : fetch 0 1 ⟨b.size, m⟩ = .ok ([resp.type.code], ⟨b.size, m⟩) :=
    fetch_field (f := (0, [resp.type.code])) hholds (by simp [statusFields]) rfl (by simp; omega)
  have hv : fetch 2 2 ⟨b.size, m⟩ = .ok (leBytes 2 0, ⟨b.size, m⟩) := by
    rw [fetch_run (by simp; omega), hlen]
  have hne : [resp.type.code] ≠ [RequestType.get.code] := by
    intro h
    exact htype (RequestType.code_inj (List.singleton_inj.mp h))
  have hlen' : Response.len ⟨b.size, m⟩ = .ok (4, ⟨b.size, m⟩) := by
    unfold Response.len
    rw [bind_of_ok ht, bind_of_ok hv, pure_run, if_neg hne]
  unfold sendResponse
  rw [bind_of_ok hnew, bind_of_ok hlen', postSend]
  exact fetch_run hsize

/-- **A status survives the wire.** -/
theorem status_survives (htype : resp.type ≠ .get) (hsb : sb.size = Nvds.kSendBufSize)
    (hrb : rb.size = Client.kRecvBufSize) (hgrh : grh.length = kIBUDPadding) :
    ∃ msg sb' m, sendResponse resp sb = .ok (msg, sb') ∧
      deliver grh msg rb = .ok ((), ⟨rb.size, m⟩) ∧
      readAnswer resp.type ⟨rb.size, m⟩ = .ok (answerOf resp.type resp, ⟨rb.size, m⟩) := by
  rw [Nvds.kSendBufSize] at hsb
  rw [Client.kRecvBufSize] at hrb
  have hpad : kIBUDPadding = 40 := rfl
  obtain ⟨m, sb', hsend, hholds⟩ := sendResponse_status (b := sb) htype (by omega)
  have hin : ∀ f ∈ statusFields resp, f.1 + f.2.length ≤ 4 := by
    simp only [statusFields, List.forall_mem_cons, List.length_singleton, List.not_mem_nil,
      false_implies, implies_true, and_true]
    omega
  obtain ⟨m', hdel, hholds'⟩ := deliver_holds rb hholds hin hgrh (by omega)
  have hs : fetch (kIBUDPadding + 1) 1 ⟨rb.size, m'⟩ = .ok ([resp.status.code], ⟨rb.size, m'⟩) :=
    fetch_field (f := (1, [resp.status.code])) hholds' (by simp [statusFields]) rfl
      (by simp; omega)
  refine ⟨_, sb', m', hsend, hdel, ?_⟩
  unfold readAnswer answerOf
  rw [if_neg htype, if_neg htype, bind_of_ok hs, pure_run]
  simp only [List.singleton_inj, Status.code_eq_ok]

/-! ### All responses -/

/-- A value survives the wire, as the string that `Get` returns. -/
theorem text_survives (h : IsAnswer resp) (htype : resp.type = .get)
    (hsb : sb.size = Nvds.kSendBufSize) (hrb : rb.size = Client.kRecvBufSize)
    (hgrh : grh.length = kIBUDPadding) :
    ∃ msg sb' m, sendResponse resp sb = .ok (msg, sb') ∧
      deliver grh msg rb = .ok ((), ⟨rb.size, m⟩) ∧
      readAnswer .get ⟨rb.size, m⟩ = .ok (.text resp.val, ⟨rb.size, m⟩) := by
  have hval := h.size
  rw [kMaxItemSize_eq] at hval
  rw [Nvds.kSendBufSize] at hsb
  rw [Client.kRecvBufSize] at hrb
  have hpad : kIBUDPadding = 40 := rfl
  -- only a response with the status `OK` has a value
  have hempty : resp.status ≠ .ok → resp.val = [] := by
    intro hne
    by_contra hval
    exact hne (h.value hval).2
  obtain ⟨m, sb', hsend, hholds⟩ :=
    sendResponse_run (b := sb) htype hempty (by omega) (by omega)
  have hin : ∀ f ∈ responseFields resp.status resp.val, f.1 + f.2.length ≤ 4 + resp.val.length := by
    simp only [responseFields, List.forall_mem_cons, List.length_singleton, length_leBytes,
      List.not_mem_nil, false_implies, implies_true, and_true]
    omega
  obtain ⟨m', hdel, hholds'⟩ := deliver_holds rb hholds hin hgrh (by omega)
  have hv : fetch (kIBUDPadding + 2) 2 ⟨rb.size, m'⟩ =
      .ok (leBytes 2 resp.val.length, ⟨rb.size, m'⟩) :=
    fetch_field (f := (2, leBytes 2 resp.val.length)) hholds' (by simp [responseFields])
      (length_leBytes _ _) (by simp; omega)
  have hb : fetch (kIBUDPadding + 4) resp.val.length ⟨rb.size, m'⟩ =
      .ok (resp.val, ⟨rb.size, m'⟩) :=
    fetch_field (f := (4, resp.val)) hholds' (by simp [responseFields]) rfl (by simp; omega)
  refine ⟨_, sb', m', hsend, hdel, ?_⟩
  unfold readAnswer
  rw [if_pos rfl, bind_of_ok hv, leValue_length (by omega), bind_of_ok hb, pure_run]

/-- **An answer survives the wire**: the call returns what the tablet answered. -/
theorem answer_survives (h : IsAnswer resp) (hsb : sb.size = Nvds.kSendBufSize)
    (hrb : rb.size = Client.kRecvBufSize) (hgrh : grh.length = kIBUDPadding) :
    ∃ msg sb' m, sendResponse resp sb = .ok (msg, sb') ∧
      deliver grh msg rb = .ok ((), ⟨rb.size, m⟩) ∧
      readAnswer resp.type ⟨rb.size, m⟩ = .ok (answerOf resp.type resp, ⟨rb.size, m⟩) := by
  by_cases htype : resp.type = .get
  · rw [htype]
    exact text_survives h htype hsb hrb hgrh
  · exact status_survives htype hsb hrb hgrh

end Client

end Nvds
