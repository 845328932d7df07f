import Nvds.Client.Deliveries

/-! # Where the request of a call is

    A client that is in a call waits for one response, in a buffer that it
    has posted. Its request is on its way, or at a server, or answered. What
    the client, the network and the servers do takes it from one of these
    stages to the next.
-/

open Arrays ByteMemory Program LinkedList
open Nvds.Cluster Nvds.Serving

namespace Nvds.Client

variable {P : Type} {c : Config} {S : Setting P c} {im : IndexManager c} {op : Op} {r : Request}
  {n n' : Node} {self : Address} {d : Datagram}

/-! ### The request of a call -/

/-- The datagram `d` is the request of the call `op`, for the server with the key. -/
structure Sent (im : IndexManager c) (op : Op) (d : Datagram) : Prop where
  size : op.size ≤ kMaxItemSize
  dst : ∃ server, im.getServerOf (hash op.key) = .ok server ∧ d.dst = server.ibAddr
  msg : ∃ sb sb', sb.size = Client.kSendBufSize ∧
    sendRequest op.type op.key op.val (hash op.key) sb = .ok (d.msg, sb')

/-- No server has the key, or the item is too large. -/
def Refused (c : Config) (op : Op) : Prop :=
  kMaxItemSize < op.size ∨ c.kNumTablets ≤ keyIndex c (hash op.key)

/-- The server reads the request that was sent. -/
theorem Sent.received (h : Sent im op d) {grh : List UInt8} {rb : Buffer}
    (hgrh : grh.length = kIBUDPadding) (hrb : rb.size = Nvds.kRecvBufSize) :
    ∃ r rb', receiveRequest grh d.msg rb = .ok (r, rb') ∧ Carries op r := by
  obtain ⟨sb, sb', hsb, hsend⟩ := h.msg
  obtain ⟨msg, _, r, rb', hsend', hrecv, ht, hk, hv, hh⟩ :=
    request_survives (t := op.type) h.size (hash_lt op.key) hsb hrb hgrh
  -- it is the same message
  rw [hsend] at hsend'
  cases hsend'
  exact ⟨r, rb', hrecv, ht, hk, hv, hh⟩

theorem Sent.carries (h : Sent im op d) {grh : List UInt8} {rb rb' : Buffer}
    (hgrh : grh.length = kIBUDPadding) (hrb : rb.size = Nvds.kRecvBufSize)
    (hrun : receiveRequest grh d.msg rb = .ok (r, rb')) : Carries op r := by
  obtain ⟨_, _, hrecv, hcarries⟩ := h.received hgrh hrb
  rw [hrun] at hrecv
  cases hrecv
  exact hcarries

theorem Carries.item (h : Carries op r) (hsize : op.size ≤ kMaxItemSize) :
    Tablet.Item Nvds.hash r := by
  constructor
  · rw [h.hash, h.key]
  · rw [h.key, h.val]
    exact hsize

/-- The server that the index gives is the one with its id. -/
theorem getServer_of_getServerOf {keyHash : Nat} {server : ServerInfo c}
    (h : im.getServerOf keyHash = .ok server) : im.getServer server.id = .ok server := by
  unfold IndexManager.getServerOf at h
  obtain ⟨id, _, h⟩ := bind_eq_ok.mp h
  obtain ⟨server', hserver, h⟩ := bind_eq_ok.mp h
  obtain ⟨_, hcheck, h⟩ := bind_eq_ok.mp h
  cases h
  unfold Cluster.check at hcheck
  split at hcheck
  · next hid =>
    rw [hid]
    exact hserver
  · cases hcheck

/-- The address in the index is that of the server. -/
theorem Setting.addressOf_eq (hlen : S.joins.length = c.kNumServers) (hall : AllJoined S.joins im)
    {keyHash : Nat} {server : ServerInfo c} (h : im.getServerOf keyHash = .ok server) :
    server.id < c.kNumServers ∧ ∀ i : Fin c.kNumServers, i.val = server.id →
      S.addressOf i = some server.ibAddr := by
  have hget := getServer_of_getServerOf h
  have hid : server.id < c.kNumServers := lt_of_read hget
  refine ⟨hid, fun i hi => ?_⟩
  have hjoin : server.id < S.joins.length := by
    rw [hlen]
    exact hid
  obtain ⟨server', hget', _, _, _, hib⟩ := (hall server.id hjoin).server
  rw [hget] at hget'
  cases hget'
  rw [Setting.addressOf, hi, List.getElem?_eq_getElem hjoin, hib]
  rfl

/-- A request gets to the server on which its key lives. -/
theorem Sent.addressed (h : Sent im op d) (hlen : S.joins.length = c.kNumServers)
    (hall : AllJoined S.joins im) (haddr : (S.joins.map fun x => x.2.ibAddr).Nodup)
    {i : Fin c.kNumServers} (hi : S.addressOf i = some d.dst)
    (hr : Carries op r) : Addressed S.joins r i := by
  obtain ⟨server, hserver, hdst⟩ := h.dst
  refine ⟨im, server, hall, by rw [hr.hash]; exact hserver, ?_⟩
  -- no other server joined under its address
  obtain ⟨hid, hown⟩ := Setting.addressOf_eq hlen hall hserver
  have hsame := (hown ⟨server.id, hid⟩ rfl).trans (congrArg some hdst.symm)
  rw [Setting.addressOf, ← List.getElem?_map] at hi hsame
  have hlt : i.val < (S.joins.map fun x => x.2.ibAddr).length := by
    rw [List.length_map, hlen]
    exact i.isLt
  exact ((List.getElem?_inj hlt haddr).mp (hi.trans hsame.symm)).symm

/-- A call that is not refused is sent. -/
theorem Node.begin_run (self : Address) (hs : Pooled n.next n.sendRoot sendBuffers)
    (hr : Pooled n.next n.recvRoot recvBuffers) (hsize : op.size ≤ kMaxItemSize)
    {server : ServerInfo c} (hserver : im.getServerOf (hash op.key) = .ok server) :
    ∃ msg b, n.begin im self op = some ({ n with
        sendRoot := n.next n.sendRoot
        recvRoot := n.next n.recvRoot
        buf := Function.update n.buf n.sendRoot b
        rq := n.rq ++ [n.recvRoot]
        pc := .sending op n.sendRoot n.recvRoot }, ⟨self, server.ibAddr, msg⟩) ∧
      Sent im op ⟨self, server.ibAddr, msg⟩ := by
  have hs0 := hs.root_ne_zero (by decide)
  have hr0 := hr.root_ne_zero (by decide)
  have hlen := hsize
  rw [Op.size, kMaxItemSize_eq] at hlen
  have hfits : 16 + op.key.length + (op.val.getD []).length ≤
      (⟨Client.kSendBufSize, n.buf n.sendRoot⟩ : Buffer).size := by
    show _ ≤ Client.kSendBufSize
    rw [Client.kSendBufSize]
    omega
  obtain ⟨m, b, hsend, _⟩ := sendRequest_run op.type (hash op.key) (by omega) (by omega) hfits
  generalize load m 0 _ = msg at hsend
  -- neither pool is empty, so that both assertions hold
  have hsend₀ : RegisteredBuffers.alloc n.next n.sendRoot = (n.sendRoot, n.next n.sendRoot) := by
    rw [RegisteredBuffers.alloc, if_pos hs0]
  have hrecv₀ : RegisteredBuffers.alloc n.next n.recvRoot = (n.recvRoot, n.next n.recvRoot) := by
    rw [RegisteredBuffers.alloc, if_pos hr0]
  refine ⟨msg, b.buf, ?_, hsize, ⟨server, hserver, rfl⟩, _, b, rfl, hsend⟩
  unfold begin
  rw [if_pos hsize, hserver]
  simp only [hsend₀, hrecv₀]
  rw [if_pos ⟨hs0, hr0⟩, hsend]

/-! ### Where a client stands -/

/-- What there is of one client in the whole system: how far it is with its calls, its state, its
    requests on their way, what the map answers to those that arrived, and what was delivered. -/
structure Local where
  sees : Linearizability.Status Op Returned → Prop
  node : Node
  flying : List Datagram
  responses : List Response
  delivered : List Response

/-- Where the request of a call is. -/
inductive Stage (im : IndexManager c) (l : Local) (op : Op) (rb : Nat) : Prop
  | flying {d : Datagram} : l.sees (.called op) → l.flying = [d] → Sent im op d →
      l.node.rq = [rb] → l.node.rcq = [] → l.responses = l.delivered → Stage im l op rb
  /-- It arrived, and is answered by `resp` sooner or later. -/
  | served {resp : Response} : l.sees (.taken op (answerOf op.type resp)) → l.flying = [] →
      IsAnswer resp → resp.type = op.type → l.node.rq = [rb] → l.node.rcq = [] →
      l.responses = l.delivered ++ [resp] → Stage im l op rb
  | answered {v : Returned} {b : Buffer} : l.sees (.taken op v) → l.flying = [] →
      l.node.rq = [] → l.node.rcq = [rb] →
      readAnswer op.type ⟨Client.kRecvBufSize, l.node.buf rb⟩ = .ok (v, b) →
      l.responses = l.delivered → Stage im l op rb

/-- Everything is back, and nothing is on its way. -/
structure Node.Idle (n : Node) : Prop where
  sendPool : Pooled n.next n.sendRoot sendBuffers
  recvPool : Pooled n.next n.recvRoot recvBuffers
  rq : n.rq = []
  rcq : n.rcq = []

inductive Local.Inv (im : IndexManager c) (l : Local) : Prop
  | idle : l.node.pc = .idle → l.node.Idle → l.sees .idle → l.flying = [] →
      l.responses = l.delivered → l.Inv im
  | sending {op : Op} {sb rb : Nat} : l.node.pc = .sending op sb rb → Stage im l op rb →
      l.node.sendRoot = l.node.next sb → Pooled l.node.next sb sendBuffers →
      l.node.recvRoot = l.node.next rb → Pooled l.node.next rb recvBuffers → l.Inv im
  | receiving {op : Op} {rb : Nat} : l.node.pc = .receiving op rb → Stage im l op rb →
      Pooled l.node.next l.node.sendRoot sendBuffers →
      l.node.recvRoot = l.node.next rb → Pooled l.node.next rb recvBuffers → l.Inv im
  | failed {op : Op} : l.node.pc = .failed op → Refused c op → l.sees (.called op) →
      l.flying = [] → l.responses = l.delivered → l.Inv im

variable {l : Local} {rb : Nat}

/-! ### The steps of one client -/

theorem Node.Fresh.idle (h : n.Fresh) : n.Idle := by
  obtain ⟨raw, hnext⟩ := h.next
  -- the receive buffers are linked after the send buffers, and apart from them
  refine ⟨⟨sendBuffers, ?_, List.Perm.refl _⟩, ⟨recvBuffers, ?_, List.Perm.refl _⟩, h.rq, h.rcq⟩
  · rw [h.sendRoot, hnext]
    exact seg_link_other (by decide) (by decide) (by decide) _
  · rw [h.recvRoot, hnext]
    exact seg_link (by decide) (by decide) _

/-- Nothing is on its way from the client or to it. -/
def Local.Quiet (l : Local) : Prop := l.flying = [] ∧ l.responses = l.delivered

/-- If something is, the client is in a call. -/
theorem Local.Inv.stage (h : l.Inv im) (hbusy : ¬ l.Quiet) : ∃ op rb, Stage im l op rb := by
  cases h with
  | idle _ _ _ hfly hresp => exact absurd ⟨hfly, hresp⟩ hbusy
  | failed _ _ _ hfly hresp => exact absurd ⟨hfly, hresp⟩ hbusy
  | sending _ hst => exact ⟨_, _, hst⟩
  | receiving _ hst => exact ⟨_, _, hst⟩

/-- The request of a client in flight is the only one, and its call has it. -/
theorem Stage.of_flying (h : Stage im l op rb) (hd : d ∈ l.flying) :
    l.flying = [d] ∧ l.sees (.called op) ∧ Sent im op d ∧ l.node.rq = [rb] ∧ l.node.rcq = [] ∧
      l.responses = l.delivered := by
  cases h with
  | flying h₁ h₂ h₃ h₄ h₅ h₆ =>
    rw [h₂] at hd
    rw [List.mem_singleton.mp hd]
    exact ⟨h₂, h₁, h₃, h₄, h₅, h₆⟩
  | served _ h₂ =>
    rw [h₂] at hd
    cases hd
  | answered _ h₂ =>
    rw [h₂] at hd
    cases hd

/-- What an idle client has. -/
theorem Local.Inv.of_idle (h : l.Inv im) (hpc : l.node.pc = .idle) :
    l.node.Idle ∧ l.sees .idle ∧ l.flying = [] ∧ l.responses = l.delivered := by
  cases h with
  | idle _ hidle hsees hfly hresp => exact ⟨hidle, hsees, hfly, hresp⟩
  | sending hpc' => exact absurd (hpc.symm.trans hpc') (by simp)
  | receiving hpc' => exact absurd (hpc.symm.trans hpc') (by simp)
  | failed hpc' => exact absurd (hpc.symm.trans hpc') (by simp)

/-- Only a call that is refused fails. -/
theorem Local.Inv.of_failed (h : l.Inv im) (hpc : l.node.pc = .failed op) : Refused c op := by
  cases h with
  | idle hpc' => exact absurd (hpc.symm.trans hpc') (by simp)
  | sending hpc' => exact absurd (hpc.symm.trans hpc') (by simp)
  | receiving hpc' => exact absurd (hpc.symm.trans hpc') (by simp)
  | failed hpc' hrefused =>
    cases hpc.symm.trans hpc'
    exact hrefused

/-- A client in a call goes on, with the same buffers, when its request does. -/
theorem Local.Inv.change {l' : Local} (h : l.Inv im)
    (hbusy : ¬ l.Quiet) (hpc : l'.node.pc = l.node.pc) (hnext : l'.node.next = l.node.next)
    (hsend : l'.node.sendRoot = l.node.sendRoot) (hrecv : l'.node.recvRoot = l.node.recvRoot)
    (hstage : ∀ op rb, Stage im l op rb → Stage im l' op rb) : l'.Inv im := by
  -- in the stages without a message nothing could have changed
  cases h with
  | idle _ _ _ hfly hresp => exact absurd ⟨hfly, hresp⟩ hbusy
  | failed _ _ _ hfly hresp => exact absurd ⟨hfly, hresp⟩ hbusy
  | sending hpc₀ hst hs hsp hr hrp =>
    refine .sending (hpc.trans hpc₀) (hstage _ _ hst) ?_ ?_ ?_ ?_
    · rw [hsend, hnext]
      exact hs
    · rw [hnext]
      exact hsp
    · rw [hrecv, hnext]
      exact hr
    · rw [hnext]
      exact hrp
  | receiving hpc₀ hst hsp hr hrp =>
    refine .receiving (hpc.trans hpc₀) (hstage _ _ hst) ?_ ?_ ?_
    · rw [hnext, hsend]
      exact hsp
    · rw [hrecv, hnext]
      exact hr
    · rw [hnext]
      exact hrp

/-- The send completes. -/
theorem Local.Inv.sent {sb : Nat} (h : l.Inv im) (hpc : l.node.pc = .sending op sb rb) :
    Local.Inv im { l with node := l.node.sent op sb rb } := by
  cases h with
  | idle hpc' => rw [hpc] at hpc'; cases hpc'
  | receiving hpc' => rw [hpc] at hpc'; cases hpc'
  | failed hpc' => rw [hpc] at hpc'; cases hpc'
  | sending hpc' hst hs hsp hr hrp =>
    rw [hpc] at hpc'
    cases hpc'
    -- `Free` puts the buffer back where it was
    have hnext : Function.update l.node.next sb l.node.sendRoot = l.node.next := by
      rw [hs]
      exact Function.update_eq_self _ _
    refine .receiving rfl ?_ ?_ ?_ ?_
    · cases hst with
      | flying h₁ h₂ h₃ h₄ h₅ h₆ => exact .flying h₁ h₂ h₃ h₄ h₅ h₆
      | served h₁ h₂ h₃ h₄ h₅ h₆ h₇ => exact .served h₁ h₂ h₃ h₄ h₅ h₆ h₇
      | answered h₁ h₂ h₃ h₄ h₅ h₆ => exact .answered h₁ h₂ h₃ h₄ h₅ h₆
    · show Pooled (Function.update l.node.next sb l.node.sendRoot) sb sendBuffers
      rw [hnext]
      exact hsp
    · show l.node.recvRoot = Function.update l.node.next sb l.node.sendRoot rb
      rw [hnext]
      exact hr
    · show Pooled (Function.update l.node.next sb l.node.sendRoot) rb recvBuffers
      rw [hnext]
      exact hrp

/-- A call returns: it has the response, and all buffers are back. -/
theorem Local.Inv.finish {v : Option Returned} (h : l.Inv im)
    (hpc : l.node.pc = .receiving op rb) (hrun : l.node.finish op rb = some (n, v)) :
    ∃ r, v = some r ∧ l.sees (.taken op r) ∧ l.flying = [] ∧ l.responses = l.delivered ∧
      n.pc = .idle ∧ n.Idle := by
  cases h with
  | idle hpc' => rw [hpc] at hpc'; cases hpc'
  | sending hpc' => rw [hpc] at hpc'; cases hpc'
  | failed hpc' => rw [hpc] at hpc'; cases hpc'
  | receiving hpc' hst hsp hr hrp =>
    rw [hpc] at hpc'
    cases hpc'
    unfold Node.finish at hrun
    -- `Receive` does not return before the response is there
    cases hst with
    | flying _ _ _ _ hrcq =>
      rw [hrcq] at hrun
      cases hrun
    | served _ _ _ _ _ hrcq =>
      rw [hrcq] at hrun
      cases hrun
    | answered hsees hfly hrq hrcq hread hresp =>
      rw [hrcq] at hrun
      simp only [if_true, hread, RegisteredBuffers.free] at hrun
      cases hrun
      -- the buffer is linked to the root again, as it was when it was taken
      have hnext : Function.update l.node.next rb l.node.recvRoot = l.node.next := by
        rw [hr]
        exact Function.update_eq_self _ _
      refine ⟨_, rfl, hsees, hfly, hresp, rfl, ?_, ?_, hrq, rfl⟩
      · show Pooled (Function.update l.node.next rb l.node.recvRoot) l.node.sendRoot sendBuffers
        rw [hnext]
        exact hsp
      · show Pooled (Function.update l.node.next rb l.node.recvRoot) rb recvBuffers
        rw [hnext]
        exact hrp

/-- The call of an idle client is sent. -/
theorem Node.Idle.begin_some (h : n.Idle) (hrun : n.begin im self op = some (n', d)) :
    d.src = self ∧ Sent im op d ∧ n'.pc = .sending op n.sendRoot n.recvRoot ∧
      n'.next = n.next ∧ n'.sendRoot = n.next n.sendRoot ∧ n'.recvRoot = n.next n.recvRoot ∧
      n'.rq = [n.recvRoot] ∧ n'.rcq = [] := by
  by_cases hsize : op.size ≤ kMaxItemSize
  · cases hserver : im.getServerOf (hash op.key) with
    | error e =>
      unfold begin at hrun
      rw [if_pos hsize, hserver] at hrun
      cases hrun
    | ok server =>
      obtain ⟨msg, b, hbegin, hsent⟩ :=
        begin_run self h.sendPool h.recvPool hsize hserver
      rw [hrun] at hbegin
      cases hbegin
      refine ⟨rfl, hsent, rfl, rfl, rfl, rfl, ?_, h.rcq⟩
      show n.rq ++ [n.recvRoot] = _
      rw [h.rq, List.nil_append]
  · unfold begin at hrun
    rw [if_neg hsize] at hrun
    cases hrun

/-- Otherwise it is refused. -/
theorem Node.Idle.begin_none (h : n.Idle) {joins : List (String × JoinBody)}
    (hall : AllJoined joins im) (hlen : joins.length = c.kNumServers)
    (hrun : n.begin im self op = none) : Refused c op := by
  by_contra hno
  obtain ⟨hsize, hlt⟩ := not_or.mp hno
  -- the index has a server for the key, and the pools have buffers
  obtain ⟨_, _, server, _, _, _, _, hserver⟩ := hall.lookup hlen (not_le.mp hlt)
  obtain ⟨msg, b, hbegin, _⟩ := Node.begin_run self h.sendPool h.recvPool
    (not_lt.mp hsize) hserver
  rw [hrun] at hbegin
  cases hbegin

/-- What arrives does not concern the pools, nor where the call stands. -/
theorem Node.arrive_keeps {grh msg : List UInt8} (h : n.arrive grh msg = some n') :
    n'.pc = n.pc ∧ n'.next = n.next ∧ n'.sendRoot = n.sendRoot ∧ n'.recvRoot = n.recvRoot := by
  unfold arrive at h
  split at h
  · cases h
    exact ⟨rfl, rfl, rfl, rfl⟩
  · split at h
    · cases h
    · cases h
      exact ⟨rfl, rfl, rfl, rfl⟩

/-- The response arrives in the only posted buffer, and says what the call is to return. -/
theorem Node.arrive_answer {grh msg : List UInt8} {resp : Response} {sb sb' : Buffer}
    (hrq : n.rq = [rb]) (hrcq : n.rcq = []) (hresp : IsAnswer resp)
    (hsb : sb.size = Nvds.kSendBufSize) (hsend : sendResponse resp sb = .ok (msg, sb'))
    (hgrh : grh.length = kIBUDPadding) (h : n.arrive grh msg = some n') :
    n'.rq = [] ∧ n'.rcq = [rb] ∧ ∃ b, readAnswer resp.type ⟨Client.kRecvBufSize, n'.buf rb⟩ =
      .ok (answerOf resp.type resp, b) := by
  have hsize : (⟨Client.kRecvBufSize, n.buf rb⟩ : Buffer).size = Client.kRecvBufSize := rfl
  obtain ⟨msg', _, m, hsend', hdel, hread⟩ := answer_survives hresp hsb hsize hgrh
  rw [hsend] at hsend'
  cases hsend'
  unfold arrive at h
  rw [hrq] at h
  dsimp only at h hdel hread
  rw [hdel] at h
  cases h
  refine ⟨rfl, ?_, ⟨Client.kRecvBufSize, m⟩, ?_⟩
  · show n.rcq ++ [rb] = [rb]
    rw [hrcq, List.nil_append]
  · show readAnswer resp.type ⟨Client.kRecvBufSize, Function.update n.buf rb m rb⟩ = _
    rw [Function.update_self]
    exact hread

/-- It fits into the buffer. -/
theorem Node.arrive_run {resp : Response} {sb : Buffer} {grh : List UInt8} (hrq : n.rq = [rb])
    (hresp : IsAnswer resp) (hsb : sb.size = Nvds.kSendBufSize)
    (hgrh : grh.length = kIBUDPadding) :
    ∃ msg sb' n', sendResponse resp sb = .ok (msg, sb') ∧ n.arrive grh msg = some n' := by
  have hsize : (⟨Client.kRecvBufSize, n.buf rb⟩ : Buffer).size = Client.kRecvBufSize := rfl
  obtain ⟨msg, sb', m, hsend, hdel, _⟩ := answer_survives hresp hsb hsize hgrh
  have hrun : ∃ n', n.arrive grh msg = some n' := by
    unfold arrive
    rw [hrq]
    dsimp only at hdel ⊢
    rw [hdel]
    exact ⟨_, rfl⟩
  obtain ⟨n', hrun⟩ := hrun
  exact ⟨msg, sb', n', hsend, hrun⟩

/-- Then the call returns. -/
theorem Node.finish_run {v : Returned} {b : Buffer} (hrcq : n.rcq = [rb])
    (hread : readAnswer op.type ⟨Client.kRecvBufSize, n.buf rb⟩ = .ok (v, b)) :
    ∃ n', n.finish op rb = some (n', some v) := by
  unfold finish
  rw [hrcq]
  dsimp only
  rw [if_pos rfl, hread]
  exact ⟨_, rfl⟩

end Nvds.Client
