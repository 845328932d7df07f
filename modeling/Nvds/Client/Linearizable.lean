import Nvds.Client.Stages

/-! # The cluster is linearizable

    Whatever the clients call at the same time, what they get back is what
    one map returns that is asked one call after another, in an order that
    keeps to real time: a call takes effect when its request arrives at the
    server.
-/

open ByteMemory Transition
open Nvds.Cluster Nvds.Serving
open Linearizability (Event Sees Linearizes Linearizable)

namespace Nvds.Client

variable {P : Type} {c : Config} {S : Setting P c} {s s' : Sys P c}
  {ts : Fin c.kNumServers → Fin c.kNumTabletsPerServer → Tablet.Replicated}
  {im : IndexManager c} {op : Op} {r : Request} {n : Node} {d : Datagram} {p q : P} {rb : Nat}

/-! ### The whole system -/

/-- The part of the client `p`. -/
def Sys.client [DecidableEq P] (S : Setting P c) (s : Sys P c) (ops : List (P × Op)) (p : P) :
    Local where
  sees := Sees mapObject s.history ops p
  node := s.node p
  flying := s.flying.filter fun d => d.src = S.self p
  responses := responsesTo s.cluster.log (S.self p)
  delivered := deliveredTo s.delivered (S.self p)

/-- All servers and clients have joined, and no two of them have the same address. The tablets
    of a server do not overlap. -/
structure Setting.Formed (S : Setting P c) : Prop where
  fit : c.TabletsFit
  length : S.joins.length = c.kNumServers
  servers : ∀ i, Deployment.HasJoined S.joins i (S.server i)
  views : ∀ p, AllJoined S.joins (S.view p)
  addresses : (S.joins.map fun x => x.2.ibAddr).Nodup
  clients : Function.Injective S.self

/-- An idle client can call. -/
theorem Setting.Formed.exists_begin (hS : S.Formed) (p : P) (op : Op) (hn : n.Idle)
    (hsize : op.size ≤ kMaxItemSize) (hlt : keyIndex c (hash op.key) < c.kNumTablets) :
    ∃ n' d, n.begin (S.view p) (S.self p) op = some (n', d) := by
  cases hrun : n.begin (S.view p) (S.self p) op with
  | none =>
    rcases hn.begin_none (hS.views p) hS.length hrun with h | h
    · exact absurd hsize (not_le.mpr h)
    · exact absurd hlt (not_lt.mpr h)
  | some x => exact ⟨x.1, x.2, rfl⟩

/-- The operations `ops` took effect when their requests arrived. -/
def Took (ops : List (P × Op)) (log : List (Request × Address)) : Prop :=
  List.Forall₂ (fun x e => Carries x.2 e.1 ∧ x.2.size ≤ kMaxItemSize) ops log

variable {ops : List (P × Op)} {log : List (Request × Address)}

theorem Took.items (h : Took ops log) : ∀ e ∈ log, Tablet.Item Nvds.hash e.1 := by
  induction h with
  | nil =>
    intro e he
    cases he
  | cons hx _ ih =>
    intro e he
    rcases List.mem_cons.mp he with rfl | he
    · exact hx.1.item hx.2
    · exact ih e he

theorem Took.foldl_eq (h : Took ops log) (M : Tablet.Store) :
    ops.foldl (fun M x => (mapObject.act x.2 M).2) M =
      log.foldl (fun M e => ((Tablet.storeObject Address).step M e).2) M := by
  induction h generalizing M with
  | nil => rfl
  | cons hx _ ih =>
    rw [List.foldl_cons, List.foldl_cons, ih, Tablet.storeObject_step]
    show List.foldl _ (Op.act _ M).2 _ = _
    rw [hx.1.act]

/-- Both are the same map. -/
theorem Took.after_eq (h : Took ops log) : mapObject.after ops = mapAfter log :=
  h.foldl_eq _

/-- Where everything is, after the operations `ops` took effect. -/
structure Inv [DecidableEq P] (S : Setting P c)
    (ts : Fin c.kNumServers → Fin c.kNumTabletsPerServer → Tablet.Replicated) (s : Sys P c)
    (ops : List (P × Op)) : Prop where
  cluster : Reachable (Deployment.Initial ts) (Deployment.Step S.joins S.server S.fuel) s.cluster
  linearizes : Linearizes mapObject s.history ops
  took : Took ops s.cluster.log
  flying : ∀ d ∈ s.flying, ∃ p, d.src = S.self p
  client : ∀ p, (s.client S ops p).Inv (S.view p)

/-- In every tablet, the blocks that were freed were freed cleanly. -/
def CleanSoFar (S : Setting P c)
    (ts : Fin c.kNumServers → Fin c.kNumTabletsPerServer → Tablet.Replicated) (s : Sys P c) :
    Prop :=
  ∀ i w, CleanServes S.fuel (ts i w) ((s.cluster.servers i).executed w)

theorem cleanServes_of_prefix {fuel : Nat} {es es' : List (Request × Address)}
    {t : Tablet.Replicated} (hle : es <+: es') (h : CleanServes fuel t es') :
    CleanServes fuel t es := by
  obtain ⟨rest, rfl⟩ := hle
  induction es generalizing t with
  | nil => trivial
  | cons e es ih => exact ⟨h.1, fun resp t' hrun => ih (h.2 resp t' hrun)⟩

/-- A worker does not take back what it executed. -/
theorem executed_prefix {m : Nat} {Req Resp T : Type} {sv : Service m Req Resp T}
    {x x' : Serving.State m Req Resp T} {l : Serving.Label m Req} (h : sv.step x l = some x')
    (w : Fin m) : x.executed w <+: x'.executed w := by
  cases (Serving.step_cases h).2 with
  | @executed v =>
    by_cases hv : w = v
    · subst hv
      simp only [Function.update_self]
      exact List.prefix_append _ _
    · simp only [Function.update_of_ne hv]
      exact List.prefix_rfl
  | _ => exact List.prefix_rfl

section run

variable [DecidableEq P]

theorem CleanSoFar.of_step {lbl : Label P c} (h : CleanSoFar S ts s') (hstep : Step S s lbl s') :
    CleanSoFar S ts s := by
  have hserver : ∀ {i : Fin c.kNumServers} {l : Serving.Label c.kNumTabletsPerServer Request}
      {x : Serving.State c.kNumTabletsPerServer Request Response Tablet.Replicated},
      (S.service i).step (s.cluster.servers i) l = some x → ∀ j w,
      (s.cluster.servers j).executed w <+:
        (Function.update s.cluster.servers i x j).executed w := by
    intro i l x hrun j w
    by_cases hj : j = i
    · subst hj
      rw [Function.update_self]
      exact executed_prefix hrun w
    · rw [Function.update_of_ne hj]
  -- only the steps of servers execute anything
  intro i w
  cases hstep with
  | arrive _ _ _ _ _ _ hrun => exact cleanServes_of_prefix (hserver hrun i w) (h i w)
  | work _ hrun => exact cleanServes_of_prefix (hserver hrun i w) (h i w)
  | _ => exact h i w

/-- A client does not notice what leaves its own part as it is. -/
theorem Inv.other {ops' : List (P × Op)} (h : Inv S ts s ops)
    (hsees : Sees mapObject s'.history ops' q = Sees mapObject s.history ops q)
    (hnode : s'.node q = s.node q)
    (hflying : (s'.flying.filter fun d => d.src = S.self q) =
      s.flying.filter fun d => d.src = S.self q)
    (hresponses : responsesTo s'.cluster.log (S.self q) = responsesTo s.cluster.log (S.self q))
    (hdelivered : deliveredTo s'.delivered (S.self q) = deliveredTo s.delivered (S.self q)) :
    (s'.client S ops' q).Inv (S.view q) := by
  have hsame : s'.client S ops' q = s.client S ops q := by
    unfold Sys.client
    rw [hsees, hnode, hflying, hresponses, hdelivered]
  rw [hsame]
  exact h.client q

/-! ### What one step does -/

/-- A client that is called. -/
theorem Inv.call (h : Inv S ts s ops) (hS : S.Formed) (hpc : (s.node p).pc = .idle)
    (hrun : (s.node p).begin (S.view p) (S.self p) op = some (n, d)) :
    Inv S ts { s with
      node := Function.update s.node p n
      flying := s.flying ++ [d]
      history := s.history ++ [.call p op] } ops := by
  obtain ⟨hidle, hsees, hfly, hresp⟩ := (h.client p).of_idle hpc
  obtain ⟨hsrc, hsent, hpc', hnext, hsr, hrr, hrq, hrcq⟩ := hidle.begin_some hrun
  refine ⟨h.cluster, h.linearizes.call hsees op, h.took, ?_, ?_⟩
  · intro d' hd'
    rcases List.mem_append.mp hd' with hd' | hd'
    · exact h.flying d' hd'
    · rw [List.mem_singleton.mp hd']
      exact ⟨p, hsrc⟩
  · intro q
    -- the request is the only message of this client that is on its way
    by_cases hq : q = p
    · subst hq
      have hfly' : ((s.flying ++ [d]).filter fun d => d.src = S.self q) = [d] := by
        rw [List.filter_append]
        exact (congrArg (· ++ _) hfly).trans (by simp [hsrc])
      refine .sending (by simpa [Sys.client] using hpc') (.flying (hsees.call op) hfly' hsent
        (by simpa [Sys.client] using hrq) (by simpa [Sys.client] using hrcq) hresp) ?_ ?_ ?_ ?_
      · simp [Sys.client, hsr, hnext]
      · simpa [Sys.client, hnext] using hidle.sendPool
      · simp [Sys.client, hrr, hnext]
      · simpa [Sys.client, hnext] using hidle.recvPool
    · have hne : d.src ≠ S.self q := by
        rw [hsrc]
        exact fun heq => hq (hS.clients heq).symm
      exact h.other (Linearizability.sees_event_ne (Ne.symm hq))
        (Function.update_of_ne hq _ _) (by simp [hne]) rfl rfl

/-- A call that is refused. -/
theorem Inv.fail (h : Inv S ts s ops) (hS : S.Formed) (hpc : (s.node p).pc = .idle)
    (hrun : (s.node p).begin (S.view p) (S.self p) op = none) :
    Inv S ts { s with
      node := Function.update s.node p { s.node p with pc := .failed op }
      history := s.history ++ [.call p op] } ops := by
  obtain ⟨hidle, hsees, hfly, hresp⟩ := (h.client p).of_idle hpc
  have hrefused := hidle.begin_none (hS.views p) hS.length hrun
  refine ⟨h.cluster, h.linearizes.call hsees op, h.took, h.flying, ?_⟩
  intro q
  by_cases hq : q = p
  · subst hq
    refine .failed ?_ hrefused (hsees.call op) hfly hresp
    simp [Sys.client]
  · exact h.other (Linearizability.sees_event_ne (Ne.symm hq))
      (Function.update_of_ne hq _ _) rfl rfl rfl

/-- A send that completes. -/
theorem Inv.sent {sb : Nat} (h : Inv S ts s ops) (hpc : (s.node p).pc = .sending op sb rb) :
    Inv S ts { s with node := Function.update s.node p ((s.node p).sent op sb rb) } ops := by
  refine ⟨h.cluster, h.linearizes, h.took, h.flying, ?_⟩
  intro q
  by_cases hq : q = p
  · subst hq
    have hsent := (h.client q).sent hpc
    simpa [Sys.client] using hsent
  · exact h.other rfl (Function.update_of_ne hq _ _) rfl rfl rfl

/-- A call that returns. -/
theorem Inv.ret {v : Option Returned} (h : Inv S ts s ops)
    (hpc : (s.node p).pc = .receiving op rb) (hrun : (s.node p).finish op rb = some (n, v)) :
    ∃ r, v = some r ∧ Inv S ts { s with
      node := Function.update s.node p n
      history := s.history ++ [.ret p r] } ops := by
  obtain ⟨r, hv, hsees, hfly, hresp, hpc', hidle⟩ := (h.client p).finish hpc hrun
  refine ⟨r, hv, h.cluster, h.linearizes.ret hsees, h.took, h.flying, ?_⟩
  intro q
  by_cases hq : q = p
  · subst hq
    refine .idle ?_ ?_ hsees.ret hfly hresp
    · simpa [Sys.client] using hpc'
    · simpa [Sys.client] using hidle
  · exact h.other (Linearizability.sees_event_ne (Ne.symm hq))
      (Function.update_of_ne hq _ _) rfl rfl rfl

/-- **A request that arrives** takes effect. -/
theorem Inv.arrive (h : Inv S ts s ops) (hS : S.Formed) {i : Fin c.kNumServers}
    {grh : List UInt8} {b b' : Buffer} {wc : WorkCompletion}
    {x : Serving.State c.kNumTabletsPerServer Request Response Tablet.Replicated}
    (hd : d ∈ s.flying) (hi : S.addressOf i = some d.dst) (hwc : wc.peerAddr = d.src)
    (hgrh : grh.length = kIBUDPadding) (hb : b.size = Nvds.kRecvBufSize)
    (hrecv : receiveRequest grh d.msg b = .ok (r, b'))
    (hrun : (S.service i).step (s.cluster.servers i) (.receive wc r) = some x) :
    ∃ p op, Inv S ts { s with
      cluster := ⟨Function.update s.cluster.servers i x, s.cluster.log ++ [(r, wc.peerAddr)]⟩
      flying := s.flying.erase d } (ops ++ [(p, op)]) := by
  obtain ⟨p, hsrc⟩ := h.flying d hd
  -- it is the request of this client's call
  have hmem : d ∈ (s.client S ops p).flying := by
    simp [Sys.client, hd, hsrc]
  have hbusy : ¬ (s.client S ops p).Quiet := fun hquiet => List.ne_nil_of_mem hmem hquiet.1
  obtain ⟨op, _, hstage⟩ := (h.client p).stage hbusy
  obtain ⟨hfly, hsees, hsent, _⟩ := hstage.of_flying hmem
  -- the server reads what the client sent, and is the one with the key
  have hcarries := hsent.carries hgrh hb hrecv
  have haddr := hsent.addressed hS.length (hS.views p) hS.addresses hi hcarries
  rw [hwc, hsrc]
  have hcluster := h.cluster.step i (Deployment.Step.arrive haddr hrun)
  rw [hwc, hsrc] at hcluster
  have htook : Took (ops ++ [(p, op)]) (s.cluster.log ++ [(r, S.self p)]) :=
    List.rel_append h.took (.cons ⟨hcarries, hsent.size⟩ .nil)
  -- this is where the operation takes effect
  refine ⟨p, op, hcluster, h.linearizes.point hsees, htook, ?_, ?_⟩
  · intro d' hd'
    exact h.flying d' (List.mem_of_mem_erase hd')
  · intro q
    by_cases hq : q = p
    · subst hq
      obtain ⟨resp, hresp⟩ : ∃ resp, resp = ((mapAfter s.cluster.log).serve r).1 := ⟨_, rfl⟩
      -- what the map answers is what the call is to return, and it fits into a buffer
      have hbound : Bounded (mapAfter s.cluster.log) :=
        bounded_after fun e he => (h.took.items e he).size
      obtain ⟨hanswer, htype⟩ := isAnswer_serve hbound r
      have hact : (mapObject.act op (mapAfter s.cluster.log)).1 = answerOf op.type resp := by
        rw [hresp]
        exact congrArg Prod.fst (hcarries.act _)
      have htaken := hsees.point
      rw [h.took.after_eq, hact] at htaken
      rw [← hresp] at hanswer htype
      have hnone : (s.flying.erase d).filter (fun d => d.src = S.self q) = [] := by
        rw [← List.erase_filter]
        exact (congrArg (fun ds => List.erase ds d) hfly).trans (by simp)
      -- the call still waits, now for this answer
      refine (h.client q).change hbusy rfl rfl rfl rfl ?_
      intro op' rb hst
      obtain ⟨_, hsees', _, hrq, hrcq, hdone⟩ := hst.of_flying hmem
      obtain rfl := hsees.called_inj hsees'
      refine .served htaken hnone hanswer (htype.trans hcarries.type) hrq hrcq ?_
      show responsesTo (s.cluster.log ++ [(r, S.self q)]) (S.self q) = _
      rw [responsesTo_append, if_pos rfl, ← hresp]
      exact congrArg (· ++ [resp]) hdone
    -- the request is not from `q`
    · have hself : S.self p ≠ S.self q := fun heq => hq (hS.clients heq).symm
      have hother : d ∉ s.flying.filter fun d => d.src = S.self q := by
        simp [hsrc, hself]
      exact h.other (Linearizability.sees_point_ne (Ne.symm hq)) rfl
        (by rw [← List.erase_filter, List.erase_of_not_mem hother])
        (by rw [responsesTo_append, if_neg hself, List.append_nil]) rfl

/-- Another step of a server. -/
theorem Inv.work (h : Inv S ts s ops) {i : Fin c.kNumServers}
    {l : Serving.Label c.kNumTabletsPerServer Request}
    {x : Serving.State c.kNumTabletsPerServer Request Response Tablet.Replicated}
    (hl : ∀ wc r, l ≠ .receive wc r)
    (hrun : (S.service i).step (s.cluster.servers i) l = some x) :
    Inv S ts { s with
      cluster := ⟨Function.update s.cluster.servers i x, s.cluster.log⟩ } ops :=
  ⟨h.cluster.step i (.work hl hrun), h.linearizes, h.took, h.flying, h.client⟩

/-- **A response that arrives** is that to the client's own call. -/
theorem Inv.respond (h : Inv S ts s ops) (hS : S.Formed)
    (hone : s.cluster.OneStore Nvds.hash S.server) {resp : Response} {sb sb' : Buffer}
    {grh msg : List UInt8}
    (hlt : s.delivered.count (resp, S.self p) < postedCount s.cluster (resp, S.self p))
    (hsb : sb.size = Nvds.kSendBufSize) (hsend : sendResponse resp sb = .ok (msg, sb'))
    (hgrh : grh.length = kIBUDPadding) (hrun : (s.node p).arrive grh msg = some n) :
    Inv S ts { s with
      node := Function.update s.node p n
      delivered := s.delivered ++ [(resp, S.self p)] } ops := by
  refine ⟨h.cluster, h.linearizes, h.took, h.flying, ?_⟩
  intro q
  by_cases hq : q = p
  · subst hq
    -- the client waits, since nothing is posted for one that does not
    have hne : (s.client S ops q).responses ≠ (s.client S ops q).delivered :=
      fun heq => no_response hone heq hlt
    obtain ⟨hpc, hnext, hsr, hrr⟩ := Node.arrive_keeps hrun
    refine (h.client q).change (fun hquiet => hne hquiet.2) ?_ ?_ ?_ ?_ ?_
    · simpa [Sys.client] using hpc
    · simpa [Sys.client] using hnext
    · simpa [Sys.client] using hsr
    · simpa [Sys.client] using hrr
    · intro op rb hst
      cases hst with
      | flying _ _ _ _ _ hresp => exact absurd hresp hne
      | answered _ _ _ _ _ hresp => exact absurd hresp hne
      | @served own hsees hfly hanswer htype hrq hrcq hresp =>
        -- all earlier responses were delivered, so it is the one that is missing
        obtain rfl := next_response hone hlt hresp
        obtain ⟨hrq', hrcq', b, hread⟩ :=
          Node.arrive_answer hrq hrcq hanswer hsb hsend hgrh hrun
        rw [htype] at hread
        refine .answered hsees hfly ?_ ?_ (by simpa [Sys.client] using hread) ?_
        · simpa [Sys.client] using hrq'
        · simpa [Sys.client] using hrcq'
        · show responsesTo s.cluster.log (S.self q) =
            deliveredTo (s.delivered ++ [(resp, S.self q)]) (S.self q)
          rw [deliveredTo_append, if_pos rfl]
          exact hresp
  · have hself : S.self p ≠ S.self q := fun heq => hq (hS.clients heq).symm
    exact h.other rfl (Function.update_of_ne hq _ _) rfl rfl
      (by rw [deliveredTo_append, if_neg hself, List.append_nil])

/-- At first everything is idle. -/
theorem Inv.init (h : s.Initial ts) : Inv S ts s [] := by
  have hlog := h.cluster.log
  refine ⟨.init h.cluster, ?_, ?_, ?_, ?_⟩
  · rw [h.history]
    exact Linearizability.linearizes_nil
  · rw [hlog]
    exact .nil
  · intro d hd
    rw [h.network.1] at hd
    cases hd
  · intro p
    refine .idle (h.node p).pc (h.node p).idle ?_ ?_ ?_
    · show Sees mapObject s.history [] p .idle
      rw [h.history]
      rfl
    · show s.flying.filter _ = []
      rw [h.network.1]
      rfl
    · show responsesTo s.cluster.log (S.self p) = deliveredTo s.delivered (S.self p)
      rw [hlog, h.network.2]
      rfl

/-- Every step keeps the invariant, as long as blocks are freed cleanly. -/
theorem Inv.step {lbl : Label P c} (h : Inv S ts s ops) (hS : S.Formed)
    (hfresh : ∀ i w, Tablet.FreshTablet (ts i w).master) (hclean : CleanSoFar S ts s)
    (hstep : Step S s lbl s') : ∃ ops', Inv S ts s' ops' := by
  cases hstep with
  | call hpc hrun => exact ⟨ops, h.call hS hpc hrun⟩
  | fail hpc hrun => exact ⟨ops, h.fail hS hpc hrun⟩
  | sent hpc => exact ⟨ops, h.sent hpc⟩
  | ret hpc hrun =>
    obtain ⟨_, hr, h'⟩ := h.ret hpc hrun
    cases hr
    exact ⟨ops, h'⟩
  | abort hpc hrun =>
    -- the assertion that would fail holds
    obtain ⟨_, hr, _⟩ := h.ret hpc hrun
    cases hr
  | arrive hd hi hwc hgrh hb hrecv hrun =>
    obtain ⟨p, op, h'⟩ := h.arrive hS hd hi hwc hgrh hb hrecv hrun
    exact ⟨_, h'⟩
  | work hl hrun => exact ⟨ops, h.work hl hrun⟩
  | respond hlt hsb hsend hgrh hrun =>
    have hinv := Deployment.inv_of_reachable hS.length h.cluster
    have hone := hinv.oneStore hS.fit hS.length hS.servers hfresh h.took.items hclean
    exact ⟨ops, h.respond hS hone hlt hsb hsend hgrh hrun⟩

theorem inv_of_reachable (hS : S.Formed) (hfresh : ∀ i w, Tablet.FreshTablet (ts i w).master)
    (h : Reachable (Sys.Initial ts) (Step S) s) (hclean : CleanSoFar S ts s) :
    ∃ ops, Inv S ts s ops := by
  induction h with
  | init h => exact ⟨[], .init h⟩
  | step l _ hstep ih =>
    -- what was freed before this step was freed cleanly too
    have hbefore := hclean.of_step hstep
    obtain ⟨ops, hinv⟩ := ih hbefore
    exact hinv.step hS hfresh hbefore hstep

/-! ### Calls that go through -/

/-- A server goes on by itself. -/
theorem reachable_work {i : Fin c.kNumServers}
    {ls : List (Serving.Label c.kNumTabletsPerServer Request)}
    {x : Serving.State c.kNumTabletsPerServer Request Response Tablet.Replicated}
    (h : Reachable (Sys.Initial ts) (Step S) s) (hls : ∀ wc r, .receive wc r ∉ ls)
    (hrun : (S.service i).run (s.cluster.servers i) ls = some x) :
    Reachable (Sys.Initial ts) (Step S) { s with
      cluster := ⟨Function.update s.cluster.servers i x, s.cluster.log⟩ } := by
  induction ls generalizing s with
  | nil =>
    cases hrun
    rw [Function.update_eq_self]
    exact h
  | cons l ls ih =>
    rw [Service.run] at hrun
    split at hrun
    · cases hrun
    · next x₁ hstep =>
      have hl : ∀ wc r, l ≠ .receive wc r :=
        fun wc r heq => hls wc r (heq ▸ List.mem_cons_self)
      have hnext := h.step (.work i) (.work hl hstep)
      have hrest := ih hnext (fun wc r hmem => hls wc r (List.mem_cons_of_mem _ hmem))
        (by simpa using hrun)
      simpa using hrest

/-- It receives a request, executes it and posts the response. -/
theorem reachable_answered {i : Fin c.kNumServers}
    {w : Fin c.kNumTabletsPerServer} {b k : Nat} {resp : Response} {t : Tablet.Replicated}
    (h : Reachable (Sys.Initial ts) (Step S) s) (hd : d ∈ s.flying)
    (hsent : Sent im op d) (hi : S.addressOf i = some d.dst) (hsrc : d.src = sender)
    (hquiet : Quiet k (s.cluster.servers i)) (hb : b ∈ (s.cluster.servers i).rq) (hb0 : b ≠ 0)
    (hroot : (s.cluster.servers i).sendRoot ≠ 0) (hr : Carries op r)
    (hroute : (S.service i).route r = some w)
    (hexec : (S.service i).execute ((s.cluster.servers i).tablet w) r = some (resp, t)) :
    Reachable (Sys.Initial ts) (Step S) { s with
      cluster := ⟨Function.update s.cluster.servers i
        ((s.cluster.servers i).answered b w r resp t), s.cluster.log ++ [(r, sender)]⟩
      flying := s.flying.erase d } := by
  have hgrh : (List.replicate kIBUDPadding (0 : UInt8)).length = kIBUDPadding :=
    List.length_replicate
  obtain ⟨r', b', hrecv, hr'⟩ : ∃ r' b', receiveRequest (List.replicate kIBUDPadding 0) d.msg
      ⟨Nvds.kRecvBufSize, fun _ => 0⟩ = .ok (r', b') ∧ Carries op r' :=
    hsent.received hgrh rfl
  obtain rfl := hr.unique hr'
  have hround := run_append (run_takenUp hquiet hb hb0 hroute) (run_answered hquiet hb0 hroot hexec)
  -- the first step receives the request, the others are the server's own
  rw [List.cons_append, Service.run] at hround
  split at hround
  · cases hround
  · next x hstep =>
    have hwc : WorkCompletion.peerAddr ⟨b, 1, 1⟩ = d.src := hsrc.symm
    have harrived := h.step (.arrive i) (.arrive hd hi hwc hgrh rfl hrecv hstep)
    have hx : Function.update s.cluster.servers i x i = x := by rw [Function.update_self]
    rw [← hx] at hround
    have hdone := reachable_work harrived (by simp) hround
    rw [Function.update_idem] at hdone
    exact hdone

/-- The client gets the response. -/
theorem reachable_responded {resp : Response} {sb rb : Nat}
    (h : Reachable (Sys.Initial ts) (Step S) s) (hpc : (s.node p).pc = .sending op sb rb)
    (hrq : (s.node p).rq = [rb]) (hrcq : (s.node p).rcq = []) (hanswer : IsAnswer resp)
    (htype : resp.type = op.type)
    (hlt : s.delivered.count (resp, S.self p) < postedCount s.cluster (resp, S.self p)) :
    ∃ n n', Reachable (Sys.Initial ts) (Step S) { s with
      node := Function.update s.node p n
      delivered := s.delivered ++ [(resp, S.self p)] } ∧ n.pc = .receiving op rb ∧
      n.finish op rb = some (n', some (answerOf op.type resp)) := by
  have hsb : (⟨Nvds.kSendBufSize, fun _ => 0⟩ : Buffer).size = Nvds.kSendBufSize := rfl
  have hgrh : (List.replicate kIBUDPadding (0 : UInt8)).length = kIBUDPadding :=
    List.length_replicate
  -- the send completes, and the response arrives
  let n₁ := (s.node p).sent op sb rb
  have hsent := h.step (.sent p) (.sent hpc)
  have hrq₁ : n₁.rq = [rb] := hrq
  have hrcq₁ : n₁.rcq = [] := hrcq
  obtain ⟨msg, _, n₂, hsend, harrive⟩ := Node.arrive_run hrq₁ hanswer hsb hgrh
  have hpc₂ : n₂.pc = .receiving op rb := (Node.arrive_keeps harrive).1
  obtain ⟨_, hrcq₂, _, hread⟩ :=
    Node.arrive_answer hrq₁ hrcq₁ hanswer hsb hsend hgrh harrive
  have hgot := Reachable.step (.respond p) hsent (.respond (n := n₂) (by exact hlt) hsb hsend hgrh
    (by simpa using harrive))
  -- `Receive` has the buffer
  rw [htype] at hread
  obtain ⟨n₃, hfinish⟩ := Node.finish_run hrcq₂ hread
  exact ⟨n₂, n₃, by simpa using hgot, hpc₂, hfinish⟩

/-! ### The result -/

/-- The clients get what they asked for. -/
structure WellServed (s : Sys P c) : Prop where
  /-- The calls are those of one map, in an order that keeps to real time. -/
  linearizable : Linearizable mapObject s.history
  /-- No assertion fails in a call for an item that is not too large and that a server has. -/
  failed : ∀ p op, (s.node p).pc = .failed op → Refused c op
  /-- After each call all buffers are back, none is posted and no response is left over. -/
  idle : ∀ p, (s.node p).pc = .idle → (s.node p).Idle

/-- **The cluster is linearizable.** Servers and clients that have joined a complete cluster,
    whatever the clients call at the same time, and however the steps of clients, servers and
    network are interleaved. -/
theorem cluster_linearizable (hS : S.Formed)
    (hfresh : ∀ i w, Tablet.FreshTablet (ts i w).master)
    (h : Reachable (Sys.Initial ts) (Step S) s) (hclean : CleanSoFar S ts s) : WellServed s := by
  obtain ⟨ops, hinv⟩ := inv_of_reachable hS hfresh h hclean
  refine ⟨⟨ops, hinv.linearizes⟩, ?_, ?_⟩
  · exact fun p op hpc => (hinv.client p).of_failed hpc
  · exact fun p hpc => ((hinv.client p).of_idle hpc).1

/-- All requests were received and executed, and all responses delivered. -/
structure Sys.Settled (s : Sys P c) : Prop where
  flying : s.flying = []
  servers : ∀ i w, (s.cluster.servers i).worker w = .poll ∧
    ((s.cluster.servers i).wq w).head = 0 ∧ (s.cluster.servers i).waiting = []
  delivered : ∀ m, postedCount s.cluster m ≤ s.delivered.count m

/-- **No call hangs.** Once all requests were received and executed and all responses delivered,
    a client that waits has the response to its own call, and `Receive` returns. -/
theorem call_returns (hS : S.Formed) (hfresh : ∀ i w, Tablet.FreshTablet (ts i w).master)
    (h : Reachable (Sys.Initial ts) (Step S) s) (hclean : CleanSoFar S ts s) (hsettled : s.Settled)
    (hpc : (s.node p).pc = .receiving op rb) :
    ∃ n v, (s.node p).finish op rb = some (n, some v) := by
  obtain ⟨ops, hinv⟩ := inv_of_reachable hS hfresh h hclean
  have hone := (Deployment.inv_of_reachable hS.length hinv.cluster).oneStore hS.fit hS.length
    hS.servers hfresh hinv.took.items hclean
  have hall : ∀ i w, (s.cluster.servers i).posted w =
      Deployment.answersOf Nvds.hash c (i * c.kNumTabletsPerServer + w) s.cluster.log := by
    intro i w
    obtain ⟨hworker, hhead, hwaiting⟩ := hsettled.servers i w
    refine hone.complete i w hworker hhead fun e he => ?_
    rw [hwaiting] at he
    cases he
  cases hinv.client p with
  | idle hpc' => exact absurd (hpc.symm.trans hpc') (by simp)
  | sending hpc' => exact absurd (hpc.symm.trans hpc') (by simp)
  | failed hpc' => exact absurd (hpc.symm.trans hpc') (by simp)
  | receiving hpc' hst =>
    cases hpc.symm.trans hpc'
    cases hst with
    | flying _ hfly =>
      have hnil : s.flying.filter (fun d => d.src = S.self p) = [] := by
        rw [hsettled.flying]
        rfl
      cases hnil.symm.trans hfly
    | @served resp _ _ _ _ _ _ hresp =>
      -- the response was posted, and so it was delivered
      have hle := (le_postedCount hone hall resp (S.self p)).trans (hsettled.delivered _)
      have heq : responsesTo s.cluster.log (S.self p) =
        deliveredTo s.delivered (S.self p) ++ [resp] := hresp
      rw [heq, count_delivered, List.count_append, List.count_singleton_self] at hle
      omega
    | answered _ _ _ hrcq hread =>
      obtain ⟨n, hfinish⟩ := Node.finish_run hrcq hread
      exact ⟨n, _, hfinish⟩

end run

/-- A client with nothing in its buffers. -/
def freshNode : Node where
  next := RegisteredBuffers.link recvBase kMaxIBQueueDepth
    (RegisteredBuffers.link sendBase kMaxIBQueueDepth fun _ => 0)
  sendRoot := sendBase
  recvRoot := recvBase
  buf := fun _ _ => 0
  rq := []
  rcq := []
  pc := .idle

theorem freshNode_fresh : freshNode.Fresh := ⟨⟨fun _ => 0, rfl⟩, rfl, rfl, rfl, rfl, rfl⟩

/-- The two servers of the shipped configuration. -/
def shippedHosts (i : Fin shipped.kNumServers) : String × Host shipped :=
  ("10.0.0.1", hostOf shipped i)

/-- The servers have joined, and two clients have their index. -/
theorem exists_formed : ∃ S : Setting (Fin 2) shipped,
    S.Formed ∧ S.fuel = 2 ∧ S.self 0 = sender := by
  have hlen := length_joinsOf shippedHosts
  obtain ⟨im, _, hall⟩ := addServers_run hlen.le (joinsOf_wellFormed _) (unset shipped)
  choose server hrun _ using fun i => joinResponse_run (by decide) hall i
  refine ⟨⟨joinsOf shippedHosts, server, 2, fun p => ⟨kPort, 1, 1 + p⟩, fun _ => im⟩,
    ⟨tabletsFit_shipped, hlen, ?_, ?_, ?_, ?_⟩, rfl, rfl⟩
  · exact fun i => ⟨_, im, hall, hrun i⟩
  · exact fun _ => hall
  · show ((joinsOf shippedHosts).map fun x => x.2.ibAddr).Nodup
    decide
  · intro p q heq
    have hqpn : 1 + p.val = 1 + q.val := congrArg Address.qpn heq
    exact Fin.ext (by omega)

/-- The request of `Put`, for the key `[1]` and the value `[2]`. -/
def firstPut : Request := ⟨.put, [1], [2], hash [1], by decide, by decide, hash_lt _⟩

theorem carries_firstPut : Carries (.put [1] [2]) firstPut := ⟨rfl, rfl, rfl, rfl⟩

theorem clean_firstPut (w : Fin shipped.kNumTabletsPerServer) :
    Tablet.Clean (blankTablets w).master.mem firstPut := by
  refine ⟨fun _ p hp => ?_, fun ht => by cases ht⟩
  -- nothing is replaced, since the bucket is empty
  refine absurd hp (Tablet.not_inChain ?_)
  exact (Tablet.Region.tableZero_iff 0 _).mp (fun _ _ => rfl) _ (Tablet.bucketOf_lt _)

theorem exec_firstPut : ∃ t, executeOn 2 (blankTablets firstWorker) firstPut =
    some (⟨.put, .ok, []⟩, t) := by
  have hexec : (executeOn 2 (blankTablets firstWorker) firstPut).map (fun x => x.1) =
      some ⟨.put, .ok, []⟩ := by
    decide +kernel
  obtain ⟨x, hx, hresp⟩ := Option.map_eq_some_iff.mp hexec
  exact ⟨x.2, by rw [hx, ← hresp]⟩

/-- The first server, the one with the key. -/
def firstHost : Fin shipped.kNumServers := ⟨0, shipped.servers_pos⟩

theorem keyIndex_firstPut : keyIndex shipped (hash [1]) =
    0 * shipped.kNumTabletsPerServer + 0 := by
  decide +kernel

theorem route_firstPut {S : Setting (Fin 2) shipped} (hS : S.Formed) :
    (S.service firstHost).route firstPut = some firstWorker := by
  have hlt : keyIndex shipped firstPut.keyHash < shipped.kNumTablets := by decide +kernel
  have hworker := (Deployment.workerOf_eq (w := firstWorker) hS.length (hS.servers firstHost)
    hlt).mpr (congrArg (· % _) keyIndex_firstPut)
  exact hworker

/-- The request gets there. -/
theorem Sent.addressOf_firstHost {S : Setting (Fin 2) shipped} {p : Fin 2} (hS : S.Formed)
    (h : Sent (S.view p) (.put [1] [2]) d) : S.addressOf firstHost = some d.dst := by
  obtain ⟨server, hserver, hdst⟩ := h.dst
  obtain ⟨_, server', hserver', hid⟩ := (hS.views p).home hS.length shipped.servers_pos
    shipped.tablets_pos keyIndex_firstPut
  have hsame := hserver.symm.trans hserver'
  cases hsame
  rw [hdst]
  exact (Setting.addressOf_eq hS.length (hS.views p) hserver).2 firstHost hid.symm

/-- The response to it. -/
def firstAnswer : Response := ⟨.put, .ok, []⟩

/-- The put of the first client was answered, and that is all that happened. -/
structure Answered (S : Setting (Fin 2) shipped) (s : Sys (Fin 2) shipped) (sb rb : Nat) :
    Prop where
  reach : Reachable (Sys.Initial fun _ => blankTablets) (Step S) s
  clean : CleanSoFar S (fun _ => blankTablets) s
  history : s.history = [.call 0 (.put [1] [2])]
  network : s.flying = [] ∧ s.delivered = []
  pc : (s.node 0).pc = .sending (.put [1] [2]) sb rb
  queues : (s.node 0).rq = [rb] ∧ (s.node 0).rcq = []
  other : s.node 1 = freshNode
  servers : ∀ i w, (s.cluster.servers i).worker w = .poll ∧
    ((s.cluster.servers i).wq w).head = 0 ∧ (s.cluster.servers i).waiting = []
  posted : ∀ i w, (s.cluster.servers i).posted w =
    if i = firstHost then [(firstAnswer, S.self 0)] else []

theorem exists_answered : ∃ S s sb rb, S.Formed ∧ Answered S s sb rb := by
  obtain ⟨S, hS, hfuel, hself⟩ := exists_formed
  obtain ⟨x, hpolls, hquiet, htablet, hrecord⟩ :=
    exists_quiet_zero (S.service firstHost) init_blank
  -- the server starts
  let servers := Function.update (fun _ => blank) firstHost x
  have h₀ : Reachable (Sys.Initial fun _ => blankTablets) (Step S)
      ⟨⟨fun _ => blank, []⟩, fun _ => freshNode, [], [], []⟩ :=
    .init ⟨⟨fun _ => init_blank, rfl⟩, fun _ => freshNode_fresh, ⟨rfl, rfl⟩, rfl⟩
  have h₁ : Reachable _ (Step S) ⟨⟨servers, []⟩, fun _ => freshNode, [], [], []⟩ :=
    reachable_work h₀ (by simp) hpolls
  -- the client calls
  have hidle := freshNode_fresh.idle
  obtain ⟨n, d, hput⟩ := hS.exists_begin 0 (.put [1] [2]) hidle (by decide) (by decide +kernel)
  let nodes := Function.update (fun _ : Fin 2 => freshNode) 0 n
  have h₂ : Reachable _ (Step S) ⟨⟨servers, []⟩, nodes, [d], [], [.call 0 (.put [1] [2])]⟩ :=
    h₁.step (.call 0 (.put [1] [2])) (.call rfl hput)
  obtain ⟨hsrc, hsent, hpc, _, _, _, hrq, hrcq⟩ := hidle.begin_some hput
  -- the request arrives at its server, and is answered
  have hx : servers firstHost = x := Function.update_self ..
  obtain ⟨_, hc⟩ := (Sound.init init_blank).run hpolls
  obtain ⟨b, hb, hb0⟩ := hquiet.exists_posted hc
  have hroot := hquiet.sendRoot_ne_zero hc (by decide)
  obtain ⟨t, hexec⟩ := exec_firstPut
  rw [← htablet, ← hfuel] at hexec
  rw [← hx] at hquiet hb hroot hexec
  let served := Function.update servers firstHost
    ((servers firstHost).answered b firstWorker firstPut firstAnswer t)
  have h₃ : Reachable (Sys.Initial fun _ => blankTablets) (Step S)
      ⟨⟨served, [(firstPut, sender)]⟩, nodes, [d].erase d, [], [.call 0 (.put [1] [2])]⟩ :=
    reachable_answered h₂ List.mem_cons_self hsent (hsent.addressOf_firstHost hS)
      (hsrc.trans hself) hquiet hb hb0 hroot carries_firstPut (route_firstPut hS) hexec
  have hother : ∀ i, i ≠ firstHost → served i = blank := by
    intro i hi
    simp [hi, served, servers]
  have hfirst : served firstHost = x.answered b firstWorker firstPut firstAnswer t := by
    simp [served, hx]
  have hworker : ∀ w : Fin shipped.kNumTabletsPerServer, w = firstWorker :=
    fun w => Fin.ext (Nat.lt_one_iff.mp w.isLt)
  rw [hx] at hquiet
  refine ⟨S, _, _, _, hS, h₃, ?_, rfl, ⟨by simp, rfl⟩, hpc, ⟨hrq, hrcq⟩, rfl, ?_, ?_⟩
  · -- only this request was executed
    intro i w
    show CleanServes S.fuel (blankTablets w) ((served i).executed w)
    rw [hfuel]
    by_cases hi : i = firstHost
    · have hone : (served i).executed w = [(firstPut, sender)] := by
        rw [hi, hfirst, hworker w]
        simp [State.answered, (hrecord firstWorker).2.1]
      rw [hone]
      exact ⟨clean_firstPut w, fun _ _ _ => trivial⟩
    · rw [hother i hi]
      trivial
  · intro i w
    show (served i).worker w = _ ∧ ((served i).wq w).head = 0 ∧ (served i).waiting = []
    by_cases hi : i = firstHost
    · have hdone : Quiet 1 (served firstHost) := by
        rw [hfirst]
        exact hquiet.answered
      rw [hi]
      refine ⟨hdone.worker w, hdone.wq w, ?_⟩
      rw [State.waiting, hdone.poller, hdone.rcq]
      rfl
    · rw [hother i hi]
      exact ⟨rfl, rfl, rfl⟩
  · intro i w
    show (served i).posted w = _
    by_cases hi : i = firstHost
    · rw [if_pos hi, hi, hfirst, hworker w, hself]
      simp [State.answered, (hrecord firstWorker).2.2]
    · rw [if_neg hi, hother i hi]
      rfl

/-- The answer is all that was posted. -/
theorem Answered.postedCount_eq {S : Setting (Fin 2) shipped} {s : Sys (Fin 2) shipped}
    {sb rb : Nat} (h : Answered S s sb rb) (m : Response × Address) :
    postedCount s.cluster m = [(firstAnswer, S.self 0)].count m := by
  have hworker : ∀ w : Fin shipped.kNumTabletsPerServer, w = firstWorker :=
    fun w => Fin.ext (Nat.lt_one_iff.mp w.isLt)
  unfold postedCount
  rw [Finset.sum_eq_single (firstHost, firstWorker)]
  · rw [h.posted, if_pos rfl]
  · intro x _ hx
    have hi : x.1 ≠ firstHost := fun hi => hx (Prod.ext hi (hworker x.2))
    rw [h.posted, if_neg hi, List.count_nil]
  · exact fun hno => absurd (Finset.mem_univ _) hno

theorem Answered.undelivered {S : Setting (Fin 2) shipped} {s : Sys (Fin 2) shipped} {sb rb : Nat}
    (h : Answered S s sb rb) : s.delivered.count (firstAnswer, S.self 0) <
      postedCount s.cluster (firstAnswer, S.self 0) := by
  rw [h.network.2, h.postedCount_eq]
  simp

theorem isAnswer_firstAnswer : IsAnswer firstAnswer := ⟨fun hne => absurd rfl hne, Nat.zero_le _⟩

/-- The other client asks for a value while the put goes on. -/
theorem cluster_linearizable_two : ∃ s : Sys (Fin 2) shipped,
    s.history = [.call 0 (.put [1] [2]), .call 1 (.get [1]), .ret 0 (.flag true)] ∧
      WellServed s := by
  obtain ⟨S, s, sb, rb, hS, ha⟩ := exists_answered
  obtain ⟨n', d', hget⟩ :=
    hS.exists_begin 1 (.get [1]) freshNode_fresh.idle (by decide) (by decide +kernel)
  rw [← ha.other] at hget
  have hidle : (s.node 1).pc = .idle := by
    rw [ha.other]
    rfl
  have h₁ := ha.reach.step (.call 1 (.get [1])) (.call hidle hget)
  have hnode : Function.update s.node 1 n' 0 = s.node 0 := Function.update_of_ne (by decide) _ _
  have hsending := ha.pc
  obtain ⟨hrq, hrcq⟩ := ha.queues
  rw [← hnode] at hsending hrq hrcq
  obtain ⟨n, _, h₂, hpc, hfinish⟩ :=
    reachable_responded h₁ hsending hrq hrcq isAnswer_firstAnswer rfl ha.undelivered
  have h₃ := h₂.step (.ret 0) (.ret (by simpa using hpc) (by simpa using hfinish))
  refine ⟨_, ?_, cluster_linearizable hS (fun _ => fresh_blank) h₃ ha.clean⟩
  show s.history ++ _ ++ _ = _
  rw [ha.history]
  rfl

/-- Before the put returns. -/
theorem call_returns_put : ∃ (s : Sys (Fin 2) shipped) (rb : Nat) (n : Node) (v : Returned),
    (s.node 0).pc = .receiving (.put [1] [2]) rb ∧
      (s.node 0).finish (.put [1] [2]) rb = some (n, some v) := by
  obtain ⟨S, s, sb, rb, hS, ha⟩ := exists_answered
  obtain ⟨n, _, h₁, hpc, _⟩ := reachable_responded ha.reach ha.pc ha.queues.1 ha.queues.2
    isAnswer_firstAnswer rfl ha.undelivered
  have hnode : Function.update s.node 0 n 0 = n := Function.update_self ..
  rw [← hnode] at hpc
  have hdelivered : ∀ m, postedCount s.cluster m ≤
      (s.delivered ++ [(firstAnswer, S.self 0)]).count m := by
    intro m
    rw [ha.network.2, ha.postedCount_eq, List.nil_append]
  obtain ⟨n', v, hfinish⟩ := call_returns hS (fun _ => fresh_blank) h₁ ha.clean
    ⟨ha.network.1, ha.servers, hdelivered⟩ hpc
  exact ⟨_, rb, n', v, hpc, hfinish⟩

end Nvds.Client
