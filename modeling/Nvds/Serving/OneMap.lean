import Nvds.Serving.Requests
import Nvds.Tablet.FiniteMap

/-! # The cluster is one finite map

    Each worker executes the requests for its tablet in the order in which
    they arrived, and its tablet answers as a finite map does. The key of a
    request alone decides which server and which worker get it. So the
    responses of all workers are those of one map that serves the requests
    in the order of their arrival, however the threads are interleaved.

    Every tablet has a memory of its own here. In the servers it is a part of
    one region, at an offset that is computed with 32 bits: the tablets of a
    server have to fit these, or else they overlap.
-/

open Arrays Transition
open Nvds.Cluster

namespace Nvds.Serving

variable {hash : List UInt8 → Nat} {fuel : Nat}

/-! ### One tablet -/

/-- In the execution of `es` one after another, every block that is freed is freed cleanly. -/
def CleanServes (fuel : Nat) : Tablet.Replicated → List (Request × Address) → Prop
  | _, [] => True
  | t, e :: es => Tablet.Clean t.master.mem e.1 ∧
    ∀ resp t', executeOn fuel t e.1 = some (resp, t') → CleanServes fuel t' es

/-- The tablet represents the map. -/
def Holds (hash : List UInt8 → Nat) (t : Tablet.Replicated) (M : Tablet.Store) : Prop :=
  ∃ σ ch, Tablet.TabletInv hash t.master.mem σ ch ∧ Tablet.Represents hash ch M

theorem holds_fresh {t : Tablet.Replicated} (h : Tablet.FreshTablet t.master) :
    Holds hash t fun _ => none :=
  ⟨_, _, Tablet.tabletInv_fresh hash h⟩

/-- A request that is executed is answered as by the map. -/
theorem Holds.execute {t t' : Tablet.Replicated} {M : Tablet.Store} {r : Request}
    {resp : Response} (h : Holds hash t M) (hr : Tablet.Item hash r)
    (hclean : Tablet.Clean t.master.mem r) (hrun : executeOn fuel t r = some (resp, t')) :
    resp = (M.serve r).1 ∧ Holds hash t' (M.serve r).2 := by
  obtain ⟨σ, ch, hinv, hM⟩ := h
  unfold executeOn at hrun
  split at hrun
  · cases hrun
  · next resp₁ s hserve =>
    cases hrun
    obtain ⟨hresp, σ', ch', hinv', hM'⟩ := Tablet.serve_agrees hinv hM hr hclean hserve
    refine ⟨hresp, σ', ch', ?_, hM'⟩
    rw [Tablet.sync_mem]
    exact hinv'

/-- So are all of them, one after another. -/
theorem Holds.answers {n : Nat} {sv : Service n Request Response Tablet.Replicated}
    (hsv : sv.execute = executeOn fuel) {es : List (Request × Address)} {t t' : Tablet.Replicated}
    {M : Tablet.Store} {resps : List (Response × Address)} (h : Holds hash t M)
    (hes : ∀ e ∈ es, Tablet.Item hash e.1) (hclean : CleanServes fuel t es)
    (hrun : sv.answers t es = some (resps, t')) :
    resps = ((Tablet.storeObject Address).history M es).map fun x => (x.2, x.1.2) := by
  induction es generalizing t M resps with
  | nil =>
    cases hrun
    rfl
  | cons e es ih =>
    obtain ⟨hfirst, hrest⟩ := hclean
    rw [Service.answers, hsv] at hrun
    split at hrun
    · cases hrun
    · next resp t₁ hexec =>
      split at hrun
      · cases hrun
      · next resps₁ t₂ hothers =>
        cases hrun
        obtain ⟨hresp, hholds⟩ := h.execute (hes e List.mem_cons_self) hfirst hexec
        have hes' : ∀ e ∈ es, Tablet.Item hash e.1 := fun e he => hes e (List.mem_cons_of_mem _ he)
        have htail := ih hholds hes' (hrest _ _ hexec) hothers
        rw [Keyed.Object.history, List.map_cons, Tablet.storeObject_step, ← hresp, htail]

/-! ### The worker of a key -/

section server

variable {c : Config} (server : Server c)

/-- The worker for a hash. -/
def workerOf (keyHash : Nat) : Option (Fin c.kNumTabletsPerServer) :=
  match server.dispatch keyHash with
  | .error _ => none
  | .ok (worker, _) => if h : worker < c.kNumTabletsPerServer then some ⟨worker, h⟩ else none

variable {server} {es : List (Request × Address)} {w : Fin c.kNumTabletsPerServer}

theorem routeOf_eq {r : Request} (hr : Tablet.Item hash r) :
    routeOf server r = workerOf server (hash r.key) := by
  rw [← hr.hash]
  rfl

/-- The requests for a worker are those with certain keys. -/
theorem requestsOf_eq (hes : ∀ e ∈ es, Tablet.Item hash e.1) :
    (Service.ofServer server fuel).requestsOf w es =
      es.filter fun e => workerOf server (hash e.1.key) = some w := by
  apply List.filter_congr
  intro e he
  rw [← routeOf_eq (hes e he)]
  rfl

/-- What one map answers to the requests for the worker `w`, if it serves all of `es`. -/
def answersFor (hash : List UInt8 → Nat) (server : Server c) (w : Fin c.kNumTabletsPerServer)
    (es : List (Request × Address)) : List (Response × Address) :=
  (((Tablet.storeObject Address).history (fun _ => none) es).filter fun x =>
    workerOf server (hash x.1.1.key) = some w).map fun x => (x.2, x.1.2)

/-- These are the answers to the requests for this worker alone. -/
theorem answersFor_eq (hes : ∀ e ∈ es, Tablet.Item hash e.1) : answersFor hash server w es =
    ((Tablet.storeObject Address).history (fun _ => none)
      ((Service.ofServer server fuel).requestsOf w es)).map fun x => (x.2, x.1.2) := by
  have hfilter := @Keyed.Object.history_filter _ _ _ _ _ (Tablet.storeObject Address)
    (fun _ => none) (fun _ => none) es (fun k => workerOf server (hash k) = some w) _
    fun _ _ => rfl
  rw [requestsOf_eq hes, answersFor]
  exact congrArg _ hfilter

/-! ### The whole server -/

/-- A worker executes the first of the requests that arrived for it. -/
theorem executed_first {n : Nat} {Req Resp T : Type} {sv : Service n Req Resp T} {ts : Fin n → T}
    {s : State n Req Resp T} (h : Reachable sv ts s) (w : Fin n) :
    s.executed w <+: sv.requestsOf w s.arrived := by
  obtain ⟨_, _, hserved⟩ := served_of_reachable h
  rw [hserved.arrived w, (hserved.inOrder w).dispatched, List.append_assoc]
  exact List.prefix_append _ _

/-- The server answers as one map. -/
structure OneMap (hash : List UInt8 → Nat) (server : Server c)
    (s : State c.kNumTabletsPerServer Request Response Tablet.Replicated)
    (w : Fin c.kNumTabletsPerServer) : Prop where
  /-- The responses posted so far are the first of those of the map to the requests for `w`. -/
  answers : s.posted w <+: answersFor hash server w s.arrived
  /-- They are all of them, if no request for `w` is on its way. -/
  complete : s.worker w = .poll → (s.wq w).head = 0 →
    (∀ e ∈ s.waiting, routeOf server e.1 ≠ some w) →
    s.posted w = answersFor hash server w s.arrived

/-- **A server is one finite map.** In every state of every run, the responses are those that
    one map gives when it serves the requests in the order of their arrival. -/
theorem server_is_one_map {ts : Fin c.kNumTabletsPerServer → Tablet.Replicated}
    {s : State c.kNumTabletsPerServer Request Response Tablet.Replicated}
    (h : Reachable (Service.ofServer server fuel) ts s)
    (hfresh : ∀ w, Tablet.FreshTablet (ts w).master)
    (hitems : ∀ e ∈ s.arrived, Tablet.Item hash e.1)
    (hclean : ∀ w, CleanServes fuel (ts w) (s.executed w)) (w : Fin c.kNumTabletsPerServer) :
    OneMap hash server s w := by
  obtain ⟨contents, hsound, hserved⟩ := served_of_reachable h
  obtain ⟨hdisp, hrun⟩ := hserved.inOrder w
  have hfirst := executed_first h w
  have hitems' : ∀ e ∈ s.executed w, Tablet.Item hash e.1 := fun e he =>
    hitems e (List.mem_of_mem_filter (hfirst.subset he))
  have hresps := (holds_fresh (hfresh w)).answers rfl hitems' (hclean w) hrun
  constructor
  · have hhistory : (Tablet.storeObject Address).history (fun _ => none) (s.executed w) <+:
        (Tablet.storeObject Address).history (fun _ => none)
          ((Service.ofServer server fuel).requestsOf w s.arrived) :=
      Keyed.Object.history_prefix hfirst
    have hle := hhistory.map fun x => (x.2, x.1.2)
    rw [← hresps] at hle
    rw [answersFor_eq hitems]
    exact (List.prefix_append _ _).trans hle
  · intro hpoll hqueue hwaiting
    -- nothing is left to dispatch, and nothing to execute
    have hempty : contents.queue w = [] := by
      apply (hsound.represents.dequeue_eq_zero w).mp
      rw [WorkQueue.dequeue, if_pos hqueue]
    have hall : s.dispatched w = s.executed w := by
      rw [hdisp, hpoll, hempty]
      exact List.append_nil _
    have hnone : (Service.ofServer server fuel).requestsOf w s.waiting = [] := by
      apply List.filter_eq_nil_iff.mpr
      intro e he hroute
      exact hwaiting e he (of_decide_eq_true hroute)
    rw [answersFor_eq hitems, hserved.arrived w, hnone, List.append_nil, hall, ← hresps, hpoll]
    exact (List.append_nil _).symm

end server

/-! ### All servers -/

section deployment

variable {c : Config} {joins : List (String × JoinBody)}

/-- The servers of the cluster, and the requests in the order in which they arrived. -/
structure Deployment (c : Config) where
  servers : Fin c.kNumServers → State c.kNumTabletsPerServer Request Response Tablet.Replicated
  log : List (Request × Address)

/-- A client that has an index into which all servers are entered sends `r` to server `i`. -/
def Addressed (joins : List (String × JoinBody)) (r : Request) (i : Fin c.kNumServers) : Prop :=
  ∃ (im : IndexManager c) (srv : ServerInfo c), AllJoined joins im ∧
    im.getServerOf r.keyHash = .ok srv ∧ srv.id = i

namespace Deployment

/-- No server has received a request. -/
structure Initial (ts : Fin c.kNumServers → Fin c.kNumTabletsPerServer → Tablet.Replicated)
    (s : Deployment c) : Prop where
  servers : ∀ i, Init (ts i) (s.servers i)
  log : s.log = []

/-- One of the servers takes a step. What arrives at it was sent to it. -/
inductive Step (joins : List (String × JoinBody)) (server : Fin c.kNumServers → Server c)
    (fuel : Nat) (s : Deployment c) (i : Fin c.kNumServers) : Deployment c → Prop
  | arrive {wc : WorkCompletion} {r : Request}
      {s' : State c.kNumTabletsPerServer Request Response Tablet.Replicated} :
      Addressed joins r i →
      (Service.ofServer (server i) fuel).step (s.servers i) (.receive wc r) = some s' →
      Step joins server fuel s i
        ⟨Function.update s.servers i s', s.log ++ [(r, wc.peerAddr)]⟩
  | work {l : Label c.kNumTabletsPerServer Request}
      {s' : State c.kNumTabletsPerServer Request Response Tablet.Replicated} :
      (∀ wc r, l ≠ .receive wc r) →
      (Service.ofServer (server i) fuel).step (s.servers i) l = some s' →
      Step joins server fuel s i ⟨Function.update s.servers i s', s.log⟩

end Deployment

/-- Only a receive changes what has arrived. -/
theorem arrived_of_step {n : Nat} {Req Resp T : Type} {sv : Service n Req Resp T}
    {s s' : State n Req Resp T} {l : Label n Req} (hl : ∀ wc r, l ≠ .receive wc r)
    (h : sv.step s l = some s') : s'.arrived = s.arrived := by
  cases (step_cases h).2 with
  | receive => exact absurd rfl (hl _ _)
  | _ => rfl

theorem arrived_of_receive {n : Nat} {Req Resp T : Type} {sv : Service n Req Resp T}
    {s s' : State n Req Resp T} {wc : WorkCompletion} {r : Req}
    (h : sv.step s (.receive wc r) = some s') : s'.arrived = s.arrived ++ [(r, wc.peerAddr)] := by
  cases (step_cases h).2 with
  | receive => rfl

/-- The key with this hash lives on server `i`. -/
def LivesOn (i : Fin c.kNumServers) (keyHash : Nat) : Prop :=
  keyIndex c keyHash / c.kNumTabletsPerServer = i

instance (i : Fin c.kNumServers) (keyHash : Nat) : Decidable (LivesOn i keyHash) :=
  inferInstanceAs (Decidable (_ = _))

/-- A client sends a request to the server on which its key lives. -/
theorem Addressed.livesOn {r : Request} {i : Fin c.kNumServers} (h : Addressed joins r i)
    (hlen : joins.length = c.kNumServers) :
    LivesOn i r.keyHash ∧ keyIndex c r.keyHash < c.kNumTablets := by
  obtain ⟨im, srv, hall, hsrv, hid⟩ := h
  -- the index of the key is in bounds, since the lookup returned
  have hlt : keyIndex c r.keyHash < c.kNumTablets := by
    unfold IndexManager.getServerOf IndexManager.getServerId at hsrv
    obtain ⟨_, hserver, _⟩ := bind_eq_ok.mp hsrv
    obtain ⟨_, htablet, _⟩ := bind_eq_ok.mp hserver
    exact lt_of_read htablet
  refine ⟨?_, hlt⟩
  have hrow := hlt
  rw [Config.kNumTablets_eq] at hrow
  obtain ⟨i', k, hi', hk, heq⟩ := exists_row hrow
  obtain ⟨_, srv', hsrv', hid'⟩ := hall.home hlen hi' hk heq
  rw [hsrv] at hsrv'
  cases hsrv'
  rw [LivesOn, heq, ← hid, ← hid', Nat.add_comm, Nat.add_mul_div_right _ _ c.tablets_pos,
    Nat.div_eq_of_lt hk, Nat.zero_add]

/-- Each server is in a state of its own runs, and has received what was sent to it. -/
structure Deployment.Inv (ts : Fin c.kNumServers → Fin c.kNumTabletsPerServer → Tablet.Replicated)
    (server : Fin c.kNumServers → Server c) (fuel : Nat) (s : Deployment c) : Prop where
  reachable : ∀ i, Reachable (Service.ofServer (server i) fuel) (ts i) (s.servers i)
  arrived : ∀ i, (s.servers i).arrived = s.log.filter fun e => LivesOn i e.1.keyHash
  inBounds : ∀ e ∈ s.log, keyIndex c e.1.keyHash < c.kNumTablets

namespace Deployment

variable {ts : Fin c.kNumServers → Fin c.kNumTabletsPerServer → Tablet.Replicated}
  {server : Fin c.kNumServers → Server c} {s s' : Deployment c} {i : Fin c.kNumServers}

theorem inv_initial (h : s.Initial ts) : s.Inv ts server fuel := by
  constructor
  · exact fun i => .init (h.servers i)
  · intro i
    rw [h.log, (h.servers i).record.1]
    rfl
  · intro e he
    rw [h.log] at he
    cases he

theorem Inv.step (h : s.Inv ts server fuel) (hlen : joins.length = c.kNumServers)
    (hstep : Step joins server fuel s i s') : s'.Inv ts server fuel := by
  -- a request arrives at the server its key lives on, and is recorded there and in the log
  cases hstep with
  | @arrive wc r s₁ hsent hrun =>
    obtain ⟨hlives, hlt⟩ := hsent.livesOn hlen
    constructor
    · intro j
      by_cases hj : j = i
      · subst hj
        simp only [Function.update_self]
        exact (h.reachable j).step _ hrun
      · simp only [Function.update_of_ne hj]
        exact h.reachable j
    · intro j
      simp only [List.filter_append, List.filter_singleton]
      by_cases hj : j = i
      · subst hj
        -- the server's own record is the log, as far as it lives there
        simp only [Function.update_self, hlives, decide_true]
        rw [arrived_of_receive hrun, h.arrived j]
        rfl
      · -- the key does not live on any other server
        have hnot : ¬ LivesOn j r.keyHash := fun hc => hj (Fin.ext (hc.symm.trans hlives))
        simp only [Function.update_of_ne hj, hnot, decide_false]
        rw [h.arrived j]
        exact (List.append_nil _).symm
    · intro e he
      rcases List.mem_append.mp he with he | he
      · exact h.inBounds e he
      · rw [List.mem_singleton.mp he]
        exact hlt
  | @work l s₁ hl hrun =>
    constructor
    · intro j
      by_cases hj : j = i
      · subst hj
        simp only [Function.update_self]
        exact (h.reachable j).step _ hrun
      · simp only [Function.update_of_ne hj]
        exact h.reachable j
    · intro j
      by_cases hj : j = i
      · subst hj
        simp only [Function.update_self]
        rw [arrived_of_step hl hrun]
        exact h.arrived j
      · simp only [Function.update_of_ne hj]
        exact h.arrived j
    · exact h.inBounds

theorem inv_of_reachable (hlen : joins.length = c.kNumServers)
    (h : Transition.Reachable (Initial ts) (Step joins server fuel) s) : s.Inv ts server fuel :=
  h.invariant _ (fun _ => inv_initial) fun _ _ _ hinv => hinv.step hlen

/-- A server that has joined a complete cluster. -/
def HasJoined (joins : List (String × JoinBody)) (i : Fin c.kNumServers) (srv : Server c) : Prop :=
  ∃ host im, AllJoined joins im ∧ (Server.new host).joinResponse i im = .ok srv

/-- On its server, a key is served by the worker with its tablet. -/
theorem workerOf_eq {srv : Server c} (hlen : joins.length = c.kNumServers)
    (hjoined : HasJoined joins i srv) {w : Fin c.kNumTabletsPerServer} {keyHash : Nat}
    (hlt : keyIndex c keyHash < c.kNumTablets) :
    workerOf srv keyHash = some w ↔ keyIndex c keyHash % c.kNumTabletsPerServer = w := by
  obtain ⟨host, im, hall, hrun⟩ := hjoined
  rw [Config.kNumTablets_eq] at hlt
  obtain ⟨j, k, hj, hk, heq⟩ := exists_row hlt
  have hdispatch := hall.dispatch hlen hj hk heq hrun
  unfold workerOf
  rw [hdispatch, heq, row_mod hk]
  simp only [hk, dite_true, Option.some.injEq, Fin.ext_iff]

/-- What one map answers to the requests for the tablet `idx` of the table of keys. -/
def answersOf (hash : List UInt8 → Nat) (c : Config) (idx : Nat) (log : List (Request × Address)) :
    List (Response × Address) :=
  (((Tablet.storeObject Address).history (fun _ => none) log).filter fun x =>
    keyIndex c (hash x.1.1.key) = idx).map fun x => (x.2, x.1.2)

theorem row_iff {n a b x : Nat} (hb : b < n) : x % n = b ∧ x / n = a ↔ x = a * n + b := by
  constructor
  · rintro ⟨rfl, rfl⟩
    exact (Nat.div_add_mod' x n).symm
  · rintro rfl
    refine ⟨row_mod hb, ?_⟩
    rw [Nat.add_comm, Nat.add_mul_div_right _ _ (Nat.zero_lt_of_lt hb), Nat.div_eq_of_lt hb,
      Nat.zero_add]

/-- The answers for a worker, out of the requests to its server, are those for its tablet. -/
theorem answersFor_livesOn (hlen : joins.length = c.kNumServers)
    (hjoined : HasJoined joins i (server i)) {log : List (Request × Address)}
    (hitems : ∀ e ∈ log, Tablet.Item hash e.1)
    (hlt : ∀ e ∈ log, keyIndex c e.1.keyHash < c.kNumTablets) (w : Fin c.kNumTabletsPerServer) :
    answersFor hash (server i) w (log.filter fun e => LivesOn i e.1.keyHash) =
      answersOf hash c (i * c.kNumTabletsPerServer + w) log := by
  have hown : (log.filter fun e => LivesOn i e.1.keyHash) =
      log.filter fun e => LivesOn i (hash e.1.key) := by
    apply List.filter_congr
    intro e he
    rw [(hitems e he).hash]
  have hfilter := @Keyed.Object.history_filter _ _ _ _ _ (Tablet.storeObject Address)
    (fun _ => none) (fun _ => none) log (fun k => LivesOn i (hash k)) _ fun _ _ => rfl
  rw [answersFor, answersOf, hown]
  congr 1
  refine (congrArg _ hfilter.symm).trans ?_
  rw [List.filter_filter]
  apply List.filter_congr
  intro x hx
  -- the request is one of the log
  have hmem : x.1 ∈ log := by
    have hfst := List.mem_map_of_mem (f := Prod.fst) hx
    rwa [Keyed.Object.map_fst_history] at hfst
  have hbound := hlt _ hmem
  rw [(hitems _ hmem).hash] at hbound
  rw [Bool.eq_iff_iff, Bool.and_eq_true, decide_eq_true_iff, decide_eq_true_iff, decide_eq_true_iff,
    workerOf_eq hlen hjoined hbound]
  exact row_iff w.isLt

/-- The whole cluster answers as one map. -/
structure OneStore (hash : List UInt8 → Nat) (server : Fin c.kNumServers → Server c)
    (s : Deployment c) : Prop where
  /-- No worker stores to the tablet of another one. -/
  apart : ∀ i, (server i).Apart
  /-- Every request that arrived is for one worker of one server. -/
  routed : ∀ e ∈ s.log, ∃ (i : Fin c.kNumServers) (w : Fin c.kNumTabletsPerServer),
    keyIndex c (hash e.1.key) = i * c.kNumTabletsPerServer + w
  /-- The responses of a worker are the first of those of the map to the requests for it. -/
  answers : ∀ i w, (s.servers i).posted w <+:
    answersOf hash c (i * c.kNumTabletsPerServer + w) s.log
  /-- They are all of them, if no request for the worker is on its way. -/
  complete : ∀ i w, (s.servers i).worker w = .poll → ((s.servers i).wq w).head = 0 →
    (∀ e ∈ (s.servers i).waiting, routeOf (server i) e.1 ≠ some w) →
    (s.servers i).posted w = answersOf hash c (i * c.kNumTabletsPerServer + w) s.log

theorem HasJoined.apart {srv : Server c} (hfit : c.TabletsFit) (h : HasJoined joins i srv) :
    srv.Apart := by
  obtain ⟨_, _, _, hrun⟩ := h
  exact Server.apart_of_joinResponse hfit hrun

theorem Inv.oneStore (hinv : s.Inv ts server fuel) (hfit : c.TabletsFit)
    (hlen : joins.length = c.kNumServers) (hjoined : ∀ i, HasJoined joins i (server i))
    (hfresh : ∀ i w, Tablet.FreshTablet (ts i w).master)
    (hitems : ∀ e ∈ s.log, Tablet.Item hash e.1)
    (hclean : ∀ i w, CleanServes fuel (ts i w) ((s.servers i).executed w)) :
    s.OneStore hash server := by
  have hone : ∀ i w, OneMap hash (server i) (s.servers i) w := by
    intro i w
    refine server_is_one_map (hinv.reachable i) (hfresh i) ?_ (hclean i) w
    intro e he
    rw [hinv.arrived i] at he
    exact hitems e (List.mem_of_mem_filter he)
  -- what a server has answered is what the whole log says of its tablet
  have heq : ∀ i w, answersFor hash (server i) w (s.servers i).arrived =
      answersOf hash c (i * c.kNumTabletsPerServer + w) s.log := by
    intro i w
    rw [hinv.arrived i]
    exact answersFor_livesOn hlen (hjoined i) hitems hinv.inBounds w
  constructor
  · exact fun i => (hjoined i).apart hfit
  · intro e he
    have hlt := hinv.inBounds e he
    rw [(hitems e he).hash, Config.kNumTablets_eq] at hlt
    obtain ⟨i, k, hi, hk, hrow⟩ := exists_row hlt
    exact ⟨⟨i, hi⟩, ⟨k, hk⟩, hrow⟩
  · intro i w
    rw [← heq]
    exact (hone i w).answers
  · intro i w hpoll hqueue hwaiting
    rw [← heq]
    exact (hone i w).complete hpoll hqueue hwaiting

/-- **The cluster is one finite map.** Clients send requests to the servers on which the keys
    live, and servers that have joined a complete cluster serve them. However all this is
    interleaved, the responses are those of one map that serves the requests of the whole
    cluster in the order of their arrival. -/
theorem cluster_is_one_map (hfit : c.TabletsFit) (hlen : joins.length = c.kNumServers)
    (hjoined : ∀ i, HasJoined joins i (server i))
    (h : Transition.Reachable (Initial ts) (Step joins server fuel) s)
    (hfresh : ∀ i w, Tablet.FreshTablet (ts i w).master)
    (hitems : ∀ e ∈ s.log, Tablet.Item hash e.1)
    (hclean : ∀ i w, CleanServes fuel (ts i w) ((s.servers i).executed w)) :
    s.OneStore hash server :=
  (inv_of_reachable hlen h).oneStore hfit hlen hjoined hfresh hitems hclean

/-- The requests that arrive in a run of one server. -/
def received {n : Nat} (ls : List (Label n Request)) : List (Request × Address) :=
  ls.filterMap fun l => match l with
    | .receive wc r => some (r, wc.peerAddr)
    | _ => none

/-- A server goes on by itself. -/
theorem reachable_run {ls : List (Label c.kNumTabletsPerServer Request)}
    {s₁ : State c.kNumTabletsPerServer Request Response Tablet.Replicated}
    (h : Transition.Reachable (Initial ts) (Step joins server fuel) s)
    (hsent : ∀ wc r, Label.receive wc r ∈ ls → Addressed joins r i)
    (hrun : (Service.ofServer (server i) fuel).run (s.servers i) ls = some s₁) :
    Transition.Reachable (Initial ts) (Step joins server fuel)
      ⟨Function.update s.servers i s₁, s.log ++ received ls⟩ := by
  induction ls generalizing s with
  | nil =>
    cases hrun
    rw [Function.update_eq_self]
    simpa [received] using h
  | cons l ls ih =>
    rw [Service.run] at hrun
    split at hrun
    · cases hrun
    · next s₂ hstep =>
      have hsent' : ∀ wc r, Label.receive wc r ∈ ls → Addressed joins r i :=
        fun wc r hl => hsent wc r (List.mem_cons_of_mem _ hl)
      -- a request that arrives is recorded in the log
      cases l with
      | receive wc r =>
        have hnext := h.step i (.arrive (hsent wc r List.mem_cons_self) hstep)
        have hrest := ih hnext hsent' (by simpa using hrun)
        simpa [received] using hrest
      | poll | serve | complete =>
        have hnext := h.step i (.work (by simp) hstep)
        have hrest := ih hnext hsent' (by simpa using hrun)
        simpa [received] using hrest

end Deployment

end deployment

/-- A `PUT` of two bytes under the key `[1]`. -/
def putOne : Request := Tablet.item .put

theorem fresh_blank (w : Fin shipped.kNumTabletsPerServer) :
    Tablet.FreshTablet (blankTablets w).master := by
  refine ⟨⟨_, Tablet.newTablet_run 0 fun _ => 0⟩, ?_⟩
  intro a ha _
  show (Tablet.newTablet 0 fun _ => 0).mem a = 0
  rw [Tablet.newTablet_table 0 _ ha, Tablet.Region.mem]
  split
  · rfl
  · rfl

theorem clean_putOne (w : Fin shipped.kNumTabletsPerServer) :
    Tablet.Clean (blankTablets w).master.mem putOne := by
  refine ⟨fun _ p hp => ?_, fun ht => by cases ht⟩
  -- nothing is replaced, since the bucket is empty
  refine absurd hp (Tablet.not_inChain ?_)
  exact (Tablet.Region.tableZero_iff 0 _).mp (fun _ _ => rfl) _ (Tablet.bucketOf_lt _)

theorem cluster_is_one_map_put : ∃ (server : Fin shipped.kNumServers → Server shipped)
    (s : Deployment shipped),
    ((s.servers ⟨0, shipped.servers_pos⟩).posted firstWorker).length = 1 ∧
      s.OneStore Tablet.firstByte server := by
  -- both servers have joined
  let hosts : Fin shipped.kNumServers → String × Host shipped :=
    fun i => ("10.0.0.1", hostOf shipped i)
  have hlen := length_joinsOf hosts
  obtain ⟨im, _, hall⟩ := addServers_run hlen.le (joinsOf_wellFormed hosts) (unset shipped)
  choose server hrun _ using fun i => joinResponse_run (by decide) hall i
  have hjoined : ∀ i, Deployment.HasJoined (joinsOf hosts) i (server i) :=
    fun i => ⟨_, im, hall, hrun i⟩
  -- the key lives on the first one
  have hidx : keyIndex shipped putOne.keyHash = 0 * shipped.kNumTabletsPerServer + 0 := by
    decide +kernel
  obtain ⟨_, srv, hsrv, hid⟩ := hall.home hlen shipped.servers_pos shipped.tablets_pos hidx
  have hroute : routeOf (server ⟨0, shipped.servers_pos⟩) putOne = some firstWorker := by
    have hlt : keyIndex shipped putOne.keyHash < shipped.kNumTablets := by decide +kernel
    have hworker := (Deployment.workerOf_eq (w := firstWorker) hlen
      (hjoined ⟨0, shipped.servers_pos⟩) hlt).mpr (by rw [hidx]; rfl)
    exact hworker
  have hput : (executeOn 2 (blankTablets firstWorker) putOne).isSome = true := by decide +kernel
  obtain ⟨⟨resp, t⟩, hexec⟩ := Option.isSome_iff_exists.mp hput
  -- the first server fills its receive queue, receives the request and answers it
  obtain ⟨s₁, hrun₁, hquiet, htablet, hrecord⟩ :=
    exists_quiet_zero (Service.ofServer (server ⟨0, shipped.servers_pos⟩) 2) init_blank
  obtain ⟨cs, hc⟩ := (Sound.init init_blank).run hrun₁
  obtain ⟨b, hb, h0⟩ := hquiet.exists_posted hc
  have hsv : ∀ t r, (Service.ofServer (server ⟨0, shipped.servers_pos⟩) 2).execute t r =
      executeOn 2 t r := fun _ _ => rfl
  have hexec' : (Service.ofServer (server ⟨0, shipped.servers_pos⟩) 2).execute
      (s₁.tablet firstWorker) putOne = some (resp, t) := by
    rw [hsv, htablet, hexec]
  have hround := run_append (run_takenUp hquiet hb h0 hroute)
    (run_answered hquiet h0 (hquiet.sendRoot_ne_zero hc (by decide)) hexec')
  have hreach : Transition.Reachable (Deployment.Initial fun _ => blankTablets)
      (Deployment.Step (joinsOf hosts) server 2) ⟨fun _ => blank, []⟩ :=
    .init ⟨fun _ => init_blank, rfl⟩
  have hsent : ∀ wc r, Label.receive wc r ∈ List.replicate (kMaxIBQueueDepth * 2 + 1) (.poll 0) ++
      ([.receive ⟨b, 1, 1⟩ putOne, .poll 0, .poll 0, .poll 0, .serve firstWorker] ++
        [.serve firstWorker, .serve firstWorker, .serve firstWorker, .serve firstWorker, .poll 0,
          .poll 0, .poll 0]) → Addressed (joinsOf hosts) r ⟨0, shipped.servers_pos⟩ := by
    intro wc r hr
    obtain ⟨_, rfl⟩ : wc = ⟨b, 1, 1⟩ ∧ r = putOne := by simpa using hr
    exact ⟨im, srv, hall, hsrv, hid⟩
  have hreach' := Deployment.reachable_run hreach hsent (run_append hrun₁ hround)
  have hlog : ([] ++ Deployment.received (List.replicate (kMaxIBQueueDepth * 2 + 1) (.poll 0) ++
      ([.receive ⟨b, 1, 1⟩ putOne, .poll 0, .poll 0, .poll 0, .serve firstWorker] ++
        [.serve firstWorker, .serve firstWorker, .serve firstWorker, .serve firstWorker, .poll 0,
          .poll 0, .poll 0]))) = [(putOne, sender)] := by
    simp [Deployment.received, sender, WorkCompletion.peerAddr]
  rw [hlog] at hreach'
  have hitems : ∀ e ∈ [(putOne, sender)], Tablet.Item Tablet.firstByte e.1 := by
    intro e he
    rw [List.mem_singleton.mp he]
    exact ⟨by decide, by decide⟩
  have hclean : ∀ w es, es.Sublist [(putOne, sender)] → CleanServes 2 (blankTablets w) es := by
    intro w es hes
    rcases List.sublist_singleton.mp hes with rfl | rfl
    · trivial
    · exact ⟨clean_putOne w, fun _ _ _ => trivial⟩
  refine ⟨server, _, ?_, Deployment.cluster_is_one_map tabletsFit_shipped hlen hjoined hreach'
    (fun _ => fresh_blank) hitems ?_⟩
  · simp [State.answered, (hrecord firstWorker).2.2]
  · intro i w
    apply hclean
    have hinv := Deployment.inv_of_reachable hlen hreach'
    have hsub := (executed_first (hinv.reachable i) w).sublist.trans List.filter_sublist
    rw [hinv.arrived i] at hsub
    exact hsub.trans List.filter_sublist

end Nvds.Serving
