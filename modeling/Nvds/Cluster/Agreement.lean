import Nvds.Cluster.Coordinator
import Nvds.Cluster.Routing

/-! # All parties get the same index

    While servers are still missing, nobody is answered, so a session that
    has joined receives nothing more and cannot join twice. When the last
    server joins, the index is complete; from then on it does not change.
-/

open Arrays Transition

namespace Nvds.Cluster

variable {c : Config} {peer : SessionId → String} {im₀ : IndexManager c}

/-! ### What a handler can do -/

/-- Every way in which `HandleRecvMessage` returns. -/
inductive Handled (addr : String) (session : SessionId) (msg : Message) (co : Coordinator c) :
    Coordinator c → Prop
  /-- One server too many. -/
  | ignored : msg.IsServerJoin → c.kNumServers ≤ co.numServers → Handled addr session msg co co
  /-- A server joins, and others are missing. -/
  | enrolled {im : IndexManager c} : msg.IsServerJoin → co.numServers < c.kNumServers →
      addServer co.nextServerId addr msg.body co.indexManager = .ok im →
      u32 (co.numServers + 1) < c.kNumServers →
      Handled addr session msg co (co.enroll session msg.body im)
  /-- The last server joins. -/
  | last {im : IndexManager c} : msg.IsServerJoin → co.numServers < c.kNumServers →
      addServer co.nextServerId addr msg.body co.indexManager = .ok im →
      u32 (co.numServers + 1) = c.kNumServers →
      Handled addr session msg co
        { co.enroll session msg.body im with
          posted := co.posted ++
            (co.sessions ++ [session]).mapIdx fun i session => (session, ResJoin.server i im)
          sessions := [] }
  /-- A client joins. -/
  | client : ¬ msg.IsServerJoin → co.numServers = c.kNumServers →
      Handled addr session msg co
        { co with posted := co.posted ++ [(session, ResJoin.client co.indexManager)] }
  /-- Any other message. -/
  | other : ¬ msg.IsServerJoin → Handled addr session msg co co

theorem check_eq_ok {p : Prop} [Decidable p] {u : Unit} (h : check p = .ok u) : p := by
  unfold check at h
  split at h
  · assumption
  · cases h

section handlers

variable {addr : String} {session : SessionId} {msg : Message} {co co' : Coordinator c}

theorem handled_serverJoin (hmsg : msg.IsServerJoin)
    (h : co.handleServerRequestJoin addr session msg.body = .ok co') :
    Handled addr session msg co co' := by
  unfold Coordinator.handleServerRequestJoin at h
  split at h
  · rename_i hge
    cases h
    exact .ignored hmsg hge
  · rename_i hlt
    rw [not_le] at hlt
    obtain ⟨im, him, h⟩ := bind_eq_ok.mp h
    obtain ⟨_, hle, h⟩ := bind_eq_ok.mp h
    have hle : u32 (co.numServers + 1) ≤ c.kNumServers := check_eq_ok hle
    split at h
    · rename_i heq
      unfold Coordinator.responseAllJoins at h
      obtain ⟨_, _, h⟩ := bind_eq_ok.mp h
      cases h
      exact .last hmsg hlt him heq
    · rename_i hne
      cases h
      exact .enrolled hmsg hlt him (lt_of_le_of_ne hle hne)

/-- The handler does one of these. -/
theorem handled_of_run (h : co.handleRecvMessage addr session msg = .ok co') :
    Handled addr session msg co co' := by
  unfold Coordinator.handleRecvMessage at h
  -- a message of a coordinator trips the assertion
  cases hsender : msg.senderType with
  | coordinator =>
    rw [hsender] at h
    cases h
  | server =>
    rw [hsender] at h
    dsimp only at h
    unfold Coordinator.handleMessageFromServer at h
    cases htype : msg.type with
    | reqJoin =>
      rw [htype] at h
      exact handled_serverJoin ⟨hsender, htype⟩ h
    | _ =>
      rw [htype] at h
      first
        | cases h; exact .other fun hc => by simp [hc.2] at htype
        | cases h
  | client =>
    have hnot : ¬ msg.IsServerJoin := fun hc => by simp [hc.1] at hsender
    rw [hsender] at h
    dsimp only at h
    unfold Coordinator.handleMessageFromClient at h
    cases htype : msg.type with
    | reqJoin =>
      rw [htype] at h
      dsimp only at h
      unfold Coordinator.handleClientRequestJoin at h
      obtain ⟨_, heq, h⟩ := bind_eq_ok.mp h
      cases h
      exact .client hnot (check_eq_ok heq)
    | _ =>
      rw [htype] at h
      first
        | cases h; exact .other hnot
        | cases h

end handlers

/-! ### The invariant -/

/-- What is entered into the index for the joins of `J`. -/
def entries (peer : SessionId → String) (J : List (SessionId × JoinBody)) :
    List (String × JoinBody) :=
  J.map fun x => (peer x.1, x.2)

/-- Servers are missing: nobody was answered, and the sessions that joined are waiting. -/
structure Waiting (peer : SessionId → String) (im₀ : IndexManager c) (s : System c)
    (J : List (SessionId × JoinBody)) : Prop where
  missing : J.length < c.kNumServers
  numServers : s.coordinator.numServers = J.length
  nextServerId : s.coordinator.nextServerId = J.length
  sessions : s.coordinator.sessions = J.map (·.1)
  posted : s.coordinator.posted = []
  index : addServers 0 (entries peer J) im₀ = .ok s.coordinator.indexManager
  wellFormed : ∀ x ∈ J, x.2.WellFormed c
  nodup : (J.map (·.1) ++ s.receiving).Nodup
  accepted : ∀ x ∈ J.map (·.1) ++ s.receiving, x ∈ s.accepted

/-- All servers are there: those of `J` were answered together, clients one by one. -/
structure Formed (peer : SessionId → String) (im₀ : IndexManager c) (s : System c)
    (J : List (SessionId × JoinBody)) : Prop where
  complete : J.length = c.kNumServers
  numServers : s.coordinator.numServers = c.kNumServers
  posted : ∃ clients : List SessionId, s.coordinator.posted =
    ((J.map (·.1)).mapIdx fun i session => (session, .server i s.coordinator.indexManager)) ++
      clients.map fun session => (session, .client s.coordinator.indexManager)
  index : addServers 0 (entries peer J) im₀ = .ok s.coordinator.indexManager
  wellFormed : ∀ x ∈ J, x.2.WellFormed c
  nodup : (J.map (·.1)).Nodup

/-- The invariant of the join protocol. -/
def JoinInv (peer : SessionId → String) (im₀ : IndexManager c) (s : System c) : Prop :=
  Waiting peer im₀ s (serverJoins s.received) ∨
    c.kNumServers ≤ (serverJoins s.received).length ∧
      Formed peer im₀ s ((serverJoins s.received).take c.kNumServers)

theorem serverJoins_concat (received : List (SessionId × Message)) (session : SessionId)
    (msg : Message) : serverJoins (received ++ [(session, msg)]) =
      serverJoins received ++ if msg.IsServerJoin then [(session, msg.body)] else [] := by
  unfold serverJoins
  rw [List.filterMap_append]
  congr 1
  by_cases h : msg.IsServerJoin
  · simp [h]
  · simp [h]

section steps

variable {s s' : System c} {J : List (SessionId × JoinBody)} {session : SessionId} {msg : Message}

/-- One more server is entered. -/
theorem Waiting.index_concat (h : Waiting peer im₀ s J) {im : IndexManager c}
    (him : addServer s.coordinator.nextServerId (peer session) msg.body
      s.coordinator.indexManager = .ok im) :
    addServers 0 (entries peer (J ++ [(session, msg.body)])) im₀ = .ok im := by
  have hlt := h.missing
  have hS := servers_lt c
  have hlen : (entries peer J).length = J.length := List.length_map _
  unfold entries
  rw [List.map_append, List.map_singleton]
  show addServers 0 (entries peer J ++ [_]) im₀ = _
  rw [addServers_concat _ _ (by omega), h.index, bind_ok, hlen, Nat.zero_add, ← h.nextServerId]
  exact him

/-- The session of a received join has not joined before. -/
theorem Waiting.nodup_concat (h : Waiting peer im₀ s J) (hin : session ∈ s.receiving)
    (body : JoinBody) :
    ((J ++ [(session, body)]).map (·.1) ++ s.receiving.erase session).Nodup := by
  rw [List.map_append, List.append_assoc]
  refine (List.Perm.nodup_iff ?_).mp h.nodup
  exact List.Perm.append_left _ (List.perm_cons_erase hin)

theorem Waiting.step_recv (h : Waiting peer im₀ s (serverJoins s.received))
    (hin : session ∈ s.receiving) (hwf : msg.WellFormed c) {co : Coordinator c}
    (hrun : s.coordinator.handleRecvMessage (peer session) session msg = .ok co) :
    JoinInv peer im₀ { s with
      coordinator := co
      receiving := s.receiving.erase session
      received := s.received ++ [(session, msg)] } := by
  have hlt := h.missing
  have hS := servers_lt c
  have hnum := h.numServers
  unfold JoinInv
  dsimp only
  rw [serverJoins_concat]
  have hbody : msg.IsServerJoin → ∀ x ∈ serverJoins s.received ++ [(session, msg.body)],
      x.2.WellFormed c := by
    intro hmsg x hx
    rcases List.mem_append.mp hx with hx | hx
    · exact h.wellFormed x hx
    · rw [List.mem_singleton.mp hx]
      exact hwf hmsg
  -- a surplus join and the join of a client presuppose that the cluster is complete
  cases handled_of_run hrun with
  | ignored _ hge => omega
  | client _ heq => omega
  | other hmsg =>
    left
    rw [if_neg hmsg, List.append_nil]
    have hsub : (s.receiving.erase session).Sublist s.receiving := List.erase_sublist
    refine ⟨hlt, hnum, h.nextServerId, h.sessions, h.posted, h.index, h.wellFormed, ?_, ?_⟩
    · exact h.nodup.sublist (List.Sublist.append_left hsub _)
    · intro x hx
      exact h.accepted x ((List.Sublist.append_left hsub _).subset hx)
  | @enrolled im hmsg _ him hnext =>
    left
    rw [if_pos hmsg]
    rw [hnum, u32_of_lt (by omega)] at hnext
    constructor
    · rw [List.length_append, List.length_singleton]
      exact hnext
    · show u32 (s.coordinator.numServers + 1) = _
      rw [hnum, u32_of_lt (by omega), List.length_append, List.length_singleton]
    · show u32 (s.coordinator.nextServerId + 1) = _
      rw [h.nextServerId, u32_of_lt (by omega), List.length_append, List.length_singleton]
    · show s.coordinator.sessions ++ [session] = _
      rw [h.sessions, List.map_append]
      rfl
    · exact h.posted
    · exact h.index_concat him
    · exact hbody hmsg
    · exact h.nodup_concat hin msg.body
    · intro x hx
      apply h.accepted x
      rw [List.map_append, List.append_assoc] at hx
      exact (List.Perm.append_left _ (List.perm_cons_erase hin)).mem_iff.mpr hx
  | @last im hmsg _ him hnext =>
    right
    rw [if_pos hmsg]
    rw [hnum, u32_of_lt (by omega)] at hnext
    -- with this join it is complete, and everybody is answered
    have hlen : (serverJoins s.received ++ [(session, msg.body)]).length = c.kNumServers := by
      rw [List.length_append, List.length_singleton]
      exact hnext
    refine ⟨hlen.ge, ?_⟩
    rw [List.take_of_length_le hlen.le]
    constructor
    · exact hlen
    · show u32 (s.coordinator.numServers + 1) = _
      rw [hnum, u32_of_lt (by omega)]
      exact hnext
    · refine ⟨[], ?_⟩
      show s.coordinator.posted ++ _ = _
      rw [h.posted, h.sessions, List.nil_append, List.map_nil, List.append_nil, List.map_append]
      rfl
    · exact h.index_concat him
    · exact hbody hmsg
    · exact (List.nodup_append.mp (h.nodup_concat hin msg.body)).1

theorem Formed.step_recv (hle : c.kNumServers ≤ (serverJoins s.received).length)
    (h : Formed peer im₀ s ((serverJoins s.received).take c.kNumServers)) {co : Coordinator c}
    (hrun : s.coordinator.handleRecvMessage (peer session) session msg = .ok co) :
    JoinInv peer im₀ { s with
      coordinator := co
      receiving := s.receiving.erase session
      received := s.received ++ [(session, msg)] } := by
  have hnum := h.numServers
  right
  dsimp only
  rw [serverJoins_concat, List.take_append_of_le_length hle]
  refine ⟨by rw [List.length_append]; omega, ?_⟩
  cases handled_of_run hrun with
  | ignored _ _ => exact ⟨h.complete, hnum, h.posted, h.index, h.wellFormed, h.nodup⟩
  | other _ => exact ⟨h.complete, hnum, h.posted, h.index, h.wellFormed, h.nodup⟩
  | enrolled _ hlt _ _ => omega
  | last _ hlt _ _ => omega
  | client _ _ =>
    refine ⟨h.complete, hnum, ?_, h.index, h.wellFormed, h.nodup⟩
    obtain ⟨clients, hposted⟩ := h.posted
    refine ⟨clients ++ [session], ?_⟩
    show s.coordinator.posted ++ _ = _
    rw [hposted, List.append_assoc, List.map_append]
    rfl

/-- **Every event keeps the invariant.** -/
theorem JoinInv.step {e : Event} (h : JoinInv peer im₀ s) (hstep : Step peer s e s') :
    JoinInv peer im₀ s' := by
  -- a new session has not joined yet
  cases e with
  | accept session =>
    obtain ⟨hnew, rfl⟩ := hstep
    rcases h with h | ⟨hle, h⟩
    · left
      refine ⟨h.missing, h.numServers, h.nextServerId, h.sessions, h.posted, h.index,
        h.wellFormed, ?_, ?_⟩
      · refine List.nodup_middle.mpr (List.nodup_cons.mpr ⟨?_, h.nodup⟩)
        exact fun hc => hnew (h.accepted session hc)
      · intro x hx
        rw [List.mem_append, List.mem_cons, or_left_comm, ← List.mem_append] at hx
        exact List.mem_cons.mpr (hx.imp id (h.accepted x))
    · right
      exact ⟨hle, h.complete, h.numServers, h.posted, h.index, h.wellFormed, h.nodup⟩
  | recv session msg =>
    obtain ⟨hin, htakes, co, hrun, rfl⟩ := hstep
    rcases h with h | ⟨hle, h⟩
    · exact h.step_recv hin (htakes (h.numServers.trans_lt h.missing)) hrun
    · exact h.step_recv hle hrun
  | sent n =>
    obtain ⟨_, session, res, hget, rfl⟩ := hstep
    rcases h with h | ⟨hle, h⟩
    · -- nothing was sent
      rw [h.posted] at hget
      cases hget
    · right
      exact ⟨hle, h.complete, h.numServers, h.posted, h.index, h.wellFormed, h.nodup⟩

theorem joinInv_initial (h : s.Initial im₀) : JoinInv peer im₀ s := by
  obtain ⟨⟨hnum, _, hnext, hsess, hposted⟩, him, hacc, hrecv, _, hreceived⟩ := h
  left
  rw [hreceived]
  refine ⟨c.servers_pos, hnum, hnext, hsess, hposted, ?_, ?_, ?_, ?_⟩
  · rw [him]
    rfl
  · exact fun x hx => absurd hx List.not_mem_nil
  · rw [hrecv]
    exact List.nodup_nil
  · rw [hrecv]
    exact fun x hx => absurd hx List.not_mem_nil

theorem joinInv_of_reachable (h : Reachable (System.Initial im₀) (Step peer) s) :
    JoinInv peer im₀ s :=
  h.invariant (JoinInv peer im₀) (fun _ => joinInv_initial) fun _ _ _ hinv => hinv.step

end steps

/-! ### Agreement -/

section agreement

variable {s : System c} {session : SessionId} {msg : Message}

theorem handleRecvMessage_serverJoin {addr : String} {co : Coordinator c}
    (hmsg : msg.IsServerJoin) : co.handleRecvMessage addr session msg =
      co.handleServerRequestJoin addr session msg.body := by
  unfold Coordinator.handleRecvMessage
  rw [hmsg.1]
  dsimp only
  unfold Coordinator.handleMessageFromServer
  rw [hmsg.2]

/-- A server that comes too late is ignored. -/
theorem join_ignored {addr : String} {co : Coordinator c} (hnum : c.kNumServers ≤ co.numServers)
    (hmsg : msg.IsServerJoin) : co.handleRecvMessage addr session msg = .ok co := by
  rw [handleRecvMessage_serverJoin hmsg]
  unfold Coordinator.handleServerRequestJoin
  rw [if_pos hnum]
  rfl

/-- A client is answered if all servers are there, else the assertion fails. -/
theorem handleRecvMessage_clientJoin {addr : String} {co : Coordinator c}
    (hmsg : msg.IsClientJoin) : co.handleRecvMessage addr session msg =
      if co.numServers = c.kNumServers then
        .ok { co with posted := co.posted ++ [(session, ResJoin.client co.indexManager)] }
      else
        .error .assertion := by
  unfold Coordinator.handleRecvMessage
  rw [hmsg.1]
  dsimp only
  unfold Coordinator.handleMessageFromClient
  rw [hmsg.2]
  dsimp only
  unfold Coordinator.handleClientRequestJoin check
  split
  · rfl
  · rfl

/-- The counters of the coordinator after `n` servers have joined. -/
structure Counted (n : Nat) (co : Coordinator c) : Prop where
  numServers : co.numServers = n
  nextServerId : co.nextServerId = n
  sessions : co.sessions.length = n

/-- While servers are missing, a join succeeds; the last one completes the cluster. -/
theorem Counted.join {n : Nat} {co : Coordinator c} (h : Counted n co) (hlt : n < c.kNumServers)
    (hmsg : msg.IsServerJoin) (hwf : msg.WellFormed c) (addr : String) (session : SessionId) :
    ∃ co', co.handleRecvMessage addr session msg = .ok co' ∧ co'.numServers = n + 1 ∧
      (n + 1 < c.kNumServers → Counted (n + 1) co') := by
  have hS := servers_lt c
  have hnum := h.numServers
  have hid : co.nextServerId < c.kNumServers := by
    rw [h.nextServerId]
    exact hlt
  obtain ⟨im, him, _⟩ := addServer_run hid (hwf hmsg) addr co.indexManager
  have hnext : (co.enroll session msg.body im).numServers = n + 1 := by
    show u32 (co.numServers + 1) = _
    rw [hnum, u32_of_lt (by omega)]
  have hlen : (co.enroll session msg.body im).sessions.length = n + 1 := by
    show (co.sessions ++ [session]).length = _
    rw [List.length_append, List.length_singleton, h.sessions]
  rw [handleRecvMessage_serverJoin hmsg]
  unfold Coordinator.handleServerRequestJoin check
  rw [if_neg (by omega), him, bind_ok]
  dsimp only
  rw [hnext, if_pos (Nat.succ_le_of_lt hlt), bind_ok]
  split
  -- the last join is followed by the answers, for which every session is there
  · rename_i heq
    unfold Coordinator.responseAllJoins check
    rw [hlen, if_pos heq]
    exact ⟨_, rfl, hnext, fun hlt => absurd heq hlt.ne⟩
  · refine ⟨_, rfl, hnext, fun _ => ⟨hnext, ?_, hlen⟩⟩
    show u32 (co.nextServerId + 1) = _
    rw [h.nextServerId, u32_of_lt (by omega)]

/-- The index of a formed cluster has an entry for every server. -/
theorem Formed.joined {J : List (SessionId × JoinBody)} (h : Formed peer im₀ s J) {i : Nat}
    {session : SessionId} {body : JoinBody} (hget : J[i]? = some (session, body)) :
    Joined (peer session) body i s.coordinator.indexManager := by
  have hlen : (entries peer J).length = c.kNumServers := by
    unfold entries
    rw [List.length_map, h.complete]
  have hwf : ∀ x ∈ entries peer J, x.2.WellFormed c := by
    intro x hx
    obtain ⟨y, hy, rfl⟩ := List.mem_map.mp hx
    exact h.wellFormed y hy
  obtain ⟨im, hrun, hall⟩ := addServers_run hlen.le hwf im₀
  rw [h.index] at hrun
  cases hrun
  obtain ⟨hi, hJ⟩ := List.getElem?_eq_some_iff.mp hget
  have hentry := hall i (by rw [hlen, ← h.complete]; exact hi)
  simp only [entries, List.getElem_map, hJ] at hentry
  exact hentry

end agreement

/-- The join request of a server of the shipped configuration with local id `lid`. -/
def joinOf (lid : Nat) : Message := ⟨.server, .reqJoin, joinBody 2 lid⟩

/-- The coordinator of the shipped configuration when it starts. -/
def started : Coordinator shipped := ⟨0, 0, 0, unset shipped, [], []⟩

/-- A run of the shipped configuration leads to this state. -/
def Leads (s : System shipped) : Prop :=
  Reachable (System.Initial (unset shipped)) (Step fun session => toString session) s

end Nvds.Cluster
