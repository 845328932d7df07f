import Nvds.Cluster.Agreement

/-! # Orders of arrival

    Servers and clients are started independently of each other. The
    coordinator handles the join requests of servers in any number and any
    order; that of a client it handles only after all servers have joined.
-/

namespace Nvds.Cluster

variable {c : Config} {peer : SessionId → String} {im₀ : IndexManager c}

/-- `HandleRecvMessage` for one message after another. -/
def deliver (peer : SessionId → String) :
    List (SessionId × Message) → Coordinator c → Call (Coordinator c)
  | [], co => pure co
  | (session, msg) :: msgs, co => do
    let co ← co.handleRecvMessage (peer session) session msg
    deliver peer msgs co

/-- A `REQ_JOIN`, with the body that a server sends (`Server::Join`) or from a client. -/
def Message.IsJoin (c : Config) (msg : Message) : Prop :=
  msg.IsServerJoin ∧ msg.body.WellFormed c ∨ msg.IsClientJoin

/-- All servers have joined before any client does; `n` joined before these messages. -/
def ClientsLast (c : Config) (n : Nat) (msgs : List (SessionId × Message)) : Prop :=
  ∀ before session msg after, msgs = before ++ (session, msg) :: after → msg.IsClientJoin →
    c.kNumServers ≤ n + (serverJoins before).length

/-- The coordinator after the joins of `n` servers, in any order with those of clients. -/
def After (n : Nat) (co : Coordinator c) : Prop :=
  n < c.kNumServers ∧ Counted n co ∨ c.kNumServers ≤ n ∧ co.numServers = c.kNumServers

section steps

variable {n : Nat} {co : Coordinator c} {session : SessionId} {msg : Message}
  {msgs : List (SessionId × Message)}

theorem clientsLast_nil (n : Nat) : ClientsLast c n [] := by
  intro before session msg after heq
  exact absurd heq.symm (List.append_ne_nil_of_right_ne_nil _ (List.cons_ne_nil _ _))

theorem clientsLast_cons :
    ClientsLast c n ((session, msg) :: msgs) ↔
      (msg.IsClientJoin → c.kNumServers ≤ n) ∧
        ClientsLast c (n + (serverJoins [(session, msg)]).length) msgs := by
  constructor
  · intro h
    refine ⟨fun hmsg => h [] session msg msgs rfl hmsg, ?_⟩
    intro before session' msg' after heq hmsg
    have hle := h ((session, msg) :: before) session' msg' after (by rw [heq]; rfl) hmsg
    rw [← List.singleton_append, serverJoins, List.filterMap_append, List.length_append] at hle
    rw [Nat.add_assoc]
    exact hle
  · rintro ⟨hhead, htail⟩ before session' msg' after heq hmsg
    cases before with
    | nil =>
      cases heq
      exact hhead hmsg
    | cons x before =>
      obtain ⟨rfl, hrest⟩ := List.cons.inj heq
      have hle := htail before session' msg' after hrest hmsg
      rw [← List.singleton_append, serverJoins, List.filterMap_append, List.length_append]
      rw [Nat.add_assoc] at hle
      exact hle

/-- A server may join at any time. -/
theorem After.serverJoin (h : After n co) (hmsg : msg.IsServerJoin) (hwf : msg.body.WellFormed c)
    (addr : String) (session : SessionId) :
    ∃ co', co.handleRecvMessage addr session msg = .ok co' ∧ After (n + 1) co' := by
  rcases h with ⟨hlt, hcount⟩ | ⟨hle, hnum⟩
  · obtain ⟨co', hrun, hnum, hnext⟩ := hcount.join hlt hmsg (fun _ => hwf) addr session
    refine ⟨co', hrun, ?_⟩
    rcases Nat.lt_or_eq_of_le (Nat.succ_le_of_lt hlt) with hlt' | heq
    · exact .inl ⟨hlt', hnext hlt'⟩
    · exact .inr ⟨heq.ge, hnum.trans heq⟩
  · exact ⟨co, join_ignored hnum.ge hmsg, .inr ⟨Nat.le_succ_of_le hle, hnum⟩⟩

/-- A client is answered exactly if all servers have joined. -/
theorem After.clientJoin (h : After n co) (hmsg : msg.IsClientJoin) (addr : String)
    (session : SessionId) :
    c.kNumServers ≤ n ∧ (∃ co', co.handleRecvMessage addr session msg = .ok co' ∧ After n co') ∨
      n < c.kNumServers ∧ co.handleRecvMessage addr session msg = .error .assertion := by
  rw [handleRecvMessage_clientJoin hmsg]
  rcases h with ⟨hlt, hcount⟩ | ⟨hle, hnum⟩
  · right
    rw [hcount.numServers, if_neg hlt.ne]
    exact ⟨hlt, rfl⟩
  · left
    rw [if_pos hnum]
    exact ⟨hle, _, rfl, .inr ⟨hle, hnum⟩⟩

theorem After.deliver (h : After n co) (hmsgs : ∀ x ∈ msgs, x.2.IsJoin c) :
    (∃ co', deliver peer msgs co = .ok co') ↔ ClientsLast c n msgs := by
  -- on the messages; `n` servers have joined before
  induction msgs generalizing n co with
  | nil => exact iff_of_true ⟨co, rfl⟩ (clientsLast_nil n)
  | cons x msgs ih =>
    obtain ⟨session, msg⟩ := x
    have hrest : ∀ x ∈ msgs, x.2.IsJoin c := fun x hx => hmsgs x (List.mem_cons_of_mem _ hx)
    rw [clientsLast_cons, Cluster.deliver]
    rcases hmsgs _ List.mem_cons_self with ⟨hmsg, hwf⟩ | hmsg
    · have hnot : ¬ msg.IsClientJoin := fun hc => nomatch hmsg.1.symm.trans hc.1
      have hone : serverJoins [(session, msg)] = [(session, msg.body)] := by
        rw [serverJoins, List.filterMap_cons, if_pos hmsg]
        rfl
      obtain ⟨co', hrun, hafter⟩ := h.serverJoin hmsg hwf (peer session) session
      rw [hrun, bind_ok, ih hafter hrest, hone]
      exact (and_iff_right fun hc => absurd hc hnot).symm
    · have hnot : ¬ msg.IsServerJoin := fun hc => nomatch hmsg.1.symm.trans hc.1
      have hone : serverJoins [(session, msg)] = [] := by
        rw [serverJoins, List.filterMap_cons, if_neg hnot]
        rfl
      rw [hone]
      -- the join of a client trips the assertion if it comes too early
      rcases h.clientJoin hmsg (peer session) session with ⟨hle, co', hrun, hafter⟩ | ⟨hlt, hrun⟩
      · rw [hrun, bind_ok, ih hafter hrest]
        exact (and_iff_right fun _ => hle).symm
      · rw [hrun]
        refine iff_of_false (fun ⟨_, hc⟩ => by cases hc) ?_
        exact fun hc => absurd (hc.1 hmsg) (not_le.mpr hlt)

end steps

/-- **Joins in any order.** A coordinator that has just started handles a sequence of joins
    without a failed assertion or an index out of range exactly if no client comes before
    the last server. -/
theorem deliver_returns_iff {co : Coordinator c} {msgs : List (SessionId × Message)}
    (hinit : co.Initial) (hmsgs : ∀ x ∈ msgs, x.2.IsJoin c) :
    (∃ co', deliver peer msgs co = .ok co') ↔ ClientsLast c 0 msgs := by
  obtain ⟨hnum, _, hnext, hsess, _⟩ := hinit
  refine After.deliver (.inl ⟨c.servers_pos, hnum, hnext, ?_⟩) hmsgs
  rw [hsess, List.length_nil]

/-- The join request of a client. -/
def clientJoin : Message := ⟨.client, .reqJoin, joinBody 2 0⟩

theorem deliver_returns_iff_shipped :
    ∃ co, deliver (fun session => toString session)
      [(7, joinOf 1), (8, joinOf 2), (9, clientJoin)] started = .ok co := by
  refine (deliver_returns_iff ⟨rfl, rfl, rfl, rfl, rfl⟩ ?_).mpr ?_
  · intro x hx
    simp only [List.mem_cons, List.not_mem_nil, or_false] at hx
    rcases hx with rfl | rfl | rfl
    · exact .inl ⟨⟨rfl, rfl⟩, by decide⟩
    · exact .inl ⟨⟨rfl, rfl⟩, by decide⟩
    · exact .inr ⟨rfl, rfl⟩
  · -- only the last message is from a client
    refine clientsLast_cons.mpr ⟨fun hc => (nomatch hc.1), ?_⟩
    refine clientsLast_cons.mpr ⟨fun hc => (nomatch hc.1), ?_⟩
    refine clientsLast_cons.mpr ⟨fun _ => by decide, ?_⟩
    exact clientsLast_nil _

/-- A client that joins first brings the coordinator down. -/
theorem exists_failing_order : ∃ msgs : List (SessionId × Message),
    (∀ x ∈ msgs, x.2.IsJoin shipped) ∧
      deliver (fun session => toString session) msgs started = .error .assertion := by
  refine ⟨[(9, clientJoin)], ?_, rfl⟩
  intro x hx
  rw [List.mem_singleton.mp hx]
  exact .inr ⟨rfl, rfl⟩

end Nvds.Cluster
