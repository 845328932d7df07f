import Nvds.Cluster.Agreement

/-! # A session takes turns

    The coordinator posts the receive of a session's next message when the
    answer to the last one has been sent. So the operations on one socket
    never overlap: there is one receive, or one send, or neither, while a
    server waits for the others to join.
-/

open Transition

namespace Nvds.Cluster

variable {c : Config} {peer : SessionId → String} {im₀ : IndexManager c}

/-! ### Sends in progress -/

/-- The sessions of the sends `posted` that are not completed; the first of them is send `n`. -/
def outstandingFrom (completed : List Nat) : Nat → List (SessionId × ResJoin c) → List SessionId
  | _, [] => []
  | n, (session, _) :: posted =>
    if n ∈ completed then
      outstandingFrom completed (n + 1) posted
    else
      session :: outstandingFrom completed (n + 1) posted

/-- The sessions on which a send is in progress, once for each send. -/
def System.sending (s : System c) : List SessionId :=
  outstandingFrom s.completed 0 s.coordinator.posted

/-- The sessions that do something or wait for other servers. -/
def System.occupied (s : System c) : List SessionId :=
  s.receiving ++ (s.coordinator.sessions ++ s.sending)

section outstanding

variable {completed : List Nat} {posted posted' : List (SessionId × ResJoin c)} {n m : Nat}

/-- New sends are in progress. -/
theorem outstandingFrom_append (h : ∀ x ∈ completed, x < n + posted.length) :
    outstandingFrom completed n (posted ++ posted') =
      outstandingFrom completed n posted ++ posted'.map (·.1) := by
  induction posted generalizing n with
  | nil =>
    -- none of the new ones is completed
    rw [List.nil_append]
    show _ = posted'.map (·.1)
    rw [List.length_nil, Nat.add_zero] at h
    induction posted' generalizing n with
    | nil => rfl
    | cons x posted' ih =>
      have hn : n ∉ completed := fun hc => lt_irrefl n (h n hc)
      rw [outstandingFrom, if_neg hn, List.map_cons, ih fun y hy => Nat.lt_succ_of_lt (h y hy)]
  | cons x posted ih =>
    have hrest : ∀ y ∈ completed, y < n + 1 + posted.length := by
      intro y hy
      have hlt := h y hy
      rw [List.length_cons] at hlt
      omega
    rw [List.cons_append, outstandingFrom, outstandingFrom, ih hrest]
    split
    · rfl
    · rfl

/-- Sends with smaller numbers do not matter. -/
theorem outstandingFrom_cons_of_lt (h : m < n) :
    outstandingFrom (m :: completed) n posted = outstandingFrom completed n posted := by
  induction posted generalizing n with
  | nil => rfl
  | cons x posted ih =>
    have hmem : n ∈ m :: completed ↔ n ∈ completed := by
      rw [List.mem_cons]
      exact or_iff_right h.ne'
    rw [outstandingFrom, outstandingFrom, ih (Nat.lt_succ_of_lt h)]
    simp only [hmem]

/-- A send that is completed is not in progress any more, and no other is. -/
theorem outstandingFrom_complete {session : SessionId} {res : ResJoin c}
    (hnew : n + m ∉ completed) (hget : posted[m]? = some (session, res)) :
    (outstandingFrom completed n posted).Perm
      (session :: outstandingFrom ((n + m) :: completed) n posted) := by
  induction posted generalizing n m with
  | nil => cases hget
  | cons x posted ih =>
    cases m with
    | zero =>
      cases hget
      rw [Nat.add_zero] at hnew ⊢
      rw [outstandingFrom, outstandingFrom, if_neg hnew, if_pos List.mem_cons_self,
        outstandingFrom_cons_of_lt (Nat.lt_succ_self n)]
    | succ m =>
      have hmem : n ∈ (n + (m + 1)) :: completed ↔ n ∈ completed := by
        rw [List.mem_cons]
        exact or_iff_right (by omega)
      have hperm := ih (n := n + 1) (m := m) (by rwa [Nat.add_assoc, Nat.add_comm 1 m]) hget
      rw [Nat.add_assoc, Nat.add_comm 1 m] at hperm
      rw [outstandingFrom, outstandingFrom]
      simp only [hmem]
      split
      · exact hperm
      · exact (hperm.cons x.1).trans (List.Perm.swap _ _ _)

end outstanding

/-! ### The invariant -/

/-- No session is occupied twice, and only accepted ones are. -/
structure Turns (s : System c) : Prop where
  once : ∀ x, s.occupied.count x ≤ 1
  accepted : ∀ x, x ∉ s.accepted → s.occupied.count x = 0
  completed : ∀ n ∈ s.completed, n < s.coordinator.posted.length

section steps

variable {s s' : System c} {session : SessionId} {msg : Message} {co : Coordinator c}

theorem count_occupied (s : System c) (x : SessionId) :
    s.occupied.count x =
      s.receiving.count x + s.coordinator.sessions.count x + s.sending.count x := by
  rw [System.occupied, List.count_append, List.count_append, Nat.add_assoc]

/-- Sessions are left, or handed on. -/
theorem Turns.of_count_le (h : Turns s) (hle : ∀ x, s'.occupied.count x ≤ s.occupied.count x)
    (haccepted : s'.accepted = s.accepted)
    (hcompleted : ∀ n ∈ s'.completed, n < s'.coordinator.posted.length) : Turns s' := by
  refine ⟨fun x => (hle x).trans (h.once x), ?_, hcompleted⟩
  intro x hx
  rw [haccepted] at hx
  exact Nat.le_zero.mp ((hle x).trans (h.accepted x hx).le)

/-- A message was received: its session joins the queue, is answered or drops out. -/
theorem Turns.recv (h : Turns s) (hin : session ∈ s.receiving)
    (hrun : s.coordinator.handleRecvMessage (peer session) session msg = .ok co) :
    Turns { s with
      coordinator := co
      receiving := s.receiving.erase session
      received := s.received ++ [(session, msg)] } := by
  have hdone := h.completed
  have hlt : ∀ n ∈ s.completed, n < 0 + s.coordinator.posted.length := by
    intro n hn
    rw [Nat.zero_add]
    exact hdone n hn
  -- the session counts once in what is received
  have hpos : 0 < s.receiving.count session := List.count_pos_iff.mpr hin
  have herase : ∀ x, (s.receiving.erase session).count x + [session].count x =
      s.receiving.count x := by
    intro x
    rw [List.count_erase, List.count_singleton]
    by_cases hx : session = x
    · subst hx
      simp only [beq_self_eq_true, if_true]
      omega
    · simp [hx]
  -- the session moves to those that wait, to those that are answered, or out of sight
  cases handled_of_run hrun with
  | ignored _ _ | other _ =>
    refine h.of_count_le (fun x => ?_) rfl hdone
    have hx := herase x
    rw [count_occupied, count_occupied]
    show (s.receiving.erase session).count x + s.coordinator.sessions.count x +
      s.sending.count x ≤ _
    omega
  | @enrolled im _ _ _ _ =>
    refine h.of_count_le (fun x => ?_) rfl hdone
    have hx := herase x
    rw [count_occupied, count_occupied]
    show (s.receiving.erase session).count x + (s.coordinator.sessions ++ [session]).count x +
      s.sending.count x ≤ _
    rw [List.count_append]
    omega
  | @last im _ _ _ _ =>
    refine h.of_count_le (fun x => ?_) rfl ?_
    · have hx := herase x
      rw [count_occupied, count_occupied]
      show (s.receiving.erase session).count x + List.count x [] +
        (outstandingFrom s.completed 0 (s.coordinator.posted ++ _)).count x ≤ _
      rw [outstandingFrom_append hlt, List.count_append]
      show _ + (s.sending.count x + _) ≤ _
      have hmap : ((s.coordinator.sessions ++ [session]).mapIdx fun i session =>
          (session, ResJoin.server i im)).map (·.1) = s.coordinator.sessions ++ [session] := by
        rw [List.mapIdx_eq_zipIdx_map, List.map_map]
        exact List.zipIdx_map_fst 0 _
      rw [hmap, List.count_append, List.count_nil]
      omega
    · intro n hn
      rw [List.length_append]
      exact (hdone n hn).trans_le (Nat.le_add_right _ _)
  | client _ _ =>
    refine h.of_count_le (fun x => ?_) rfl ?_
    · have hx := herase x
      rw [count_occupied, count_occupied]
      show (s.receiving.erase session).count x + s.coordinator.sessions.count x +
        (outstandingFrom s.completed 0 (s.coordinator.posted ++ _)).count x ≤ _
      rw [outstandingFrom_append hlt, List.count_append]
      show _ + (s.sending.count x + [session].count x) ≤ _
      omega
    · intro n hn
      rw [List.length_append]
      exact (hdone n hn).trans_le (Nat.le_add_right _ _)

/-- **Every event** leaves the sessions their turns. -/
theorem Turns.step {e : Event} (h : Turns s) (hstep : Step peer s e s') : Turns s' := by
  cases e with
  | accept session =>
    obtain ⟨hnew, rfl⟩ := hstep
    have hzero := h.accepted session hnew
    rw [count_occupied] at hzero
    refine ⟨?_, ?_, h.completed⟩
    · intro x
      have hx := h.once x
      rw [count_occupied] at hx ⊢
      show (session :: s.receiving).count x + s.coordinator.sessions.count x +
        s.sending.count x ≤ 1
      rw [List.count_cons]
      split
      · next heq =>
        obtain rfl := eq_of_beq heq
        omega
      · exact hx
    · intro x hx
      obtain ⟨hne, hold⟩ : x ≠ session ∧ x ∉ s.accepted := by
        rwa [List.mem_cons, not_or] at hx
      have hx := h.accepted x hold
      rw [count_occupied] at hx ⊢
      show (session :: s.receiving).count x + s.coordinator.sessions.count x +
        s.sending.count x = 0
      rw [List.count_cons_of_ne (Ne.symm hne)]
      exact hx
  | recv session msg =>
    obtain ⟨hin, _, co, hrun, rfl⟩ := hstep
    exact h.recv hin hrun
  | sent n =>
    obtain ⟨hnew, session, res, hget, rfl⟩ := hstep
    refine h.of_count_le (fun x => ?_) rfl ?_
    -- the session of answer `n` stops sending and starts to receive
    · have hperm := outstandingFrom_complete (n := 0) (m := n) (by rwa [Nat.zero_add]) hget
      have hx := hperm.count_eq x
      rw [Nat.zero_add, List.count_cons] at hx
      rw [count_occupied, count_occupied]
      show (session :: s.receiving).count x + s.coordinator.sessions.count x +
        (outstandingFrom (n :: s.completed) 0 s.coordinator.posted).count x ≤
        s.receiving.count x + s.coordinator.sessions.count x +
          (outstandingFrom s.completed 0 s.coordinator.posted).count x
      rw [hx, List.count_cons]
      omega
    · intro x hx
      rcases List.mem_cons.mp hx with rfl | hx
      · exact (List.getElem?_eq_some_iff.mp hget).1
      · exact h.completed x hx

end steps

theorem turns_invariant {s : System c} (h : Reachable (System.Initial im₀) (Step peer) s) :
    Turns s := by
  refine h.invariant Turns ?_ fun _ _ _ hturns => hturns.step
  rintro s ⟨⟨_, _, _, hsess, hposted⟩, _, _, hrecv, hdone, _⟩
  have hnil : s.occupied = [] := by
    rw [System.occupied, System.sending, hrecv, hsess, hposted]
    rfl
  refine ⟨?_, ?_, ?_⟩
  · intro x
    rw [hnil]
    exact Nat.zero_le _
  · intro x _
    rw [hnil]
    rfl
  · rw [hdone]
    exact fun n hn => absurd hn List.not_mem_nil

/-- **One operation at a time.** In every state of every run, no session is receiving twice,
    sending twice, or doing both; and none does either while it waits for other servers. -/
theorem sessions_take_turns {s : System c}
    (h : Reachable (System.Initial im₀) (Step peer) s) :
    (s.receiving ++ (s.coordinator.sessions ++ s.sending)).Nodup :=
  List.nodup_iff_count_le_one.mpr (turns_invariant h).once

/-- Session 7 waits for another server, session 8 is receiving. -/
theorem sessions_take_turns_shipped : ∃ s : System shipped,
    s.receiving = [8] ∧ s.coordinator.sessions = [7] ∧
      (s.receiving ++ (s.coordinator.sessions ++ s.sending)).Nodup := by
  have hok : (started.handleRecvMessage (toString 7) 7 (joinOf 1)).map (·.sessions) = .ok [7] := by
    decide +kernel
  cases hrun : started.handleRecvMessage (toString 7) 7 (joinOf 1) with
  | error e =>
    rw [hrun] at hok
    cases hok
  | ok co =>
    rw [hrun] at hok
    have r₀ : Leads ⟨started, [], [], [], []⟩ :=
      .init ⟨⟨rfl, rfl, rfl, rfl, rfl⟩, rfl, rfl, rfl, rfl, rfl⟩
    have r₁ : Leads ⟨started, [7], [7], [], []⟩ := r₀.step (.accept 7) ⟨by decide, rfl⟩
    have r₂ : Leads ⟨started, [8, 7], [8, 7], [], []⟩ := r₁.step (.accept 8) ⟨by decide, rfl⟩
    have r₃ : Leads ⟨co, [8, 7], [8], [], [(7, joinOf 1)]⟩ :=
      r₂.step (.recv 7 (joinOf 1)) ⟨by decide, fun _ _ => by decide, co, hrun, rfl⟩
    injection hok with hsess
    exact ⟨_, rfl, hsess, sessions_take_turns r₃⟩

end Nvds.Cluster
