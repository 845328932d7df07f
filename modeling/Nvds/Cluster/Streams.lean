import Nvds.Cluster.Connections
import Nvds.Cluster.Exchange

/-! # The join protocol on byte streams

    Whatever pieces the bytes of the sessions arrive in, the coordinator on
    its sockets goes through states of the protocol on whole messages. The
    invariant follows the sends of each session through `posted`, and both
    of its streams.
-/

open Json Transition

namespace Nvds.Cluster

variable {c : Config}

/-! ### The sends of one session -/

/-- The numbers of the sends on `x` that are not completed. -/
def pendingFrom (x : SessionId) (completed : List Nat) :
    Nat → List (SessionId × ResJoin c) → List Nat
  | _, [] => []
  | n, (session, _) :: posted =>
    if n ∉ completed ∧ session = x then
      n :: pendingFrom x completed (n + 1) posted
    else
      pendingFrom x completed (n + 1) posted

/-- The messages that were posted on `x`. -/
def sentTo (text : JsonText) (x : SessionId) (posted : List (SessionId × ResJoin c)) :
    List Session.Message :=
  posted.filterMap fun e => if e.1 = x then some (e.2.message text) else none

section sends

variable {text : JsonText} {x y : SessionId} {completed : List Nat} {n m : Nat}
  {posted posted' : List (SessionId × ResJoin c)}

/-- There are as many as the session occurs among those with a send in progress. -/
theorem length_pendingFrom : (pendingFrom x completed n posted).length =
    (outstandingFrom completed n posted).count x := by
  induction posted generalizing n with
  | nil => rfl
  | cons e posted ih =>
    obtain ⟨session, res⟩ := e
    rw [pendingFrom, outstandingFrom]
    by_cases hn : n ∈ completed
    · rw [if_neg (fun h => h.1 hn), if_pos hn, ih]
    · rw [if_neg hn, List.count_cons, ← ih]
      by_cases hx : session = x
      · rw [if_pos ⟨hn, hx⟩, List.length_cons, if_pos (beq_iff_eq.mpr hx)]
      · rw [if_neg (fun h => hx h.2), if_neg (fun h => hx (eq_of_beq h))]
        rfl

theorem pendingFrom_append (h : ∀ k ∈ completed, k < n + posted.length) :
    pendingFrom x completed n (posted ++ posted') = pendingFrom x completed n posted ++
      (startFrom text x (n + posted.length) posted').map (·.n) := by
  -- on the answers posted before; `n` counts those passed
  induction posted generalizing n with
  | nil =>
    rw [List.nil_append]
    show _ = (startFrom text x (n + 0) posted').map (·.n)
    rw [List.length_nil, Nat.add_zero] at h
    rw [Nat.add_zero]
    induction posted' generalizing n with
    | nil => rfl
    | cons e posted' ih =>
      -- a new answer has not been written yet
      have hn : n ∉ completed := fun hc => lt_irrefl n (h n hc)
      rw [pendingFrom, startFrom, ih fun k hk => Nat.lt_succ_of_lt (h k hk)]
      by_cases hx : e.1 = x
      · rw [if_pos ⟨hn, hx⟩, if_pos hx]
        rfl
      · rw [if_neg (fun h => hx h.2), if_neg hx]
  | cons e posted ih =>
    have hrest : ∀ k ∈ completed, k < n + 1 + posted.length := by
      intro k hk
      have hlt := h k hk
      rw [List.length_cons] at hlt
      omega
    have hlen : n + (e :: posted).length = n + 1 + posted.length := by
      rw [List.length_cons]
      omega
    rw [List.cons_append, pendingFrom, pendingFrom, ih hrest, hlen]
    split
    · rfl
    · rfl

/-- The send that was completed is left out. -/
theorem pendingFrom_complete : pendingFrom x (m :: completed) n posted =
    (pendingFrom x completed n posted).filter (· ≠ m) := by
  induction posted generalizing n with
  | nil => rfl
  | cons e posted ih =>
    obtain ⟨session, res⟩ := e
    rw [pendingFrom, pendingFrom, ih]
    by_cases hx : n ∉ completed ∧ session = x
    · rw [if_pos hx, List.filter_cons]
      by_cases hm : n = m
      · rw [if_neg (by simp [hm]), if_neg (by simp [hm])]
      · rw [if_pos (by simp [hm, hx]), if_pos (by simp [hm])]
    · rw [if_neg hx, if_neg (fun h => hx ⟨fun hc => h.1 (List.mem_cons_of_mem _ hc), h.2⟩)]

/-- A send on `x` is one that was posted on `x` and is not completed. -/
theorem session_of_pendingFrom (h : m ∈ pendingFrom x completed n posted) :
    n ≤ m ∧ m ∉ completed ∧ ∃ res, posted[m - n]? = some (x, res) := by
  induction posted generalizing n with
  | nil => cases h
  | cons e posted ih =>
    obtain ⟨session, res⟩ := e
    have hrest : m ∈ pendingFrom x completed (n + 1) posted →
        n ≤ m ∧ m ∉ completed ∧ ∃ res', ((session, res) :: posted)[m - n]? = some (x, res') := by
      intro hmem
      obtain ⟨hle, hnew, hget⟩ := ih hmem
      refine ⟨Nat.le_of_succ_le hle, hnew, ?_⟩
      rwa [show m - n = m - (n + 1) + 1 by omega, List.getElem?_cons_succ]
    rw [pendingFrom] at h
    split at h
    · next hx =>
      rcases List.mem_cons.mp h with rfl | h
      · rw [Nat.sub_self]
        exact ⟨le_rfl, hx.1, res, by rw [hx.2]; rfl⟩
      · exact hrest h
    · exact hrest h

/-- The bytes of new sends are those of their messages. -/
theorem left_startFrom (n : Nat) (posted : List (SessionId × ResJoin c)) :
    (startFrom text x n posted).flatMap (·.writing.left) =
      Session.bytesOf (sentTo text x posted) := by
  induction posted generalizing n with
  | nil => rfl
  | cons e posted ih =>
    obtain ⟨session, res⟩ := e
    rw [startFrom, sentTo, List.filterMap_cons]
    by_cases hx : session = x
    · rw [if_pos hx, if_pos hx]
      dsimp only
      rw [List.flatMap_cons, ih]
      show _ = Session.bytesOf ([res.message text] ++ sentTo text x posted)
      rw [Session.bytesOf_append, Session.bytesOf_singleton]
      rfl
    · rw [if_neg hx, if_neg hx]
      exact ih (n + 1)

theorem sentTo_append : sentTo text x (posted ++ posted') =
    sentTo text x posted ++ sentTo text x posted' :=
  List.filterMap_append

end sends

/-! ### The invariant -/

/-- The messages of `x` that were handled. -/
def handledOn (x : SessionId) (received : List (SessionId × Message)) : List Message :=
  received.filterMap fun e => if e.1 = x then some e.2 else none

/-- The messages that are handled of those that were received. -/
def decoded (text : JsonText) (ms : List Session.Message) : List Message :=
  ms.filterMap fun m => (decodeMessage text m).join

variable {text : JsonText} {peer : SessionId → String} {im₀ : IndexManager c}

/-- What links the socket of `x` to the messages of the protocol. -/
structure SocketInv (text : JsonText) (sys : System c) (x : SessionId) (link : Session.Link)
    (sends : List Sending) (pipe : Session.Pipe) : Prop where
  reach : Session.Link.Reachable link
  receiving : link.pipe.receiving ≠ .idle → x ∈ sys.receiving
  handled : handledOn x sys.received = decoded text link.pipe.received
  numbers : sends.map (·.n) = pendingFrom x sys.completed 0 sys.coordinator.posted
  streams : (∀ m ∈ sentTo text x sys.coordinator.posted, m.Fits) →
    ∃ todo, sentTo text x sys.coordinator.posted = pipe.received ++ todo ∧
      pipe.Holds todo (sends.flatMap (·.writing.left))

/-- The messages of the protocol are those of one of its runs. -/
structure Net.Inv (text : JsonText) (peer : SessionId → String) (im₀ : IndexManager c)
    (s : Net c) : Prop where
  system : Reachable (System.Initial im₀) (Cluster.Step peer) s.system
  sockets : ∀ x, SocketInv text s.system x (s.inbound x) (s.sends x) (s.outbound x)

section sockets

variable {sys sys' : System c} {x : SessionId} {link link' : Session.Link}
  {sends sends' : List Sending} {pipe pipe' : Session.Pipe}

/-- There is at most one send at a time, and then no receive. -/
theorem SocketInv.alone (h : SocketInv text sys x link sends pipe) (hturns : Turns sys) :
    sends.length ≤ 1 ∧ (sends ≠ [] → link.pipe.receiving = .idle) := by
  have honce := hturns.once x
  rw [count_occupied] at honce
  have hlen : sends.length = sys.sending.count x := by
    rw [← List.length_map Sending.n, h.numbers, length_pendingFrom]
    rfl
  constructor
  · omega
  · intro hne
    have hpos := List.length_pos_iff.mpr hne
    by_contra hbusy
    have hrecv := List.count_pos_iff.mpr (h.receiving hbusy)
    omega

/-- The stream from the peer goes on, and no message is handled. -/
theorem SocketInv.inbound (h : SocketInv text sys x link sends pipe) {e : Session.LinkEvent}
    (hstep : link.step e = some link')
    (hrecv : link'.pipe.receiving ≠ .idle → link.pipe.receiving ≠ .idle)
    (hdecoded : decoded text link'.pipe.received = decoded text link.pipe.received) :
    SocketInv text sys x link' sends pipe :=
  ⟨h.reach.step e hstep, fun hne => h.receiving (hrecv hne), by rw [hdecoded]; exact h.handled,
    h.numbers, h.streams⟩

/-- The stream to the peer goes on. -/
theorem SocketInv.outbound (h : SocketInv text sys x link sends pipe)
    (hnumbers : sends'.map (·.n) = sends.map (·.n))
    (hstream : ∀ todo, (∀ m ∈ todo, m.Fits) → pipe.Holds todo (sends.flatMap (·.writing.left)) →
      ∃ done todo', todo = done ++ todo' ∧ pipe'.received = pipe.received ++ done ∧
        pipe'.Holds todo' (sends'.flatMap (·.writing.left))) :
    SocketInv text sys x link sends' pipe' := by
  refine ⟨h.reach, h.receiving, h.handled, by rw [hnumbers]; exact h.numbers, ?_⟩
  intro hfits
  obtain ⟨todo, hsent, hholds⟩ := h.streams hfits
  have htodo : ∀ m ∈ todo, m.Fits := fun m hm =>
    hfits m (hsent ▸ List.mem_append_right _ hm)
  obtain ⟨done, todo', rfl, hreceived, hholds'⟩ := hstream todo htodo hholds
  refine ⟨todo', ?_, hholds'⟩
  rw [hsent, hreceived, List.append_assoc]

/-- The protocol goes on without this session. -/
theorem SocketInv.other (h : SocketInv text sys x link sends pipe)
    (hreceiving : x ∈ sys.receiving → x ∈ sys'.receiving)
    (hreceived : handledOn x sys'.received = handledOn x sys.received)
    (hcompleted : pendingFrom x sys'.completed 0 sys.coordinator.posted =
      pendingFrom x sys.completed 0 sys.coordinator.posted)
    (hposted : sys'.coordinator.posted = sys.coordinator.posted) :
    SocketInv text sys' x link sends pipe := by
  refine ⟨h.reach, fun hne => hreceiving (h.receiving hne), ?_, ?_, ?_⟩
  · rw [hreceived]
    exact h.handled
  · rw [hposted, hcompleted]
    exact h.numbers
  · rw [hposted]
    exact h.streams

/-- New sends are started. -/
theorem SocketInv.start (h : SocketInv text sys x link sends pipe)
    (hcompleted : ∀ n ∈ sys.completed, n < sys.coordinator.posted.length)
    {posted : List (SessionId × ResJoin c)}
    (hlink : Session.Link.Reachable link') (hreceiving : link'.pipe.receiving ≠ .idle →
      x ∈ sys'.receiving)
    (hhandled : handledOn x sys'.received = decoded text link'.pipe.received)
    (hdone : sys'.completed = sys.completed)
    (hposted : sys'.coordinator.posted = sys.coordinator.posted ++ posted) :
    SocketInv text sys' x link'
      (sends ++ startFrom text x sys.coordinator.posted.length posted) pipe := by
  refine ⟨hlink, hreceiving, hhandled, ?_, ?_⟩
  · have happend := @pendingFrom_append _ text x sys.completed 0 sys.coordinator.posted posted
      (fun k hk => by rw [Nat.zero_add]; exact hcompleted k hk)
    rw [Nat.zero_add] at happend
    rw [hdone, hposted, happend, List.map_append, h.numbers]
  · intro hfits
    rw [hposted, sentTo_append] at hfits ⊢
    obtain ⟨todo, hsent, hholds⟩ := h.streams fun m hm => hfits m (List.mem_append_left _ hm)
    refine ⟨todo ++ sentTo text x posted, ?_, ?_⟩
    · rw [hsent, List.append_assoc]
    · rw [List.flatMap_append, left_startFrom]
      exact hholds.append _

end sockets

/-! ### Every step -/

theorem decoded_append (ms ms' : List Session.Message) :
    decoded text (ms ++ ms') = decoded text ms ++ decoded text ms' :=
  List.filterMap_append

theorem decoded_singleton (m : Session.Message) :
    decoded text [m] = (decodeMessage text m).join.toList := by
  rw [decoded, List.filterMap_cons]
  cases (decodeMessage text m).join <;> rfl

theorem handledOn_concat (x y : SessionId) (received : List (SessionId × Message)) (msg : Message) :
    handledOn y (received ++ [(x, msg)]) =
      handledOn y received ++ if x = y then [msg] else [] := by
  rw [handledOn, List.filterMap_append]
  congr 1
  by_cases hx : x = y
  · rw [if_pos hx, List.filterMap_cons, if_pos hx]
    rfl
  · rw [if_neg hx, List.filterMap_cons, if_neg hx]
    rfl

/-- A handler only adds to what was posted. -/
theorem posted_of_handled {addr : String} {x : SessionId} {msg : Message} {co co' : Coordinator c}
    (h : co.handleRecvMessage addr x msg = .ok co') :
    ∃ posted, co'.posted = co.posted ++ posted := by
  cases handled_of_run h with
  | ignored _ _ | other _ | enrolled _ _ _ _ => exact ⟨[], (List.append_nil _).symm⟩
  | last _ _ _ _ => exact ⟨_, rfl⟩
  | client _ _ => exact ⟨_, rfl⟩

namespace Net.Inv

variable {s s' : Net c} {x : SessionId}

theorem turns (h : s.Inv text peer im₀) : Turns s.system := turns_invariant h.system

/-- A step concerns one socket, and the others as far as the protocol goes on. -/
theorem of_socket (hsystem : Reachable (System.Initial im₀) (Cluster.Step peer) s'.system)
    (hsame : ∀ y, y ≠ x → s'.inbound y = s.inbound y ∧ s'.sends y = s.sends y ∧
      s'.outbound y = s.outbound y)
    (hothers : ∀ y, y ≠ x → SocketInv text s'.system y (s.inbound y) (s.sends y) (s.outbound y))
    (hx : SocketInv text s'.system x (s'.inbound x) (s'.sends x) (s'.outbound x)) :
    s'.Inv text peer im₀ := by
  refine ⟨hsystem, fun y => ?_⟩
  by_cases hyx : y = x
  · rw [hyx]
    exact hx
  · obtain ⟨hin, hsends, hout⟩ := hsame y hyx
    rw [hin, hsends, hout]
    exact hothers y hyx

/-- The stream from the peer goes on, and no message is handled. -/
theorem setInbound (h : s.Inv text peer im₀) {link : Session.Link} {e : Session.LinkEvent}
    (hstep : (s.inbound x).step e = some link) (he : e ≠ .post)
    (hdecoded : decoded text link.pipe.received = decoded text (s.inbound x).pipe.received) :
    (s.setInbound x link).Inv text peer im₀ := by
  refine of_socket (s := s) (x := x) h.system ?_ (fun y _ => h.sockets y) ?_
  · intro y hyx
    exact ⟨Function.update_of_ne hyx _ _, rfl, rfl⟩
  · show SocketInv text s.system x (Function.update s.inbound x link x) _ _
    rw [Function.update_self]
    exact (h.sockets x).inbound hstep (Session.Link.receiving_of_step hstep he) hdecoded

/-- The stream to the peer goes on. -/
theorem setOutbound (h : s.Inv text peer im₀) {sends : List Sending} {pipe : Session.Pipe}
    (hnumbers : sends.map (·.n) = (s.sends x).map (·.n))
    (hstream : ∀ todo, (∀ m ∈ todo, m.Fits) →
      (s.outbound x).Holds todo ((s.sends x).flatMap (·.writing.left)) →
      ∃ done todo', todo = done ++ todo' ∧ pipe.received = (s.outbound x).received ++ done ∧
        pipe.Holds todo' (sends.flatMap (·.writing.left))) :
    Inv text peer im₀ { s.setOutbound x pipe with sends := Function.update s.sends x sends } := by
  refine of_socket (s := s) (x := x) h.system ?_ (fun y _ => h.sockets y) ?_
  · intro y hyx
    exact ⟨rfl, Function.update_of_ne hyx _ _, Function.update_of_ne hyx _ _⟩
  · show SocketInv text s.system x _ (Function.update s.sends x sends x)
      (Function.update s.outbound x pipe x)
    rw [Function.update_self, Function.update_self]
    exact (h.sockets x).outbound hnumbers hstream

/-- The peer reads, and the coordinator writes nothing. -/
theorem setPipe (h : s.Inv text peer im₀) {pipe : Session.Pipe}
    (hstream : ∀ todo rest, (∀ m ∈ todo, m.Fits) → (s.outbound x).Holds todo rest →
      ∃ done todo', todo = done ++ todo' ∧ pipe.received = (s.outbound x).received ++ done ∧
        pipe.Holds todo' rest) :
    (s.setOutbound x pipe).Inv text peer im₀ := by
  have hset := @setOutbound _ _ _ _ s x h (s.sends x) pipe rfl fun todo hfits hholds =>
    hstream todo _ hfits hholds
  rwa [Function.update_eq_self] at hset

/-- The only send on a session. -/
theorem single (h : s.Inv text peer im₀) {before after : List Sending} {snd : Sending}
    (hsends : s.sends x = before ++ snd :: after) : before = [] ∧ after = [] := by
  have hlen := ((h.sockets x).alone h.turns).1
  rw [hsends, List.length_append, List.length_cons] at hlen
  exact ⟨List.eq_nil_of_length_eq_zero (by omega), List.eq_nil_of_length_eq_zero (by omega)⟩

theorem accept (h : s.Inv text peer im₀) {link : Session.Link} (hnew : x ∉ s.system.accepted)
    (hstep : (s.inbound x).step .post = some link) :
    Inv text peer im₀ { s.setInbound x link with system := s.system.accepts x } := by
  have hsys : Cluster.Step peer s.system (.accept x) (s.system.accepts x) := ⟨hnew, rfl⟩
  refine of_socket (s := s) (x := x) (h.system.step _ hsys) ?_ ?_ ?_
  · intro y hyx
    exact ⟨Function.update_of_ne hyx _ _, rfl, rfl⟩
  · intro y _
    exact (h.sockets y).other (List.mem_cons_of_mem _) rfl rfl rfl
  · show SocketInv text _ x (Function.update s.inbound x link x) _ _
    rw [Function.update_self]
    have hx := h.sockets x
    refine ⟨hx.reach.step _ hstep, fun _ => List.mem_cons_self, ?_, hx.numbers, hx.streams⟩
    rw [Session.Link.received_of_step hstep (by simp)]
    exact hx.handled

theorem handle (h : s.Inv text peer im₀) {link : Session.Link} {m : Session.Message}
    {msg : Message} {co : Coordinator c} (hstep : (s.inbound x).step .complete = some link)
    (hreceived : link.pipe.received = (s.inbound x).pipe.received ++ [m])
    (hdecode : decodeMessage text m = some (some msg)) (htakes : s.system.coordinator.Takes msg)
    (hrun : s.system.coordinator.handleRecvMessage (peer x) x msg = .ok co) :
    Inv text peer im₀ { s.setInbound x link with
      system := s.system.handles x msg co
      sends := fun y => s.sends y ++ startFrom text y s.system.coordinator.posted.length
        (co.posted.drop s.system.coordinator.posted.length) } := by
  -- a receive was posted, since a message is complete
  have hin : x ∈ s.system.receiving :=
    (h.sockets x).receiving (Session.Link.busy_of_complete hstep)
  have hsys : Cluster.Step peer s.system (.recv x msg) (s.system.handles x msg co) :=
    ⟨hin, htakes, co, hrun, rfl⟩
  have hreach := h.system.step _ hsys
  obtain ⟨posted, hposted⟩ := posted_of_handled hrun
  have hdrop : co.posted.drop s.system.coordinator.posted.length = posted := by
    rw [hposted, List.drop_left]
  refine ⟨hreach, fun y => ?_⟩
  have hy := h.sockets y
  dsimp only
  rw [hdrop]
  by_cases hyx : y = x
  · subst hyx
    show SocketInv text _ y (Function.update s.inbound y link y) _ _
    rw [Function.update_self]
    refine hy.start h.turns.completed (hy.reach.step _ hstep) ?_ ?_ rfl hposted
    · intro hbusy
      obtain ⟨pipe, hdone, rfl⟩ := Session.Link.step_complete hstep
      exact absurd (Session.Pipe.Holds.complete_idle hdone hreceived) hbusy
    · rw [hreceived, decoded_append, ← hy.handled]
      refine (handledOn_concat y y _ _).trans ?_
      rw [if_pos rfl]
      rw [decoded_singleton, hdecode]
      rfl
  · show SocketInv text _ y (Function.update s.inbound x link y) _ _
    rw [Function.update_of_ne hyx]
    refine hy.start h.turns.completed hy.reach ?_ ?_ rfl hposted
    · intro hbusy
      exact (List.mem_erase_of_ne hyx).mpr (hy.receiving hbusy)
    · rw [← hy.handled]
      refine (handledOn_concat x y _ _).trans ?_
      rw [if_neg (Ne.symm hyx), List.append_nil]

theorem written (h : s.Inv text peer im₀) {before after : List Sending} {n : Nat}
    {link : Session.Link} (hsends : s.sends x = before ++ ⟨n, .body []⟩ :: after)
    (hstep : (s.inbound x).step .post = some link) :
    Inv text peer im₀ { s.setInbound x link with
      system := s.system.completes x n
      sends := Function.update s.sends x (before ++ after) } := by
  obtain ⟨rfl, rfl⟩ := h.single hsends
  have hx := h.sockets x
  -- the send was posted on this session, and is not completed yet
  have hmem : n ∈ pendingFrom x s.system.completed 0 s.system.coordinator.posted := by
    rw [← hx.numbers, hsends]
    exact List.mem_singleton_self n
  obtain ⟨_, hopen, res, hget⟩ := session_of_pendingFrom hmem
  rw [Nat.sub_zero] at hget
  have hsys : Cluster.Step peer s.system (.sent n) (s.system.completes x n) :=
    ⟨hopen, x, res, hget, rfl⟩
  refine of_socket (s := s) (x := x) (h.system.step _ hsys) ?_ ?_ ?_
  · intro y hyx
    exact ⟨Function.update_of_ne hyx _ _, Function.update_of_ne hyx _ _, rfl⟩
  · intro y hyx
    refine (h.sockets y).other (List.mem_cons_of_mem _) rfl ?_ rfl
    show pendingFrom y (n :: s.system.completed) 0 s.system.coordinator.posted = _
    rw [pendingFrom_complete]
    apply List.filter_eq_self.mpr
    intro k hk
    -- it is not one of another session
    have hne : k ≠ n := by
      rintro rfl
      obtain ⟨_, _, res', hget'⟩ := session_of_pendingFrom hk
      rw [Nat.sub_zero, hget] at hget'
      cases hget'
      exact hyx rfl
    exact decide_eq_true hne
  · show SocketInv text _ x (Function.update s.inbound x link x) (Function.update s.sends x _ x) _
    rw [Function.update_self, Function.update_self]
    refine ⟨hx.reach.step _ hstep, fun _ => List.mem_cons_self, ?_, ?_, ?_⟩
    · rw [Session.Link.received_of_step hstep (by simp)]
      exact hx.handled
    · have hnumbers := hx.numbers
      rw [hsends] at hnumbers
      show [] = pendingFrom x (n :: s.system.completed) 0 s.system.coordinator.posted
      rw [pendingFrom_complete, ← hnumbers]
      simp
    · have hstreams := hx.streams
      rw [hsends] at hstreams
      exact hstreams

/-- **Every step keeps the invariant.** -/
theorem step {l : SessionId} (h : s.Inv text peer im₀) (hstep : Net.Step text peer s l s') :
    s'.Inv text peer im₀ := by
  cases hstep with
  | accept hnew hpost => exact h.accept hnew hpost
  | peerSend hlink | peerWrite hlink | read hlink =>
    refine h.setInbound hlink (by simp) ?_
    rw [Session.Link.received_of_step hlink (by simp)]
  | header hlink hreceived =>
    refine h.setInbound hlink (by simp) ?_
    rw [hreceived]
  | pass hlink hreceived hdecode =>
    refine h.setInbound hlink (by simp) ?_
    rw [hreceived, decoded_append, decoded_singleton, hdecode]
    exact List.append_nil _
  | handle hlink hreceived hdecode htakes hrun =>
    exact h.handle hlink hreceived hdecode htakes hrun
  | @write before after n k w hsends =>
    -- a session has one answer at most on its way, so nothing overtakes it
    obtain ⟨rfl, rfl⟩ := h.single hsends
    refine h.setOutbound ?_ ?_
    · rw [hsends]
      rfl
    · intro todo _ hholds
      refine ⟨[], todo, rfl, (List.append_nil _).symm, ?_⟩
      rw [hsends] at hholds
      have hleft : ∀ v : Writing,
          ([] ++ [Sending.mk n v]).flatMap (fun snd : Sending => snd.writing.left) = v.left :=
        fun v => List.append_nil _
      rw [hleft, ← Writing.write_left k w] at hholds
      rw [hleft]
      exact hholds.push
  | @headerWritten before after n body hsends =>
    have hset := @setOutbound _ _ _ _ s l h (before ++ ⟨n, .body body⟩ :: after) (s.outbound l)
      (by rw [hsends]; simp) ?_
    · show Inv text peer im₀ { s with sends := _ }
      rwa [Net.setOutbound, Function.update_eq_self] at hset
    · intro todo _ hholds
      refine ⟨[], todo, rfl, (List.append_nil _).symm, ?_⟩
      rw [hsends] at hholds
      simpa only [List.flatMap_append, List.flatMap_cons, Writing.left, List.nil_append]
        using hholds
  | written hsends hpost => exact h.written hsends hpost
  | peerRecv hpost =>
    refine h.setPipe fun todo rest _ hholds => ?_
    obtain ⟨hholds', hreceived⟩ := hholds.post hpost
    exact ⟨[], todo, rfl, by rw [hreceived, List.append_nil], hholds'⟩
  | peerRead hread =>
    refine h.setPipe fun todo rest _ hholds => ?_
    obtain ⟨hholds', hreceived⟩ := hholds.read hread
    exact ⟨[], todo, rfl, by rw [hreceived, List.append_nil], hholds'⟩
  | peerComplete hdone =>
    refine h.setPipe fun todo rest hfits hholds => ?_
    rcases hholds.complete hfits hdone with ⟨hholds', hreceived⟩ | ⟨m, ms, rfl, hholds', hreceived⟩
    · exact ⟨[], todo, rfl, by rw [hreceived, List.append_nil], hholds'⟩
    · exact ⟨[m], ms, rfl, hreceived, hholds'⟩

theorem initial (h : s.Initial im₀) : s.Inv text peer im₀ := by
  obtain ⟨hsys, hin, hsends, hout⟩ := h
  refine ⟨.init hsys, fun x => ?_⟩
  obtain ⟨⟨_, _, _, _, hposted⟩, _, _, _, _, hreceived⟩ := hsys
  have hlink : s.inbound x = _ := hin x
  rw [hsends x, hout x]
  refine ⟨.init (hin x), ?_, ?_, ?_, ?_⟩
  · rw [hlink]
    exact fun hbusy => absurd rfl hbusy
  · rw [hreceived, hlink]
    rfl
  · rw [hposted]
    rfl
  · intro _
    rw [hposted]
    exact ⟨[], rfl, .new⟩

end Net.Inv

/-! ### A run of two servers -/

namespace TwoServers

/-- A member among others, in the order of their keys. -/
def insertMember (m : String × String) : List (String × String) → List (String × String)
  | [] => [m]
  | m' :: ms => if m.1 < m'.1 then m :: m' :: ms else m' :: insertMember m ms

mutual

/-- The text of a value. As in the source, the members of an object are ordered by their keys. -/
def print : Value → String
  | .null => "null"
  | .bool b => if b then "true" else "false"
  | .int n => toString n
  | .string s => "\"" ++ s ++ "\""
  | .array xs => "[" ++ ",".intercalate (printAll xs) ++ "]"
  | .object ms => "\x7b" ++ ",".intercalate ((printMembers ms).map fun m =>
      "\"" ++ m.1 ++ "\":" ++ m.2) ++ "\x7d"

def printAll : List Value → List String
  | [] => []
  | x :: xs => print x :: printAll xs

def printMembers : List (String × Value) → List (String × String)
  | [] => []
  | (key, v) :: ms => insertMember (key, print v) (printMembers ms)

end

/-- The bytes of the text. -/
def dump (j : Value) : List UInt8 := (print j).toUTF8.data.toList

/-- The hosts of the two servers. -/
def twoHosts (x : SessionId) : Host shipped := hostOf shipped (if x = 7 then 7 else 8)

/-- The join request of the server on session `x`. -/
def join (x : SessionId) : Message := ⟨.server, .reqJoin, (Server.new (twoHosts x)).joinRequest⟩

/-- The coordinator after it. -/
def joined (co : Coordinator shipped) (x : SessionId) : Coordinator shipped :=
  (co.handleRecvMessage (toString x) x (join x)).toOption.getD co

/-- The index of the cluster. -/
def index : IndexManager shipped := (joined (joined started 7) 8).indexManager

/-- The bodies of all messages. -/
def values : List Value :=
  [(join 7).body.toJson, (join 8).body.toJson, (ResJoin.server 0 index).toJson,
    (ResJoin.server 1 index).toJson]

/-- Their texts are read back. -/
def texts : JsonText where
  dump
  parse body := values.find? fun j => dump j = body

theorem joined_of_isOk {co : Coordinator shipped} {x : SessionId}
    (hok : (co.handleRecvMessage (toString x) x (join x)).isOk = true) :
    co.handleRecvMessage (toString x) x (join x) = .ok (joined co x) := by
  unfold joined
  cases hrun : co.handleRecvMessage (toString x) x (join x) with
  | ok co' => rfl
  | error e =>
    rw [hrun] at hok
    cases hok

theorem posted_joined : (joined (joined started 7) 8).posted =
    [(7, .server 0 index), (8, .server 1 index)] := by
  decide +kernel

theorem isText_dump {j : Value} (hj : j ∈ values) : IsText texts (dump j) j := by
  have hnd : (values.map dump).Nodup := by decide +kernel
  cases hparse : values.find? fun j' => dump j' = dump j with
  | none =>
    have hne := List.find?_eq_none.mp hparse j hj
    exact absurd (decide_eq_true rfl) hne
  | some j' =>
    have hdump := of_decide_eq_true (@List.find?_some _ (fun j' => dump j' = dump j) _ _ hparse)
    obtain rfl := List.inj_on_of_nodup_map hnd (List.mem_of_find?_eq_some hparse) hj hdump
    exact ⟨j', hparse, .refl _⟩

theorem typed_hosts (x : SessionId) : (Server.new (twoHosts x)).joinRequest.Typed := by
  by_cases hx : x = 7
  · rw [twoHosts, if_pos hx]
    decide +kernel
  · rw [twoHosts, if_neg hx]
    decide +kernel

/-- The message of a join request. -/
def joinMessage (x : SessionId) : Session.Message := (join x).body.message texts

/-- That of an answer. -/
def answer (id : Nat) : Session.Message := (ResJoin.server id index).message texts

theorem length_answer {id : Nat} (hid : id ∈ [0, 1]) :
    (answer id).body ≠ [] ∧ (answer id).body.length < 4294967296 := by
  revert id
  decide +kernel

/-- No session is there yet. -/
def idle : Net shipped :=
  ⟨⟨started, [], [], [], []⟩, fun _ => ⟨[], [], Session.Pipe.new⟩, fun _ => [],
    fun _ => Session.Pipe.new⟩

/-- The stream from which a message was read, and of which the next one may be read. -/
def heard (r : Session.Receiving) (m : Session.Message) : Session.Link :=
  ⟨[m], [], ⟨[], r, [m], none⟩⟩

/-- The coordinator has handled both requests, and sends the answers. -/
structure Answering (s : Net shipped) : Prop where
  reach : Reachable (Net.Initial (unset shipped)) (Net.Step texts fun x => toString x) s
  system : s.system =
    ⟨joined (joined started 7) 8, [8, 7], [], [], [(7, join 7), (8, join 8)]⟩
  inbound : ∀ x, s.inbound x =
    if x = 8 then heard .idle (joinMessage 8) else if x = 7 then heard .idle (joinMessage 7)
    else ⟨[], [], Session.Pipe.new⟩
  sends : ∀ x, s.sends x = startFrom texts x 0 (joined (joined started 7) 8).posted
  outbound : ∀ x, s.outbound x = Session.Pipe.new

theorem exists_answering : ∃ s, Answering s := by
  have h : Reachable (Net.Initial (unset shipped)) (Net.Step texts fun x => toString x) idle :=
    .init ⟨⟨⟨rfl, rfl, rfl, rfl, rfl⟩, rfl, rfl, rfl, rfl, rfl⟩, fun _ => rfl, fun _ => rfl,
      fun _ => rfl⟩
  have htakes : ∀ (co : Coordinator shipped) x, co.Takes (join x) := fun co x =>
    Message.WellFormed.takes (fun _ => joinRequest_wellFormed _) co
  -- the two joins one after the other, each evaluated on the coordinator it meets
  have h₁ := handled_run h rfl (show 7 ∉ [] by decide) (by decide +kernel) (by decide +kernel)
    (decodeMessage_join ⟨rfl, rfl⟩ (isText_dump List.mem_cons_self) (typed_hosts 7))
    (htakes _ 7) (joined_of_isOk (by decide +kernel))
  have h₂ := handled_run h₁ (Function.update_of_ne (by decide) _ _) (show 8 ∉ [7] by decide)
    (by decide +kernel) (by decide +kernel)
    (decodeMessage_join ⟨rfl, rfl⟩ (isText_dump (List.mem_cons_of_mem _ List.mem_cons_self))
      (typed_hosts 8))
    (htakes _ 8) (joined_of_isOk (by decide +kernel))
  have hnone : (joined started 7).posted = [] := by decide +kernel
  refine ⟨_, h₂, rfl, ?_, ?_, fun _ => rfl⟩
  · intro x
    dsimp only
    by_cases h8 : x = 8
    · rw [h8]
      exact Function.update_self ..
    · rw [if_neg h8, Function.update_of_ne h8]
      by_cases h7 : x = 7
      · rw [h7]
        exact Function.update_self ..
      · rw [if_neg h7]
        exact Function.update_of_ne h7 _ _
  · intro x
    show ([] ++ startFrom texts x 0 (joined started 7).posted) ++
      startFrom texts x (joined started 7).posted.length
        ((joined (joined started 7) 8).posted.drop (joined started 7).posted.length) = _
    rw [hnone]
    rfl

/-- Both servers have read the answers. -/
structure Done (s : Net shipped) : Prop where
  reach : Reachable (Net.Initial (unset shipped)) (Net.Step texts fun x => toString x) s
  received : s.system.received = [(7, join 7), (8, join 8)]
  posted : s.system.coordinator.posted = [(7, .server 0 index), (8, .server 1 index)]
  sent : ∀ x, (s.inbound x).sent =
    if x = 8 then [joinMessage 8] else if x = 7 then [joinMessage 7] else []
  outbound : ∀ x, (s.outbound x).received =
    sentTo texts x [(7, .server 0 index), (8, .server 1 index)]

/-- Both servers are answered. -/
theorem Done.answered {s : Net shipped} (h : Done s) {x : SessionId} {res : ResJoin shipped}
    (hx : (x, res) ∈ s.system.coordinator.posted) : ∃ id ∈ [0, 1], res = .server id index := by
  rw [h.posted] at hx
  rcases List.mem_cons.mp hx with heq | hx
  · cases heq
    exact ⟨0, by decide, rfl⟩
  · cases List.mem_singleton.mp hx
    exact ⟨1, by decide, rfl⟩

theorem exists_done : ∃ s, Done s := by
  obtain ⟨s, hs⟩ := exists_answering
  have hne : (8 : SessionId) ≠ 7 := by decide
  have hsends₇ : s.sends 7 = [⟨0, .header (answer 0).header.bytes (answer 0).body⟩] := by
    rw [hs.sends, posted_joined]
    rfl
  have hsends₈ : s.sends 8 = [⟨1, .header (answer 1).header.bytes (answer 1).body⟩] := by
    rw [hs.sends, posted_joined]
    rfl
  have hpost₇ : (s.inbound 7).step .post = some (heard (.header []) (joinMessage 7)) := by
    rw [hs.inbound]
    rfl
  have hpost₈ : (s.inbound 8).step .post = some (heard (.header []) (joinMessage 8)) := by
    rw [hs.inbound]
    rfl
  have hout₈ := hs.outbound 8
  obtain ⟨hbody₇, hlt₇⟩ := length_answer (show 0 ∈ [0, 1] by decide)
  obtain ⟨hbody₈, hlt₈⟩ := length_answer (show 1 ∈ [0, 1] by decide)
  have h₁ := answered_run hs.reach hsends₇ hpost₇ (hs.outbound 7) hbody₇
    (Session.fits_new hlt₇ _ _)
  -- the first answer left the other session as it was
  rw [← Function.update_of_ne hne [] s.sends] at hsends₈
  rw [← Function.update_of_ne hne (heard (.header []) (joinMessage 7)) s.inbound] at hpost₈
  rw [← Function.update_of_ne hne ⟨[], .idle, [answer 0], none⟩ s.outbound] at hout₈
  have h₂ := answered_run h₁ hsends₈ hpost₈ hout₈ hbody₈ (Session.fits_new hlt₈ _ _)
  refine ⟨_, h₂, ?_, ?_, ?_, ?_⟩
  · show s.system.received = _
    rw [hs.system]
  · show s.system.coordinator.posted = _
    rw [hs.system, posted_joined]
  · intro x
    by_cases h8 : x = 8
    · simp [h8, heard]
    · by_cases h7 : x = 7
      · simp [h7, heard]
      · simp [h7, h8, hs.inbound]
  · intro x
    by_cases h8 : x = 8
    · simp [h8, sentTo, answer]
    · by_cases h7 : x = 7
      · simp [h7, sentTo, answer]
      · simp [h7, h8, Ne.symm h7, Ne.symm h8, hs.outbound, sentTo, Session.Pipe.new]

end TwoServers

/-! ### The protocol on the sockets -/

/-- The length of every body is a value of `body_len`. -/
def Short (ms : List Session.Message) : Prop := ∀ m ∈ ms, m.body.length < 4294967296

instance (ms : List Session.Message) : Decidable (Short ms) :=
  inferInstanceAs (Decidable (∀ m ∈ ms, _))

/-- The sockets carry the messages of the protocol. -/
structure Net.Faithful (text : JsonText) (peer : SessionId → String) (im₀ : IndexManager c)
    (s : Net c) : Prop where
  /-- The coordinator is in a state of the protocol on messages. -/
  protocol : Reachable (System.Initial im₀) (Cluster.Step peer) s.system
  /-- No two sends on a session overlap, nor do a send and a receive. -/
  alone : ∀ x, (s.sends x).length ≤ 1 ∧
    (s.sends x ≠ [] → (s.inbound x).pipe.receiving = .idle)
  /-- What is handled are the first messages that the peer sent, in their order. -/
  requests : ∀ x, Short (s.inbound x).sent →
    ∃ ms, ms <+: (s.inbound x).sent ∧ handledOn x s.system.received = decoded text ms
  /-- What the peer gets are the first messages that were posted for it, in their order. -/
  answers : ∀ x, Short (sentTo text x s.system.coordinator.posted) →
    (s.outbound x).received <+: sentTo text x s.system.coordinator.posted
  /-- It has got all of them when nothing is left to be written or read. -/
  complete : ∀ x, Short (sentTo text x s.system.coordinator.posted) → s.sends x = [] →
    (s.outbound x).Quiet → (s.outbound x).receiving ≠ .idle →
    (s.outbound x).received = sentTo text x s.system.coordinator.posted

theorem fits_sentTo {x : SessionId} {posted : List (SessionId × ResJoin c)}
    (h : Short (sentTo text x posted)) : ∀ m ∈ sentTo text x posted, m.Fits := by
  intro m hm
  have hlen := h m hm
  obtain ⟨e, _, he⟩ := List.mem_filterMap.mp hm
  split at he
  · cases he
    exact Session.fits_new hlen _ _
  · cases he

theorem Net.inv_of_reachable {s : Net c}
    (h : Reachable (Net.Initial im₀) (Net.Step text peer) s) : s.Inv text peer im₀ :=
  h.invariant (Net.Inv text peer im₀) (fun _ => Net.Inv.initial) fun _ _ _ hs => hs.step

theorem Net.Inv.faithful {s : Net c} (hinv : s.Inv text peer im₀) : s.Faithful text peer im₀ := by
  constructor
  · exact hinv.system
  · exact fun x => (hinv.sockets x).alone hinv.turns
  · intro x hshort
    have hlink := Session.Link.inv_of_reachable (hinv.sockets x).reach
    obtain ⟨todo, hsent, _⟩ := hlink.left fun m hm =>
      (hlink.lengths m hm).trans (u32_of_lt (hshort m hm))
    exact ⟨_, ⟨todo, hsent.symm⟩, (hinv.sockets x).handled⟩
  · intro x hshort
    obtain ⟨todo, hsent, _⟩ := (hinv.sockets x).streams (fits_sentTo hshort)
    exact ⟨todo, hsent.symm⟩
  · intro x hshort hidle hquiet hrecv
    have hfits := fits_sentTo hshort
    obtain ⟨todo, hsent, hholds⟩ := (hinv.sockets x).streams hfits
    rw [hidle] at hholds
    obtain ⟨rfl, _⟩ := hholds.quiet
      (fun m hm => hfits m (hsent ▸ List.mem_append_right _ hm)) hquiet hrecv
    rw [hsent, List.append_nil]

/-- **The join protocol on byte streams.** However the network cuts up the streams and the
    steps of coordinator, network and peers are interleaved, the coordinator does what it does
    in a run on whole messages, and messages are neither lost, doubled, reordered nor mixed. -/
theorem sockets_refine_messages {s : Net c}
    (h : Reachable (Net.Initial im₀) (Net.Step text peer) s) : s.Faithful text peer im₀ :=
  (Net.inv_of_reachable h).faithful

open TwoServers in
theorem sockets_refine_messages_two : ∃ s : Net shipped,
    handledOn 7 s.system.received = [join 7] ∧ (s.outbound 7).received = [answer 0] ∧
      s.Faithful texts (fun x => toString x) (unset shipped) := by
  obtain ⟨s, hs⟩ := exists_done
  refine ⟨s, ?_, hs.outbound 7, sockets_refine_messages hs.reach⟩
  rw [hs.received]
  rfl

end Nvds.Cluster
