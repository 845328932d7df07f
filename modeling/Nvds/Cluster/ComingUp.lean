import Nvds.Cluster.Joining
import Nvds.Cluster.Streams

/-! # A cluster comes up on byte streams

    A server sends its join request as the JSON text of a message, and reads
    the answer from the stream that the coordinator writes. What either reads
    is what the other one has put in, whatever pieces the bytes arrive in; so
    the servers come up as they do on whole messages.
-/

open Arrays Json Transition

namespace Nvds.Cluster

variable {c : Config} {text : JsonText} {m : Session.Message} {msg : Message}

/-! ### Values of the index -/

section typed

variable {i j k : Nat} {qpis : List QueuePairInfo} {im im' : IndexManager c}

/-- What is copied is of the type of the elements. -/
theorem typed_copy {first last : Nat} {qs qs' : Vector QueuePairInfo c.kNumReplicas}
    (hqpis : ∀ qpi ∈ qpis, qpi.Typed) (hqs : ∀ r, (qs.get r).Typed)
    (h : copy qpis first last qs = .ok qs') : ∀ r, (qs'.get r).Typed := by
  unfold copy at h
  split at h
  · cases h
    intro r
    rw [get_ofFn]
    split
    · rw [List.getD_eq_getElem?_getD]
      cases hget : qpis[first + r.val]? with
      | none => exact hqs r
      | some qpi => exact hqpis qpi (List.mem_of_getElem? hget)
    · exact hqs r
  · cases h

theorem typed_fillIn {t t' : TabletInfo c} (hi : i < 4294967296)
    (hqpis : ∀ qpi ∈ qpis, qpi.Typed) (h : t.fillIn i j k qpis = .ok t') (ht : t.Typed) :
    t'.Typed := by
  obtain ⟨qs, hqs, h⟩ := bind_eq_ok.mp h
  cases h
  exact ⟨u32_lt _, hi, typed_copy hqpis ht.2.2.1 hqs, ht.2.2.2⟩

theorem typed_setStorage {r x : Nat} {t t' : TabletInfo c} (hx : x < 4294967296)
    (h : t.setStorage r x = .ok t') (ht : t.Typed) : t'.Typed := by
  obtain ⟨storage, hwrite, h⟩ := bind_eq_ok.mp h
  cases h
  exact ⟨ht.1, ht.2.1, ht.2.2.1, forall_write (P := (· < 2 ^ 32)) hwrite ht.2.2.2 hx⟩

theorem typed_addMaster {x : Nat} (hx : x < 4294967296)
    (h : im.addMaster i k x = .ok im') (him : im.Typed) : im'.Typed := by
  obtain ⟨map, hwrite, h⟩ := bind_eq_ok.mp h
  cases h
  exact ⟨forall_write (P := (· < 2 ^ 32)) hwrite him.1 hx, him.2⟩

theorem typed_addBackup {x : Nat} (hx : x < 4294967296)
    (h : im.addBackup i j k x = .ok im') (him : im.Typed) : im'.Typed := by
  obtain ⟨_, _, h⟩ := bind_eq_ok.mp h
  obtain ⟨ts, hmaster, h⟩ := bind_eq_ok.mp h
  obtain ⟨ts', hbackup, h⟩ := bind_eq_ok.mp h
  cases h
  have hts := forall_update hmaster him.2.1 fun _ _ => typed_setStorage hx
  have hts' := forall_update hbackup hts fun _ _ => typed_setStorage (u32_lt _)
  exact ⟨him.1, hts', him.2.2⟩

theorem typed_addTablet {jk : Nat × Nat} (hi : i < 4294967296) (hqpis : ∀ qpi ∈ qpis, qpi.Typed)
    (h : addTablet i qpis im jk = .ok im') (him : im.Typed) : im'.Typed := by
  obtain ⟨ts, hfill, h⟩ := bind_eq_ok.mp h
  obtain ⟨tablet, _, h⟩ := bind_eq_ok.mp h
  have hts := forall_update hfill him.2.1 fun _ _ => typed_fillIn hi hqpis
  have hfilled : IndexManager.Typed { im with tablets := ts } := ⟨him.1, hts, him.2.2⟩
  -- the two branches end in the same step
  obtain ⟨im₁, him₁, h⟩ : ∃ im₁ : IndexManager c, im₁.Typed ∧ (do
      let servers ← update .outOfBounds im₁.servers i
        (ServerInfo.setTablet (calcTabletId c 0 jk.1 jk.2) (calcTabletId c i jk.1 jk.2))
      pure { im₁ with servers } : Call (IndexManager c)) = .ok im' := by
    dsimp only at h
    split at h
    · obtain ⟨im₁, hadd, h⟩ := bind_eq_ok.mp h
      exact ⟨im₁, typed_addMaster (u32_lt _) hadd hfilled, h⟩
    · obtain ⟨im₁, hadd, h⟩ := bind_eq_ok.mp h
      exact ⟨im₁, typed_addBackup (u32_lt _) hadd hfilled, h⟩
  obtain ⟨servers, hset, h⟩ := bind_eq_ok.mp h
  cases h
  refine ⟨him₁.1, him₁.2.1, forall_update hset him₁.2.2 ?_⟩
  intro s s' hrun hs
  obtain ⟨tablets, hwrite, hrun⟩ := bind_eq_ok.mp hrun
  cases hrun
  exact ⟨hs.1, hs.2.1, forall_write (P := (· < 2 ^ 32)) hwrite hs.2.2 (u32_lt _)⟩

theorem typed_addServer {id : Nat} {addr : String} {body : JoinBody} (hid : id < 4294967296)
    (hbody : body.Typed) (h : addServer id addr body im = .ok im') (him : im.Typed) :
    im'.Typed := by
  obtain ⟨servers, hwrite, h⟩ := bind_eq_ok.mp h
  have hnew : ServerInfo.Typed (c := c) ⟨id, true, addr, body.ibAddr, Vector.replicate _ 0⟩ := by
    refine ⟨hid, hbody.2.1, fun x => ?_⟩
    show (Vector.replicate _ 0)[x.val] < 2 ^ 32
    rw [Vector.getElem_replicate]
    decide
  have hservers := forall_write hwrite him.2.2 hnew
  exact foldlM_keeps (Q := IndexManager.Typed)
    (fun _ _ _ _ hrun => typed_addTablet hid hbody.2.2 hrun) h ⟨him.1, him.2.1, hservers⟩

/-- The fields of the index remain values of their types. -/
theorem typed_addServers {joins : List (String × JoinBody)} {id : Nat} (hid : id < 4294967296)
    (hbodies : ∀ x ∈ joins, x.2.Typed) (h : addServers id joins im = .ok im') (him : im.Typed) :
    im'.Typed := by
  induction joins generalizing id im with
  | nil =>
    cases h
    exact him
  | cons x joins ih =>
    obtain ⟨im₁, hadd, h⟩ := bind_eq_ok.mp h
    exact ih (u32_lt _) (fun y hy => hbodies y (List.mem_cons_of_mem _ hy)) h
      (typed_addServer hid (hbodies x List.mem_cons_self) hadd him)

end typed

/-! ### The requests of a run -/

/-- The peer of a session sends no request to join but that of the server on `host`. -/
def SendsOwn (text : JsonText) (host : Host c) (ms : List Session.Message) : Prop :=
  ∀ m ∈ ms, m.IsServerJoin → IsText text m.body (Server.new host).joinRequest.toJson

theorem mem_decoded {ms : List Session.Message} (h : msg ∈ decoded text ms) :
    ∃ m ∈ ms, decodeMessage text m = some (some msg) := by
  obtain ⟨m, hm, hdecode⟩ := List.mem_filterMap.mp h
  exact ⟨m, hm, Option.join_eq_some_iff.mp hdecode⟩

variable {peer : SessionId → String} {im₀ : IndexManager c} {s : Net c}
  {hosts : SessionId → Host c}

/-- The coordinator enters what the servers have sent. -/
theorem Net.Inv.joins (h : s.Inv text peer im₀)
    (htyped : ∀ x, (Server.new (hosts x)).joinRequest.Typed)
    (hsends : ∀ x, SendsOwn text (hosts x) (s.inbound x).sent)
    (hshort : ∀ x, Short (s.inbound x).sent) :
    ∀ x ∈ serverJoins s.system.received, x.2 = (Server.new (hosts x.1)).joinRequest := by
  intro e he
  obtain ⟨⟨x, msg⟩, hmem, heq⟩ := List.mem_filterMap.mp he
  split at heq
  · next hjoin =>
    cases heq
    -- the message is one of those that the peer of `x` sent
    have hhandled : msg ∈ handledOn x s.system.received :=
      List.mem_filterMap.mpr ⟨(x, msg), hmem, if_pos rfl⟩
    rw [(h.sockets x).handled] at hhandled
    obtain ⟨m, hm, hdecode⟩ := mem_decoded hhandled
    have hlink := Session.Link.inv_of_reachable (h.sockets x).reach
    obtain ⟨todo, hsent, _⟩ := hlink.left fun m hm =>
      (hlink.lengths m hm).trans (u32_of_lt (hshort x m hm))
    have hm' : m ∈ (s.inbound x).sent := by
      rw [hsent]
      exact List.mem_append_left _ hm
    -- and so its own request
    have hm₀ := isServerJoin_of_decoded hdecode hjoin
    rw [decodeMessage_join hm₀ (hsends x m hm' hm₀) (htyped x)] at hdecode
    cases hdecode
    rfl
  · cases heq

/-! ### The answers of a run -/

/-- The first of the messages posted for different sessions. -/
theorem sentTo_of_nodup {posted : List (SessionId × ResJoin c)} {x : SessionId} {res : ResJoin c}
    (hnd : (posted.map (·.1)).Nodup) (hx : (x, res) ∈ posted) :
    sentTo text x posted = [res.message text] := by
  induction posted with
  | nil => cases hx
  | cons e posted ih =>
    obtain ⟨hnew, hrest⟩ := List.nodup_cons.mp hnd
    rw [sentTo, List.filterMap_cons]
    rcases List.mem_cons.mp hx with rfl | hx
    · rw [if_pos rfl]
      show _ :: sentTo text x posted = _
      have hnil : sentTo text x posted = [] := by
        apply List.filterMap_eq_nil_iff.mpr
        intro y hy
        exact if_neg fun heq : y.1 = x => hnew (List.mem_map.mpr ⟨y, hy, heq⟩)
      rw [hnil]
    · have hne : e.1 ≠ x := fun heq => hnew (List.mem_map.mpr ⟨_, hx, heq.symm⟩)
      rw [if_neg hne]
      exact ih hrest hx

/-- A server that has joined is sent its answer first. -/
theorem Formed.sentTo_server {sys : System c} {J : List (SessionId × JoinBody)}
    (h : Formed peer im₀ sys J) {x : SessionId} {id : Nat} {im : IndexManager c}
    (hx : (x, ResJoin.server id im) ∈ sys.coordinator.posted) :
    ∃ later, sentTo text x sys.coordinator.posted =
      (ResJoin.server id im).message text :: later := by
  obtain ⟨clients, hposted⟩ := h.posted
  rw [hposted] at hx ⊢
  rw [sentTo_append]
  rcases List.mem_append.mp hx with hx | hx
  · have hkeys : (((J.map (·.1)).mapIdx fun i session =>
        (session, ResJoin.server i sys.coordinator.indexManager)).map (·.1)) = J.map (·.1) := by
      rw [List.mapIdx_eq_zipIdx_map, List.map_map]
      exact List.zipIdx_map_fst 0 _
    rw [sentTo_of_nodup (by rw [hkeys]; exact h.nodup) hx]
    exact ⟨_, rfl⟩
  · obtain ⟨y, _, heq⟩ := List.mem_map.mp hx
    cases heq

/-- It is answered under one id. -/
theorem Formed.id_unique {sys : System c} {J : List (SessionId × JoinBody)}
    (h : Formed peer im₀ sys J) {x : SessionId} {id id' : Nat} {im im' : IndexManager c}
    (hx : (x, ResJoin.server id im) ∈ sys.coordinator.posted)
    (hx' : (x, ResJoin.server id' im') ∈ sys.coordinator.posted) : id = id' := by
  obtain ⟨_, hid, hsession⟩ := h.answer hx
  obtain ⟨_, hid', hsession'⟩ := h.answer hx'
  have hnd := h.nodup
  have hlen : (J.map (·.1)).length = J.length := List.length_map _
  refine (@List.Nodup.getElem_inj_iff _ _ hnd id (hlen.symm ▸ hid) id' (hlen.symm ▸ hid')).mp ?_
  simp only [List.getElem_map]
  exact hsession.trans hsession'.symm

/-- The server on `hosts x` has read the first message on its session, and has become `srv`. The
    unions of the tablets it decoded the index into held `storage x`. -/
def Net.JoinedAs (text : JsonText) (storage : SessionId → Vector Nat c.kNumReplicas)
    (hosts : SessionId → Host c) (s : Net c) (x : SessionId) (srv : Server c) : Prop :=
  ∃ m rest, (s.outbound x).received = m :: rest ∧
    (Server.new (hosts x)).finishJoin text (storage x) m = some srv

/-- The servers that are answered come up, and their tablets are connected. -/
structure Net.CameUp (text : JsonText) (storage : SessionId → Vector Nat c.kNumReplicas)
    (hosts : SessionId → Host c) (s : Net c) : Prop where
  /-- What the coordinator has decoded are the requests that the servers have made. -/
  requests : ∀ x ∈ serverJoins s.system.received, x.2 = (Server.new (hosts x.1)).joinRequest
  /-- The message a server has got is the one that `RecvMessage` finds on the stream. -/
  read : ∀ x m rest, (s.outbound x).received = m :: rest → ∃ later,
    Session.recvMessage (Session.bytesOf (sentTo text x s.system.coordinator.posted)) =
      some (m, later)
  /-- A server that was answered has a message when nothing is left to be written or read. -/
  arrived : ∀ x id im, (x, ResJoin.server id im) ∈ s.system.coordinator.posted →
    s.sends x = [] → (s.outbound x).Quiet → (s.outbound x).receiving ≠ .idle →
    (s.outbound x).received ≠ []
  /-- Then it decodes its id and an index that agrees with the one of the coordinator, and
      comes up. -/
  up : ∀ x id im, (x, ResJoin.server id im) ∈ s.system.coordinator.posted →
    (s.outbound x).received ≠ [] →
    ∃ srv, s.JoinedAs text storage hosts x srv ∧ srv.id = id ∧ im.SameAs srv.indexManager
  /-- Each queue pair of a master tablet is connected with a backup on another server. -/
  paired : ∀ x srv, s.JoinedAs text storage hosts x srv → ∀ k (r : Fin c.kNumReplicas),
    k < c.kNumTabletsPerServer →
    ∃ m, Arrays.read Fault.outOfBounds srv.tablets k = .ok m ∧
    ∃ y id' im' slot, (y, ResJoin.server id' im') ∈ s.system.coordinator.posted ∧ id' ≠ srv.id ∧
    ∀ srv', s.JoinedAs text storage hosts y srv' →
      ∃ b, Arrays.read Fault.outOfBounds srv'.tablets slot = .ok b ∧ Paired srv.indexManager m b r

/-! ### The result -/

/-- The answers are as `dump` writes them, and can be parsed. -/
def Readable (text : JsonText) (posted : List (SessionId × ResJoin c)) : Prop :=
  ∀ x res, (x, res) ∈ posted → IsText text (text.dump res.toJson) res.toJson

section result

variable {storage : SessionId → Vector Nat c.kNumReplicas} {J : List (SessionId × JoinBody)}

/-- The indices that the servers decode from their answers. -/
theorem Formed.exists_views {sys : System c} (h : Formed peer im₀ sys J)
    (him : sys.coordinator.indexManager.Typed) (hread : Readable text sys.coordinator.posted)
    (storage : SessionId → Vector Nat c.kNumReplicas) :
    ∃ views : SessionId → IndexManager c, ∀ x id im,
      (x, ResJoin.server id im) ∈ sys.coordinator.posted → im.SameAs (views x) ∧
        ∀ srv : Server c, srv.finishJoin text (storage x) ((ResJoin.server id im).message text) =
          (srv.joinResponse id (views x)).toOption := by
  have hview : ∀ x, ∃ view : IndexManager c, ∀ id im,
      (x, ResJoin.server id im) ∈ sys.coordinator.posted → im.SameAs view ∧
        ∀ srv : Server c, srv.finishJoin text (storage x) ((ResJoin.server id im).message text) =
          (srv.joinResponse id view).toOption := by
    intro x
    -- a session that was answered decodes its one answer; the others may have any view
    by_cases hx : ∃ id im, (x, ResJoin.server id im) ∈ sys.coordinator.posted
    · obtain ⟨id, im, hx⟩ := hx
      obtain ⟨rfl, hid, _⟩ := h.answer hx
      have hlt := servers_lt c
      rw [h.complete] at hid
      obtain ⟨view, hsame, hrun⟩ := finishJoin_server (storage x) (hid.trans hlt) him
        (hread x _ hx)
      refine ⟨view, fun id' im' hx' => ?_⟩
      obtain rfl := h.id_unique hx hx'
      obtain ⟨rfl, _⟩ := h.answer hx'
      exact ⟨hsame, hrun⟩
    · exact ⟨im₀, fun id im hx' => absurd ⟨id, im, hx'⟩ hx⟩
  exact ⟨fun x => (hview x).choose, fun x => (hview x).choose_spec⟩

/-- What the peer of `x` has read first was posted for it. -/
theorem Net.Inv.posted_of_read (h : s.Inv text peer im₀) {x : SessionId}
    (hshort : Short (sentTo text x s.system.coordinator.posted)) {m : Session.Message}
    {rest : List Session.Message} (hm : (s.outbound x).received = m :: rest) :
    ∃ later, sentTo text x s.system.coordinator.posted = m :: later ∧
      ∃ res, (x, res) ∈ s.system.coordinator.posted ∧ m = res.message text := by
  obtain ⟨later, hlater⟩ := h.faithful.answers x hshort
  rw [hm] at hlater
  refine ⟨rest ++ later, hlater.symm, ?_⟩
  have hmem : m ∈ sentTo text x s.system.coordinator.posted := by
    rw [← hlater]
    exact List.mem_cons_self
  obtain ⟨⟨y, res⟩, he, heq⟩ := List.mem_filterMap.mp hmem
  split at heq
  · next hy =>
    cases heq
    exact ⟨res, hy ▸ he, rfl⟩
  · cases heq

/-- A server that has become `srv` has read the answer to its own request. -/
theorem Net.Inv.up_of_joinedAs (h : s.Inv text peer im₀) {x : SessionId} {srv : Server c}
    (hshort : Short (sentTo text x s.system.coordinator.posted))
    (hread : Readable text s.system.coordinator.posted) {views : SessionId → IndexManager c}
    (hviews : ∀ id im, (x, ResJoin.server id im) ∈ s.system.coordinator.posted →
      (Server.new (hosts x)).finishJoin text (storage x) ((ResJoin.server id im).message text) =
        ((Server.new (hosts x)).joinResponse id (views x)).toOption)
    (hjoined : s.JoinedAs text storage hosts x srv) : ∃ id, Up s.system hosts views x id srv := by
  obtain ⟨m, rest, hm, hrun⟩ := hjoined
  obtain ⟨_, _, res, hx, rfl⟩ := h.posted_of_read hshort hm
  cases res with
  | client im =>
    rw [finishJoin_client (storage x) (hread x _ hx)] at hrun
    cases hrun
  | server id im =>
    rw [hviews id im hx] at hrun
    refine ⟨id, ⟨im, hx⟩, ?_⟩
    cases hresp : (Server.new (hosts x)).joinResponse id (views x) with
    | error e =>
      rw [hresp] at hrun
      cases hrun
    | ok srv' =>
      rw [hresp] at hrun
      cases hrun
      rfl

theorem joinResponse_eq {srv srv' : Server c} {id : Nat} {im : IndexManager c}
    (h : srv.joinResponse id im = .ok srv') : srv'.id = id ∧ srv'.indexManager = im := by
  obtain ⟨info, _, h⟩ := bind_eq_ok.mp h
  obtain ⟨tablets, _, h⟩ := bind_eq_ok.mp h
  cases h
  exact ⟨rfl, rfl⟩

/-- The index of a formed cluster has values of its types. -/
theorem Formed.typed {sys : System c} (h : Formed peer im₀ sys J) (him₀ : im₀.Typed)
    (hbodies : ∀ x ∈ J, x.2.Typed) : sys.coordinator.indexManager.Typed := by
  refine typed_addServers (by decide) ?_ h.index him₀
  intro y hy
  obtain ⟨x, hx, rfl⟩ := List.mem_map.mp hy
  exact hbodies x hx

end result

/-- **A cluster comes up on byte streams.** However the network cuts up the streams, and in
    whatever order servers connect and their requests arrive: what the coordinator decodes are
    the requests of the servers, each server that has read its answer decodes it and comes up,
    and every queue pair of a master tablet is connected with the backup of another server. -/
theorem streams_bring_up (hR : c.kNumReplicas < c.kNumServers)
    (h : Reachable (Net.Initial im₀) (Net.Step text peer) s)
    (hosts : SessionId → Host c) (storage : SessionId → Vector Nat c.kNumReplicas)
    (him₀ : im₀.Typed) (htyped : ∀ x, (Server.new (hosts x)).joinRequest.Typed)
    (hsends : ∀ x, SendsOwn text (hosts x) (s.inbound x).sent)
    (hreadable : Readable text s.system.coordinator.posted)
    (hshort : ∀ x, Short (s.inbound x).sent)
    (hshort' : ∀ x, Short (sentTo text x s.system.coordinator.posted)) :
    s.CameUp text storage hosts := by
  have hinv := Net.inv_of_reachable h
  have hjoins := hinv.joins htyped hsends hshort
  have hread : ∀ x m rest, (s.outbound x).received = m :: rest → ∃ later,
      Session.recvMessage (Session.bytesOf (sentTo text x s.system.coordinator.posted)) =
        some (m, later) := by
    intro x m rest hm
    obtain ⟨later, hsent, _⟩ := hinv.posted_of_read (hshort' x) hm
    have hfits : m.Fits := fits_sentTo (hshort' x) m (by rw [hsent]; exact List.mem_cons_self)
    refine ⟨Session.bytesOf later, ?_⟩
    rw [hsent, ← List.singleton_append, Session.bytesOf_append, Session.bytesOf_singleton]
    exact Session.recvMessage_bytes hfits _
  rcases joinInv_of_reachable hinv.system with hw | ⟨_, hf⟩
  · -- nobody was answered
    have hnil := hw.posted
    refine ⟨hjoins, hread, ?_, ?_, ?_⟩
    · intro x id im hx
      rw [hnil] at hx
      cases hx
    · intro x id im hx
      rw [hnil] at hx
      cases hx
    · rintro x srv ⟨m, rest, hm, _⟩
      obtain ⟨_, _, res, hx, _⟩ := hinv.posted_of_read (hshort' x) hm
      rw [hnil] at hx
      cases hx
  -- the servers that are answered decode views of one index, so the result on messages applies
  · have hbodies : ∀ x ∈ (serverJoins s.system.received).take c.kNumServers,
        x.2 = (Server.new (hosts x.1)).joinRequest := fun x hx => hjoins x (List.mem_of_mem_take hx)
    obtain ⟨views, hviews⟩ := hf.exists_views (hf.typed him₀ fun x hx => by
      rw [hbodies x hx]
      exact htyped _) hreadable storage
    have hcame := hf.cameUp hR hbodies fun x id im hx => (hviews x id im hx).1
    have hup : ∀ x srv, s.JoinedAs text storage hosts x srv →
        ∃ id, Up s.system hosts views x id srv := by
      intro x srv hjoined
      exact hinv.up_of_joinedAs (hshort' x) hreadable
        (fun id im hx => (hviews x id im hx).2 _) hjoined
    refine ⟨hjoins, hread, ?_, ?_, ?_⟩
    · intro x id im hx hidle hquiet hrecv
      obtain ⟨later, hsent⟩ := @Formed.sentTo_server _ text _ _ _ _ hf _ _ _ hx
      rw [hinv.faithful.complete x (hshort' x) hidle hquiet hrecv, hsent]
      exact List.cons_ne_nil _ _
    · intro x id im hx hne
      obtain ⟨m, rest, hm⟩ := List.exists_cons_of_ne_nil hne
      obtain ⟨later, hsent, _⟩ := hinv.posted_of_read (hshort' x) hm
      obtain ⟨later', hsent'⟩ := @Formed.sentTo_server _ text _ _ _ _ hf _ _ _ hx
      -- the message it has read is the answer to its own join
      obtain ⟨rfl, _⟩ := List.cons_eq_cons.mp (hsent.symm.trans hsent')
      obtain ⟨hsame, hrun⟩ := hviews x id im hx
      obtain ⟨srv, hsrv⟩ := hcame.up x id im hx
      obtain ⟨hid, him⟩ := joinResponse_eq hsrv.joined
      refine ⟨srv, ⟨_, rest, hm, ?_⟩, hid, by rw [him]; exact hsame⟩
      rw [hrun, hsrv.joined]
      rfl
    · intro x srv hjoined k r hk
      obtain ⟨id, hsrv⟩ := hup x srv hjoined
      obtain ⟨hid, him⟩ := joinResponse_eq hsrv.joined
      obtain ⟨m, hm, y, id', srv', hsrv', hne, slot, b, hb, hpaired⟩ :=
        hcame.paired x id srv hsrv k r hk
      obtain ⟨im', hy⟩ := hsrv'.answered
      refine ⟨m, hm, y, id', im', slot, hy, by rw [hid]; exact hne, ?_⟩
      intro srv'' hjoined''
      -- the server of `y` comes up in one way
      obtain ⟨id'', hsrv''⟩ := hup y srv'' hjoined''
      obtain ⟨im'', hy''⟩ := hsrv''.answered
      obtain rfl := hf.id_unique hy hy''
      have heq := hsrv'.joined.symm.trans hsrv''.joined
      cases heq
      exact ⟨b, hb, by rw [him]; exact hpaired⟩

open TwoServers in
theorem streams_bring_up_two : ∃ (s : Net shipped) (srv srv' : Server shipped),
    s.JoinedAs texts (fun _ => Vector.replicate _ 0) twoHosts 7 srv ∧
    s.JoinedAs texts (fun _ => Vector.replicate _ 0) twoHosts 8 srv' ∧
    s.CameUp texts (fun _ => Vector.replicate _ 0) twoHosts := by
  obtain ⟨s, hs⟩ := exists_done
  -- each of the two has sent its own request, and nobody else has sent anything
  have hown : ∀ x, SendsOwn texts (twoHosts x) (s.inbound x).sent ∧ Short (s.inbound x).sent := by
    intro x
    rw [hs.sent]
    by_cases h8 : x = 8
    · rw [if_pos h8, h8]
      refine ⟨fun m hm _ => ?_, by decide +kernel⟩
      rw [List.mem_singleton.mp hm]
      exact isText_dump (j := (join 8).body.toJson) (List.mem_cons_of_mem _ List.mem_cons_self)
    · rw [if_neg h8]
      by_cases h7 : x = 7
      · rw [if_pos h7, h7]
        refine ⟨fun m hm _ => ?_, by decide +kernel⟩
        rw [List.mem_singleton.mp hm]
        exact isText_dump (j := (join 7).body.toJson) List.mem_cons_self
      · rw [if_neg h7]
        exact ⟨fun m hm => absurd hm List.not_mem_nil, fun m hm => absurd hm List.not_mem_nil⟩
  have hreadable : Readable texts s.system.coordinator.posted := by
    intro x res hx
    obtain ⟨id, hid, rfl⟩ := hs.answered hx
    have hvalue : (ResJoin.server id index).toJson ∈ values := by
      rcases List.mem_cons.mp hid with rfl | hid
      · simp [values]
      · rw [List.mem_singleton.mp hid]
        simp [values]
    exact isText_dump hvalue
  have hshort : ∀ x, Short (sentTo texts x s.system.coordinator.posted) := by
    intro x m hm
    obtain ⟨e, he, heq⟩ := List.mem_filterMap.mp hm
    obtain ⟨id, hid, hres⟩ := hs.answered he
    split at heq
    · cases heq
      rw [hres]
      exact (length_answer hid).2
    · cases heq
  have hcame := streams_bring_up (by decide) hs.reach twoHosts (fun _ => Vector.replicate _ 0)
    (by decide +kernel) typed_hosts (fun x => (hown x).1) hreadable (fun x => (hown x).2) hshort
  obtain ⟨srv, hsrv, _⟩ := hcame.up 7 0 index (by rw [hs.posted]; simp)
    (by rw [hs.outbound]; simp [sentTo])
  obtain ⟨srv', hsrv', _⟩ := hcame.up 8 1 index (by rw [hs.posted]; simp)
    (by rw [hs.outbound]; simp [sentTo])
  exact ⟨s, srv, srv', hsrv, hsrv', hcame⟩

end Nvds.Cluster
