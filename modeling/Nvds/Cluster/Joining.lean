import Nvds.Cluster.Agreement
import Nvds.Cluster.Connections
import Nvds.Cluster.Encoding

/-! # A cluster comes up

    Servers join in whatever order the network makes of it, and each of them
    connects its tablets with the index that it decodes from its own answer.
    The decoded indices agree in every meaningful field only; that is enough
    for all queue pairs to find their ends.
-/

open Arrays Transition

namespace Nvds.Cluster

variable {c : Config} {peer : SessionId → String} {im₀ im im' : IndexManager c}

/-! ### What survives decoding -/

theorem IndexManager.SameAs.refl (im : IndexManager c) : im.SameAs im :=
  ⟨rfl, fun _ => ⟨rfl, rfl, rfl, rfl, fun _ => rfl, fun _ _ => rfl⟩, rfl⟩

/-- The tablets of the two indices agree. -/
theorem IndexManager.SameAs.tablet (h : im.SameAs im') {x : Nat} {t : TabletInfo c}
    (ht : im.getTablet x = .ok t) : ∃ t', im'.getTablet x = .ok t' ∧ t.SameAs t' := by
  have hx := lt_of_read ht
  have heq : im.getTablet x = .ok im.tablets[x] := read_of_lt hx
  obtain rfl := getTablet_inj ht heq
  exact ⟨im'.tablets[x], read_of_lt hx, h.tablets ⟨x, hx⟩⟩

theorem Registered.sameAs {addr : String} {body : JoinBody} {i : Nat}
    (hr : Registered addr body i im) (h : im.SameAs im') : Registered addr body i im' := by
  unfold Registered IndexManager.getServer
  rw [h.servers]
  exact hr

/-- A tablet is entered in the decoded index as well. -/
theorem Placed.sameAs {qpis : List QueuePairInfo} {i j k : Nat} (hp : Placed qpis i j k im)
    (h : im.SameAs im') : Placed qpis i j k im' := by
  obtain ⟨t, ht, hid, hserver, hback, hqpis⟩ := hp.tablet
  obtain ⟨t', ht', hsame⟩ := h.tablet ht
  constructor
  · refine ⟨t', ht', hsame.id.trans hid, hsame.serverId.trans hserver,
      hsame.isBackup.trans hback, ?_⟩
    intro r hr
    rw [hqpis r hr, hsame.qpis]
  · intro hj
    have hmaster := hp.master hj
    have hback' : t.isBackup = true := by simp [hback, hj]
    rw [storageAt_of_getTablet ht, backups_zero] at hmaster
    rw [storageAt_of_getTablet ht', backups_zero, hsame.master hback']
    exact hmaster
  · intro hj
    rw [h.keyTabletMap]
    exact hp.key hj
  · unfold IndexManager.getServer
    rw [h.servers]
    exact hp.server

/-- So is a backup at its master. -/
theorem Linked.sameAs {i j k : Nat} (hl : Linked i j k im) (h : im.SameAs im') {tm : TabletInfo c}
    (htm : im.getTablet (masterId c i j k) = .ok tm) (hm : tm.isBackup = false) :
    Linked i j k im' := by
  intro hj
  obtain ⟨tm', htm', hsame⟩ := h.tablet htm
  have hlink := hl hj
  rw [storageAt_of_getTablet htm] at hlink
  rw [storageAt_of_getTablet htm', hsame.backups hm]
  exact hlink

/-- The servers have joined as far as the decoded index goes. -/
theorem AllJoined.sameAs {joins : List (String × JoinBody)} (hall : AllJoined joins im)
    (hlen : joins.length = c.kNumServers) (h : im.SameAs im') : AllJoined joins im' := by
  intro i hi
  have hjoined := hall i hi
  refine ⟨hjoined.server.sameAs h, fun j k hs => (hjoined.placed j k hs).sameAs h, ?_⟩
  intro hR j k hs hj
  obtain ⟨tm, htm, _, _, hback, _⟩ := hall.tablet hlen hs.master
  have hm : tm.isBackup = false := by simp [hback]
  exact (hjoined.linked hR j k hs).sameAs h htm hm hj

/-! ### The servers of a run -/

/-- The hosts of the servers that have joined, in their order. -/
def hostsOf (peer : SessionId → String) (hosts : SessionId → Host c)
    (J : List (SessionId × JoinBody)) (hJ : J.length = c.kNumServers) :
    Fin c.kNumServers → String × Host c :=
  fun i => (peer (J.get (i.cast hJ.symm)).1, hosts (J.get (i.cast hJ.symm)).1)

section run

variable {hosts : SessionId → Host c} {J : List (SessionId × JoinBody)}

/-- What was entered is what the servers have sent. -/
theorem entries_eq_joinsOf (hJ : J.length = c.kNumServers)
    (hjoins : ∀ x ∈ J, x.2 = (Server.new (hosts x.1)).joinRequest) :
    entries peer J = joinsOf (hostsOf peer hosts J hJ) := by
  apply List.ext_getElem
  · rw [length_joinsOf, entries, List.length_map, hJ]
  · intro i h₁ h₂
    have hi : i < J.length := by
      rw [entries, List.length_map] at h₁
      exact h₁
    have hbody := hjoins _ (List.getElem_mem hi)
    simp only [entries, joinsOf, List.getElem_map, List.getElem_ofFn, hostsOf]
    rw [hbody]
    rfl

/-- The answers to the servers of a formed cluster. -/
theorem Formed.answer {s : System c} (h : Formed peer im₀ s J) {x : SessionId} {id : Nat}
    {im : IndexManager c} (hx : (x, ResJoin.server id im) ∈ s.coordinator.posted) :
    im = s.coordinator.indexManager ∧ ∃ hid : id < J.length, (J.get ⟨id, hid⟩).1 = x := by
  obtain ⟨clients, hposted⟩ := h.posted
  rw [hposted] at hx
  rcases List.mem_append.mp hx with hx | hx
  · obtain ⟨i, hi, heq⟩ := List.mem_mapIdx.mp hx
    cases heq
    rw [List.length_map] at hi
    exact ⟨rfl, hi, by simp⟩
  · obtain ⟨y, _, heq⟩ := List.mem_map.mp hx
    cases heq

/-- Every server that has joined is answered. -/
theorem Formed.answered {s : System c} (h : Formed peer im₀ s J) {id : Nat} (hid : id < J.length) :
    ((J.get ⟨id, hid⟩).1, ResJoin.server id s.coordinator.indexManager) ∈ s.coordinator.posted := by
  obtain ⟨clients, hposted⟩ := h.posted
  rw [hposted]
  apply List.mem_append_left
  rw [List.mem_mapIdx]
  refine ⟨id, by rwa [List.length_map], ?_⟩
  simp

/-- The two ends of a replica. -/
structure Paired (im : IndexManager c) (m b : Tablet c) (r : Fin c.kNumReplicas) : Prop where
  master : m.info.isBackup = false
  backup : b.info.isBackup = true
  backups : m.info.backups r = .ok b.info.id
  toBackup : (m.qps.get r).Connected .rts (b.localInfo c.first)
  toMaster : (b.qps.get c.first).Connected .rtr (m.localInfo r)
  target : m.syncTarget im r = .ok (b.rkey, b.addr)

/-- Two tablets that were connected with decoded indices of the same cluster are paired. -/
theorem paired_of_wired {hosts : Fin c.kNumServers → String × Host c} {im₁ : IndexManager c}
    (hR : c.kNumReplicas < c.kNumServers) (h₁ : AllJoined (joinsOf hosts) im₁) {i k : Nat}
    (hs : Spot c i 0 k) {m : Tablet c} (hm : Wired im₁ hosts hs m) (r : Fin c.kNumReplicas) :
    ∃ i', ∃ hs' : Spot c i' (r + 1) k, i' ≠ i ∧ ∀ im₂ b, AllJoined (joinsOf hosts) im₂ →
      Wired im₂ hosts hs' b → Paired im₁ m b r := by
  have hlen := length_joinsOf hosts
  obtain ⟨i', hs', hmaster, hb⟩ := h₁.backup hlen hR hs hm.info r.isLt
  refine ⟨i', hs', ?_, ?_⟩
  · rw [← hmaster]
    exact (masterServer_ne hR hs' (Nat.succ_pos _)).symm
  · intro im₂ b h₂ hbw
    obtain ⟨tm, htm, _, _, htmb, _⟩ := h₁.tablet hlen hs
    obtain rfl := getTablet_inj hm.info htm
    -- the entry of the backup in either index
    obtain ⟨tb, htb, _, _, htbb, _⟩ := h₁.tablet hlen hs'
    obtain ⟨tb', htb', hid', _, htbb', _⟩ := h₂.tablet hlen hs'
    obtain rfl := getTablet_inj hbw.info htb'
    have hback : tb.isBackup = true := by simp [htbb]
    have hqpi : tb.qpis.get c.first = b.localInfo c.first := by
      rw [h₁.qpis hs' htb, hbw.same.localInfo]
    have hmid : masterId c i' (r + 1) k = calcTabletId c i 0 k := by
      unfold masterId
      rw [hmaster]
    obtain ⟨tm', htm', _⟩ := h₂.tablet hlen hs
    constructor
    · simp [htmb]
    · simp [htbb']
    · rw [hid']
      exact hb
    · rw [← hqpi]
      exact hm.master rfl r _ _ hb htb
    · have hconn := hbw.backup r rfl tm' (by rw [hmid]; exact htm')
      rwa [h₂.qpis hs htm', ← hm.same.localInfo] at hconn
    · unfold Tablet.syncTarget check
      rw [hb, bind_ok, htb, bind_ok, if_pos hback, bind_ok, read_of_lt c.replicas_pos, bind_ok]
      show Except.ok ((tb.qpis.get c.first).rkey, (tb.qpis.get c.first).vaddr) = _
      rw [hqpi]
      rfl

/-- Server `x` was answered with `id`, and has become `srv` with its view of the index. -/
structure Up (s : System c) (hosts : SessionId → Host c) (views : SessionId → IndexManager c)
    (x : SessionId) (id : Nat) (srv : Server c) : Prop where
  answered : ∃ im, (x, ResJoin.server id im) ∈ s.coordinator.posted
  joined : (Server.new (hosts x)).joinResponse id (views x) = .ok srv

section views

variable {s : System c} {views : SessionId → IndexManager c}

/-- The index that a server decodes is complete. -/
theorem Formed.allJoined (h : Formed peer im₀ s J)
    (hjoins : ∀ x ∈ J, x.2 = (Server.new (hosts x.1)).joinRequest)
    (hviews : ∀ x id im, (x, ResJoin.server id im) ∈ s.coordinator.posted → im.SameAs (views x))
    (i : Fin c.kNumServers) :
    AllJoined (joinsOf (hostsOf peer hosts J h.complete))
      (views (J.get (i.cast h.complete.symm)).1) := by
  have hlen := length_joinsOf (hostsOf peer hosts J h.complete)
  have hindex := h.index
  rw [entries_eq_joinsOf h.complete hjoins] at hindex
  obtain ⟨im, hrun, hall⟩ := addServers_run hlen.le (joinsOf_wellFormed _) im₀
  rw [hindex] at hrun
  cases hrun
  apply hall.sameAs hlen
  exact hviews _ _ _ (h.answered (i.cast h.complete.symm).isLt)

/-- A server that is up has its tablets connected. -/
theorem Formed.wired (hR : c.kNumReplicas < c.kNumServers) (h : Formed peer im₀ s J)
    (hjoins : ∀ x ∈ J, x.2 = (Server.new (hosts x.1)).joinRequest)
    (hviews : ∀ x id im, (x, ResJoin.server id im) ∈ s.coordinator.posted → im.SameAs (views x))
    (i : Fin c.kNumServers) :
    ∃ srv, Up s hosts views (J.get (i.cast h.complete.symm)).1 i srv ∧
      ∀ j k (hs : Spot c i j k), ∃ t,
        read Fault.outOfBounds srv.tablets (j * c.kNumTabletsPerServer + k) = .ok t ∧
        Wired (views (J.get (i.cast h.complete.symm)).1) (hostsOf peer hosts J h.complete) hs t := by
  obtain ⟨srv, hrun, hwired⟩ := joinResponse_run hR (h.allJoined hjoins hviews i) i
  have hup : Up s hosts views (J.get (i.cast h.complete.symm)).1 i srv :=
    ⟨⟨_, h.answered (i.cast h.complete.symm).isLt⟩, hrun⟩
  exact ⟨srv, hup, hwired⟩

/-- All servers that were answered come up, and their tablets are connected. -/
structure CameUp (s : System c) (hosts : SessionId → Host c)
    (views : SessionId → IndexManager c) : Prop where
  up : ∀ x id im, (x, ResJoin.server id im) ∈ s.coordinator.posted →
    ∃ srv, Up s hosts views x id srv
  paired : ∀ x id srv, Up s hosts views x id srv → ∀ k (r : Fin c.kNumReplicas),
    k < c.kNumTabletsPerServer →
    ∃ m, read Fault.outOfBounds srv.tablets k = .ok m ∧
    ∃ y id' srv', Up s hosts views y id' srv' ∧ id' ≠ id ∧
    ∃ slot b, read Fault.outOfBounds srv'.tablets slot = .ok b ∧ Paired (views x) m b r

/-- Before the cluster is complete nobody was answered. -/
theorem cameUp_of_nil (h : s.coordinator.posted = []) : CameUp s hosts views := by
  constructor
  · intro x id im hx
    rw [h] at hx
    cases hx
  · intro x id srv hup
    obtain ⟨im, hx⟩ := hup.answered
    rw [h] at hx
    cases hx

theorem Formed.cameUp (hR : c.kNumReplicas < c.kNumServers) (h : Formed peer im₀ s J)
    (hjoins : ∀ x ∈ J, x.2 = (Server.new (hosts x.1)).joinRequest)
    (hviews : ∀ x id im, (x, ResJoin.server id im) ∈ s.coordinator.posted → im.SameAs (views x)) :
    CameUp s hosts views := by
  constructor
  · intro x id im hx
    obtain ⟨_, hid, rfl⟩ := h.answer hx
    rw [h.complete] at hid
    obtain ⟨srv, hup, _⟩ := h.wired hR hjoins hviews ⟨id, hid⟩
    exact ⟨srv, hup⟩
  · intro x id srv hup k r hk
    obtain ⟨im, hx⟩ := hup.answered
    obtain ⟨_, hid, rfl⟩ := h.answer hx
    rw [h.complete] at hid
    -- the tablet of the master
    obtain ⟨srv₁, hup₁, hwired₁⟩ := h.wired hR hjoins hviews ⟨id, hid⟩
    have hsrv : srv₁ = srv := by
      have heq := hup₁.joined.symm.trans hup.joined
      cases heq
      rfl
    subst hsrv
    have hs : Spot c id 0 k := ⟨hid, Nat.succ_pos _, hk⟩
    obtain ⟨m, hm, hmw⟩ := hwired₁ 0 k hs
    rw [Nat.zero_mul, Nat.zero_add] at hm
    -- the tablet of its backup, connected with another view
    have hall := h.allJoined hjoins hviews ⟨id, hid⟩
    obtain ⟨i', hs', hne, hpaired⟩ := paired_of_wired hR hall hs hmw r
    obtain ⟨srv', hup', hwired'⟩ := h.wired hR hjoins hviews ⟨i', hs'.server⟩
    obtain ⟨b, hb, hbw⟩ := hwired' (r + 1) k hs'
    have hall' := h.allJoined hjoins hviews ⟨i', hs'.server⟩
    exact ⟨m, hm, _, i', srv', hup', hne, _, b, hb, hpaired _ b hall' hbw⟩

/-- The same for every state of the join protocol. -/
theorem cameUp_of_joinInv (hR : c.kNumReplicas < c.kNumServers) (h : JoinInv peer im₀ s)
    (hjoins : ∀ x ∈ serverJoins s.received, x.2 = (Server.new (hosts x.1)).joinRequest)
    (hviews : ∀ x id im, (x, ResJoin.server id im) ∈ s.coordinator.posted → im.SameAs (views x)) :
    CameUp s hosts views := by
  rcases h with h | ⟨_, h⟩
  · exact cameUp_of_nil h.posted
  · exact h.cameUp hR (fun x hx => hjoins x (List.mem_of_mem_take hx)) hviews

/-- **A cluster comes up.** Whatever the order in which servers connect and join, each server
    that is answered comes up with the index it has decoded, and every queue pair of a master
    tablet is connected with the backup of another server that is up. -/
theorem joined_servers_connected (hR : c.kNumReplicas < c.kNumServers)
    (hreach : Reachable (System.Initial im₀) (Step peer) s) (hosts : SessionId → Host c)
    (hjoins : ∀ x ∈ serverJoins s.received, x.2 = (Server.new (hosts x.1)).joinRequest)
    (views : SessionId → IndexManager c)
    (hviews : ∀ x id im, (x, ResJoin.server id im) ∈ s.coordinator.posted →
      im.SameAs (views x)) :
    (∀ x id im, (x, ResJoin.server id im) ∈ s.coordinator.posted →
      ∃ srv, Up s hosts views x id srv) ∧
    ∀ x id srv, Up s hosts views x id srv → ∀ k (r : Fin c.kNumReplicas),
      k < c.kNumTabletsPerServer →
      ∃ m, read Fault.outOfBounds srv.tablets k = .ok m ∧
      ∃ y id' srv', Up s hosts views y id' srv' ∧ id' ≠ id ∧
      ∃ slot b, read Fault.outOfBounds srv'.tablets slot = .ok b ∧ Paired (views x) m b r := by
  have h := cameUp_of_joinInv hR (joinInv_of_reachable hreach) hjoins hviews
  exact ⟨h.up, h.paired⟩

end views

/-- The message with which the server of session `x` joins, its local id being `x`. -/
def joins (x : SessionId) : Message :=
  ⟨.server, .reqJoin, (Server.new (hostOf shipped x)).joinRequest⟩

theorem joined_servers_connected_shipped : ∃ s : System shipped, Leads s ∧
    ∃ x id srv, Up s (hostOf shipped) (fun _ => s.coordinator.indexManager) x id srv ∧
      ∃ m, read Fault.outOfBounds srv.tablets 0 = .ok m ∧
      ∃ slot b, Paired s.coordinator.indexManager m b slot := by
  -- the sessions 7 and 8 connect and join
  have hjoin : ∀ x, (joins x).WellFormed shipped := fun x _ => joinRequest_wellFormed _
  have h₀ : Counted 0 started := ⟨rfl, rfl, rfl⟩
  obtain ⟨co₁, hrun₁, hnum₁, h₁⟩ :=
    h₀.join (by decide) ⟨rfl, rfl⟩ (hjoin 7) (toString 7) 7
  obtain ⟨co₂, hrun₂, hnum₂, _⟩ :=
    (h₁ (by decide)).join (by decide) ⟨rfl, rfl⟩ (hjoin 8) (toString 8) 8
  have r₀ : Leads ⟨started, [], [], [], []⟩ :=
    .init ⟨⟨rfl, rfl, rfl, rfl, rfl⟩, rfl, rfl, rfl, rfl, rfl⟩
  have r₁ : Leads ⟨started, [7], [7], [], []⟩ := r₀.step (.accept 7) ⟨by decide, rfl⟩
  have r₂ : Leads ⟨started, [8, 7], [8, 7], [], []⟩ := r₁.step (.accept 8) ⟨by decide, rfl⟩
  have r₃ : Leads ⟨co₁, [8, 7], [8], [], [(7, joins 7)]⟩ :=
    r₂.step (.recv 7 (joins 7)) ⟨by decide, (hjoin 7).takes _, co₁, hrun₁, rfl⟩
  have r₄ : Leads ⟨co₂, [8, 7], [], [], [(7, joins 7), (8, joins 8)]⟩ :=
    r₃.step (.recv 8 (joins 8)) ⟨List.mem_singleton_self 8, (hjoin 8).takes _, co₂, hrun₂, rfl⟩
  have hagree := (joinInv_of_reachable r₄).resolve_left fun hw => absurd hw.missing (lt_irrefl 2)
  have hsame : ∀ x id im, (x, ResJoin.server id im) ∈ co₂.posted →
      im.SameAs co₂.indexManager := by
    intro x id im hx
    rw [(hagree.2.answer hx).1]
    exact .refl _
  obtain ⟨hup, hpairs⟩ := joined_servers_connected (by decide) r₄ (hostOf shipped)
    (by simp [serverJoins, joins, Message.IsServerJoin]) (fun _ => co₂.indexManager) hsame
  have hfirst := hagree.2.answered (hagree.2.complete.symm ▸ shipped.servers_pos)
  obtain ⟨srv, hsrv⟩ := hup _ _ _ hfirst
  obtain ⟨m, hm, _, _, _, _, _, slot, b, _, hpair⟩ :=
    hpairs _ _ _ hsrv 0 shipped.first (by decide)
  exact ⟨_, r₄, _, _, srv, hsrv, m, hm, _, b, hpair⟩

end run

end Nvds.Cluster

