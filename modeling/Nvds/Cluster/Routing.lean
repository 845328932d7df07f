import Nvds.Cluster.Server

/-! # Where a key lives

    The client picks a server by the hash of the key, the server picks a
    worker by the id of the tablet. Both compute with the index, and end at
    the one master tablet with that id.
-/

open Arrays

namespace Nvds.Cluster

variable {c : Config} {joins : List (String × JoinBody)} {im : IndexManager c}

/-! ### The tablets of a server -/

/-- `info_` of the tablet in slot `slot` of server `i`, as `SettingupQPConnect` sets it first. -/
def IndexManager.slotInfo (im : IndexManager c) (i slot : Nat) : Call (TabletInfo c) := do
  let info ← im.getServer i
  let tabletId ← read .outOfBounds info.tablets slot
  im.getTablet tabletId

/-- The slots of a server that has joined. -/
theorem Joined.slotInfo {addr : String} {body : JoinBody} {i slot : Nat}
    (h : Joined addr body i im) (hi : i < c.kNumServers)
    (hslot : slot < c.kNumTabletAndBackupsPerServer) :
    ∃ info, im.slotInfo i slot = .ok info ∧
      info.id = i * c.kNumTabletAndBackupsPerServer + slot ∧ info.serverId = i ∧
      (slot < c.kNumTabletsPerServer → info.isBackup = false) ∧
      ∀ r (hr : r < c.kNumReplicas),
        body.tabletQpis[slot * c.kNumReplicas + r]? = some info.qpis[r] := by
  obtain ⟨j, k, hj, hk, rfl⟩ := exists_copy hslot
  have hplaced := h.placed j k ⟨hi, hj, hk⟩
  obtain ⟨srv, hget, hread⟩ := hplaced.server
  obtain ⟨info, hinfo, hid, hserver, hback, hqpis⟩ := hplaced.tablet
  rw [calcTabletId_eq hi hj hk] at hid
  refine ⟨info, ?_, hid, hserver, fun hlt => ?_, hqpis⟩
  · unfold IndexManager.slotInfo
    rw [hget, bind_ok, hread, bind_ok, hinfo]
  · -- the slots of the masters come first
    obtain rfl : j = 0 := by
      by_contra hne
      have := Nat.le_mul_of_pos_left c.kNumTabletsPerServer (Nat.pos_of_ne_zero hne)
      omega
    rw [hback]
    rfl

/-- Taking a successful sequence of calls apart. -/
theorem bind_eq_ok {α β : Type} {x : Call α} {f : α → Call β} {b : β} :
    (x >>= f) = .ok b ↔ ∃ a, x = .ok a ∧ f a = .ok b := by
  cases x with
  | error e =>
    constructor
    · intro h
      cases h
    · rintro ⟨a, ha, _⟩
      cases ha
  | ok a =>
    rw [bind_ok]
    constructor
    · intro h
      exact ⟨a, rfl, h⟩
    · rintro ⟨a', ha, h⟩
      cases ha
      exact h

/-- On a backup, only the queue pairs change. -/
theorem connectMaster_qps {id : Nat} {masterInfo : TabletInfo c} {is : List Nat}
    {t t' : Tablet c} (h : t.connectMaster id masterInfo is = .ok t') :
    ∃ qps, t' = { t with qps } := by
  induction is with
  | nil =>
    cases h
    exact ⟨t.qps, rfl⟩
  | cons i is ih =>
    unfold Tablet.connectMaster at h
    obtain ⟨backup, _, h⟩ := bind_eq_ok.mp h
    split at h
    · obtain ⟨qpi, _, h⟩ := bind_eq_ok.mp h
      obtain ⟨qps, _, h⟩ := bind_eq_ok.mp h
      cases h
      exact ⟨qps, rfl⟩
    · obtain ⟨_, _, h⟩ := bind_eq_ok.mp h
      exact ih h

/-- A connected tablet has the entry of the index, and is where it was. -/
theorem settingupQPConnect_info {id : Nat} {t t' : Tablet c}
    (h : t.settingupQPConnect id im = .ok t') :
    im.getTablet id = .ok t'.info ∧ t'.addr = t.addr := by
  unfold Tablet.settingupQPConnect at h
  obtain ⟨info, hinfo, h⟩ := bind_eq_ok.mp h
  rw [hinfo]
  split at h
  · obtain ⟨masterInfo, _, h⟩ := bind_eq_ok.mp h
    obtain ⟨_, _, h⟩ := bind_eq_ok.mp h
    obtain ⟨qps, rfl⟩ := connectMaster_qps h
    exact ⟨rfl, rfl⟩
  · obtain ⟨qps, _, h⟩ := bind_eq_ok.mp h
    cases h
    exact ⟨rfl, rfl⟩

/-- A server that has joined holds the index, and its tablets the entries of their slots. -/
theorem joinResponse_info {s s' : Server c} {id : Nat} (h : s.joinResponse id im = .ok s') :
    s'.id = id ∧ s'.indexManager = im ∧ s'.workers = s.workers ∧
      ∀ slot t, read Fault.outOfBounds s'.tablets slot = .ok t →
        im.slotInfo id slot = .ok t.info := by
  unfold Server.joinResponse at h
  obtain ⟨info, hinfo, h⟩ := bind_eq_ok.mp h
  obtain ⟨tablets, htab, h⟩ := bind_eq_ok.mp h
  cases h
  refine ⟨rfl, rfl, rfl, ?_⟩
  intro slot t ht
  have hslot := lt_of_read ht
  rw [read_of_lt hslot] at ht
  cases ht
  have hconn := updateAll_eq_ok.mp htab slot hslot
  unfold Server.connectSlot at hconn
  obtain ⟨tabletId, hread, hconn⟩ := bind_eq_ok.mp hconn
  unfold IndexManager.slotInfo
  rw [hinfo, bind_ok, hread, bind_ok]
  exact (settingupQPConnect_info hconn).1

/-- Its tablets are where they were. -/
theorem joinResponse_addr {s s' : Server c} {id : Nat} (h : s.joinResponse id im = .ok s')
    (slot : Fin c.kNumTabletAndBackupsPerServer) :
    (s'.tablets.get slot).addr = (s.tablets.get slot).addr := by
  unfold Server.joinResponse at h
  obtain ⟨info, _, h⟩ := bind_eq_ok.mp h
  obtain ⟨tablets, htab, h⟩ := bind_eq_ok.mp h
  cases h
  have hconn := updateAll_eq_ok.mp htab slot slot.isLt
  unfold Server.connectSlot at hconn
  obtain ⟨_, _, hconn⟩ := bind_eq_ok.mp hconn
  exact (settingupQPConnect_info hconn).2

/-- So the tablets of a server that has joined do not overlap. -/
theorem Server.apart_of_joinResponse {host : Host c} {id : Nat} {s : Server c}
    (hfit : c.TabletsFit) (h : (Server.new host).joinResponse id im = .ok s) : s.Apart := by
  intro slot slot' hne
  rw [joinResponse_addr h, joinResponse_addr h]
  exact Server.apart_new hfit slot slot' hne

/-! ### Client and server -/

/-- The tablet of a key: the client's and the server's lookups. -/
theorem AllJoined.lookup (h : AllJoined joins im) (hlen : joins.length = c.kNumServers)
    {keyHash : Nat} (hidx : keyIndex c keyHash < c.kNumTablets) :
    ∃ i k srv, i < c.kNumServers ∧ k < c.kNumTabletsPerServer ∧ srv.id = i ∧
      im.getTabletId keyHash = .ok (i * c.kNumTabletAndBackupsPerServer + k) ∧
      im.getServerOf keyHash = .ok srv := by
  have hrow := hidx
  rw [Config.kNumTablets_eq] at hrow
  obtain ⟨i, k, hi, hk, hik⟩ := exists_row hrow
  have hs : Spot c i 0 k := ⟨hi, Nat.succ_pos _, hk⟩
  have hjoined := h i (by rw [hlen]; exact hi)
  -- server `i` registered itself and entered row `k` of its masters into the key map
  obtain ⟨srv, hsrv, hid, _⟩ := hjoined.server
  have hkey := (hjoined.placed 0 k hs).key rfl
  obtain ⟨t, ht, _, hserver, _⟩ := h.tablet hlen hs
  have htid : calcTabletId c i 0 k = i * c.kNumTabletAndBackupsPerServer + k := by
    rw [calcTabletId_eq hi hs.copy hk, Nat.zero_mul, Nat.zero_add]
  have hget : im.getTabletId keyHash = .ok (calcTabletId c i 0 k) := by
    unfold IndexManager.getTabletId
    rw [hik]
    exact hkey
  refine ⟨i, k, srv, hi, hk, hid, ?_, ?_⟩
  · rw [hget, htid]
  · unfold IndexManager.getServerOf IndexManager.getServerId check
    rw [hget, bind_ok, ht, bind_ok]
    show ((im.getServer t.serverId) >>= _) = _
    rw [hserver, hsrv, bind_ok, if_pos hid]
    rfl

theorem row_mod {n a b : Nat} (hb : b < n) : (a * n + b) % n = b := by
  rw [Nat.mul_comm, Nat.mul_add_mod, Nat.mod_eq_of_lt hb]

/-- The tablet and the server of the key with index `i * kNumTabletsPerServer + k`. -/
theorem AllJoined.home (h : AllJoined joins im) (hlen : joins.length = c.kNumServers) {i k : Nat}
    (hi : i < c.kNumServers) (hk : k < c.kNumTabletsPerServer) {keyHash : Nat}
    (hidx : keyIndex c keyHash = i * c.kNumTabletsPerServer + k) :
    im.getTabletId keyHash = .ok (i * c.kNumTabletAndBackupsPerServer + k) ∧
      ∃ srv, im.getServerOf keyHash = .ok srv ∧ srv.id = i := by
  have hs : Spot c i 0 k := ⟨hi, Nat.succ_pos _, hk⟩
  have hlt : keyIndex c keyHash < c.kNumTablets := by
    rw [hidx, Config.kNumTablets_eq]
    exact row_lt hi hk
  obtain ⟨i', k', srv, hi', hk', hid, htid, hsrv⟩ := h.lookup hlen hlt
  have hkey := ((h i (by rw [hlen]; exact hi)).placed 0 k hs).key rfl
  have hget : im.getTabletId keyHash = .ok (calcTabletId c i 0 k) := by
    unfold IndexManager.getTabletId
    rw [hidx]
    exact hkey
  rw [calcTabletId_eq hi hs.copy hk, Nat.zero_mul, Nat.zero_add] at hget
  have heq := htid.symm.trans hget
  injection heq with heq
  have hkn : k < c.kNumTabletAndBackupsPerServer := lt_of_lt_of_le hk c.masters_le
  have hkn' : k' < c.kNumTabletAndBackupsPerServer := lt_of_lt_of_le hk' c.masters_le
  obtain ⟨rfl, rfl⟩ := row_inj hkn' hkn heq
  exact ⟨hget, srv, hsrv, hid⟩

/-- The worker for it, on every server that has joined. -/
theorem AllJoined.dispatch (h : AllJoined joins im) (hlen : joins.length = c.kNumServers)
    {i k : Nat} (hi : i < c.kNumServers) (hk : k < c.kNumTabletsPerServer) {keyHash : Nat}
    (hidx : keyIndex c keyHash = i * c.kNumTabletsPerServer + k) {host : Host c} {id : Nat}
    {s : Server c} (hjoin : (Server.new host).joinResponse id im = .ok s) :
    s.dispatch keyHash = .ok (k, k) := by
  obtain ⟨_, him, hworkers, _⟩ := joinResponse_info hjoin
  have hkn : k < c.kNumTabletAndBackupsPerServer := lt_of_lt_of_le hk c.masters_le
  unfold Server.dispatch
  rw [him, (h.home hlen hi hk hidx).1, bind_ok, row_mod hkn, hworkers]
  show (read _ (Server.new host).workers k >>= _) = _
  rw [read_of_lt hk, bind_ok]
  simp only [Server.new, Vector.getElem_ofFn]
  rfl

/-- **Client and server agree** on where a key lives: on the server the client picks, the
    worker that gets the request has the master tablet with the id of the key's tablet, and
    no other slot of any server has a tablet with that id. -/
theorem client_server_agree (im₀ : IndexManager c) (hlen : joins.length = c.kNumServers)
    (hwf : ∀ x ∈ joins, x.2.WellFormed c) {keyHash : Nat}
    (hidx : keyIndex c keyHash < c.kNumTablets) :
    ∃ im tabletId srv, addServers 0 joins im₀ = .ok im ∧
      im.getTabletId keyHash = .ok tabletId ∧ im.getServerOf keyHash = .ok srv ∧
      srv.id < c.kNumServers ∧
      tabletId % c.kNumTabletAndBackupsPerServer < c.kNumTabletsPerServer ∧
      ∀ i, i < c.kNumServers →
        (∀ slot, slot < c.kNumTabletAndBackupsPerServer →
          ∃ info, im.slotInfo i slot = .ok info ∧
            (info.id = tabletId ↔
              i = srv.id ∧ slot = tabletId % c.kNumTabletAndBackupsPerServer) ∧
            (info.id = tabletId → info.isBackup = false)) ∧
        ∀ host s, (Server.new host).joinResponse i im = .ok s →
          s.dispatch keyHash = .ok (tabletId % c.kNumTabletAndBackupsPerServer,
            tabletId % c.kNumTabletAndBackupsPerServer) ∧
          ∀ slot t, read Fault.outOfBounds s.tablets slot = .ok t →
            im.slotInfo i slot = .ok t.info := by
  obtain ⟨im, hrun, h⟩ := addServers_run hlen.le hwf im₀
  obtain ⟨i₀, k, srv, hi₀, hk, rfl, htid, hsrv⟩ := h.lookup hlen hidx
  have hkn : k < c.kNumTabletAndBackupsPerServer := lt_of_lt_of_le hk c.masters_le
  refine ⟨im, _, srv, hrun, htid, hsrv, hi₀, ?_, fun i hi => ⟨?_, ?_⟩⟩
  · rw [row_mod hkn]
    exact hk
  · intro slot hslot
    obtain ⟨info, hinfo, hid, _, hmaster, _⟩ := (h i (by rw [hlen]; exact hi)).slotInfo hi hslot
    -- copy `slot` of server `i` is the tablet the client looks up only on that server
    have hiff : info.id = srv.id * c.kNumTabletAndBackupsPerServer + k ↔
        i = srv.id ∧ slot = k := by
      rw [hid]
      constructor
      · exact row_inj hslot hkn
      · rintro ⟨rfl, rfl⟩
        rfl
    rw [row_mod hkn]
    exact ⟨info, hinfo, hiff, fun heq => hmaster ((hiff.mp heq).2 ▸ hk)⟩
  · intro host s hjoin
    obtain ⟨_, him, hworkers, hslots⟩ := joinResponse_info hjoin
    refine ⟨?_, hslots⟩
    unfold Server.dispatch
    rw [him, htid, bind_ok, row_mod hkn, hworkers]
    show (read _ (Server.new host).workers k >>= _) = _
    rw [read_of_lt hk, bind_ok]
    simp only [Server.new, Vector.getElem_ofFn]
    rfl

theorem client_server_agree_shipped : ∃ im tabletId srv,
    addServers 0 twoJoins (unset shipped) = .ok im ∧
      im.getTabletId 9223372036854775808 = .ok tabletId ∧
      im.getServerOf 9223372036854775808 = .ok srv := by
  obtain ⟨im, tabletId, srv, hrun, htid, hsrv, _⟩ :=
    client_server_agree (c := shipped) (unset shipped) (by decide) twoJoins_wellFormed
      (show keyIndex shipped 9223372036854775808 < shipped.kNumTablets by decide +kernel)
  exact ⟨im, tabletId, srv, hrun, htid, hsrv⟩

end Nvds.Cluster
