import Nvds.Cluster.Routing

/-! # Connections between masters and backups

    Every queue pair of a master tablet is connected to a backup, and the
    first queue pair of a backup to its master. The information each end
    connects with went through the `REQ_JOIN` of the other end's server and
    the index; here it is traced back to the queue pairs it describes.
-/

open Arrays

namespace Nvds.Cluster

variable {c : Config} {im : IndexManager c}

/-! ### New tablets -/

/-- The queue pairs of `t` are as they were created. -/
def Tablet.Fresh (t : Tablet c) : Prop :=
  ∀ r : Fin c.kNumReplicas, ∃ num, t.qps.get r = QueuePair.new .rc num

/-- The index of the first queue pair. -/
def Config.first (c : Config) : Fin c.kNumReplicas := ⟨0, c.replicas_pos⟩

theorem fresh_new (raw : TabletInfo c) (dev : Device c) (ptr : Nat) (isBackup : Bool) :
    (Tablet.new raw dev ptr isBackup).Fresh := by
  intro r
  refine ⟨dev.qpns.get r, ?_⟩
  rw [Tablet.new, get_ofFn]

theorem qpis_new (raw : TabletInfo c) (dev : Device c) (ptr : Nat) (isBackup : Bool)
    (r : Fin c.kNumReplicas) :
    (Tablet.new raw dev ptr isBackup).info.qpis.get r =
      (Tablet.new raw dev ptr isBackup).localInfo r := by
  simp only [Tablet.new, Tablet.localInfo, QueuePair.new, get_ofFn]

/-- The tablets of a new server are new tablets. -/
theorem tablets_new (host : Host c) (slot : Nat) (h : slot < c.kNumTabletAndBackupsPerServer) :
    ∃ raw dev ptr isBackup, (Server.new host).tablets[slot] =
      Tablet.new raw dev ptr isBackup := by
  refine ⟨host.raw[slot], host.devices[slot], host.tablets + u32 (slot * kNVMTabletSize),
    decide (slot ≥ c.kNumTabletsPerServer), ?_⟩
  simp only [Server.new, Vector.getElem_ofFn]
  rfl

theorem joinRequest_wellFormed (host : Host c) : (Server.new host).joinRequest.WellFormed c := by
  unfold JoinBody.WellFormed Server.joinRequest
  rw [List.length_flatMap]
  simp

/-- What a new server sends about its queue pairs. -/
theorem joinRequest_qpis (host : Host c) {slot : Nat}
    (hslot : slot < c.kNumTabletAndBackupsPerServer) (r : Fin c.kNumReplicas) :
    (Server.new host).joinRequest.tabletQpis[slot * c.kNumReplicas + r]? =
      some ((Server.new host).tablets[slot].localInfo r) := by
  obtain ⟨raw, dev, ptr, isBackup, hnew⟩ := tablets_new host slot hslot
  show ((Server.new host).tablets.toList.flatMap fun t => t.info.qpis.toList)[_]? = _
  rw [getElem?_flatMap_row _ (fun t : Tablet c => t.info.qpis) slot r r.isLt]
  have hget : (Server.new host).tablets.toList[slot]? = some (Server.new host).tablets[slot] := by
    simp [hslot]
  rw [hget, Option.map_some, hnew]
  congr 1
  exact qpis_new raw dev ptr isBackup r

/-! ### Connecting one tablet -/

/-- `t'` is `t` up to the states and peers of its queue pairs and the entry it holds. -/
structure Tablet.Same (t t' : Tablet c) : Prop where
  addr : t'.addr = t.addr
  rkey : t'.rkey = t.rkey
  localInfo : ∀ r, t'.localInfo r = t.localInfo r

theorem setStateRTR_new (info : QueuePairInfo) (num : Nat) :
    (QueuePair.new .rc num).setStateRTR info =
      .ok ⟨.rc, num, kDefaultPsn, .rtr, some info.peer, none⟩ := rfl

theorem setStateRTS_new (info : QueuePairInfo) (num : Nat) :
    (QueuePair.new .rc num).setStateRTS info =
      .ok ⟨.rc, num, kDefaultPsn, .rts, some info.peer, some kDefaultPsn⟩ := rfl

section connect

variable {id : Nat} {t : Tablet c} {info : TabletInfo c}

/-- The queue pair `qp` is in state `state` and connected to the one `info` describes. -/
def QueuePair.Connected (qp : QueuePair) (state : QueuePairState) (info : QueuePairInfo) : Prop :=
  qp.state = state ∧ qp.peer = some info.peer

/-- A master connects each of its queue pairs to the first one of a backup. -/
theorem settingupQPConnect_master (hfresh : t.Fresh) (hinfo : im.getTablet id = .ok info)
    (hmaster : info.isBackup = false)
    (hbackups : ∀ r, r < c.kNumReplicas → ∃ b tb, info.backups r = .ok b ∧
      im.getTablet b = .ok tb ∧ tb.isBackup = true) :
    ∃ t', t.settingupQPConnect id im = .ok t' ∧ t.Same t' ∧ t'.info = info ∧
      ∀ (r : Fin c.kNumReplicas) b tb, info.backups r = .ok b → im.getTablet b = .ok tb →
        (t'.qps.get r).Connected .rts (tb.qpis.get c.first) := by
  -- one queue pair
  have hqp : ∀ r : Fin c.kNumReplicas, ∃ qp, Tablet.connectBackup im info r (t.qps.get r) = .ok qp ∧
      qp.num = (t.qps.get r).num ∧ ∀ b tb, info.backups r = .ok b → im.getTablet b = .ok tb →
        qp.Connected .rts (tb.qpis.get c.first) := by
    intro r
    obtain ⟨num, hnum⟩ := hfresh r
    obtain ⟨b, tb, hb, htb, hback⟩ := hbackups r r.isLt
    refine ⟨⟨.rc, num, kDefaultPsn, .rts, some (tb.qpis.get c.first).peer, some kDefaultPsn⟩, ?_, ?_, ?_⟩
    · unfold Tablet.connectBackup check
      rw [hb, bind_ok, htb, bind_ok, if_pos hback, bind_ok, read_of_lt c.replicas_pos, bind_ok,
        hnum]
      exact setStateRTS_new _ num
    · rw [hnum]
      rfl
    · intro b' tb' hb' htb'
      rw [hb] at hb'
      cases hb'
      obtain rfl := getTablet_inj htb htb'
      exact ⟨rfl, rfl⟩
  -- the loop connects one after the other
  choose qp hrun hnum hconn using hqp
  have hall : updateAll .outOfBounds (Tablet.connectBackup im info) t.qps = .ok (Vector.ofFn qp) := by
    apply updateAll_eq_ok.mpr
    intro r hr
    rw [Vector.getElem_ofFn]
    exact hrun ⟨r, hr⟩
  refine ⟨{ t with info, qps := Vector.ofFn qp }, ?_, ⟨rfl, rfl, ?_⟩, rfl, ?_⟩
  · unfold Tablet.settingupQPConnect
    rw [hinfo, bind_ok, hmaster, if_neg Bool.false_ne_true, hall]
    rfl
  · intro r
    simp only [Tablet.localInfo, get_ofFn, hnum]
  · intro r
    rw [get_ofFn]
    exact hconn r

/-- The search of a backup for itself at its master. -/
theorem connectMaster_run {masterInfo : TabletInfo c} {r : Nat} (hr : r < c.kNumReplicas)
    (hfound : masterInfo.backups r = .ok id)
    (honly : ∀ r', masterInfo.backups r' = .ok id → r' = r) {a n : Nat}
    (hrange : a + n = c.kNumReplicas) (har : a ≤ r) {qps : Vector QueuePair c.kNumReplicas}
    (hset : update .outOfBounds t.qps 0 (QueuePair.setStateRTR masterInfo.qpis[r]) = .ok qps) :
    t.connectMaster id masterInfo (List.range' a n) = .ok { t with qps } := by
  induction n generalizing a with
  | zero => omega
  | succ n ih =>
    rw [List.range'_succ]
    unfold Tablet.connectMaster
    by_cases heq : a = r
    · subst heq
      rw [hfound, bind_ok, if_pos rfl, read_of_lt hr, bind_ok, hset]
      rfl
    · -- not yet there, so this is not the last index
      obtain ⟨b, hb⟩ := exists_read Fault.outOfBounds masterInfo.storage
        (show a < c.kNumReplicas by omega)
      have hne : b ≠ id := by
        rintro rfl
        exact heq (honly a hb)
      rw [show masterInfo.backups a = .ok b from hb, bind_ok, if_neg hne, check,
        if_pos (by omega), bind_ok]
      exact ih (by omega) (by omega)

/-- A backup connects its first queue pair to the one its master has for it. -/
theorem settingupQPConnect_backup (hfresh : t.Fresh) (hinfo : im.getTablet id = .ok info)
    (hbackup : info.isBackup = true) {masterInfo : TabletInfo c}
    (hmaster : im.getTablet info.master = .ok masterInfo) (hm : masterInfo.isBackup = false)
    {r : Nat} (hr : r < c.kNumReplicas) (hfound : masterInfo.backups r = .ok id)
    (honly : ∀ r', masterInfo.backups r' = .ok id → r' = r) :
    ∃ t', t.settingupQPConnect id im = .ok t' ∧ t.Same t' ∧ t'.info = info ∧
      (t'.qps.get c.first).Connected .rtr masterInfo.qpis[r] := by
  obtain ⟨num, hnum⟩ := hfresh c.first
  -- the first queue pair of a backup becomes ready to receive
  have hset : update Fault.outOfBounds t.qps 0 (QueuePair.setStateRTR masterInfo.qpis[r]) =
      .ok (t.qps.set 0 ⟨.rc, num, kDefaultPsn, .rtr, some masterInfo.qpis[r].peer, none⟩
        c.replicas_pos) := by
    refine (update_eq_ok c.replicas_pos).mpr ⟨_, ?_, rfl⟩
    rw [show t.qps[0] = QueuePair.new .rc num from hnum]
    exact setStateRTR_new _ num
  refine ⟨{ t with info, qps := t.qps.set 0 ⟨.rc, num, kDefaultPsn, .rtr,
    some masterInfo.qpis[r].peer, none⟩ c.replicas_pos }, ?_, ⟨rfl, rfl, ?_⟩, rfl, ?_⟩
  · unfold Tablet.settingupQPConnect
    rw [hinfo, bind_ok, hbackup, if_pos rfl, hmaster, bind_ok, check, if_pos hm, bind_ok,
      List.range_eq_range']
    -- the loop over the backups of the master stops at this tablet
    exact connectMaster_run (t := { t with info }) hr hfound honly (Nat.zero_add _)
      (Nat.zero_le r) hset
  · intro r'
    unfold Tablet.localInfo
    congr 1
    show (t.qps.set 0 _ c.replicas_pos)[r'.val].num = t.qps[r'.val].num
    rw [Vector.getElem_set]
    split
    · rename_i h0
      have hfirst : r' = c.first := Fin.ext h0.symm
      rw [hfirst]
      exact (congrArg QueuePair.num hnum).symm
    · rfl
  · show ((t.qps.set 0 _ c.replicas_pos)[0]).Connected _ _
    rw [Vector.getElem_set_self]
    exact ⟨rfl, rfl⟩

end connect

/-! ### Connecting all tablets -/

section cluster

variable (hosts : Fin c.kNumServers → String × Host c)

/-- What the servers send, in the order in which they join. -/
def joinsOf : List (String × JoinBody) :=
  List.ofFn fun i => ((hosts i).1, (Server.new (hosts i).2).joinRequest)

theorem length_joinsOf : (joinsOf hosts).length = c.kNumServers :=
  List.length_ofFn

theorem joinsOf_wellFormed : ∀ x ∈ joinsOf hosts, x.2.WellFormed c := by
  intro x hx
  obtain ⟨i, rfl⟩ := List.mem_ofFn.mp hx
  exact joinRequest_wellFormed _

/-- The tablet `(i, j, k)` before it is connected. -/
def newTablet {i j k : Nat} (hs : Spot c i j k) : Tablet c :=
  (Server.new (hosts ⟨i, hs.server⟩).2).tablets.get
    ⟨j * c.kNumTabletsPerServer + k, slot_lt hs.copy hs.tablet⟩

variable {hosts} {i j k : Nat}

theorem newTablet_fresh (hs : Spot c i j k) : (newTablet hosts hs).Fresh := by
  obtain ⟨raw, dev, ptr, isBackup, hnew⟩ :=
    tablets_new (hosts ⟨i, hs.server⟩).2 _ (slot_lt hs.copy hs.tablet)
  have heq : newTablet hosts hs = Tablet.new raw dev ptr isBackup := hnew
  rw [heq]
  exact fresh_new raw dev ptr isBackup

/-- The index has the queue pairs of the tablet itself. -/
theorem AllJoined.qpis (h : AllJoined (joinsOf hosts) im) (hs : Spot c i j k) {t : TabletInfo c}
    (ht : im.getTablet (calcTabletId c i j k) = .ok t) (r : Fin c.kNumReplicas) :
    t.qpis.get r = (newTablet hosts hs).localInfo r := by
  have hi : i < (joinsOf hosts).length := by
    rw [length_joinsOf]
    exact hs.server
  obtain ⟨t', ht', _, _, _, hqpis⟩ := ((h i hi).placed j k hs).tablet
  obtain rfl := getTablet_inj ht ht'
  have hbody : (joinsOf hosts)[i].2 = (Server.new (hosts ⟨i, hs.server⟩).2).joinRequest := by
    simp only [joinsOf, List.getElem_ofFn]
  have hq := hqpis r r.isLt
  rw [hbody, joinRequest_qpis _ (slot_lt hs.copy hs.tablet)] at hq
  exact (Option.some.inj hq).symm

/-- The tablet `(i, j, k)` after it was connected. -/
structure Wired (im : IndexManager c) (hosts : Fin c.kNumServers → String × Host c)
    (hs : Spot c i j k) (t : Tablet c) : Prop where
  info : im.getTablet (calcTabletId c i j k) = .ok t.info
  same : (newTablet hosts hs).Same t
  master : j = 0 → ∀ (r : Fin c.kNumReplicas) b tb, t.info.backups r = .ok b →
    im.getTablet b = .ok tb → (t.qps.get r).Connected .rts (tb.qpis.get c.first)
  backup : ∀ r : Fin c.kNumReplicas, r.val + 1 = j → ∀ tm,
    im.getTablet (masterId c i j k) = .ok tm → (t.qps.get c.first).Connected .rtr (tm.qpis.get r)

/-- **`SettingupQPConnect`** succeeds on every tablet. -/
theorem settingupQPConnect_run (hR : c.kNumReplicas < c.kNumServers)
    (h : AllJoined (joinsOf hosts) im) (hs : Spot c i j k) :
    ∃ t, (newTablet hosts hs).settingupQPConnect (calcTabletId c i j k) im = .ok t ∧
      Wired im hosts hs t := by
  have hlen := length_joinsOf hosts
  obtain ⟨info, hinfo, _, _, hback, hmaster⟩ := h.tablet hlen hs
  rcases Nat.eq_zero_or_pos j with rfl | hj
  · obtain ⟨t, hrun, hsame, rfl, hconn⟩ := settingupQPConnect_master (newTablet_fresh hs) hinfo
      hback (fun r hr => by
        obtain ⟨i', hs', _, hb⟩ := h.backup hlen hR hs hinfo hr
        obtain ⟨tb, htb, _, _, htbb, _⟩ := h.tablet hlen hs'
        exact ⟨_, tb, hb, htb, by simp [htbb]⟩)
    exact ⟨t, hrun, hinfo, hsame, fun _ => hconn, fun r hr => absurd hr (Nat.succ_ne_zero _)⟩
  · have hback' : info.isBackup = true := by simp [hback, hj]
    have hjr : j - 1 < c.kNumReplicas := by
      have := hs.copy
      omega
    obtain ⟨tm, htm, hmb, r₀, hr₀, honly⟩ := h.entered hlen hR hinfo hback'
    -- the entry the backup made itself is the one
    have hfound : tm.backups (j - 1) = .ok (calcTabletId c i j k) := by
      have hlink := (h i (by rw [hlen]; exact hs.server)).linked hR j k hs hj
      rw [hmaster hj] at htm
      rw [storageAt_of_getTablet htm] at hlink
      exact hlink
    have honly' : ∀ r, tm.backups r = .ok (calcTabletId c i j k) → r = j - 1 := by
      intro r hr
      rw [honly r hr, ← honly (j - 1) hfound]
    obtain ⟨t, hrun, hsame, rfl, hconn⟩ := settingupQPConnect_backup (newTablet_fresh hs) hinfo
      hback' htm hmb hjr hfound honly'
    refine ⟨t, hrun, hinfo, hsame, fun hj0 => absurd hj0 hj.ne', ?_⟩
    intro r hr tm' htm'
    rw [hmaster hj] at htm
    obtain rfl := getTablet_inj htm htm'
    obtain ⟨r, hrlt⟩ := r
    obtain rfl : r = j - 1 := by
      simp only at hr
      omega
    exact hconn

/-- **A server** connects all its tablets. -/
theorem joinResponse_run (hR : c.kNumReplicas < c.kNumServers) (h : AllJoined (joinsOf hosts) im)
    (i : Fin c.kNumServers) :
    ∃ s, (Server.new (hosts i).2).joinResponse i im = .ok s ∧
      ∀ j k (hs : Spot c i j k), ∃ t,
        read Fault.outOfBounds s.tablets (j * c.kNumTabletsPerServer + k) = .ok t ∧
        Wired im hosts hs t := by
  have hlen := length_joinsOf hosts
  obtain ⟨srv, hsrv, _⟩ := (h i (by rw [hlen]; exact i.isLt)).server
  -- slot by slot, the source finds the id of the tablet in the server's entry
  have hslot : ∀ slot : Fin c.kNumTabletAndBackupsPerServer, ∃ t,
      Server.connectSlot im srv slot (Server.new (hosts i).2).tablets[slot] = .ok t ∧
      ∀ j k (hs : Spot c i j k), slot.val = j * c.kNumTabletsPerServer + k →
        Wired im hosts hs t := by
    rintro ⟨slot, hlt⟩
    obtain ⟨srv', hsrv', _, hread⟩ := h.slot hlen i.isLt hlt
    rw [hsrv] at hsrv'
    cases hsrv'
    obtain ⟨j, k, hj, hk, rfl⟩ := exists_copy hlt
    have hs : Spot c i j k := ⟨i.isLt, hj, hk⟩
    obtain ⟨t, hrun, hwired⟩ := settingupQPConnect_run hR h hs
    refine ⟨t, ?_, ?_⟩
    · unfold Server.connectSlot
      rw [hread, bind_ok, ← calcTabletId_eq i.isLt hj hk]
      exact hrun
    · intro j' k' hs' heq
      obtain ⟨rfl, rfl⟩ := row_inj hk hs'.tablet heq
      exact hwired
  choose t hrun hwired using hslot
  have hall : updateAll .outOfBounds (Server.connectSlot im srv) (Server.new (hosts i).2).tablets =
      .ok (Vector.ofFn t) := by
    apply updateAll_eq_ok.mpr
    intro slot hlt
    rw [Vector.getElem_ofFn]
    exact hrun ⟨slot, hlt⟩
  have hrun' : (Server.new (hosts i).2).joinResponse i im = .ok
      { Server.new (hosts i).2 with
        id := i, indexManager := im, active := true, tablets := Vector.ofFn t } := by
    unfold Server.joinResponse
    rw [hsrv, bind_ok, hall]
    rfl
  refine ⟨_, hrun', fun j k hs => ⟨t ⟨_, slot_lt hs.copy hs.tablet⟩, ?_, hwired _ j k hs rfl⟩⟩
  show read _ (Vector.ofFn t) _ = _
  rw [read_of_lt (slot_lt hs.copy hs.tablet), Vector.getElem_ofFn]

/-- Tablets name the same local queue pairs before and after they are connected. -/
theorem Wired.qpis (h : AllJoined (joinsOf hosts) im) {hs : Spot c i j k} {t : Tablet c}
    (hw : Wired im hosts hs t) (r : Fin c.kNumReplicas) : t.info.qpis.get r = t.localInfo r := by
  rw [h.qpis hs hw.info, hw.same.localInfo]

/-- **Matching pairs.** All servers join without a failed assertion, and every queue pair
    of a master tablet and the first queue pair of the backup it is for are connected to each
    other; `Sync` writes for this backup to the memory region of that tablet. -/
theorem queuePairs_connected (hR : c.kNumReplicas < c.kNumServers)
    (hosts : Fin c.kNumServers → String × Host c) (im₀ : IndexManager c) :
    ∃ im, addServers 0 (joinsOf hosts) im₀ = .ok im ∧
      ∃ servers : Fin c.kNumServers → Server c,
        (∀ i, (Server.new (hosts i).2).joinResponse i im = .ok (servers i)) ∧
        ∀ i k (r : Fin c.kNumReplicas), k < c.kNumTabletsPerServer →
          ∃ m, read Fault.outOfBounds (servers i).tablets k = .ok m ∧ m.info.isBackup = false ∧
          ∃ backupId, m.info.backups r = .ok backupId ∧
          ∃ i' slot b, read Fault.outOfBounds (servers i').tablets slot = .ok b ∧
            b.info.id = backupId ∧ b.info.isBackup = true ∧
            (m.qps.get r).Connected .rts (b.localInfo c.first) ∧
            (b.qps.get c.first).Connected .rtr (m.localInfo r) ∧
            m.syncTarget im r = .ok (b.rkey, b.addr) := by
  obtain ⟨im, hrun, h⟩ := addServers_run (length_joinsOf hosts).le (joinsOf_wellFormed hosts) im₀
  have hlen := length_joinsOf hosts
  choose servers hjoin hwired using fun i => joinResponse_run hR h i
  refine ⟨im, hrun, servers, hjoin, ?_⟩
  intro i k r hk
  -- the two ends
  have hs : Spot c i 0 k := ⟨i.isLt, Nat.succ_pos _, hk⟩
  obtain ⟨m, hm, hmw⟩ := hwired i 0 k hs
  obtain ⟨i', hs', hmaster, hb⟩ := h.backup hlen hR hs hmw.info r.isLt
  obtain ⟨b, hbread, hbw⟩ := hwired ⟨i', hs'.server⟩ (r + 1) k hs'
  -- their entries in the index
  obtain ⟨tm, htm, _, _, htmb, _⟩ := h.tablet hlen hs
  obtain rfl := getTablet_inj hmw.info htm
  obtain ⟨tb, htb, htbid, _, htbb, _⟩ := h.tablet hlen hs'
  obtain rfl := getTablet_inj hbw.info htb
  have hbback : b.info.isBackup = true := by simp [htbb]
  have hmid : masterId c i' (r + 1) k = calcTabletId c i 0 k := by
    unfold masterId
    rw [hmaster]
  rw [Nat.zero_mul, Nat.zero_add] at hm
  refine ⟨m, hm, htmb, _, hb, ⟨i', hs'.server⟩, _, b, hbread, htbid, hbback, ?_, ?_, ?_⟩
  · rw [← hbw.qpis h]
    exact hmw.master rfl r _ _ hb hbw.info
  · rw [← hmw.qpis h]
    exact hbw.backup r rfl m.info (by rw [hmid]; exact hmw.info)
  · unfold Tablet.syncTarget check
    rw [hb, bind_ok, hbw.info, bind_ok, if_pos hbback, bind_ok, read_of_lt c.replicas_pos, bind_ok]
    show Except.ok ((b.info.qpis.get c.first).rkey, (b.info.qpis.get c.first).vaddr) = _
    rw [hbw.qpis h]
    rfl

/-- A host with the devices numbered by its local id. -/
def hostOf (c : Config) (lid : Nat) : Host c where
  nvmSize := 142217752
  tablets := 4096
  ibAddr := ⟨1, lid, 64⟩
  devices := Vector.ofFn fun slot => ⟨lid, slot, Vector.ofFn fun r => 100 * slot + r⟩
  raw := Vector.replicate _
    ⟨0, 0, false, Vector.replicate _ ⟨0, 0, 0, 0, 0⟩, Vector.replicate _ 0⟩
  indexManager := unset c

theorem queuePairs_connected_shipped :
    ∃ im, addServers 0 (joinsOf fun i => ("10.0.0.1", hostOf shipped i)) (unset shipped) = .ok im ∧
      ∃ servers : Fin shipped.kNumServers → Server shipped,
        (∀ i : Fin _, (Server.new (hostOf shipped i)).joinResponse i im = .ok (servers i)) ∧
        ∀ i, ∃ m i' slot b, read Fault.outOfBounds (servers i).tablets 0 = .ok m ∧
          read Fault.outOfBounds (servers i').tablets slot = .ok b ∧
          (m.qps.get shipped.first).Connected .rts (b.localInfo shipped.first) ∧
          (b.qps.get shipped.first).Connected .rtr (m.localInfo shipped.first) := by
  obtain ⟨im, hrun, servers, hjoin, hpairs⟩ := queuePairs_connected (c := shipped) (by decide)
    (fun i => ("10.0.0.1", hostOf shipped i)) (unset shipped)
  refine ⟨im, hrun, servers, hjoin, ?_⟩
  intro i
  obtain ⟨m, hm, _, _, _, i', slot, b, hb, _, _, hmb, hbm, _⟩ :=
    hpairs i 0 shipped.first (by decide)
  exact ⟨m, i', slot, b, hm, hb, hmb, hbm⟩

end cluster

end Nvds.Cluster
