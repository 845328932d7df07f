import Nvds.Cluster.Index

/-! # Where `AddServer` puts the tablets

    The tablet in slot `s` of server `i` gets the id `i * n + s`, where `n` is
    the number of slots of a server; slot `j * T + k` is the `j`-th copy of a
    `k`-th master tablet, `j = 0` being the master itself.
-/

open Arrays

namespace Nvds.Cluster

variable {c : Config}

/-! ### Arithmetic of the configuration -/

namespace Config

theorem slots_lt (c : Config) : c.kNumTabletsPerServer * (1 + c.kNumReplicas) < 4294967296 :=
  lt_of_le_of_lt (Nat.le_mul_of_pos_left _ c.servers_pos) c.tablets_lt

theorem kNumTabletAndBackupsPerServer_eq (c : Config) :
    c.kNumTabletAndBackupsPerServer = (c.kNumReplicas + 1) * c.kNumTabletsPerServer := by
  unfold kNumTabletAndBackupsPerServer
  rw [u32_of_lt c.slots_lt]
  ring

theorem kNumTabletAndBackups_eq (c : Config) :
    c.kNumTabletAndBackups = c.kNumServers * c.kNumTabletAndBackupsPerServer := by
  unfold kNumTabletAndBackups
  rw [Nat.mul_comm, u32_of_lt]
  rw [kNumTabletAndBackupsPerServer_eq, Nat.add_comm, Nat.mul_comm (1 + c.kNumReplicas)]
  exact c.tablets_lt

theorem masters_le (c : Config) : c.kNumTabletsPerServer ≤ c.kNumTabletAndBackupsPerServer := by
  rw [kNumTabletAndBackupsPerServer_eq]
  exact Nat.le_mul_of_pos_left _ (Nat.succ_pos _)

theorem all_lt (c : Config) : c.kNumServers * c.kNumTabletAndBackupsPerServer < 4294967296 := by
  rw [← kNumTabletAndBackups_eq]
  exact u32_lt _

theorem kNumTablets_eq (c : Config) : c.kNumTablets = c.kNumServers * c.kNumTabletsPerServer := by
  unfold kNumTablets
  rw [Nat.mul_comm, u32_of_lt]
  exact lt_of_le_of_lt (Nat.mul_le_mul_left _ c.masters_le) c.all_lt

end Config

theorem slot_lt {j k : Nat} (hj : j < c.kNumReplicas + 1) (hk : k < c.kNumTabletsPerServer) :
    j * c.kNumTabletsPerServer + k < c.kNumTabletAndBackupsPerServer := by
  rw [Config.kNumTabletAndBackupsPerServer_eq]
  exact row_lt hj hk

theorem tablet_lt {i s : Nat} (hi : i < c.kNumServers) (hs : s < c.kNumTabletAndBackupsPerServer) :
    i * c.kNumTabletAndBackupsPerServer + s < c.kNumTabletAndBackups := by
  rw [Config.kNumTabletAndBackups_eq]
  exact row_lt hi hs

/-- The id of a tablet is the row-major index of its server and its slot. -/
theorem calcTabletId_eq {i j k : Nat} (hi : i < c.kNumServers) (hj : j < c.kNumReplicas + 1)
    (hk : k < c.kNumTabletsPerServer) :
    calcTabletId c i j k =
      i * c.kNumTabletAndBackupsPerServer + (j * c.kNumTabletsPerServer + k) := by
  unfold calcTabletId
  rw [Nat.add_assoc, u32_of_lt]
  exact lt_trans (row_lt hi (slot_lt hj hk)) c.all_lt

theorem calcTabletId_slot {j k : Nat} (hj : j < c.kNumReplicas + 1)
    (hk : k < c.kNumTabletsPerServer) :
    calcTabletId c 0 j k = j * c.kNumTabletsPerServer + k := by
  rw [calcTabletId_eq c.servers_pos hj hk, Nat.zero_mul, Nat.zero_add]

/-- `CalcTabletId(0, i, k)` with a server index for the replica index. -/
theorem calcTabletId_key {i k : Nat} (hi : i < c.kNumServers) (hk : k < c.kNumTabletsPerServer) :
    calcTabletId c 0 i k = i * c.kNumTabletsPerServer + k := by
  unfold calcTabletId
  rw [Nat.zero_mul, Nat.zero_add, u32_of_lt]
  refine lt_of_lt_of_le (row_lt hi hk) (le_trans ?_ c.all_lt.le)
  exact Nat.mul_le_mul_left _ c.masters_le

/-- The tablet `k` of copy `j` on server `i`. -/
structure Spot (c : Config) (i j k : Nat) : Prop where
  server : i < c.kNumServers
  copy : j < c.kNumReplicas + 1
  tablet : k < c.kNumTabletsPerServer

theorem Spot.id_lt {i j k : Nat} (h : Spot c i j k) :
    calcTabletId c i j k < c.kNumTabletAndBackups := by
  rw [calcTabletId_eq h.server h.copy h.tablet]
  exact tablet_lt h.server (slot_lt h.copy h.tablet)

/-- Different tablets have different ids. -/
theorem Spot.inj {i j k i' j' k' : Nat} (h : Spot c i j k) (h' : Spot c i' j' k')
    (heq : calcTabletId c i j k = calcTabletId c i' j' k') : i = i' ∧ j = j' ∧ k = k' := by
  rw [calcTabletId_eq h.server h.copy h.tablet, calcTabletId_eq h'.server h'.copy h'.tablet] at heq
  obtain ⟨hi, hs⟩ := row_inj (slot_lt h.copy h.tablet) (slot_lt h'.copy h'.tablet) heq
  exact ⟨hi, row_inj h.tablet h'.tablet hs⟩

/-- Every slot of a server is the slot of a copy. -/
theorem exists_copy {s : Nat} (hs : s < c.kNumTabletAndBackupsPerServer) :
    ∃ j k, j < c.kNumReplicas + 1 ∧ k < c.kNumTabletsPerServer ∧
      s = j * c.kNumTabletsPerServer + k := by
  rw [Config.kNumTabletAndBackupsPerServer_eq] at hs
  exact exists_row hs

/-- Every tablet id is the id of a tablet. -/
theorem exists_spot {x : Nat} (hx : x < c.kNumTabletAndBackups) :
    ∃ i j k, Spot c i j k ∧ x = calcTabletId c i j k := by
  rw [Config.kNumTabletAndBackups_eq] at hx
  obtain ⟨i, s, hi, hs, rfl⟩ := exists_row hx
  obtain ⟨j, k, hj, hk, rfl⟩ := exists_copy hs
  exact ⟨i, j, k, ⟨hi, hj, hk⟩, (calcTabletId_eq hi hj hk).symm⟩

theorem masterServer_lt (i j : Nat) : masterServer c i j < c.kNumServers :=
  Nat.mod_lt _ c.servers_pos

theorem Spot.master {i j k : Nat} (h : Spot c i j k) : Spot c (masterServer c i j) 0 k :=
  ⟨masterServer_lt i j, Nat.succ_pos _, h.tablet⟩

theorem Spot.masterId_lt {i j k : Nat} (h : Spot c i j k) :
    masterId c i j k < c.kNumTabletAndBackups :=
  h.master.id_lt

/-- A master is not a backup. -/
theorem Spot.ne_masterId {i j k i' j' k' : Nat} (h : Spot c i j k) (h' : Spot c i' j' k')
    (hj : 0 < j) : calcTabletId c i j k ≠ masterId c i' j' k' := by
  intro heq
  obtain ⟨_, hj0, _⟩ := h.inj h'.master heq
  exact hj.ne' hj0

theorem Spot.id_ne_zero {i j k : Nat} (h : Spot c i j k) (hj : 0 < j) :
    calcTabletId c i j k ≠ 0 := by
  rw [calcTabletId_eq h.server h.copy h.tablet]
  have := Nat.mul_pos hj c.tablets_pos
  omega

/-! ### One round -/

/-- What the round `(j, k)` for the server `i` does to the entry of tablet `x`. -/
def addedTablet (i j k : Nat) (qpis : List QueuePairInfo) (x : Nat) (t : TabletInfo c) :
    TabletInfo c where
  id := if x = calcTabletId c i j k then x else t.id
  serverId := if x = calcTabletId c i j k then i else t.serverId
  isBackup := if x = calcTabletId c i j k then decide (j > 0) else t.isBackup
  qpis :=
    if x = calcTabletId c i j k then
      Vector.ofFn fun r : Fin c.kNumReplicas =>
        qpis.getD ((j * c.kNumTabletsPerServer + k) * c.kNumReplicas + r) t.qpis[r]
    else
      t.qpis
  storage := Vector.ofFn fun r : Fin c.kNumReplicas =>
    if 0 < j ∧ x = masterId c i j k ∧ r = j - 1 then
      calcTabletId c i j k
    else if 0 < j ∧ x = calcTabletId c i j k ∧ r.val = 0 then
      masterId c i j k
    else
      t.storage[r]

/-- What it does to the entry of the server. -/
def addedServer (i j k : Nat) (s : ServerInfo c) : ServerInfo c :=
  { s with
    tablets := Vector.ofFn fun x : Fin c.kNumTabletAndBackupsPerServer =>
      if x = j * c.kNumTabletsPerServer + k then calcTabletId c i j k else s.tablets[x] }

/-- The effect of a round. -/
structure Added (i j k : Nat) (qpis : List QueuePairInfo) (im im' : IndexManager c) : Prop where
  tablet : ∀ x, im'.getTablet x = (im.getTablet x).map (addedTablet i j k qpis x)
  key : ∀ x, read Fault.outOfBounds im'.keyTabletMap x =
    if j = 0 ∧ x = i * c.kNumTabletsPerServer + k then .ok (calcTabletId c i j k)
    else read Fault.outOfBounds im.keyTabletMap x
  server : ∀ x, im'.getServer x =
    if x = i then (im.getServer x).map (addedServer i j k) else im.getServer x

/-- A server sends the information of all its queue pairs. -/
def JoinBody.WellFormed (c : Config) (body : JoinBody) : Prop :=
  body.tabletQpis.length = c.kNumTabletAndBackupsPerServer * c.kNumReplicas

instance (c : Config) (body : JoinBody) : Decidable (body.WellFormed c) :=
  inferInstanceAs (Decidable (_ = _))

theorem bind_ok {α β : Type} (a : α) (f : α → Call β) : (Except.ok a >>= f) = f a := rfl

section rounds

variable {i j k : Nat} {qpis : List QueuePairInfo} {t : TabletInfo c}

theorem fillIn_run (h : Spot c i j k)
    (hq : qpis.length = c.kNumTabletAndBackupsPerServer * c.kNumReplicas) (t : TabletInfo c) :
    t.fillIn i j k qpis = .ok
      { t with
        id := calcTabletId c i j k
        serverId := i
        isBackup := decide (j > 0)
        qpis := Vector.ofFn fun r : Fin c.kNumReplicas =>
          qpis.getD ((j * c.kNumTabletsPerServer + k) * c.kNumReplicas + r) t.qpis[r] } := by
  have hlt : c.kNumTabletAndBackupsPerServer * c.kNumReplicas < 4294967296 := by
    have := c.qpis_lt
    rwa [Nat.mul_comm c.kNumTabletsPerServer, Nat.add_comm,
      ← Config.kNumTabletAndBackupsPerServer_eq] at this
  have hslot := slot_lt h.copy h.tablet
  unfold TabletInfo.fillIn copy
  rw [calcTabletId_slot h.copy h.tablet]
  -- the queue pairs of the tablets follow each other slot by slot
  generalize j * c.kNumTabletsPerServer + k = slot at hslot ⊢
  have hlast : (slot + 1) * c.kNumReplicas ≤ qpis.length := by
    rw [hq]
    exact Nat.mul_le_mul_right _ hslot
  have hsucc : (slot + 1) * c.kNumReplicas = slot * c.kNumReplicas + c.kNumReplicas := by ring
  rw [hsucc] at hlast
  dsimp only
  rw [hsucc, u32_of_lt (by omega), u32_of_lt (by omega), if_pos (by omega)]
  simp only [Nat.add_sub_cancel_left, Fin.is_lt, if_true]
  rfl

theorem setStorage_run {r : Nat} (hr : r < c.kNumReplicas) (x : Nat) (t : TabletInfo c) :
    t.setStorage r x = .ok { t with storage := t.storage.set r x } := by
  unfold TabletInfo.setStorage write update
  rw [dif_pos hr]
  rfl

theorem setTablet_run {s : Nat} (hs : s < c.kNumTabletAndBackupsPerServer) (x : Nat)
    (srv : ServerInfo c) :
    srv.setTablet s x = .ok { srv with tablets := srv.tablets.set s x } := by
  unfold ServerInfo.setTablet write update
  rw [dif_pos hs]
  rfl

/-- The words of the unions a round leaves alone. -/
theorem getElem_storage {x r : Nat} (hr : r < c.kNumReplicas) (t : TabletInfo c)
    (hmaster : ¬ (0 < j ∧ x = masterId c i j k ∧ r = j - 1))
    (hown : ¬ (0 < j ∧ x = calcTabletId c i j k ∧ r = 0)) :
    (addedTablet i j k qpis x t).storage[r] = t.storage[r] := by
  unfold addedTablet
  rw [Vector.getElem_ofFn, if_neg hmaster, if_neg hown]
  rfl

theorem storage_other {x : Nat} (t : TabletInfo c)
    (hx : j = 0 ∨ x ≠ masterId c i j k ∧ x ≠ calcTabletId c i j k) :
    (addedTablet i j k qpis x t).storage = t.storage := by
  apply Vector.ext
  intro r hr
  apply getElem_storage hr t
  · rintro ⟨hj, hm, _⟩
    exact hx.elim hj.ne' fun hx => hx.1 hm
  · rintro ⟨hj, ho, _⟩
    exact hx.elim hj.ne' fun hx => hx.2 ho

theorem storage_master (h : Spot c i j k) (hj : 0 < j) (hjr : j - 1 < c.kNumReplicas)
    (t : TabletInfo c) :
    (addedTablet i j k qpis (masterId c i j k) t).storage =
      t.storage.set (j - 1) (calcTabletId c i j k) := by
  have hne := (h.ne_masterId h hj).symm
  apply Vector.ext
  intro r hr
  rw [Vector.getElem_set]
  by_cases hrj : j - 1 = r
  · rw [if_pos hrj]
    unfold addedTablet
    rw [Vector.getElem_ofFn, if_pos ⟨hj, rfl, hrj.symm⟩]
  · rw [if_neg hrj]
    exact getElem_storage hr t (fun hc => hrj hc.2.2.symm) fun hc => hne hc.2.1

theorem storage_own (h : Spot c i j k) (hj : 0 < j) (t : TabletInfo c) :
    (addedTablet i j k qpis (calcTabletId c i j k) t).storage =
      t.storage.set 0 (masterId c i j k) c.replicas_pos := by
  have hne := h.ne_masterId h hj
  apply Vector.ext
  intro r hr
  rw [Vector.getElem_set]
  by_cases hr0 : 0 = r
  · rw [if_pos hr0]
    unfold addedTablet
    rw [Vector.getElem_ofFn, if_neg fun hc => hne hc.2.1, if_pos ⟨hj, rfl, hr0.symm⟩]
  · rw [if_neg hr0]
    exact getElem_storage hr t (fun hc => hne hc.2.1) fun hc => hr0 hc.2.2.symm

theorem addMaster_run (h : Spot c i j k) (x : Nat) (im : IndexManager c) :
    ∃ im', im.addMaster i k x = .ok im' ∧ im'.tablets = im.tablets ∧ im'.servers = im.servers ∧
      ∀ y, read Fault.outOfBounds im'.keyTabletMap y =
        if y = i * c.kNumTabletsPerServer + k then .ok x else read Fault.outOfBounds im.keyTabletMap y := by
  have hidx : i * c.kNumTabletsPerServer + k < c.kNumTablets := by
    rw [Config.kNumTablets_eq]
    exact row_lt h.server h.tablet
  obtain ⟨v, hv, hread⟩ := write_of_lt hidx Fault.outOfBounds im.keyTabletMap x
  refine ⟨{ im with keyTabletMap := v }, ?_, rfl, rfl, hread⟩
  unfold IndexManager.addMaster
  rw [calcTabletId_key h.server h.tablet]
  dsimp only
  rw [hv]
  rfl

theorem addBackup_run (h : Spot c i j k) (hj : 0 < j) (im : IndexManager c) :
    ∃ im', im.addBackup i j k (calcTabletId c i j k) = .ok im' ∧
      im'.keyTabletMap = im.keyTabletMap ∧ im'.servers = im.servers ∧
      ∀ x, im'.getTablet x = (im.getTablet x).map fun t =>
        { t with storage := (addedTablet i j k qpis x t).storage } := by
  have hne := h.ne_masterId h hj
  have hjr : j - 1 < c.kNumReplicas := by
    have := h.copy
    omega
  obtain ⟨t, ht⟩ := exists_read Fault.outOfBounds im.tablets h.id_lt
  obtain ⟨tm, htm⟩ := exists_read Fault.outOfBounds im.tablets h.masterId_lt
  -- first the entry of the master is written, then that of the backup
  obtain ⟨v₁, hv₁, hr₁⟩ := update_of_read htm (setStorage_run hjr (calcTabletId c i j k) tm)
  have ht₁ := hr₁ (calcTabletId c i j k)
  rw [if_neg hne, ht] at ht₁
  obtain ⟨v₂, hv₂, hr₂⟩ := update_of_read ht₁ (setStorage_run c.replicas_pos (masterId c i j k) t)
  refine ⟨{ im with tablets := v₂ }, ?_, rfl, rfl, ?_⟩
  · unfold IndexManager.addBackup check
    rw [if_pos (h.id_ne_zero hj), bind_ok, hv₁, bind_ok, hv₂]
    rfl
  · intro x
    unfold IndexManager.getTablet
    rw [hr₂ x, hr₁ x]
    by_cases hx : x = calcTabletId c i j k
    · subst hx
      rw [if_pos rfl, ht, Except.map, storage_own h hj]
    · rw [if_neg hx]
      by_cases hm : x = masterId c i j k
      · subst hm
        rw [if_pos rfl, htm, Except.map, storage_master h hj hjr]
      · rw [if_neg hm]
        simp only [storage_other _ (Or.inr ⟨hm, hx⟩)]
        cases read Fault.outOfBounds im.tablets x with
        | error e => rfl
        | ok t => rfl

/-- The entries of the tablets after a round: `fillIn` on its own tablet, and the writes to
    the unions. -/
theorem map_addedTablet {v v' : Vector (TabletInfo c) c.kNumTabletAndBackups}
    (hfill : ∀ x, read Fault.outOfBounds v' x =
      if x = calcTabletId c i j k then .ok
        { t with
          id := calcTabletId c i j k
          serverId := i
          isBackup := decide (j > 0)
          qpis := Vector.ofFn fun r : Fin c.kNumReplicas =>
            qpis.getD ((j * c.kNumTabletsPerServer + k) * c.kNumReplicas + r) t.qpis[r] }
      else read Fault.outOfBounds v x)
    (ht : read Fault.outOfBounds v (calcTabletId c i j k) = .ok t) (x : Nat) :
    (read Fault.outOfBounds v' x).map
        (fun t' => { t' with storage := (addedTablet i j k qpis x t').storage }) =
      (read Fault.outOfBounds v x).map (addedTablet i j k qpis x) := by
  rw [hfill x]
  by_cases hx : x = calcTabletId c i j k
  · subst hx
    rw [if_pos rfl, ht]
    simp only [Except.map, addedTablet, if_true]
  · rw [if_neg hx]
    cases read Fault.outOfBounds v x with
    | error e => rfl
    | ok t' => simp only [Except.map, addedTablet, if_neg hx]

/-- **One round** succeeds, with the effect `Added`. -/
theorem addTablet_run (h : Spot c i j k)
    (hq : qpis.length = c.kNumTabletAndBackupsPerServer * c.kNumReplicas) (im : IndexManager c) :
    ∃ im', addTablet i qpis im (j, k) = .ok im' ∧ Added i j k qpis im im' := by
  obtain ⟨t, ht⟩ := exists_read Fault.outOfBounds im.tablets h.id_lt
  obtain ⟨s, hs⟩ := exists_read Fault.outOfBounds im.servers h.server
  obtain ⟨v, hv, hrv⟩ := update_of_read ht (fillIn_run h hq t)
  obtain ⟨w, hw, hrw⟩ := update_of_read hs (setTablet_run (slot_lt h.copy h.tablet)
    (calcTabletId c i j k) s)
  have hown := hrv (calcTabletId c i j k)
  rw [if_pos rfl] at hown
  -- the entry of the server, the same on both branches
  have hserver : ∀ x, read Fault.outOfBounds w x =
      if x = i then (read Fault.outOfBounds im.servers x).map (addedServer i j k)
      else read Fault.outOfBounds im.servers x := by
    intro x
    rw [hrw x]
    by_cases hx : x = i
    · subst hx
      rw [if_pos rfl, if_pos rfl, hs, Except.map, addedServer]
      congr 2
      apply Vector.ext
      intro y hy
      rw [Vector.getElem_set, Vector.getElem_ofFn]
      simp only [eq_comm]
      rfl
    · rw [if_neg hx, if_neg hx]
  unfold addTablet
  dsimp only
  rw [hv, bind_ok, hown, bind_ok, calcTabletId_slot h.copy h.tablet]
  -- copy 0 is the master, the others are backups
  rcases Nat.eq_zero_or_pos j with hj | hj
  · obtain ⟨im', hrun, htab, hsrv, hkey⟩ :=
      addMaster_run h (calcTabletId c i j k) { im with tablets := v }
    rw [if_pos (by simp [hj]), hrun, bind_ok, hsrv, hw]
    refine ⟨_, rfl, ?_, ?_, hserver⟩
    · intro x
      show read Fault.outOfBounds im'.tablets x = _
      rw [htab, IndexManager.getTablet, ← map_addedTablet hrv ht]
      simp only [storage_other _ (Or.inl hj)]
      cases read Fault.outOfBounds v x with
      | error e => rfl
      | ok t => rfl
    · intro x
      show read Fault.outOfBounds im'.keyTabletMap x = _
      rw [hkey x]
      simp only [hj, true_and]
  · obtain ⟨im', hrun, hkey, hsrv, htab⟩ := addBackup_run h hj { im with tablets := v }
    rw [if_neg (by simp [hj]), hrun, bind_ok, hsrv, hw]
    refine ⟨_, rfl, ?_, ?_, hserver⟩
    · intro x
      show im'.getTablet x = _
      rw [htab x]
      exact map_addedTablet hrv ht x
    · intro x
      show read Fault.outOfBounds im'.keyTabletMap x = _
      rw [hkey, if_neg fun hc => hj.ne' hc.1]

theorem added_of_run (h : Spot c i j k)
    (hq : qpis.length = c.kNumTabletAndBackupsPerServer * c.kNumReplicas) {im im' : IndexManager c}
    (hrun : addTablet i qpis im (j, k) = .ok im') : Added i j k qpis im im' := by
  obtain ⟨im₁, hrun₁, hadd⟩ := addTablet_run h hq im
  rw [hrun] at hrun₁
  cases hrun₁
  exact hadd

end rounds

/-! ### What a round establishes -/

/-- Word `r` of the union of tablet `x`. -/
def IndexManager.storageAt (im : IndexManager c) (x r : Nat) : Call Nat := do
  let t ← im.getTablet x
  t.backups r

/-- The tablet `(i, j, k)` is entered everywhere but at its master. -/
structure Placed (qpis : List QueuePairInfo) (i j k : Nat) (im : IndexManager c) : Prop where
  tablet : ∃ t, im.getTablet (calcTabletId c i j k) = .ok t ∧ t.id = calcTabletId c i j k ∧
    t.serverId = i ∧ t.isBackup = decide (j > 0) ∧ ∀ r (hr : r < c.kNumReplicas),
      qpis[(j * c.kNumTabletsPerServer + k) * c.kNumReplicas + r]? = some t.qpis[r]
  master : 0 < j → im.storageAt (calcTabletId c i j k) 0 = .ok (masterId c i j k)
  key : j = 0 → read Fault.outOfBounds im.keyTabletMap (i * c.kNumTabletsPerServer + k) =
    .ok (calcTabletId c i j k)
  server : ∃ s, im.getServer i = .ok s ∧
    read Fault.outOfBounds s.tablets (j * c.kNumTabletsPerServer + k) =
      .ok (calcTabletId c i j k)

/-- The backup `(i, j, k)` is entered at its master. -/
def Linked (i j k : Nat) (im : IndexManager c) : Prop :=
  0 < j → im.storageAt (masterId c i j k) (j - 1) = .ok (calcTabletId c i j k)

section facts

variable {i j k i' j' k' : Nat} {qpis qpis' : List QueuePairInfo} {im im' : IndexManager c}

/-- The words of the unions a round leaves alone. -/
theorem Added.storageAt (h : Added i j k qpis im im') {x r : Nat}
    (hmaster : ¬ (0 < j ∧ x = masterId c i j k ∧ r = j - 1))
    (hown : ¬ (0 < j ∧ x = calcTabletId c i j k ∧ r = 0)) :
    im'.storageAt x r = im.storageAt x r := by
  unfold IndexManager.storageAt TabletInfo.backups
  rw [h.tablet x]
  cases im.getTablet x with
  | error e => rfl
  | ok t =>
    show read _ (addedTablet i j k qpis x t).storage r = read _ t.storage r
    by_cases hr : r < c.kNumReplicas
    · rw [read_of_lt hr, read_of_lt hr, getElem_storage hr t hmaster hown]
    · rw [read_of_not_lt hr, read_of_not_lt hr]

theorem Added.linked (hs : Spot c i j k) (h : Added i j k qpis im im') : Linked i j k im' := by
  intro hj
  have hjr : j - 1 < c.kNumReplicas := by
    have := hs.copy
    omega
  obtain ⟨t, ht⟩ := exists_read Fault.outOfBounds im.tablets hs.masterId_lt
  unfold IndexManager.storageAt TabletInfo.backups
  rw [h.tablet, IndexManager.getTablet, ht, Except.map, bind_ok, storage_master hs hj hjr,
    read_of_lt hjr, Vector.getElem_set_self]

theorem Added.placed (hs : Spot c i j k)
    (hq : qpis.length = c.kNumTabletAndBackupsPerServer * c.kNumReplicas)
    (h : Added i j k qpis im im') : Placed qpis i j k im' := by
  obtain ⟨t, ht⟩ := exists_read Fault.outOfBounds im.tablets hs.id_lt
  obtain ⟨s, hsrv⟩ := exists_read Fault.outOfBounds im.servers hs.server
  have hslot := slot_lt hs.copy hs.tablet
  have htab := h.tablet (calcTabletId c i j k)
  rw [IndexManager.getTablet, IndexManager.getTablet, ht, Except.map] at htab
  have hget := h.server i
  rw [if_pos rfl, IndexManager.getServer, IndexManager.getServer, hsrv, Except.map] at hget
  constructor
  · refine ⟨_, htab, if_pos rfl, if_pos rfl, if_pos rfl, ?_⟩
    intro r hr
    -- the queue pairs of the slot
    have hlt : (j * c.kNumTabletsPerServer + k) * c.kNumReplicas + r < qpis.length := by
      rw [hq]
      exact row_lt hslot hr
    unfold addedTablet
    simp only [if_true, Vector.getElem_ofFn, List.getD_eq_getElem?_getD,
      List.getElem?_eq_getElem hlt, Option.getD_some]
  · intro hj
    unfold IndexManager.storageAt TabletInfo.backups
    rw [IndexManager.getTablet, htab, bind_ok, storage_own hs hj, read_of_lt c.replicas_pos,
      Vector.getElem_set_self]
  · intro hj
    rw [h.key, if_pos ⟨hj, rfl⟩]
  · refine ⟨_, hget, ?_⟩
    unfold addedServer
    rw [read_of_lt hslot, Vector.getElem_ofFn, if_pos rfl]

/-- A round does not disturb other tablets. -/
theorem Added.keeps_placed (hs : Spot c i j k) (hs' : Spot c i' j' k')
    (hne : (i', j', k') ≠ (i, j, k)) (h : Added i j k qpis im im')
    (hp : Placed qpis' i' j' k' im) : Placed qpis' i' j' k' im' := by
  have hid : calcTabletId c i' j' k' ≠ calcTabletId c i j k := by
    intro heq
    obtain ⟨rfl, rfl, rfl⟩ := hs'.inj hs heq
    exact hne rfl
  -- none of the entries that were placed before is written again
  constructor
  · obtain ⟨t, ht, hrest⟩ := hp.tablet
    refine ⟨addedTablet i j k qpis (calcTabletId c i' j' k') t, ?_, ?_⟩
    · rw [h.tablet, ht]
      rfl
    · simp only [addedTablet, if_neg hid]
      exact hrest
  · intro hj
    rw [h.storageAt (fun hc => hs'.ne_masterId hs hj hc.2.1) fun hc => hid hc.2.1]
    exact hp.master hj
  · intro hj
    rw [h.key, if_neg]
    · exact hp.key hj
    · rintro ⟨rfl, heq⟩
      obtain ⟨rfl, rfl⟩ := row_inj hs'.tablet hs.tablet heq
      exact hne (by rw [hj])
  · obtain ⟨s, hget, hread⟩ := hp.server
    by_cases hi : i' = i
    · subst hi
      refine ⟨addedServer i' j k s, ?_, ?_⟩
      · rw [h.server, if_pos rfl, hget]
        rfl
      · have hslot := slot_lt hs'.copy hs'.tablet
        unfold addedServer
        rw [read_of_lt hslot, Vector.getElem_ofFn, if_neg]
        · rw [read_of_lt hslot] at hread
          exact hread
        · intro heq
          obtain ⟨rfl, rfl⟩ := row_inj hs'.tablet hs.tablet heq
          exact hne rfl
    · refine ⟨s, ?_, hread⟩
      rw [h.server, if_neg hi]
      exact hget

end facts

/-! ### The servers of masters and backups -/

section spread

variable {i j k i' j' k' : Nat}

/-- With fewer replicas than servers the subtraction does not wrap around. -/
theorem masterServer_eq (hR : c.kNumReplicas < c.kNumServers) (hs : Spot c i j k) :
    masterServer c i j = if j ≤ i then i - j else c.kNumServers + i - j := by
  have hi := hs.server
  have hj := hs.copy
  have htwo : c.kNumServers * 2 ≤ c.kNumServers * c.kNumTabletAndBackupsPerServer := by
    apply Nat.mul_le_mul_left
    rw [Config.kNumTabletAndBackupsPerServer_eq]
    have := Nat.mul_le_mul (Nat.succ_le_succ c.replicas_pos) c.tablets_pos
    omega
  have hall := c.all_lt
  unfold masterServer
  rw [u32_of_lt (by omega), sub32_of_le (by omega) (by omega)]
  by_cases hji : j ≤ i
  · rw [if_pos hji, show c.kNumServers + i - j = i - j + c.kNumServers by omega,
      Nat.add_mod_right, Nat.mod_eq_of_lt (by omega)]
  · rw [if_neg hji, Nat.mod_eq_of_lt (by omega)]

theorem masterServer_ne (hR : c.kNumReplicas < c.kNumServers) (hs : Spot c i j k) (hj : 0 < j) :
    masterServer c i j ≠ i := by
  have hjr := hs.copy
  have hi := hs.server
  rw [masterServer_eq hR hs]
  split
  · omega
  · omega

/-- For a given copy, different servers back up different servers. -/
theorem masterServer_inj (hR : c.kNumReplicas < c.kNumServers) (hs : Spot c i j k)
    (hs' : Spot c i' j k') (h : masterServer c i j = masterServer c i' j) : i = i' := by
  have hjr := hs.copy
  have hi := hs.server
  have hi' := hs'.server
  rw [masterServer_eq hR hs, masterServer_eq hR hs'] at h
  split at h
  · split at h
    · omega
    · omega
  · split at h
    · omega
    · omega

/-- On one server, different copies have different masters. -/
theorem masterServer_inj_copy (hR : c.kNumReplicas < c.kNumServers) (hs : Spot c i j k)
    (hs' : Spot c i j' k') (h : masterServer c i j = masterServer c i j') : j = j' := by
  have hjr := hs.copy
  have hjr' := hs'.copy
  have hi := hs.server
  rw [masterServer_eq hR hs, masterServer_eq hR hs'] at h
  split at h
  · split at h
    · omega
    · omega
  · split at h
    · omega
    · omega

/-- Every master has a backup for every copy. -/
theorem exists_backup (hR : c.kNumReplicas < c.kNumServers) (hs : Spot c i 0 k) {r : Nat}
    (hr : r < c.kNumReplicas) : ∃ i', Spot c i' (r + 1) k ∧ masterServer c i' (r + 1) = i := by
  have hi := hs.server
  by_cases hlt : i + (r + 1) < c.kNumServers
  · have hspot : Spot c (i + (r + 1)) (r + 1) k := ⟨hlt, Nat.succ_lt_succ hr, hs.tablet⟩
    refine ⟨_, hspot, ?_⟩
    rw [masterServer_eq hR hspot, if_pos (Nat.le_add_left _ _), Nat.add_sub_cancel]
  · have hspot : Spot c (i + (r + 1) - c.kNumServers) (r + 1) k :=
      ⟨by omega, Nat.succ_lt_succ hr, hs.tablet⟩
    refine ⟨_, hspot, ?_⟩
    rw [masterServer_eq hR hspot, if_neg (by omega)]
    omega

/-- A round does not disturb what other backups entered at their masters. -/
theorem Added.keeps_link (hR : c.kNumReplicas < c.kNumServers) (hs : Spot c i j k)
    (hs' : Spot c i' j' k') (hj' : 0 < j') (hne : (i', j', k') ≠ (i, j, k))
    {qpis : List QueuePairInfo} {im im' : IndexManager c} (h : Added i j k qpis im im') :
    im'.storageAt (masterId c i' j' k') (j' - 1) = im.storageAt (masterId c i' j' k') (j' - 1) := by
  apply h.storageAt
  · rintro ⟨hj, heq, hr⟩
    obtain rfl : j' = j := by omega
    obtain ⟨hm, _, rfl⟩ := hs'.master.inj hs.master heq
    obtain rfl := masterServer_inj hR hs' hs hm
    exact hne rfl
  · rintro ⟨hj, heq, _⟩
    exact hs.ne_masterId hs' hj heq.symm

end spread

end Nvds.Cluster
