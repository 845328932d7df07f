import Nvds.Cluster.Servers

/-! # Masters and backups

    Once all servers have joined, every tablet id is assigned, and masters and
    backups name each other. With fewer replicas than servers the backups of
    a master are spread over different servers, none of them its own.
-/

open Arrays

namespace Nvds.Cluster

variable {c : Config} {joins : List (String × JoinBody)} {im : IndexManager c}

/-! ### Lookups -/

theorem getTablet_inj {x : Nat} {t t' : TabletInfo c} (h : im.getTablet x = .ok t)
    (h' : im.getTablet x = .ok t') : t = t' := by
  rw [h] at h'
  exact Except.ok.inj h'

theorem storageAt_of_getTablet {x : Nat} {t : TabletInfo c} (h : im.getTablet x = .ok t) (r : Nat) :
    im.storageAt x r = t.backups r := by
  unfold IndexManager.storageAt
  rw [h]
  rfl

theorem backups_zero (t : TabletInfo c) : t.backups 0 = .ok t.master :=
  read_of_lt c.replicas_pos

section joined

variable {i j k : Nat}

/-- All that is recorded about a tablet. -/
theorem AllJoined.tablet (h : AllJoined joins im) (hlen : joins.length = c.kNumServers)
    (hs : Spot c i j k) : ∃ t, im.getTablet (calcTabletId c i j k) = .ok t ∧
      t.id = calcTabletId c i j k ∧ t.serverId = i ∧ t.isBackup = decide (j > 0) ∧
      (0 < j → t.master = masterId c i j k) := by
  have hplaced := (h i (by rw [hlen]; exact hs.server)).placed j k hs
  obtain ⟨t, ht, hid, hsrv, hback, _⟩ := hplaced.tablet
  refine ⟨t, ht, hid, hsrv, hback, ?_⟩
  intro hj
  have hm := hplaced.master hj
  rw [storageAt_of_getTablet ht, backups_zero] at hm
  exact Except.ok.inj hm

/-- A slot of a server holds the id of its tablet. -/
theorem AllJoined.slot (h : AllJoined joins im) (hlen : joins.length = c.kNumServers) {s : Nat}
    (hi : i < c.kNumServers) (hs : s < c.kNumTabletAndBackupsPerServer) :
    ∃ srv, im.getServer i = .ok srv ∧ srv.id = i ∧
      read Fault.outOfBounds srv.tablets s = .ok (i * c.kNumTabletAndBackupsPerServer + s) := by
  obtain ⟨j, k, hj, hk, rfl⟩ := exists_copy hs
  have hjoined := h i (by rw [hlen]; exact hi)
  obtain ⟨srv, hget, hid, _⟩ := hjoined.server
  obtain ⟨srv', hget', hread⟩ := (hjoined.placed j k ⟨hi, hj, hk⟩).server
  rw [hget] at hget'
  cases hget'
  refine ⟨srv, hget, hid, ?_⟩
  rw [hread, calcTabletId_eq hi hj hk]

/-- Every id is the id of a tablet on one slot of one server. -/
theorem AllJoined.assigned (h : AllJoined joins im) (hlen : joins.length = c.kNumServers) {x : Nat}
    (hx : x < c.kNumTabletAndBackups) : ∃ t, im.getTablet x = .ok t ∧ t.id = x ∧
      ∃! p : Nat × Nat, ∃ srv, im.getServer p.1 = .ok srv ∧ t.serverId = p.1 ∧
        read Fault.outOfBounds srv.tablets p.2 = .ok x := by
  obtain ⟨i, j, k, hs, rfl⟩ := exists_spot hx
  obtain ⟨t, ht, hid, hsrv, _⟩ := h.tablet hlen hs
  have hslot := slot_lt hs.copy hs.tablet
  refine ⟨t, ht, hid, (i, j * c.kNumTabletsPerServer + k), ?_, ?_⟩
  · obtain ⟨srv, hget, _, hread⟩ := h.slot hlen hs.server hslot
    refine ⟨srv, hget, hsrv, ?_⟩
    rw [hread, calcTabletId_eq hs.server hs.copy hs.tablet]
  · rintro ⟨i', s'⟩ ⟨srv, hget, _, hread⟩
    obtain ⟨srv', hget', _, hread'⟩ := h.slot hlen (lt_of_read hget) (lt_of_read hread)
    rw [hget] at hget'
    cases hget'
    rw [hread, calcTabletId_eq hs.server hs.copy hs.tablet] at hread'
    obtain ⟨hi, hs'⟩ := row_inj hslot (lt_of_read hread) (Except.ok.inj hread')
    rw [hi, hs']

/-- The backup for copy `r + 1` of a master. -/
theorem AllJoined.backup (h : AllJoined joins im) (hlen : joins.length = c.kNumServers)
    (hR : c.kNumReplicas < c.kNumServers) (hs : Spot c i 0 k) {t : TabletInfo c}
    (ht : im.getTablet (calcTabletId c i 0 k) = .ok t) {r : Nat} (hr : r < c.kNumReplicas) :
    ∃ i', Spot c i' (r + 1) k ∧ masterServer c i' (r + 1) = i ∧
      t.backups r = .ok (calcTabletId c i' (r + 1) k) := by
  obtain ⟨i', hs', hm⟩ := exists_backup hR hs hr
  refine ⟨i', hs', hm, ?_⟩
  have hlink := (h i' (by rw [hlen]; exact hs'.server)).linked hR (r + 1) k hs' (Nat.succ_pos r)
  unfold masterId at hlink
  rw [hm, storageAt_of_getTablet ht, Nat.add_sub_cancel] at hlink
  exact hlink

end joined

/-! ### Placement -/

/-- The master tablet `m` with the entry `t` has its backups, on different servers. -/
structure BackedUp (im : IndexManager c) (m : Nat) (t : TabletInfo c) : Prop where
  backup : ∀ r, r < c.kNumReplicas → ∃ b tb, t.backups r = .ok b ∧ im.getTablet b = .ok tb ∧
    tb.isBackup = true ∧ tb.master = m ∧ tb.serverId ≠ t.serverId
  distinct : ∀ r r' b b' tb tb', r ≠ r' → t.backups r = .ok b → t.backups r' = .ok b' →
    im.getTablet b = .ok tb → im.getTablet b' = .ok tb' → b ≠ b' ∧ tb.serverId ≠ tb'.serverId

theorem AllJoined.backedUp (h : AllJoined joins im) (hlen : joins.length = c.kNumServers)
    (hR : c.kNumReplicas < c.kNumServers) {m : Nat} {t : TabletInfo c}
    (ht : im.getTablet m = .ok t) (hmaster : t.isBackup = false) : BackedUp im m t := by
  obtain ⟨i, j, k, hs, rfl⟩ := exists_spot (lt_of_read ht)
  obtain ⟨t', ht', _, hsrv, hback, _⟩ := h.tablet hlen hs
  obtain rfl := getTablet_inj ht ht'
  obtain rfl : j = 0 := by
    rw [hmaster] at hback
    simpa using hback
  constructor
  -- the backup of copy `r` is a tablet of another server that names this master
  · intro r hr
    obtain ⟨i', hs', hm, hb⟩ := h.backup hlen hR hs ht hr
    obtain ⟨tb, htb, _, hbsrv, hbback, hbm⟩ := h.tablet hlen hs'
    refine ⟨_, tb, hb, htb, by simp [hbback], ?_, ?_⟩
    · rw [hbm (Nat.succ_pos r), masterId, hm]
    · rw [hbsrv, hsrv, ← hm]
      exact (masterServer_ne hR hs' (Nat.succ_pos r)).symm
  · intro r r' b b' tb tb' hne hb hb' htb htb'
    obtain ⟨i₁, hs₁, hm₁, hb₁⟩ := h.backup hlen hR hs ht (lt_of_read hb)
    obtain ⟨i₂, hs₂, hm₂, hb₂⟩ := h.backup hlen hR hs ht (lt_of_read hb')
    rw [hb] at hb₁
    rw [hb'] at hb₂
    cases hb₁
    cases hb₂
    obtain ⟨t₁, ht₁, _, hsrv₁, _⟩ := h.tablet hlen hs₁
    obtain ⟨t₂, ht₂, _, hsrv₂, _⟩ := h.tablet hlen hs₂
    obtain rfl := getTablet_inj htb ht₁
    obtain rfl := getTablet_inj htb' ht₂
    -- two copies of one tablet are on different servers
    have hi : i₁ ≠ i₂ := by
      rintro rfl
      exact hne (Nat.succ.inj (masterServer_inj_copy hR hs₁ hs₂ (hm₁.trans hm₂.symm)))
    refine ⟨fun heq => hi (hs₁.inj hs₂ heq).1, ?_⟩
    rw [hsrv₁, hsrv₂]
    exact hi

/-- A backup is entered at its master exactly once. -/
theorem AllJoined.entered (h : AllJoined joins im) (hlen : joins.length = c.kNumServers)
    (hR : c.kNumReplicas < c.kNumServers) {b : Nat} {t : TabletInfo c}
    (ht : im.getTablet b = .ok t) (hbackup : t.isBackup = true) :
    ∃ tm, im.getTablet t.master = .ok tm ∧ tm.isBackup = false ∧
      ∃! r, tm.backups r = .ok b := by
  obtain ⟨i, j, k, hs, rfl⟩ := exists_spot (lt_of_read ht)
  obtain ⟨t', ht', _, hsrv, hback, hm⟩ := h.tablet hlen hs
  obtain rfl := getTablet_inj ht ht'
  have hj : 0 < j := by
    rw [hbackup] at hback
    simpa using hback.symm
  obtain ⟨tm, htm, _, _, hmback, _⟩ := h.tablet hlen hs.master
  refine ⟨tm, ?_, by simpa using hmback, j - 1, ?_, ?_⟩
  · rw [hm hj]
    exact htm
  · have hlink := (h i (by rw [hlen]; exact hs.server)).linked hR j k hs hj
    show tm.backups (j - 1) = _
    rw [← storageAt_of_getTablet htm]
    exact hlink
  · intro r hr
    obtain ⟨i', hs', _, hb⟩ := h.backup hlen hR hs.master htm (lt_of_read hr)
    rw [hr] at hb
    obtain ⟨_, hjr, _⟩ := hs.inj hs' (Except.ok.inj hb)
    omega

/-- **Placement.** After all servers have joined, ids are assigned exactly once, masters and
    backups name each other, and the backups of a master are on different servers. No call
    of `AddServer` overwrites an entry that an earlier call set. -/
theorem backups_consistent (hR : c.kNumReplicas < c.kNumServers) (im₀ : IndexManager c)
    (hlen : joins.length = c.kNumServers) (hwf : ∀ x ∈ joins, x.2.WellFormed c) :
    (∃ im, addServers 0 joins im₀ = .ok im ∧
      (∀ x, x < c.kNumServers * (c.kNumTabletsPerServer * (1 + c.kNumReplicas)) →
        ∃ t, im.getTablet x = .ok t ∧ t.id = x ∧
          ∃! p : Nat × Nat, ∃ srv, im.getServer p.1 = .ok srv ∧ t.serverId = p.1 ∧
            read Fault.outOfBounds srv.tablets p.2 = .ok x) ∧
      (∀ m t, im.getTablet m = .ok t → t.isBackup = false → BackedUp im m t) ∧
      (∀ b t, im.getTablet b = .ok t → t.isBackup = true →
        ∃ tm, im.getTablet t.master = .ok tm ∧ tm.isBackup = false ∧
          ∃! r, tm.backups r = .ok b)) ∧
    ∀ i addr body (im im' : IndexManager c), i < c.kNumServers → body.WellFormed c →
      addServer i addr body im = .ok im' →
      (∀ x r, ¬ SetBy c i x r → im'.storageAt x r = im.storageAt x r) ∧
      ∀ i', i' < i → ∀ x r, SetBy c i' x r →
        ¬ SetBy c i x r ∧ im'.storageAt x r = im.storageAt x r := by
  constructor
  · obtain ⟨im, hrun, h⟩ := addServers_run hlen.le hwf im₀
    refine ⟨im, hrun, ?_, fun m t => h.backedUp hlen hR, fun b t => h.entered hlen hR⟩
    intro x hx
    apply h.assigned hlen
    rw [Config.kNumTabletAndBackups_eq, Config.kNumTabletAndBackupsPerServer_eq,
      Nat.add_comm, Nat.mul_comm (1 + c.kNumReplicas)]
    exact hx
  · intro i addr body im im' hi hbody hrun
    refine ⟨fun x r => addServer_storage hi hbody hrun, ?_⟩
    -- no later join writes what an earlier one has written
    intro i' hlt x r hset
    have hnot : ¬ SetBy c i x r := fun hc => hlt.ne (hset.unique hR hc)
    exact ⟨hnot, addServer_storage hi hbody hrun hnot⟩

/-- The shipped configuration: two servers with one tablet and one backup each. -/
def shipped : Config := ⟨1, 2, 1, by decide, by decide, by decide, by decide, by decide⟩

/-- An index before any server has joined. -/
def unset (c : Config) : IndexManager c where
  keyTabletMap := Vector.replicate _ 0
  tablets := Vector.replicate _
    ⟨0, 0, false, Vector.replicate _ ⟨0, 0, 0, 0, 0⟩, Vector.replicate _ 0⟩
  servers := Vector.replicate _ ⟨0, false, "", ⟨0, 0, 0⟩, Vector.replicate _ 0⟩

/-- The body of a server on port 1 with local id `lid`, with `n` queue pairs. -/
def joinBody (n lid : Nat) : JoinBody :=
  ⟨142217752, ⟨1, lid, 64⟩, (List.range n).map fun q => ⟨lid, q, 33, q, q * 71108876⟩⟩

/-- Two servers join. -/
def twoJoins : List (String × JoinBody) :=
  [("10.0.0.1", joinBody 2 1), ("10.0.0.2", joinBody 2 2)]

theorem twoJoins_wellFormed : ∀ x ∈ twoJoins, x.2.WellFormed shipped := by decide

theorem backups_consistent_shipped :
    ∃ im, addServers 0 twoJoins (unset shipped) = .ok im ∧
      ∀ m t, im.getTablet m = .ok t → t.isBackup = false → BackedUp im m t := by
  obtain ⟨⟨im, hrun, _, hbacked, _⟩, _⟩ :=
    backups_consistent (c := shipped) (by decide) (unset shipped) (by decide) twoJoins_wellFormed
  exact ⟨im, hrun, hbacked⟩

end Nvds.Cluster
