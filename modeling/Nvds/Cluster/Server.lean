import Nvds.Cluster.Backups

/-! # A server of the cluster (`server.cc`, `tablet.cc`, `infiniband.cc`)

    The side of a server that takes part in joining: the queue pairs of its
    tablets, what it sends to the coordinator, how it connects the queue
    pairs with the index it gets back, and how it dispatches requests to its
    workers. The verbs calls are taken to succeed, and a message to carry the
    values that were put into it.
-/

open Arrays

namespace Nvds.Cluster

variable {c : Config}

/-! ### Queue pairs -/

/-- The types of queue pairs in use. -/
inductive QueuePairType where
  | rc
  | ud
  deriving DecidableEq, Repr

/-- The states of a queue pair after it was created. -/
inductive QueuePairState where
  | init
  | rtr
  | rts
  deriving DecidableEq, Repr

/-- The attributes of the peer that `SetStateRTR` sets. -/
structure Peer where
  dlid : Nat
  destQpNum : Nat
  rqPsn : Nat
  deriving DecidableEq, Repr

/-- `Infiniband::QueuePair`; `num` is `qp->qp_num`. -/
structure QueuePair where
  type : QueuePairType
  num : Nat
  psn : Nat
  state : QueuePairState
  peer : Option Peer
  sqPsn : Option Nat
  deriving DecidableEq, Repr

/-- `kDefaultPsn`. -/
def kDefaultPsn : Nat := 33

/-- The peer that is described by `info`. -/
def QueuePairInfo.peer (info : QueuePairInfo) : Peer := ⟨info.lid, info.qpn, info.psn⟩

namespace QueuePair

/-- The constructor, for the number `num` the device chose. -/
def new (type : QueuePairType) (num : Nat) : QueuePair :=
  ⟨type, num, kDefaultPsn, .init, none, none⟩

/-- `SetStateRTR`. -/
def setStateRTR (peerInfo : QueuePairInfo) (qp : QueuePair) : Call QueuePair := do
  check (qp.type = .rc)
  check (qp.state = .init)
  pure { qp with state := .rtr, peer := some peerInfo.peer }

/-- `SetStateRTS`. -/
def setStateRTS (peerInfo : QueuePairInfo) (qp : QueuePair) : Call QueuePair := do
  let qp ← qp.setStateRTR peerInfo
  pure { qp with state := .rts, sqPsn := some qp.psn }

end QueuePair

/-! ### Tablets -/

/-- What the device hands out to one tablet: the local id of its port, the key of
    the registered memory region and the numbers of the queue pairs. -/
structure Device (c : Config) where
  lid : Nat
  rkey : Nat
  qpns : Vector Nat c.kNumReplicas

/-- The members of `class Tablet` that have to do with the network; `addr` and
    `rkey` are those of the memory region `mr_`. -/
structure Tablet (c : Config) where
  info : TabletInfo c
  lid : Nat
  addr : Nat
  rkey : Nat
  qps : Vector QueuePair c.kNumReplicas

namespace Tablet

/-- The `QueuePairInfo` of the local queue pair `qps_[r]`. -/
def localInfo (t : Tablet c) (r : Fin c.kNumReplicas) : QueuePairInfo :=
  ⟨t.lid, (t.qps.get r).num, kDefaultPsn, t.rkey, t.addr⟩

/-- The constructor. `raw` is what the memory of `info_` holds before. -/
def new (raw : TabletInfo c) (dev : Device c) (ptr : Nat) (isBackup : Bool) : Tablet c where
  info := { raw with
    isBackup
    qpis := Vector.ofFn fun r : Fin c.kNumReplicas =>
      ⟨dev.lid, dev.qpns.get r, kDefaultPsn, dev.rkey, ptr⟩ }
  lid := dev.lid
  addr := ptr
  rkey := dev.rkey
  qps := Vector.ofFn fun r : Fin c.kNumReplicas => QueuePair.new .rc (dev.qpns.get r)

/-- The loop of `SettingupQPConnect` on a backup, over the indices that are left:
    find the backup `id` at its master and connect to the queue pair for it. -/
def connectMaster (id : Nat) (masterInfo : TabletInfo c) : List Nat → Tablet c → Call (Tablet c)
  | [], t => pure t
  | i :: is, t => do
    let backup ← masterInfo.backups i
    if backup = id then
      let qpi ← read .outOfBounds masterInfo.qpis i
      let qps ← update .outOfBounds t.qps 0 (QueuePair.setStateRTR qpi)
      pure { t with qps }
    else
      check (i < c.kNumReplicas - 1)
      connectMaster id masterInfo is t

/-- The body of its loop on a master: connect `qp` to the backup `i`. -/
def connectBackup (im : IndexManager c) (info : TabletInfo c) (i : Nat) (qp : QueuePair) :
    Call QueuePair := do
  let backupId ← info.backups i
  let backupInfo ← im.getTablet backupId
  check (backupInfo.isBackup = true)
  let qpi ← read .outOfBounds backupInfo.qpis 0
  qp.setStateRTS qpi

/-- `SettingupQPConnect`. -/
def settingupQPConnect (id : Nat) (im : IndexManager c) (t : Tablet c) : Call (Tablet c) := do
  let info ← im.getTablet id
  if info.isBackup then
    let masterInfo ← im.getTablet info.master
    check (masterInfo.isBackup = false)
    connectMaster id masterInfo (List.range c.kNumReplicas) { t with info }
  else
    let qps ← updateAll .outOfBounds (connectBackup im info) t.qps
    pure { t with info, qps }

/-- The key and the address that `Sync` writes to for the backup `k`. -/
def syncTarget (im : IndexManager c) (t : Tablet c) (k : Nat) : Call (Nat × Nat) := do
  let backupId ← t.info.backups k
  let backup ← im.getTablet backupId
  check (backup.isBackup = true)
  let qpi ← read .outOfBounds backup.qpis 0
  pure (qpi.rkey, qpi.vaddr)

end Tablet

/-! ### Servers -/

/-- What a server process gets from its environment. -/
structure Host (c : Config) where
  nvmSize : Nat
  /-- The address of `nvm_->tablets`. -/
  tablets : Nat
  ibAddr : Address
  devices : Vector (Device c) c.kNumTabletAndBackupsPerServer
  raw : Vector (TabletInfo c) c.kNumTabletAndBackupsPerServer
  indexManager : IndexManager c

/-- `class Server`. A worker is given by the index of its tablet. -/
structure Server (c : Config) where
  id : Nat
  active : Bool
  nvmSize : Nat
  ibAddr : Address
  indexManager : IndexManager c
  workers : Vector Nat c.kNumTabletsPerServer
  tablets : Vector (Tablet c) c.kNumTabletAndBackupsPerServer

namespace Server

/-- The constructor. -/
def new (host : Host c) : Server c where
  id := 0
  active := false
  nvmSize := host.nvmSize
  ibAddr := host.ibAddr
  indexManager := host.indexManager
  workers := Vector.ofFn fun i : Fin c.kNumTabletsPerServer => i.val
  tablets := Vector.ofFn fun i : Fin c.kNumTabletAndBackupsPerServer =>
    Tablet.new (host.raw.get i) (host.devices.get i) (host.tablets + u32 (i * kNVMTabletSize))
      (decide (i.val ≥ c.kNumTabletsPerServer))

/-- The body of the `REQ_JOIN` that `Join` sends. -/
def joinRequest (s : Server c) : JoinBody where
  size := s.nvmSize
  ibAddr := s.ibAddr
  tabletQpis := s.tablets.toList.flatMap fun t => t.info.qpis.toList

/-- Connect the tablet in slot `i`. -/
def connectSlot (im : IndexManager c) (info : ServerInfo c) (i : Nat) (t : Tablet c) :
    Call (Tablet c) := do
  let tabletId ← read .outOfBounds info.tablets i
  t.settingupQPConnect tabletId im

/-- The rest of `Join`, when the `RES_JOIN` has arrived. -/
def joinResponse (s : Server c) (id : Nat) (im : IndexManager c) : Call (Server c) := do
  let info ← im.getServer id
  let tablets ← updateAll .outOfBounds (connectSlot im info) s.tablets
  pure { s with id, indexManager := im, active := true, tablets }

/-- `Dispatch`: the index of the worker that gets a request, and of its tablet. -/
def dispatch (s : Server c) (keyHash : Nat) : Call (Nat × Nat) := do
  let id ← s.indexManager.getTabletId keyHash
  let worker := id % c.kNumTabletAndBackupsPerServer
  let tablet ← read .outOfBounds s.workers worker
  pure (worker, tablet)

/-! ### The tablets in memory -/

/-- No two tablets of the server overlap. -/
def Apart (s : Server c) : Prop :=
  ∀ slot slot', slot ≠ slot' →
    (s.tablets.get slot).addr + kNVMTabletSize ≤ (s.tablets.get slot').addr ∨
      (s.tablets.get slot').addr + kNVMTabletSize ≤ (s.tablets.get slot).addr

end Server

/-- The tablets of a server fit the 32 bits in which the constructor computes their places. -/
def Config.TabletsFit (c : Config) : Prop :=
  c.kNumTabletAndBackupsPerServer * kNVMTabletSize < 4294967296

theorem tabletsFit_shipped : shipped.TabletsFit := by
  unfold Config.TabletsFit
  decide

namespace Server

variable {host : Host c}

/-- Then the tablets are one behind the other. -/
theorem new_addr (hfit : c.TabletsFit) (slot : Fin c.kNumTabletAndBackupsPerServer) :
    ((new host).tablets.get slot).addr = host.tablets + slot * kNVMTabletSize := by
  have hlt : slot * kNVMTabletSize < 4294967296 :=
    (Nat.mul_le_mul_right _ slot.isLt.le).trans_lt hfit
  simp only [new, get_ofFn, Tablet.new]
  rw [u32, Nat.mod_eq_of_lt hlt]

theorem apart_new (hfit : c.TabletsFit) : (new host).Apart := by
  have hlt : ∀ slot slot' : Fin c.kNumTabletAndBackupsPerServer, slot < slot' →
      ((new host).tablets.get slot).addr + kNVMTabletSize ≤
        ((new host).tablets.get slot').addr := by
    intro slot slot' h
    have hle := Nat.mul_le_mul_right kNVMTabletSize (Nat.succ_le_of_lt h)
    rw [Nat.succ_mul] at hle
    rw [new_addr hfit, new_addr hfit]
    omega
  intro slot slot' hne
  rcases Nat.lt_or_gt_of_ne fun h => hne (Fin.ext h) with h | h
  · exact Or.inl (hlt _ _ h)
  · exact Or.inr (hlt _ _ h)

end Server

end Nvds.Cluster
