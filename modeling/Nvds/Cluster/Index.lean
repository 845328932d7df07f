import Nvds.Common
import Nvds.Framework.Arrays
import Nvds.Framework.Double

/-! # The index of the cluster (`common.h`, `message.h`, `index.h`, `index.cc`)

    The coordinator keeps an `IndexManager`: which tablet a key hash belongs
    to, which server hosts a tablet, which tablets back each other up, and how
    their queue pairs are reached. `AddServer` enters one server; it fills in
    entries of the tablets of other servers too, before or after these join.
-/

open Arrays

namespace Nvds.Cluster

/-! ### Configuration -/

/-- The configurable constants of `common.h`. The number of all tablets and the
    number of queue pairs of one server are values of type `uint32_t`. -/
structure Config where
  kNumReplicas : Nat
  kNumServers : Nat
  kNumTabletsPerServer : Nat
  replicas_pos : 0 < kNumReplicas
  servers_pos : 0 < kNumServers
  tablets_pos : 0 < kNumTabletsPerServer
  tablets_lt : kNumServers * (kNumTabletsPerServer * (1 + kNumReplicas)) < 4294967296
  qpis_lt : kNumTabletsPerServer * (1 + kNumReplicas) * kNumReplicas < 4294967296

namespace Config

variable (c : Config)

def kNumTabletAndBackupsPerServer : Nat := u32 (c.kNumTabletsPerServer * (1 + c.kNumReplicas))

def kNumTablets : Nat := u32 (c.kNumTabletsPerServer * c.kNumServers)

def kNumTabletAndBackups : Nat := u32 (c.kNumTabletAndBackupsPerServer * c.kNumServers)

end Config

/-! ### Records -/

/-- `Infiniband::QueuePairInfo`. -/
structure QueuePairInfo where
  lid : Nat
  qpn : Nat
  psn : Nat
  rkey : Nat
  vaddr : Nat
  deriving DecidableEq, Repr

/-- `Infiniband::Address`. -/
structure Address where
  ibPort : Int
  lid : Nat
  qpn : Nat
  deriving DecidableEq, Repr

variable (c : Config)

/-- `struct TabletInfo`. The union of `master` and `backups` is its storage: one
    word for each backup, the first of which is also `master`. -/
structure TabletInfo where
  id : Nat
  serverId : Nat
  isBackup : Bool
  qpis : Vector QueuePairInfo c.kNumReplicas
  storage : Vector Nat c.kNumReplicas
  deriving DecidableEq

/-- `struct ServerInfo`. -/
structure ServerInfo where
  id : Nat
  active : Bool
  addr : String
  ibAddr : Address
  tablets : Vector Nat c.kNumTabletAndBackupsPerServer
  deriving DecidableEq

/-- `class IndexManager`. -/
structure IndexManager where
  keyTabletMap : Vector Nat c.kNumTablets
  tablets : Vector (TabletInfo c) c.kNumTabletAndBackups
  servers : Vector (ServerInfo c) c.kNumServers
  deriving DecidableEq

/-- The body of a `REQ_JOIN` of a server. -/
structure JoinBody where
  size : Nat
  ibAddr : Address
  tabletQpis : List QueuePairInfo
  deriving DecidableEq, Repr

variable {c}

/-- A call that may fault. -/
abbrev Call (α : Type) := Except Fault α

/-- `assert(p)`. -/
def check (p : Prop) [Decidable p] : Call Unit :=
  if p then .ok () else .error .assertion

/-- `backups[r]`. -/
def TabletInfo.backups (t : TabletInfo c) (r : Nat) : Call Nat := read .outOfBounds t.storage r

/-- `master`, the first word of the union. -/
def TabletInfo.master (t : TabletInfo c) : Nat := t.storage.get ⟨0, c.replicas_pos⟩

/-! ### `AddServer` -/

/-- `CalcTabletId`. -/
def calcTabletId (c : Config) (sIdx rIdx tIdx : Nat) : Nat :=
  u32 (sIdx * c.kNumTabletAndBackupsPerServer + rIdx * c.kNumTabletsPerServer + tIdx)

/-- The server `(kNumServers + i - j) % kNumServers`, in 32 bits. -/
def masterServer (c : Config) (i j : Nat) : Nat :=
  sub32 (u32 (c.kNumServers + i)) j % c.kNumServers

/-- The master of the backup `(i, j, k)`. -/
def masterId (c : Config) (i j k : Nat) : Nat := calcTabletId c (masterServer c i j) 0 k

/-- `copy(xs.begin() + first, xs.begin() + last, dest.begin())`. -/
def copy {α : Type} {n : Nat} (xs : List α) (first last : Nat) (dest : Vector α n) :
    Call (Vector α n) :=
  if first ≤ last ∧ last ≤ xs.length ∧ last - first ≤ n then
    .ok (Vector.ofFn fun r : Fin n =>
      if r < last - first then xs.getD (first + r) dest[r] else dest[r])
  else
    .error .outOfBounds

/-- The fields of the tablet `(i, j, k)`, and its share of the queue pairs. -/
def TabletInfo.fillIn (i j k : Nat) (qpis : List QueuePairInfo) (t : TabletInfo c) :
    Call (TabletInfo c) := do
  let tabletIdx := calcTabletId c 0 j k
  let qs ← copy qpis (u32 (tabletIdx * c.kNumReplicas)) (u32 ((tabletIdx + 1) * c.kNumReplicas))
    t.qpis
  pure { t with id := calcTabletId c i j k, serverId := i, isBackup := decide (j > 0), qpis := qs }

/-- `backups[r] = x`; for `r = 0` also `master = x`. -/
def TabletInfo.setStorage (r x : Nat) (t : TabletInfo c) : Call (TabletInfo c) := do
  let storage ← write .outOfBounds t.storage r x
  pure { t with storage }

/-- `tablets[idx] = x`. -/
def ServerInfo.setTablet (idx x : Nat) (s : ServerInfo c) : Call (ServerInfo c) := do
  let tablets ← write .outOfBounds s.tablets idx x
  pure { s with tablets }

/-- A master tablet is entered into the map of key hashes. -/
def IndexManager.addMaster (i k tabletId : Nat) (im : IndexManager c) : Call (IndexManager c) := do
  let idx := calcTabletId c 0 i k
  let keyTabletMap ← write .outOfBounds im.keyTabletMap idx tabletId
  pure { im with keyTabletMap }

/-- A backup tablet is entered at its master, and its master at the backup. -/
def IndexManager.addBackup (i j k backupId : Nat) (im : IndexManager c) :
    Call (IndexManager c) := do
  check (backupId ≠ 0)
  let tablets ← update .outOfBounds im.tablets (masterId c i j k)
    (TabletInfo.setStorage (j - 1) backupId)
  let tablets ← update .outOfBounds tablets backupId
    (TabletInfo.setStorage 0 (masterId c i j k))
  pure { im with tablets }

/-- The body of the loops of `AddServer` for the server `i`. -/
def addTablet (i : Nat) (qpis : List QueuePairInfo) (im : IndexManager c) (jk : Nat × Nat) :
    Call (IndexManager c) := do
  let (j, k) := jk
  let tabletId := calcTabletId c i j k
  let tabletIdx := calcTabletId c 0 j k
  let tablets ← update .outOfBounds im.tablets tabletId (TabletInfo.fillIn i j k qpis)
  let tablet ← read .outOfBounds tablets tabletId
  let im ← if tablet.isBackup = false then
      IndexManager.addMaster i k tabletId { im with tablets }
    else
      IndexManager.addBackup i j k tabletId { im with tablets }
  let servers ← update .outOfBounds im.servers i (ServerInfo.setTablet tabletIdx tabletId)
  pure { im with servers }

/-- The rounds `(j, k)` of the loops of `AddServer`, in their order. -/
def rounds (c : Config) : List (Nat × Nat) :=
  (List.range (c.kNumReplicas + 1)).product (List.range c.kNumTabletsPerServer)

/-- `AddServer`, for the server id that `AllocServerId` returned. -/
def addServer (id : Nat) (addr : String) (body : JoinBody) (im : IndexManager c) :
    Call (IndexManager c) := do
  let servers ← write .outOfBounds im.servers id
    ⟨id, true, addr, body.ibAddr, Vector.replicate c.kNumTabletAndBackupsPerServer 0⟩
  (rounds c).foldlM (addTablet id body.tabletQpis) { im with servers }

/-- One call of `AddServer` after another; `id` is the counter of `AllocServerId`. -/
def addServers (id : Nat) : List (String × JoinBody) → IndexManager c → Call (IndexManager c)
  | [], im => pure im
  | (addr, body) :: joins, im => do
    let im ← addServer id addr body im
    addServers (u32 (id + 1)) joins im

/-! ### Lookups -/

/-- `GetServer(ServerId)`. -/
def IndexManager.getServer (im : IndexManager c) (id : Nat) : Call (ServerInfo c) :=
  read .outOfBounds im.servers id

/-- `GetTablet(TabletId)`. -/
def IndexManager.getTablet (im : IndexManager c) (id : Nat) : Call (TabletInfo c) :=
  read .outOfBounds im.tablets id

/-- `key_hash / ((1.0 + kMaxKeyHash) / key_tablet_map_.size())`, computed in doubles. -/
def keyIndex (c : Config) (keyHash : Nat) : Nat :=
  let kMaxKeyHash := Double.toDouble 18446744073709551615
  let width := Double.toDouble
    (Double.toDouble (1 + kMaxKeyHash) / Double.toDouble c.kNumTablets)
  Double.toNat (Double.toDouble (Double.toDouble keyHash / width))

/-- `GetTabletId(KeyHash)`. -/
def IndexManager.getTabletId (im : IndexManager c) (keyHash : Nat) : Call Nat :=
  read .outOfBounds im.keyTabletMap (keyIndex c keyHash)

/-- `GetServerId(KeyHash)`. -/
def IndexManager.getServerId (im : IndexManager c) (keyHash : Nat) : Call Nat := do
  let tabletId ← im.getTabletId keyHash
  let tablet ← im.getTablet tabletId
  pure tablet.serverId

/-- `GetServer(KeyHash)`. -/
def IndexManager.getServerOf (im : IndexManager c) (keyHash : Nat) : Call (ServerInfo c) := do
  let id ← im.getServerId keyHash
  let ans ← im.getServer id
  check (ans.id = id)
  pure ans

end Nvds.Cluster
