import Nvds.Cluster.Backups
import Nvds.Framework.Json

/-! # The cluster view as JSON (`message.cc`)

    The coordinator sends the index to servers and clients as JSON. Every
    record has an encoder `to_json` and a decoder `from_json` of its own. The
    union in `TabletInfo` is encoded by the member that `is_backup` tells, so
    that of a backup only `master` comes back; the rest of the union is
    whatever was in the object that is decoded into.

    Integers are encoded with their value and decoded by a conversion to the
    type of the field.
-/

open Json

namespace Nvds.Cluster

/-! ### Encoders and decoders -/

/-- `to_json(Infiniband::Address)`. -/
def Address.toJson (ia : Address) : Value :=
  .object [("ib_port", .int ia.ibPort), ("lid", ofNat ia.lid), ("qpn", ofNat ia.qpn)]

/-- `from_json(Infiniband::Address)`. -/
def Address.fromJson (j : Value) : Decoded Address := do
  let ibPort ← member j "ib_port" >>= toSigned 32
  let lid ← member j "lid" >>= toUnsigned 16
  let qpn ← member j "qpn" >>= toUnsigned 32
  pure ⟨ibPort, lid, qpn⟩

/-- `to_json(Infiniband::QueuePairInfo)`. -/
def QueuePairInfo.toJson (qpi : QueuePairInfo) : Value :=
  let j := setMember .null "lid" (ofNat qpi.lid)
  let j := setMember j "qpn" (ofNat qpi.qpn)
  let j := setMember j "psn" (ofNat qpi.psn)
  let j := setMember j "rkey" (ofNat qpi.rkey)
  setMember j "vaddr" (ofNat qpi.vaddr)

/-- `from_json(Infiniband::QueuePairInfo)`, which sets every field. -/
def QueuePairInfo.fromJson (j : Value) : Decoded QueuePairInfo := do
  let lid ← member j "lid" >>= toUnsigned 16
  let qpn ← member j "qpn" >>= toUnsigned 32
  let psn ← member j "psn" >>= toUnsigned 32
  let rkey ← member j "rkey" >>= toUnsigned 32
  let vaddr ← member j "vaddr" >>= toUnsigned 64
  pure ⟨lid, qpn, psn, rkey, vaddr⟩

variable {c : Config}

/-- `to_json(TabletInfo)`. -/
def TabletInfo.toJson (ti : TabletInfo c) : Value :=
  let j := setMember .null "id" (ofNat ti.id)
  let j := setMember j "server_id" (ofNat ti.serverId)
  let j := setMember j "is_backup" (.bool ti.isBackup)
  let j := setMember j "qpis" (ofArray QueuePairInfo.toJson ti.qpis)
  if ti.isBackup then
    setMember j "master" (ofNat ti.master)
  else
    setMember j "backups" (ofArray ofNat ti.storage)

/-- `from_json(TabletInfo)` into an object with the given union. -/
def TabletInfo.fromJson (storage : Vector Nat c.kNumReplicas) (j : Value) :
    Decoded (TabletInfo c) := do
  let id ← member j "id" >>= toUnsigned 32
  let serverId ← member j "server_id" >>= toUnsigned 32
  let isBackup ← member j "is_backup" >>= toBool
  let qpis ← member j "qpis" >>= toArray QueuePairInfo.fromJson c.kNumReplicas
  if isBackup then
    let master ← member j "master" >>= toUnsigned 32
    pure ⟨id, serverId, isBackup, qpis, storage.set 0 master c.replicas_pos⟩
  else
    let backups ← member j "backups" >>= toArray (toUnsigned 32) c.kNumReplicas
    pure ⟨id, serverId, isBackup, qpis, backups⟩

/-- `to_json(ServerInfo)`. -/
def ServerInfo.toJson (si : ServerInfo c) : Value :=
  .object [("id", ofNat si.id), ("active", .bool si.active), ("addr", .string si.addr),
    ("ib_addr", si.ibAddr.toJson), ("tablets", ofArray ofNat si.tablets)]

/-- `from_json(ServerInfo)`. -/
def ServerInfo.fromJson (j : Value) : Decoded (ServerInfo c) := do
  let id ← member j "id" >>= toUnsigned 32
  let active ← member j "active" >>= toBool
  let addr ← member j "addr" >>= Json.toString
  let ibAddr ← member j "ib_addr" >>= Address.fromJson
  let tablets ← member j "tablets" >>= toArray (toUnsigned 32) c.kNumTabletAndBackupsPerServer
  pure ⟨id, active, addr, ibAddr, tablets⟩

/-- `to_json(IndexManager)`. -/
def IndexManager.toJson (im : IndexManager c) : Value :=
  .object [("key_tablet_map", ofArray ofNat im.keyTabletMap),
    ("tablets", ofArray TabletInfo.toJson im.tablets),
    ("servers", ofArray ServerInfo.toJson im.servers)]

/-- `from_json(IndexManager)`; the new tablets start with the given union. -/
def IndexManager.fromJson (storage : Vector Nat c.kNumReplicas) (j : Value) :
    Decoded (IndexManager c) := do
  let keyTabletMap ← member j "key_tablet_map" >>= toArray (toUnsigned 32) c.kNumTablets
  let tablets ← member j "tablets" >>=
    toArray (TabletInfo.fromJson storage) c.kNumTabletAndBackups
  let servers ← member j "servers" >>= toArray ServerInfo.fromJson c.kNumServers
  pure ⟨keyTabletMap, tablets, servers⟩

/-! ### Values of the types of the source -/

/-- The fields are values of their types, `int32_t`, `uint16_t` and `uint32_t`. -/
def Address.Typed (ia : Address) : Prop :=
  (-2 ^ 31 ≤ ia.ibPort ∧ ia.ibPort < 2 ^ 31) ∧ ia.lid < 2 ^ 16 ∧ ia.qpn < 2 ^ 32

/-- The fields are values of their types, `uint16_t`, `uint32_t` and `uint64_t`. -/
def QueuePairInfo.Typed (qpi : QueuePairInfo) : Prop :=
  qpi.lid < 2 ^ 16 ∧ qpi.qpn < 2 ^ 32 ∧ qpi.psn < 2 ^ 32 ∧ qpi.rkey < 2 ^ 32 ∧ qpi.vaddr < 2 ^ 64

/-- The fields are values of their types; ids are of type `uint32_t`. -/
def TabletInfo.Typed (ti : TabletInfo c) : Prop :=
  ti.id < 2 ^ 32 ∧ ti.serverId < 2 ^ 32 ∧ (∀ r : Fin c.kNumReplicas, (ti.qpis.get r).Typed) ∧
    ∀ r : Fin c.kNumReplicas, ti.storage.get r < 2 ^ 32

def ServerInfo.Typed (si : ServerInfo c) : Prop :=
  si.id < 2 ^ 32 ∧ si.ibAddr.Typed ∧
    ∀ k : Fin c.kNumTabletAndBackupsPerServer, si.tablets.get k < 2 ^ 32

def IndexManager.Typed (im : IndexManager c) : Prop :=
  (∀ i : Fin c.kNumTablets, im.keyTabletMap.get i < 2 ^ 32) ∧
    (∀ i : Fin c.kNumTabletAndBackups, (im.tablets.get i).Typed) ∧
    ∀ i : Fin c.kNumServers, (im.servers.get i).Typed

instance (ia : Address) : Decidable ia.Typed := inferInstanceAs (Decidable (_ ∧ _))

instance (qpi : QueuePairInfo) : Decidable qpi.Typed := inferInstanceAs (Decidable (_ ∧ _))

instance (ti : TabletInfo c) : Decidable ti.Typed := inferInstanceAs (Decidable (_ ∧ _))

instance (si : ServerInfo c) : Decidable si.Typed := inferInstanceAs (Decidable (_ ∧ _))

instance (im : IndexManager c) : Decidable im.Typed := inferInstanceAs (Decidable (_ ∧ _))

/-! ### Round trips -/

/-- The two agree in every meaningful field: of the union, the member that `is_backup` tells. -/
structure TabletInfo.SameAs (ti ti' : TabletInfo c) : Prop where
  id : ti'.id = ti.id
  serverId : ti'.serverId = ti.serverId
  isBackup : ti'.isBackup = ti.isBackup
  qpis : ti'.qpis = ti.qpis
  master : ti.isBackup = true → ti'.master = ti.master
  backups : ti.isBackup = false → ∀ r, ti'.backups r = ti.backups r

/-- The two agree in every meaningful field. -/
structure IndexManager.SameAs (im im' : IndexManager c) : Prop where
  keyTabletMap : im'.keyTabletMap = im.keyTabletMap
  tablets : ∀ i : Fin c.kNumTabletAndBackups, (im.tablets.get i).SameAs (im'.tablets.get i)
  servers : im'.servers = im.servers

theorem Address.decode_encode {ia : Address} (h : ia.Typed) :
    Address.fromJson ia.toJson = .ok ia := by
  obtain ⟨⟨hlo, hhi⟩, hlid, hqpn⟩ := h
  have hport := toSigned_int (w := 31) hlo hhi
  simp only [Address.fromJson, Address.toJson, member, find, String.reduceEq, if_true, if_false]
  simp only [bind, Except.bind, hport, toUnsigned_ofNat hlid, toUnsigned_ofNat hqpn]
  rfl

theorem QueuePairInfo.decode_encode {qpi : QueuePairInfo} (h : qpi.Typed) :
    QueuePairInfo.fromJson qpi.toJson = .ok qpi := by
  obtain ⟨hlid, hqpn, hpsn, hrkey, hvaddr⟩ := h
  simp only [QueuePairInfo.fromJson, QueuePairInfo.toJson, setMember, member, find_insert, find,
    String.reduceEq, if_true, if_false]
  simp only [bind, Except.bind, toUnsigned_ofNat hlid, toUnsigned_ofNat hqpn,
    toUnsigned_ofNat hpsn, toUnsigned_ofNat hrkey, toUnsigned_ofNat hvaddr]
  rfl

/-- An array of ids comes back as it was. -/
theorem toArray_ids {n : Nat} {ids : Vector Nat n} (h : ∀ i : Fin n, ids.get i < 2 ^ 32) :
    toArray (toUnsigned 32) n (ofArray ofNat ids) = .ok ids :=
  toArray_ofArray_eq fun i => toUnsigned_ofNat (h i)

/-- **A tablet** comes back with its meaningful fields, whatever it is decoded into. -/
theorem TabletInfo.decode_encode (storage : Vector Nat c.kNumReplicas) {ti : TabletInfo c}
    (h : ti.Typed) : ∃ ti', TabletInfo.fromJson storage ti.toJson = .ok ti' ∧ ti.SameAs ti' := by
  obtain ⟨hid, hserver, hqpis, hstorage⟩ := h
  have hq := toArray_ofArray_eq fun r => QueuePairInfo.decode_encode (hqpis r)
  -- only the member of the union that is in use is written
  cases hback : ti.isBackup with
  | true =>
    have hmaster : ti.master < 2 ^ 32 := hstorage ⟨0, c.replicas_pos⟩
    refine ⟨⟨ti.id, ti.serverId, true, ti.qpis, storage.set 0 ti.master c.replicas_pos⟩, ?_,
      rfl, rfl, hback.symm, rfl, ?_, ?_⟩
    · simp only [TabletInfo.fromJson, TabletInfo.toJson, hback, setMember, member, find_insert, find,
        String.reduceEq, if_true, if_false]
      simp only [bind, Except.bind, Json.toBool, toUnsigned_ofNat hid, toUnsigned_ofNat hserver, hq,
        toUnsigned_ofNat hmaster, if_true]
      rfl
    · intro _
      exact Vector.getElem_set_self c.replicas_pos
    · intro hno
      exact Bool.noConfusion (hback.symm.trans hno)
  | false =>
    refine ⟨⟨ti.id, ti.serverId, false, ti.qpis, ti.storage⟩, ?_,
      rfl, rfl, hback.symm, rfl, ?_, fun _ r => rfl⟩
    · simp only [TabletInfo.fromJson, TabletInfo.toJson, hback, setMember, member, find_insert, find,
        String.reduceEq, if_true, if_false, Bool.false_eq_true]
      simp only [bind, Except.bind, Json.toBool, toUnsigned_ofNat hid, toUnsigned_ofNat hserver, hq,
        toArray_ids hstorage, Bool.false_eq_true, if_false]
      rfl
    · intro hyes
      exact Bool.noConfusion (hback.symm.trans hyes)

theorem ServerInfo.decode_encode {si : ServerInfo c} (h : si.Typed) :
    ServerInfo.fromJson si.toJson = .ok si := by
  obtain ⟨hid, haddr, htablets⟩ := h
  simp only [ServerInfo.fromJson, ServerInfo.toJson, member, find, String.reduceEq, if_true,
    if_false]
  simp only [bind, Except.bind, Json.toBool, Json.toString, toUnsigned_ofNat hid,
    Address.decode_encode haddr, toArray_ids htablets]
  rfl

/-- **The index** comes back with its meaningful fields. -/
theorem IndexManager.decode_encode (storage : Vector Nat c.kNumReplicas) {im : IndexManager c}
    (h : im.Typed) : ∃ im', IndexManager.fromJson storage im.toJson = .ok im' ∧ im.SameAs im' := by
  obtain ⟨hmap, htablets, hservers⟩ := h
  obtain ⟨tablets, hrun, hsame⟩ := toArray_ofArray (R := TabletInfo.SameAs)
    fun i => TabletInfo.decode_encode storage (htablets i)
  refine ⟨⟨im.keyTabletMap, tablets, im.servers⟩, ?_, rfl, hsame, rfl⟩
  simp only [IndexManager.fromJson, IndexManager.toJson, member, find, String.reduceEq, if_true,
    if_false]
  simp only [bind, Except.bind, toArray_ids hmap, hrun,
    toArray_ofArray_eq fun i => ServerInfo.decode_encode (hservers i)]
  rfl

/-- **The view survives JSON.** The index that is decoded agrees with the one that was encoded in
    every meaningful field. -/
theorem fromJson_toJson (im : IndexManager c) (him : im.Typed)
    (storage : Vector Nat c.kNumReplicas) :
    ∃ im', IndexManager.fromJson storage im.toJson = .ok im' ∧ im.SameAs im' :=
  IndexManager.decode_encode storage him

/-- The index of two servers, decoded into tablets that hold something else. -/
theorem fromJson_toJson_joined : ∃ im im', addServers 0 twoJoins (unset shipped) = .ok im ∧
    IndexManager.fromJson (Vector.replicate _ 7) im.toJson = .ok im' ∧ im.SameAs im' := by
  have htyped : (addServers 0 twoJoins (unset shipped)).map (fun im => decide im.Typed) =
      .ok true := by decide +kernel
  cases hrun : addServers 0 twoJoins (unset shipped) with
  | error e => rw [hrun] at htyped; cases htyped
  | ok im =>
    rw [hrun] at htyped
    have him : decide im.Typed = true := by
      injection htyped
    obtain ⟨im', hdec, hsame⟩ := fromJson_toJson im (of_decide_eq_true him) (Vector.replicate _ 7)
    exact ⟨im, im', rfl, hdec, hsame⟩

end Nvds.Cluster
