import Nvds.Cluster.Joining
import Nvds.Tablet.Acknowledgement
import Nvds.Tablet.Inline

/-! # Replication in the whole cluster

    All master tablets of all servers replicate at the same time, each over
    queue pairs of its own. An RDMA write that is sent on a queue pair comes
    out at the queue pair this one is connected to, and goes to the memory
    region of the tablet there, if the key and the bounds are right. The
    writes of different queue pairs are executed in any order. All of them
    are posted inline: what is too long for that is refused, and `Sync`
    throws before anything is sent.

    Each master and its backups take no notice of the others: together they
    do what `Sync` does in one go.
-/

open ByteMemory Transition
open Nvds.Tablet (Replicated Mirrored Round rdmaWrite workRequests sync FitsInline Network postAll
  syncOver)

namespace Nvds.Cluster

variable {c : Config}

/-! ### The code -/

/-- A tablet of the cluster: its server and its slot. -/
abbrev Place (c : Config) : Type := Fin c.kNumServers × Fin c.kNumTabletAndBackupsPerServer

/-- A worker of the cluster: its server and its number. -/
abbrev WorkerId (c : Config) : Type := Fin c.kNumServers × Fin c.kNumTabletsPerServer

/-- The tablet of a worker. -/
def WorkerId.place (x : WorkerId c) : Place c :=
  (x.1, ⟨x.2, lt_of_lt_of_le x.2.isLt c.masters_le⟩)

/-- The tablet at a place, as far as the network is concerned. -/
def tabletAt (servers : Fin c.kNumServers → Server c) (y : Place c) : Tablet c :=
  (servers y.1).tablets.get y.2

/-- The images of all tablets, and for each worker the RDMA writes that it has posted and that
    are not executed yet, each with the number of its queue pair. -/
structure Fabric (c : Config) where
  tablets : Place c → Nvm
  pending : WorkerId c → List (Fin c.kNumReplicas × Modification)

/-- What `Sync` posts: for each backup the ranges it sends. If they do not fit inline, the first
    `ibv_post_send` fails. -/
def posted (c : Config) (modifications : List Modification) :
    List (Fin c.kNumReplicas × Modification) :=
  if modifications.length = 0 ∨ ¬ FitsInline modifications then
    []
  else
    (List.finRange c.kNumReplicas).flatMap fun r =>
      (workRequests (mergeModifications modifications)).map fun w => (r, w)

/-- An RDMA write of `len` bytes to `addr` that the tablet `m` sends on its queue pair `r` is
    executed at the tablet `b`, whose queue pairs and region are in a protection domain of
    their own. -/
structure Arrives (m b : Tablet c) (r : Fin c.kNumReplicas) (rkey addr len : Nat) : Prop where
  sender : (m.qps.get r).state = .rts
  receiver : ∃ r' peer peer', (m.qps.get r).peer = some peer ∧ peer.dlid = b.lid ∧
    peer.destQpNum = (b.qps.get r').num ∧ (b.qps.get r').state ≠ .init ∧
    (b.qps.get r').peer = some peer' ∧ peer'.dlid = m.lid ∧ peer'.destQpNum = (m.qps.get r).num
  key : b.rkey = rkey
  lower : b.addr ≤ addr
  upper : addr + len ≤ b.addr + kNVMTabletSize

namespace Fabric

/-- The bytes of the master at `w.src` are copied to offset `off` of the tablet at `y`. -/
def copy (s : Fabric c) (x : WorkerId c) (w : Modification) (y : Place c) (off : Nat) : Nvm :=
  { s.tablets y with
    mem := store (s.tablets y).mem off
      (load (s.tablets x.place).mem (w.src - (s.tablets x.place).base) w.len) }

/-- The steps of the cluster, each in a round of one worker. -/
inductive Step (cond : List Modification → Prop) (servers : Fin c.kNumServers → Server c)
    (s : Fabric c) (x : WorkerId c) : Fabric c → Prop
  /-- The worker executes a request and posts the RDMA writes of `Sync`, if they are accepted.
      The writes of the last round are completed. -/
  | serve {fuel : Nat} {r : Request} {resp : Response} {t : Nvm} :
      s.pending x = [] → Tablet.serve fuel r (s.tablets x.place) = .ok (resp, t) →
      cond t.modifications →
      Step cond servers s x
        ⟨Function.update s.tablets x.place (sync ⟨t, []⟩).master,
          Function.update s.pending x (posted c t.modifications)⟩
  /-- The first write on one of its queue pairs is executed. -/
  | write {before after : List (Fin c.kNumReplicas × Modification)} {r : Fin c.kNumReplicas}
      {w : Modification} {y : Place c} {rkey vaddr : Nat} :
      s.pending x = before ++ (r, w) :: after → (∀ e ∈ before, e.1 ≠ r) →
      (tabletAt servers x.place).syncTarget (servers x.1).indexManager r = .ok (rkey, vaddr) →
      Arrives (tabletAt servers x.place) (tabletAt servers y) r rkey (vaddr + w.des) w.len →
      Step cond servers s x
        ⟨Function.update s.tablets y
            (s.copy x w y (vaddr + w.des - (tabletAt servers y).addr)),
          Function.update s.pending x (before ++ after)⟩

end Fabric

/-! ### Rounds of one master -/

/-- `Sync` over queue pairs that refuse what does not fit inline. -/
def syncInline (t : Replicated) : Replicated :=
  if FitsInline t.master.modifications then sync t else ⟨(sync ⟨t.master, []⟩).master, t.backups⟩

/-- That is `Sync` over a network on which nothing else fails. -/
theorem syncOver_eq_syncInline {net : Network} {t : Replicated} (hne : t.backups ≠ [])
    (hpost : ∀ k, net.postSend k = 0 ↔ FitsInline t.master.modifications)
    (hlands : ∀ k, net.lands k = true ↔ FitsInline t.master.modifications)
    (hpoll : ∀ k, net.wcStatus k = 0) : (syncOver net t).1 = syncInline t := by
  unfold syncInline
  by_cases hfits : FitsInline t.master.modifications
  · rw [if_pos hfits, Tablet.syncOver_of_reliable fun k _ => ⟨(hpost k).mpr hfits, hpoll k⟩]
    exact fun k _ => (hlands k).mpr hfits
  · -- the post for the first backup throws
    have hnil : t.master.modifications.length ≠ 0 := by
      intro hnil
      rw [List.length_eq_zero_iff.mp hnil] at hfits
      exact hfits Tablet.fitsInline_nil
    have hfirst : (postAll net t.master (workRequests (mergeModifications t.master.modifications))
        0 t.backups).1 = t.backups := by
      cases hbs : t.backups with
      | nil => exact absurd hbs hne
      | cons b bs =>
        rw [postAll, if_neg fun h => hfits ((hlands 0).mp h), if_pos fun h => hfits ((hpost 0).mp h)]
    rw [if_neg hfits, syncOver, if_neg hnil, sync, if_neg hnil]
    exact congrArg _ hfirst

/-- One round of a master and its backups by themselves. -/
def InlineRound (cond : List Modification → Prop) (t : Replicated) (r : Request)
    (t' : Replicated) : Prop :=
  ∃ fuel resp s, Tablet.serve fuel r t.master = .ok (resp, s) ∧ cond s.modifications ∧
    t' = syncInline ⟨s, t.backups⟩

/-- Where everything fits, that is a round with posts that succeed. -/
theorem InlineRound.round {cond : List Modification → Prop} {t t' : Replicated} {r : Request}
    (h : InlineRound cond t r t') (hfits : ∀ ms, cond ms → FitsInline ms) : Round cond t r t' := by
  obtain ⟨fuel, resp, s, hserve, hcond, rfl⟩ := h
  refine ⟨fuel, resp, s, hserve, hcond, ?_⟩
  rw [syncInline, if_pos (hfits _ hcond)]

/-! ### Writes on their way -/

/-- The image `b` of the backup `r` after the writes of `ps` that are for it. -/
def drain (master : Nvm) (r : Fin c.kNumReplicas) (ps : List (Fin c.kNumReplicas × Modification))
    (b : Mem) : Mem :=
  ps.foldl (fun b p => if p.1 = r then rdmaWrite master b p.2 else b) b

section drain

variable {master master' : Nvm} {r r' : Fin c.kNumReplicas}
  {ps before after : List (Fin c.kNumReplicas × Modification)} {w : Modification} {b : Mem}

theorem drain_append (ps' : List (Fin c.kNumReplicas × Modification)) :
    drain master r (ps ++ ps') b = drain master r ps' (drain master r ps b) :=
  List.foldl_append

theorem drain_cons (p : Fin c.kNumReplicas × Modification) : drain master r (p :: ps) b =
    drain master r ps (if p.1 = r then rdmaWrite master b p.2 else b) := rfl

theorem drain_nil : drain master r [] b = b := rfl

/-- Writes for other backups do not matter. -/
theorem drain_of_ne (h : ∀ e ∈ ps, e.1 ≠ r) : drain master r ps b = b := by
  induction ps with
  | nil => rfl
  | cons p ps ih =>
    rw [drain_cons, if_neg (h p List.mem_cons_self)]
    exact ih fun e he => h e (List.mem_cons_of_mem _ he)

/-- The first write for a backup may be executed before the others. -/
theorem drain_first (h : ∀ e ∈ before, e.1 ≠ r) : drain master r (before ++ (r, w) :: after) b =
    drain master r (before ++ after) (rdmaWrite master b w) := by
  rw [drain_append, drain_append, drain_of_ne h, drain_of_ne h, drain_cons, if_pos rfl]

theorem drain_other (h : r' ≠ r) : drain master r' (before ++ (r, w) :: after) b =
    drain master r' (before ++ after) b := by
  rw [drain_append, drain_append, drain_cons, if_neg fun heq => h heq.symm]

theorem rdmaWrite_congr (hbase : master'.base = master.base) (hmem : master'.mem = master.mem) :
    rdmaWrite master' b w = rdmaWrite master b w := by
  unfold rdmaWrite
  rw [hbase, hmem]

theorem drain_congr (hbase : master'.base = master.base) (hmem : master'.mem = master.mem) :
    drain master' r ps b = drain master r ps b := by
  induction ps generalizing b with
  | nil => rfl
  | cons p ps ih => rw [drain_cons, drain_cons, rdmaWrite_congr hbase hmem, ih]

/-- All writes for one backup. -/
theorem drain_map (ws : List Modification) :
    drain master r (ws.map fun w => (r, w)) b = ws.foldl (rdmaWrite master) b := by
  induction ws generalizing b with
  | nil => rfl
  | cons w ws ih =>
    rw [List.map_cons, drain_cons, if_pos rfl, ih]
    rfl

theorem drain_flatMap (ws : List Modification) {rs : List (Fin c.kNumReplicas)} (hrs : rs.Nodup) :
    drain master r (rs.flatMap fun r => ws.map fun w => (r, w)) b =
      if r ∈ rs then ws.foldl (rdmaWrite master) b else b := by
  induction rs generalizing b with
  | nil => rfl
  | cons r' rs ih =>
    obtain ⟨hnot, hrs⟩ := List.nodup_cons.mp hrs
    rw [List.flatMap_cons, drain_append, ih hrs]
    by_cases heq : r' = r
    · subst heq
      rw [drain_map, if_neg hnot, if_pos List.mem_cons_self]
    · have hother : drain master r (ws.map fun w => (r', w)) b = b := by
        apply drain_of_ne
        intro e he
        obtain ⟨w, _, rfl⟩ := List.mem_map.mp he
        exact heq
      simp only [hother, List.mem_cons, Ne.symm heq, false_or]

/-- `Sync` does to each backup what the writes do that are posted for it. -/
theorem syncInline_eq (t : Nvm) {n : Nat} (bs : Fin n → Mem) (rs : Fin n → Fin c.kNumReplicas) :
    syncInline ⟨t, List.ofFn bs⟩ = ⟨(sync ⟨t, []⟩).master,
      List.ofFn fun i => drain t (rs i) (posted c t.modifications) (bs i)⟩ := by
  unfold syncInline posted
  by_cases hfits : FitsInline t.modifications
  · simp only [hfits, not_true_eq_false, or_false, if_true]
    unfold sync
    split
    · rfl
    · dsimp only
      congr 1
      rw [List.map_ofFn]
      apply congrArg List.ofFn
      funext i
      rw [drain_flatMap _ (List.nodup_finRange _), if_pos (List.mem_finRange _)]
      rfl
  · -- nothing is posted
    simp only [hfits, not_false_eq_true, or_true, if_true, if_false, drain_nil]

/-- `Sync` changes nothing in the tablet. -/
theorem sync_master_eq (t : Nvm) :
    (sync ⟨t, []⟩).master.base = t.base ∧ (sync ⟨t, []⟩).master.mem = t.mem := by
  unfold sync
  split
  · exact ⟨rfl, rfl⟩
  · exact ⟨rfl, rfl⟩

end drain

/-! ### Each master with its backups -/

section place

variable {servers : Fin c.kNumServers → Server c}
  {place : WorkerId c → Fin c.kNumReplicas → Place c} {x x' : WorkerId c} {r r' : Fin c.kNumReplicas}
  {y : Place c}

/-- Every queue pair of a master and the backup that it is for are paired, and queue pairs are
    told apart by the ids of their ports and their numbers. -/
structure Wiring (servers : Fin c.kNumServers → Server c)
    (place : WorkerId c → Fin c.kNumReplicas → Place c) : Prop where
  /-- No write to one tablet of a server gets to another one. -/
  apart : ∀ i, (servers i).Apart
  paired : ∀ x r, Paired (servers x.1).indexManager (tabletAt servers x.place)
    (tabletAt servers (place x r)) r
  unique : ∀ y y' r r', (tabletAt servers y).lid = (tabletAt servers y').lid →
    ((tabletAt servers y).qps.get r).num = ((tabletAt servers y').qps.get r').num →
    y = y' ∧ r = r'

theorem WorkerId.place_inj (h : x.place = x'.place) : x = x' := by
  obtain ⟨hi, hk⟩ := Prod.mk.inj h
  exact Prod.ext hi (Fin.ext (Fin.mk.inj hk))

namespace Wiring

/-- A write arrives at the backup it is for. -/
theorem arrives (h : Wiring servers place) {rkey addr len : Nat}
    (harr : Arrives (tabletAt servers x.place) (tabletAt servers y) r rkey addr len) :
    y = place x r := by
  obtain ⟨r', peer, _, hpeer, hlid, hnum, _⟩ := harr.receiver
  rw [(h.paired x r).toBackup.2] at hpeer
  cases hpeer
  exact (h.unique _ _ _ _ hlid hnum).1.symm

/-- A backup has one master. -/
theorem place_inj (h : Wiring servers place) (heq : place x r = place x' r') : x = x' ∧ r = r' := by
  have hpeer := (h.paired x r).toMaster.2
  rw [heq, (h.paired x' r').toMaster.2] at hpeer
  injection hpeer with hpeer
  injection hpeer with hlid hnum
  obtain ⟨hplace, hr⟩ := h.unique _ _ _ _ hlid hnum
  exact ⟨(WorkerId.place_inj hplace).symm, hr.symm⟩

/-- No backup is a master. -/
theorem place_ne (h : Wiring servers place) : place x r ≠ x'.place := by
  intro heq
  have hback := (h.paired x r).backup
  rw [heq, (h.paired x' c.first).master] at hback
  cases hback

end Wiring

namespace Fabric

variable {cond : List Modification → Prop} {s s' : Fabric c}

/-- The tablet of a worker and its backups, with the writes that are on their way executed. -/
def drained (place : WorkerId c → Fin c.kNumReplicas → Place c) (s : Fabric c) (x : WorkerId c) :
    Replicated where
  master := s.tablets x.place
  backups := List.ofFn fun r => drain (s.tablets x.place) r (s.pending x) (s.tablets (place x r)).mem

/-- Nothing was served, and the backups are copies of their masters. -/
structure Initial (place : WorkerId c → Fin c.kNumReplicas → Place c) (s : Fabric c) : Prop where
  pending : ∀ x, s.pending x = []
  mirrored : ∀ x r a, a < kNVMTabletSize → (s.tablets (place x r)).mem a = (s.tablets x.place).mem a

/-- **One step**, seen by one of the masters: a round of its worker, or nothing. -/
theorem Step.drained (h : Wiring servers place) (hstep : Step cond servers s x s')
    (x' : WorkerId c) :
    (∃ r, InlineRound cond (s.drained place x') r (s'.drained place x')) ∨
      s'.drained place x' = s.drained place x' := by
  -- a round posts its writes; a write that arrives was drained already
  cases hstep with
  | @serve fuel r resp t hidle hrun hcond =>
    by_cases hx : x' = x
    · -- its own round
      subst hx
      left
      refine ⟨r, fuel, resp, t, hrun, hcond, ?_⟩
      obtain ⟨hbase, hmem⟩ := sync_master_eq t
      have hsync := syncInline_eq t (fun r => (s.tablets (place x' r)).mem) id
      unfold Fabric.drained
      simp only [Function.update_self, Function.update_of_ne h.place_ne, hidle, drain_nil,
        drain_congr hbase hmem]
      exact hsync.symm
    · right
      have hplace : x'.place ≠ x.place := fun heq => hx (WorkerId.place_inj heq)
      unfold Fabric.drained
      simp only [Function.update_of_ne hx, Function.update_of_ne hplace,
        Function.update_of_ne h.place_ne]
  | @write before after r w y rkey vaddr hpending hfirst htarget harr =>
    right
    obtain rfl := h.arrives harr
    by_cases hx : x' = x
    · subst hx
      -- the write lands at the same offset in the tablet of the copy
      have hoff : vaddr + w.des - (tabletAt servers (place x' r)).addr = w.des := by
        rw [(h.paired x' r).target] at htarget
        cases htarget
        exact Nat.add_sub_cancel_left _ _
      have hcopy : (s.copy x' w (place x' r) w.des).mem =
          rdmaWrite (s.tablets x'.place) (s.tablets (place x' r)).mem w := rfl
      unfold Fabric.drained
      simp only [Function.update_self, Function.update_of_ne h.place_ne.symm, hoff, hpending]
      congr 1
      apply congrArg List.ofFn
      funext r'
      by_cases hr : r' = r
      · subst hr
        rw [Function.update_self, hcopy, drain_first hfirst]
      · have hplace : place x' r' ≠ place x' r := fun heq => hr (h.place_inj heq).2
        rw [Function.update_of_ne hplace, drain_other hr]
    · have hplace : ∀ r', place x' r' ≠ place x r := fun r' heq => hx (h.place_inj heq).1
      unfold Fabric.drained
      simp only [Function.update_of_ne hx, Function.update_of_ne h.place_ne.symm,
        Function.update_of_ne (hplace _)]

/-- A master and its backups do what they do alone. -/
theorem round_of_reachable (h : Wiring servers place)
    (hreach : Reachable (Initial place) (Step cond servers) s) (x : WorkerId c) :
    Reachable Mirrored (InlineRound cond) (s.drained place x) := by
  refine hreach.invariant (fun s => Reachable Mirrored (InlineRound cond) (s.drained place x)) ?_ ?_
  · intro s hs
    refine .init fun b hb a ha => ?_
    obtain ⟨r, rfl⟩ := List.mem_ofFn.mp hb
    simp only [hs.pending, drain_nil]
    exact hs.mirrored x r a ha
  · intro s x' s' hs hstep
    rcases hstep.drained h x with ⟨r, hround⟩ | heq
    · exact hs.step r hround
    · rw [heq]
      exact hs

/-- What the workers make of the tablets together is what each of them makes of its own. -/
structure Replicates (cond : List Modification → Prop)
    (place : WorkerId c → Fin c.kNumReplicas → Place c) (s : Fabric c) (x : WorkerId c) : Prop where
  /-- As soon as the writes on their way are executed, the tablet and its backups are where
      they can get alone, with `Sync` in one go. -/
  alone : Reachable Mirrored (InlineRound cond) (s.drained place x)
  /-- If the modifications of each request form one range that fits inline, the backups are
      copies of the tablet between two rounds. -/
  mirrored : (∀ ms, cond ms → OneRange ms ∧ FitsInline ms) → s.pending x = [] →
    ∀ r a, a < kNVMTabletSize → (s.tablets (place x r)).mem a = (s.tablets x.place).mem a

/-- However the rounds of all workers and the single RDMA writes on all queue pairs are
    interleaved, each master and its backups take no notice of the others. -/
theorem replicates_of_reachable (h : Wiring servers place)
    (hreach : Reachable (Initial place) (Step cond servers) s) (x : WorkerId c) :
    s.Replicates cond place x := by
  have halone := round_of_reachable h hreach x
  refine ⟨halone, ?_⟩
  intro hone hidle r a ha
  have hmirrored : Mirrored (s.drained place x) := by
    refine halone.invariant Mirrored (fun _ ht => ht) ?_
    intro t r t' ht hround
    obtain ⟨fuel, resp, t₁, hserve, hcond, heq⟩ := hround.round fun ms hms => (hone ms hms).2
    exact Round.mirrored ht ⟨fuel, resp, t₁, hserve, (hone _ hcond).1, heq⟩
  have hbackup : (s.tablets (place x r)).mem ∈ (s.drained place x).backups := by
    refine List.mem_ofFn.mpr ⟨r, ?_⟩
    rw [hidle, drain_nil]
  exact hmirrored _ hbackup a ha

end Fabric

end place

/-! ### Servers that have joined -/

section joined

variable {hosts : Fin c.kNumServers → String × Host c} {servers : Fin c.kNumServers → Server c}
  {views : Fin c.kNumServers → IndexManager c}

/-- No two queue pairs of the cluster have the same port and number. -/
def DistinctQueuePairs (hosts : Fin c.kNumServers → String × Host c) : Prop :=
  ∀ i i' slot slot' r r',
    ((hosts i).2.devices.get slot).lid = ((hosts i').2.devices.get slot').lid →
    ((hosts i).2.devices.get slot).qpns.get r = ((hosts i').2.devices.get slot').qpns.get r' →
    i = i' ∧ slot = slot' ∧ r = r'

/-- All servers have joined, each with its view of the complete index. -/
structure Assembled (hosts : Fin c.kNumServers → String × Host c)
    (views : Fin c.kNumServers → IndexManager c) (servers : Fin c.kNumServers → Server c) :
    Prop where
  complete : ∀ i, AllJoined (joinsOf hosts) (views i)
  joined : ∀ i, (Server.new (hosts i).2).joinResponse i (views i) = .ok (servers i)

/-- A tablet of a server that has joined. -/
theorem Assembled.wired (h : Assembled hosts views servers) (hR : c.kNumReplicas < c.kNumServers)
    {i j k : Nat} (hs : Spot c i j k) : Wired (views ⟨i, hs.server⟩) hosts hs
      (tabletAt servers (⟨i, hs.server⟩, ⟨_, slot_lt hs.copy hs.tablet⟩)) := by
  obtain ⟨srv, hrun, hwired⟩ := joinResponse_run hR (h.complete ⟨i, hs.server⟩) ⟨i, hs.server⟩
  rw [h.joined] at hrun
  cases hrun
  obtain ⟨t, ht, hw⟩ := hwired j k hs
  rw [Arrays.read_of_lt (slot_lt hs.copy hs.tablet)] at ht
  cases ht
  exact hw

/-- Its queue pairs are those of the device. -/
theorem Assembled.queuePair (h : Assembled hosts views servers)
    (hR : c.kNumReplicas < c.kNumServers) (y : Place c) (r : Fin c.kNumReplicas) :
    (tabletAt servers y).lid = ((hosts y.1).2.devices.get y.2).lid ∧
      ((tabletAt servers y).qps.get r).num = ((hosts y.1).2.devices.get y.2).qpns.get r := by
  obtain ⟨i, slot, hslot⟩ := y
  obtain ⟨j, k, hj, hk, rfl⟩ := exists_copy hslot
  have hinfo := (h.wired hR ⟨i.isLt, hj, hk⟩).same.localInfo r
  have hnew : (newTablet hosts ⟨i.isLt, hj, hk⟩).localInfo r =
      ⟨((hosts i).2.devices.get ⟨_, hslot⟩).lid, ((hosts i).2.devices.get ⟨_, hslot⟩).qpns.get r,
        kDefaultPsn, (newTablet hosts ⟨i.isLt, hj, hk⟩).rkey,
        (newTablet hosts ⟨i.isLt, hj, hk⟩).addr⟩ := by
    simp only [newTablet, Server.new, Arrays.get_ofFn, Tablet.localInfo, Tablet.new, QueuePair.new]
  rw [hnew] at hinfo
  injection hinfo with hlid hnum
  exact ⟨hlid, hnum⟩

/-- The servers are wired up. -/
theorem Assembled.exists_wiring (h : Assembled hosts views servers) (hfit : c.TabletsFit)
    (hR : c.kNumReplicas < c.kNumServers) (hdev : DistinctQueuePairs hosts) :
    ∃ place, Wiring servers place := by
  have hpaired : ∀ (x : WorkerId c) (r : Fin c.kNumReplicas), ∃ y,
      Paired (servers x.1).indexManager (tabletAt servers x.place) (tabletAt servers y) r := by
    rintro ⟨i, k⟩ r
    have hs : Spot c i 0 k := ⟨i.isLt, Nat.succ_pos _, k.isLt⟩
    have hwired := h.wired hR hs
    obtain ⟨i', hs', _, hpair⟩ := paired_of_wired hR (h.complete i) hs hwired r
    have hplace : ((⟨i, hs.server⟩, ⟨_, slot_lt hs.copy hs.tablet⟩) : Place c) =
        WorkerId.place (i, k) := by
      refine Prod.ext rfl (Fin.ext ?_)
      show 0 * c.kNumTabletsPerServer + k.val = k
      omega
    obtain ⟨_, him, _⟩ := joinResponse_info (h.joined i)
    refine ⟨(⟨i', hs'.server⟩, ⟨_, slot_lt hs'.copy hs'.tablet⟩), ?_⟩
    rw [him, ← hplace]
    exact hpair _ _ (h.complete _) (h.wired hR hs')
  -- two copies with one address are the same, since devices and numbers differ
  choose place hplace using hpaired
  refine ⟨place, fun i => Server.apart_of_joinResponse hfit (h.joined i), hplace, ?_⟩
  intro y y' r r' hlid hnum
  obtain ⟨hl, hn⟩ := h.queuePair hR y r
  obtain ⟨hl', hn'⟩ := h.queuePair hR y' r'
  rw [hl, hl'] at hlid
  rw [hn, hn'] at hnum
  obtain ⟨hi, hslot, hr⟩ := hdev _ _ _ _ _ _ hlid hnum
  exact ⟨Prod.ext hi hslot, hr⟩

/-- **Replication in the cluster.** When the servers have joined, every master has its backups
    at places of their own; and however the rounds of all workers and the single RDMA writes on
    all queue pairs are interleaved, each master and its backups take no notice of the others. -/
theorem cluster_replicates (hfit : c.TabletsFit) (hR : c.kNumReplicas < c.kNumServers)
    (hdev : DistinctQueuePairs hosts) (h : Assembled hosts views servers) :
    ∃ place, Wiring servers place ∧ ∀ cond s,
      Reachable (Fabric.Initial place) (Fabric.Step cond servers) s →
      ∀ x, s.Replicates cond place x := by
  obtain ⟨place, hwiring⟩ := h.exists_wiring hfit hR hdev
  exact ⟨place, hwiring, fun _ _ hreach x => Fabric.replicates_of_reachable hwiring hreach x⟩

end joined

theorem distinctQueuePairs_shipped :
    DistinctQueuePairs fun i : Fin shipped.kNumServers => ("10.0.0.1", hostOf shipped i) := by
  intro i i' slot slot' r r' hlid hnum
  simp only [hostOf, Arrays.get_ofFn] at hlid hnum
  have hr := r.isLt
  have hr' := r'.isLt
  have hone : shipped.kNumReplicas = 1 := rfl
  exact ⟨Fin.ext hlid, Fin.ext (by omega), Fin.ext (by omega)⟩

/-- What is posted for a backup gets there. -/
theorem Paired.arrives {c : Config} {im : IndexManager c} {m b : Tablet c}
    {r : Fin c.kNumReplicas} (h : Paired im m b r) {off len : Nat}
    (hle : off + len ≤ kNVMTabletSize) : Arrives m b r b.rkey (b.addr + off) len := by
  obtain ⟨hrts, hpeer⟩ := h.toBackup
  obtain ⟨hrtr, hpeer'⟩ := h.toMaster
  refine ⟨hrts, ?_, rfl, Nat.le_add_right _ _, by omega⟩
  refine ⟨c.first, _, _, hpeer, rfl, rfl, ?_, hpeer', rfl, rfl⟩
  rw [hrtr]
  decide

/-- The value of `Tablet.putOne` becomes the empty one. Its length changes, and that fits inline. -/
theorem exists_shrink : ∃ t₀ resp t, Tablet.serve 2 Tablet.putNone t₀ = .ok (resp, t) ∧
    (OneRange t.modifications ∧ FitsInline t.modifications) ∧ t₀.mem ≠ t.mem ∧
    ∃ r w, posted shipped t.modifications = [(r, w)] ∧ w.des + w.len ≤ kNVMTabletSize := by
  -- a value of one byte is stored, then the empty value over it, which changes its length only
  have hfirst : (Tablet.serve 2 (Tablet.putOne 7) (Allocator.formatted true)).toOption.map
      (fun p => (p.2.mem 67108830, (Tablet.serve 2 Tablet.putNone p.2).toOption.map
        fun p : Response × Nvm => (p.2.mem 67108830, decide (
          (OneRange p.2.modifications ∧ FitsInline p.2.modifications) ∧
          (posted shipped p.2.modifications).length = 1 ∧
          ∀ e ∈ posted shipped p.2.modifications, e.2.des + e.2.len ≤ kNVMTabletSize)))) =
      some (1, some (0, true)) := by
    decide +kernel
  obtain ⟨⟨_, t₀⟩, _, hsecond⟩ := Option.map_eq_some_iff.mp hfirst
  obtain ⟨hbefore, hsecond⟩ := Prod.mk.inj hsecond
  obtain ⟨⟨resp, t⟩, hserve, hsecond⟩ := Option.map_eq_some_iff.mp hsecond
  obtain ⟨hafter, hsecond⟩ := Prod.mk.inj hsecond
  obtain ⟨hcond, hposted, hbound⟩ := of_decide_eq_true hsecond
  obtain ⟨⟨r, w⟩, hone⟩ := List.length_eq_one_iff.mp hposted
  refine ⟨t₀, resp, t, ?_, hcond, ?_, r, w, hone, hbound (r, w) (by rw [hone]; simp)⟩
  · cases hrun : Tablet.serve 2 Tablet.putNone t₀ with
    | error e =>
      rw [hrun] at hserve
      cases hserve
    | ok p =>
      rw [hrun] at hserve
      exact congrArg _ (Option.some.inj hserve)
  · intro heq
    change t₀.mem _ = 1 at hbefore
    rw [heq] at hbefore
    exact absurd (hbefore.symm.trans hafter) (by decide)

/-- A worker of the first server shortens a value, and the RDMA write for it is executed. -/
theorem cluster_replicates_shrink : ∃ (place : WorkerId shipped → Fin shipped.kNumReplicas →
    Place shipped) (s₀ s : Fabric shipped) (x : WorkerId shipped), s₀.Initial place ∧
    (s₀.tablets x.place).mem ≠ (s.tablets x.place).mem ∧ s.pending x = [] ∧
    ∀ r a, a < kNVMTabletSize →
      (s.tablets (place x r)).mem a = (s.tablets x.place).mem a := by
  -- both servers have joined
  let hosts : Fin shipped.kNumServers → String × Host shipped :=
    fun i => ("10.0.0.1", hostOf shipped i)
  obtain ⟨im, _, hall⟩ := addServers_run (length_joinsOf hosts).le (joinsOf_wellFormed hosts)
    (unset shipped)
  choose servers hjoin _ using fun i => joinResponse_run (by decide) hall i
  obtain ⟨place, hwiring, hreplicates⟩ := cluster_replicates tabletsFit_shipped (by decide)
    distinctQueuePairs_shipped ⟨fun _ => hall, hjoin⟩
  -- all tablets are alike, with one key
  obtain ⟨t₀, resp, t, hserve, hcond, hne, r, w, hposted, hbound⟩ := exists_shrink
  let cond := fun ms => OneRange ms ∧ FitsInline ms
  let x : WorkerId shipped := (⟨0, shipped.servers_pos⟩, ⟨0, shipped.tablets_pos⟩)
  have hinit : Fabric.Initial place ⟨fun _ => t₀, fun _ => []⟩ := ⟨fun _ => rfl, fun _ _ _ _ => rfl⟩
  have r₀ : Reachable (Fabric.Initial place) (Fabric.Step cond servers)
      ⟨fun _ => t₀, fun _ => []⟩ := .init hinit
  have r₁ := r₀.step x (.serve rfl hserve hcond)
  have hpair := hwiring.paired x r
  have hpending : (Function.update (fun _ => []) x (posted shipped t.modifications) :
      WorkerId shipped → List _) x = [] ++ (r, w) :: [] := by
    rw [Function.update_self, hposted]
    rfl
  have r₂ := r₁.step x (.write (y := place x r) hpending (by simp) hpair.target
    (hpair.arrives hbound))
  have hdone := (hreplicates cond _ r₂ x).mirrored (fun _ hms => hms) (by simp)
  refine ⟨place, _, _, x, hinit, ?_, by simp, hdone⟩
  simp only [Function.update_of_ne hwiring.place_ne.symm, Function.update_self]
  rw [(sync_master_eq t).2]
  exact hne

end Nvds.Cluster
