import Mathlib.Data.List.ProdSigma
import Nvds.Cluster.Placement

/-! # The index after the servers have joined

    A call of `AddServer` enters one server, with all its tablets, and leaves
    alone what was entered for other servers. So after `n` calls the first
    `n` servers are entered, whatever the index held before.
-/

open Arrays

namespace Nvds.Cluster

variable {c : Config}

/-! ### One call -/

/-- Server `i` is known under its addresses. -/
def Registered (addr : String) (body : JoinBody) (i : Nat) (im : IndexManager c) : Prop :=
  ∃ s, im.getServer i = .ok s ∧ s.id = i ∧ s.active = true ∧ s.addr = addr ∧
    s.ibAddr = body.ibAddr

/-- Server `i` has joined with `body`. -/
structure Joined (addr : String) (body : JoinBody) (i : Nat) (im : IndexManager c) : Prop where
  server : Registered addr body i im
  placed : ∀ j k, Spot c i j k → Placed body.tabletQpis i j k im
  linked : c.kNumReplicas < c.kNumServers → ∀ j k, Spot c i j k → Linked i j k im

theorem mem_rounds {j k : Nat} :
    (j, k) ∈ rounds c ↔ j < c.kNumReplicas + 1 ∧ k < c.kNumTabletsPerServer := by
  unfold rounds
  rw [List.pair_mem_product, List.mem_range, List.mem_range]

theorem nodup_rounds : (rounds c).Nodup :=
  List.nodup_range.product List.nodup_range

section calls

variable {i i' : Nat} {addr addr' : String} {body body' : JoinBody} {im im' : IndexManager c}

theorem Added.registered {j k : Nat} {qpis : List QueuePairInfo} (h : Added i j k qpis im im')
    (hr : Registered addr' body' i' im) : Registered addr' body' i' im' := by
  obtain ⟨s, hs, hrest⟩ := hr
  by_cases hi : i' = i
  · subst hi
    refine ⟨addedServer i' j k s, ?_, hrest⟩
    rw [h.server, if_pos rfl, hs]
    rfl
  · refine ⟨s, ?_, hrest⟩
    rw [h.server, if_neg hi]
    exact hs

/-- The index when the loops of `AddServer` start. -/
theorem addServer_start (hi : i < c.kNumServers) (addr : String) (body : JoinBody)
    (im : IndexManager c) : ∃ im₁, addServer i addr body im =
        (rounds c).foldlM (addTablet i body.tabletQpis) im₁ ∧
      im₁.tablets = im.tablets ∧ im₁.keyTabletMap = im.keyTabletMap ∧ Registered addr body i im₁ ∧
      ∀ x, x ≠ i → im₁.getServer x = im.getServer x := by
  obtain ⟨w, hw, hread⟩ := write_of_lt hi Fault.outOfBounds im.servers
    ⟨i, true, addr, body.ibAddr, Vector.replicate c.kNumTabletAndBackupsPerServer 0⟩
  refine ⟨{ im with servers := w }, ?_, rfl, rfl, ?_, ?_⟩
  · unfold addServer
    rw [hw]
    rfl
  · have hget := hread i
    rw [if_pos rfl] at hget
    exact ⟨_, hget, rfl, rfl, rfl, rfl⟩
  · intro x hx
    unfold IndexManager.getServer
    rw [hread, if_neg hx]

/-- What the round `(j, k)` of the call for server `i` establishes. -/
def Entered (qpis : List QueuePairInfo) (i : Nat) (jk : Nat × Nat) (im : IndexManager c) : Prop :=
  Placed qpis i jk.1 jk.2 im ∧ (c.kNumReplicas < c.kNumServers → Linked i jk.1 jk.2 im)

/-- A round does not disturb what another one established. -/
theorem Added.keeps_entered {j k j' k' : Nat} {qpis qpis' : List QueuePairInfo}
    (hs : Spot c i j k) (hs' : Spot c i' j' k') (hne : (i', j', k') ≠ (i, j, k))
    (h : Added i j k qpis im im') (he : Entered qpis' i' (j', k') im) :
    Entered qpis' i' (j', k') im' := by
  obtain ⟨hp, hl⟩ := he
  refine ⟨h.keeps_placed hs hs' hne hp, ?_⟩
  intro hR hj
  show im'.storageAt (masterId c i' j' k') (j' - 1) = _
  rw [h.keeps_link hR hs hs' hj hne]
  exact hl hR hj

theorem spot_of_mem {jk : Nat × Nat} (hi : i < c.kNumServers) (h : jk ∈ rounds c) :
    Spot c i jk.1 jk.2 :=
  ⟨hi, (mem_rounds.mp h).1, (mem_rounds.mp h).2⟩

/-- **`AddServer`** enters the server with all its tablets. -/
theorem addServer_run (hi : i < c.kNumServers) (hwf : body.WellFormed c) (addr : String)
    (im : IndexManager c) : ∃ im', addServer i addr body im = .ok im' ∧ Joined addr body i im' := by
  -- each round enters its own tablet, and no later round writes over it
  have hstep : ∀ jk ∈ rounds c, ∀ im : IndexManager c, ∃ im',
      addTablet i body.tabletQpis im jk = .ok im' ∧ Entered body.tabletQpis i jk im' := by
    intro jk hjk im
    have hs := spot_of_mem hi hjk
    obtain ⟨im', hrun, hadd⟩ := addTablet_run hs hwf im
    exact ⟨im', hrun, hadd.placed hs hwf, fun _ => hadd.linked hs⟩
  have hkeep : ∀ jk ∈ rounds c, ∀ jk' ∈ rounds c, jk' ≠ jk → ∀ s s' : IndexManager c,
      addTablet i body.tabletQpis s jk = .ok s' → Entered body.tabletQpis i jk' s →
      Entered body.tabletQpis i jk' s' := by
    intro jk hjk jk' hjk' hne s s' hrun
    have hs := spot_of_mem hi hjk
    exact (added_of_run hs hwf hrun).keeps_entered hs (spot_of_mem hi hjk')
      fun heq => hne (Prod.mk.inj heq).2
  obtain ⟨im₁, hstart, _, _, hreg, _⟩ := addServer_start hi addr body im
  obtain ⟨im', hrun, hall⟩ := foldlM_establishes nodup_rounds hstep hkeep im₁
  refine ⟨im', hstart.trans hrun, ?_, ?_, ?_⟩
  · refine foldlM_keeps ?_ hrun hreg
    intro jk hjk s s' hrun
    exact (added_of_run (spot_of_mem hi hjk) hwf hrun).registered
  · intro j k hs
    exact (hall (j, k) (mem_rounds.mpr ⟨hs.copy, hs.tablet⟩)).1
  · intro hR j k hs
    exact (hall (j, k) (mem_rounds.mpr ⟨hs.copy, hs.tablet⟩)).2 hR

/-- What holds when the loops of a call start and is kept by every round holds after the call. -/
theorem addServer_invariant (Q : IndexManager c → Prop) (hi : i < c.kNumServers)
    (hwf : body.WellFormed c) (hrun : addServer i addr body im = .ok im')
    (hstart : ∀ im₁ : IndexManager c, im₁.tablets = im.tablets →
      im₁.keyTabletMap = im.keyTabletMap → (∀ x, x ≠ i → im₁.getServer x = im.getServer x) → Q im₁)
    (hround : ∀ j k s s', Spot c i j k → Added i j k body.tabletQpis s s' → Q s → Q s') :
    Q im' := by
  obtain ⟨im₁, heq, htab, hkey, _, hsrv⟩ := addServer_start hi addr body im
  rw [heq] at hrun
  refine foldlM_keeps ?_ hrun (hstart im₁ htab hkey hsrv)
  intro jk hjk s s' hstep
  have hs := spot_of_mem hi hjk
  exact hround jk.1 jk.2 s s' hs (added_of_run hs hwf hstep)

/-- What was entered for another server stays. -/
theorem addServer_keeps (hi : i < c.kNumServers) (hwf : body.WellFormed c)
    (hrun : addServer i addr body im = .ok im') (hne : i' ≠ i)
    (h : Joined addr' body' i' im) : Joined addr' body' i' im' := by
  refine addServer_invariant (Joined addr' body' i') hi hwf hrun ?_ ?_
  · intro im₁ htab hkey hsrv
    have htablet : ∀ x, im₁.getTablet x = im.getTablet x := by
      intro x
      unfold IndexManager.getTablet
      rw [htab]
    have hstorage : ∀ x r, im₁.storageAt x r = im.storageAt x r := by
      intro x r
      unfold IndexManager.storageAt
      rw [htablet]
    constructor
    · unfold Registered
      rw [hsrv i' hne]
      exact h.server
    · intro j k hs
      obtain ⟨ht, hm, hk, hsv⟩ := h.placed j k hs
      refine ⟨?_, ?_, ?_, ?_⟩
      · rw [htablet]
        exact ht
      · rw [hstorage]
        exact hm
      · rw [hkey]
        exact hk
      · rw [hsrv i' hne]
        exact hsv
    · intro hR j k hs hj
      rw [hstorage]
      exact h.linked hR j k hs hj
  · intro j k s s' hs hadd hjoined
    -- the tablets of two servers have different ids, so a round of one leaves the other's alone
    have hother : ∀ j' k', (i', j', k') ≠ (i, j, k) := fun j' k' heq => hne (Prod.mk.inj heq).1
    have hentered : ∀ j' k', Spot c i' j' k' → Entered body'.tabletQpis i' (j', k') s' := by
      intro j' k' hs'
      exact hadd.keeps_entered hs hs' (hother j' k')
        ⟨hjoined.placed j' k' hs', fun hR => hjoined.linked hR j' k' hs'⟩
    exact ⟨hadd.registered hjoined.server, fun j' k' hs' => (hentered j' k' hs').1,
      fun hR j' k' hs' => (hentered j' k' hs').2 hR⟩

/-- Word `r` of the union of tablet `x` is one that the call for server `i` sets: an entry
    of `backups` or a `master`. -/
def SetBy (c : Config) (i x r : Nat) : Prop :=
  ∃ j k, Spot c i j k ∧ 0 < j ∧
    (x = masterId c i j k ∧ r = j - 1 ∨ x = calcTabletId c i j k ∧ r = 0)

/-- A call changes no other word of a union. -/
theorem addServer_storage (hi : i < c.kNumServers) (hwf : body.WellFormed c)
    (hrun : addServer i addr body im = .ok im') {x r : Nat} (h : ¬ SetBy c i x r) :
    im'.storageAt x r = im.storageAt x r := by
  refine addServer_invariant (fun im' => im'.storageAt x r = im.storageAt x r) hi hwf hrun ?_ ?_
  · intro im₁ htab _ _
    unfold IndexManager.storageAt IndexManager.getTablet
    rw [htab]
  · intro j k s s' hs hadd hold
    rw [hadd.storageAt _ _, hold]
    · exact fun hc => h ⟨j, k, hs, hc.1, Or.inl hc.2⟩
    · exact fun hc => h ⟨j, k, hs, hc.1, Or.inr hc.2⟩

/-- No word is set by two calls. -/
theorem SetBy.unique (hR : c.kNumReplicas < c.kNumServers) {x r : Nat} (h : SetBy c i x r)
    (h' : SetBy c i' x r) : i = i' := by
  obtain ⟨j, k, hs, hj, hx⟩ := h
  obtain ⟨j', k', hs', hj', hx'⟩ := h'
  rcases hx with ⟨hx, hr⟩ | ⟨hx, hr⟩
  · rcases hx' with ⟨hx', hr'⟩ | ⟨hx', _⟩
    · -- two entries of `backups`
      obtain rfl : j = j' := by omega
      exact masterServer_inj hR hs hs' (hs.master.inj hs'.master (hx.symm.trans hx')).1
    · exact absurd (hx'.symm.trans hx) (hs'.ne_masterId hs hj')
  · rcases hx' with ⟨hx', _⟩ | ⟨hx', _⟩
    · exact absurd (hx.symm.trans hx') (hs.ne_masterId hs' hj)
    · exact (hs.inj hs' (hx.symm.trans hx')).1

end calls

/-! ### All calls -/

section runs

variable {joins : List (String × JoinBody)}

/-- The servers of `joins` have joined, in this order. -/
def AllJoined (joins : List (String × JoinBody)) (im : IndexManager c) : Prop :=
  ∀ i (hi : i < joins.length), Joined joins[i].1 joins[i].2 i im

/-- One more server joins. -/
theorem AllJoined.addServer {x : String × JoinBody} {im im' : IndexManager c}
    (h : AllJoined joins im) (hlt : joins.length < c.kNumServers) (hwf : x.2.WellFormed c)
    (hrun : addServer joins.length x.1 x.2 im = .ok im') : AllJoined (joins ++ [x]) im' := by
  intro i hi
  rw [List.length_append, List.length_singleton] at hi
  by_cases hlast : i < joins.length
  · rw [List.getElem_append_left hlast]
    exact addServer_keeps hlt hwf hrun hlast.ne (h i hlast)
  · obtain rfl : i = joins.length := by omega
    obtain ⟨im₁, hrun₁, hjoined⟩ := addServer_run hlt hwf x.1 im
    rw [hrun] at hrun₁
    cases hrun₁
    rw [List.getElem_concat_length rfl]
    exact hjoined

theorem servers_lt (c : Config) : c.kNumServers < 4294967296 := by
  refine lt_of_le_of_lt (Nat.le_mul_of_pos_right _ ?_) c.all_lt
  exact lt_of_lt_of_le c.tablets_pos c.masters_le

/-- Further servers join. -/
theorem AllJoined.addServers (before : List (String × JoinBody)) {im : IndexManager c}
    (h : AllJoined before im) (hlen : before.length + joins.length ≤ c.kNumServers)
    (hwf : ∀ x ∈ joins, x.2.WellFormed c) :
    ∃ im', addServers before.length joins im = .ok im' ∧ AllJoined (before ++ joins) im' := by
  -- on the joins to come; `before` have been entered
  induction joins generalizing before im with
  | nil =>
    refine ⟨im, rfl, ?_⟩
    rw [List.append_nil]
    exact h
  | cons x joins ih =>
    rw [List.length_cons] at hlen
    have hlt : before.length < c.kNumServers := by omega
    have hS := servers_lt c
    have hxwf := hwf x List.mem_cons_self
    obtain ⟨im₁, hrun, _⟩ := addServer_run hlt hxwf x.1 im
    have hnext : (before ++ [x]).length = before.length + 1 := by
      rw [List.length_append, List.length_singleton]
    obtain ⟨im', hrest, hfinal⟩ := ih (before ++ [x]) (h.addServer hlt hxwf hrun) (by omega)
      fun y hy => hwf y (List.mem_cons_of_mem _ hy)
    refine ⟨im', ?_, ?_⟩
    · obtain ⟨addr, body⟩ := x
      unfold Cluster.addServers
      rw [hrun, bind_ok, u32_of_lt (by omega), ← hnext]
      exact hrest
    · rw [List.append_assoc] at hfinal
      exact hfinal

/-- The last of the calls. -/
theorem addServers_concat {id : Nat} (x : String × JoinBody) (im : IndexManager c)
    (hlt : id + joins.length < 4294967296) :
    addServers id (joins ++ [x]) im =
      (addServers id joins im >>= addServer (id + joins.length) x.1 x.2) := by
  induction joins generalizing id im with
  | nil =>
    show (addServer id x.1 x.2 im >>= fun im => pure im) = addServer (id + 0) x.1 x.2 im
    rw [bind_pure]
    rfl
  | cons y joins ih =>
    rw [List.length_cons] at hlt
    rw [List.cons_append, List.length_cons, Cluster.addServers, Cluster.addServers]
    cases addServer id y.1 y.2 im with
    | error e => rfl
    | ok im₁ =>
      rw [bind_ok, bind_ok, u32_of_lt (by omega), ih im₁ (by omega), Nat.add_right_comm]
      rfl

/-- **The servers join** an index with any contents. -/
theorem addServers_run (hlen : joins.length ≤ c.kNumServers) (hwf : ∀ x ∈ joins, x.2.WellFormed c)
    (im : IndexManager c) : ∃ im', addServers 0 joins im = .ok im' ∧ AllJoined joins im' := by
  have hnil : AllJoined [] im := fun i hi => absurd hi (Nat.not_lt_zero i)
  exact hnil.addServers [] (by rwa [List.length_nil, Nat.zero_add]) hwf

end runs

end Nvds.Cluster
