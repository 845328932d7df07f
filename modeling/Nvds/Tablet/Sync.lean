import Nvds.Framework.Transition
import Nvds.Tablet.Tracking

/-! # Replication (`Tablet::Sync`)

    After each request the worker brings the backups of its tablet up to
    date: the recorded modifications are merged, and every merged range is to
    be copied to every backup by an RDMA write. The loop that fills in the
    work requests has a `break` left from debugging, so only the first range
    is sent.

    RDMA writes are taken to succeed, in the order they are posted.
-/

open ByteMemory Program Intervals Transition

namespace Nvds.Tablet

/-! ### The code -/

/-- A master tablet and the images of its backups. -/
structure Replicated where
  master : Nvm
  backups : List Mem

/-- An RDMA write: `len` bytes from the local address `src` to offset `des`
    of the backup. -/
def rdmaWrite (master : Nvm) (backup : Mem) (w : Modification) : Mem :=
  store backup w.des (load master.mem (w.src - master.base) w.len)

/-- The work requests `Sync` posts for a backup: the loop over the modifications
    is left after the first. -/
def workRequests : List Modification → List Modification
  | [] => []
  | m :: _ => [m]

/-- `Sync`. -/
def sync (t : Replicated) : Replicated :=
  if t.master.modifications.length = 0 then
    t
  else
    let modifications := mergeModifications t.master.modifications
    { master := { t.master with modifications }
      backups := t.backups.map fun b => (workRequests modifications).foldl (rdmaWrite t.master) b }

/-! ### Runs of the worker -/

/-- One round of `Serve` on the request `r`: the call returned, and `Sync` was
    given a list of modifications that meets `cond`. -/
def Round (cond : List Modification → Prop) (t : Replicated) (r : Request) (t' : Replicated) :
    Prop :=
  ∃ fuel resp s, serve fuel r t.master = .ok (resp, s) ∧ cond s.modifications ∧
    t' = sync ⟨s, t.backups⟩

/-- Every backup holds the image of the master. -/
def Mirrored (t : Replicated) : Prop :=
  ∀ b ∈ t.backups, ∀ a, a < kNVMTabletSize → b a = t.master.mem a

@[simp] theorem sync_mem (t : Replicated) : (sync t).master.mem = t.master.mem := by
  unfold sync
  split
  · rfl
  · rfl

/-- An RDMA write of a recorded range copies the bytes of the master. -/
theorem rdmaWrite_eq {master : Nvm} {w : Modification} (hsrc : w.src = master.base + w.des)
    (backup : Mem) (a : Nat) [Decidable (w.range.Has a)] :
    rdmaWrite master backup w a = if w.range.Has a then master.mem a else backup a := by
  unfold rdmaWrite
  rw [hsrc, Nat.add_sub_cancel_left]
  exact store_load_eq backup master.mem w a

/-- One round: where the modifications form one range, all of them are sent. -/
theorem Round.mirrored {t t' : Replicated} {r : Request} (hm : Mirrored t)
    (h : Round OneRange t r t') : Mirrored t' := by
  classical
  obtain ⟨fuel, resp, s, hserve, hone, rfl⟩ := h
  have hlogged := serve_logged hserve
  intro b' hb' a ha
  rw [sync_mem]
  by_cases hnil : s.modifications = []
  · -- nothing recorded, nothing changed
    have hsame : s.mem = t.master.mem := hlogged.mem_eq hnil
    have hsync : sync ⟨s, t.backups⟩ = ⟨s, t.backups⟩ := by
      unfold sync
      rw [if_pos (by rw [hnil]; rfl)]
    rw [hsync] at hb'
    show b' a = s.mem a
    rw [hsame]
    exact hm b' hb' a ha
  -- one range covers all that was recorded, and it is posted alone
  · obtain ⟨w, hw⟩ := mergeModifications_of_oneRange hnil hlogged.recorded hone
    have hsync : (sync ⟨s, t.backups⟩).backups = t.backups.map fun b => rdmaWrite s b w := by
      unfold sync
      rw [if_neg fun h0 => hnil (List.length_eq_zero_iff.mp h0)]
      show t.backups.map (fun b => (workRequests (mergeModifications s.modifications)).foldl
        (rdmaWrite s) b) = _
      rw [hw]
      rfl
    rw [hsync] at hb'
    obtain ⟨b, hb, rfl⟩ := List.mem_map.mp hb'
    have hsrc : w.src = s.base + w.des := by
      have hwm : w ∈ mergeModifications s.modifications := by
        rw [hw]
        exact List.mem_singleton.mpr rfl
      rw [hlogged.src_eq hnil hwm, hlogged.base]
    show rdmaWrite s b w a = s.mem a
    rw [rdmaWrite_eq hsrc]
    -- in the range the bytes are copied, outside of it nothing has changed
    by_cases hin : w.range.Has a
    · rw [if_pos hin]
    · rw [if_neg hin, hm b hb a ha]
      refine (hlogged.same a fun m hmem hma => hin ?_).symm
      obtain ⟨w', hw', hwa⟩ := covered_mergeModifications hnil hlogged.recorded hmem hma
      rw [hw] at hw'
      rwa [List.mem_singleton.mp hw'] at hwa

/-- **Replication.** In every run in which the modifications of each request form
    one range, every backup mirrors the master after each `Sync`. -/
theorem mirrored_of_oneRange {t : Replicated} (h : Reachable Mirrored (Round OneRange) t) :
    Mirrored t := by
  apply h.invariant Mirrored
  · intro t ht
    exact ht
  · intro t r t' ht hs
    exact hs.mirrored ht

/-- The value of `putOne` is replaced by the empty one, in its place. -/
def putNone : Request := ⟨.put, [], [], 0, nil_length_lt, nil_length_lt, zero_hash_lt⟩

theorem mirrored_after_shrink : ∃ s s' resp, serve 2 putNone s = .ok (resp, s') ∧
    s'.modifications ≠ [] ∧ Mirrored (sync ⟨s', [s.mem]⟩) := by
  -- the length and the value are close enough for one range
  have hdec : ((serve 2 (putOne 7) >>= fun _ => serve 2 putNone)
      (Allocator.formatted true)).toOption.map (fun p =>
        decide (OneRange p.2.modifications ∧ p.2.modifications ≠ [])) = some true := by
    decide +kernel
  cases hrun : (serve 2 (putOne 7) >>= fun _ => serve 2 putNone) (Allocator.formatted true) with
  | error e => rw [hrun] at hdec; cases hdec
  | ok p =>
    obtain ⟨resp, s'⟩ := p
    rw [hrun] at hdec
    obtain ⟨hone, hne⟩ := of_decide_eq_true (Option.some.inj hdec)
    obtain ⟨_, s, _, hserve⟩ := bind_eq_ok.mp hrun
    have hinit : Mirrored ⟨s, [s.mem]⟩ := by
      intro b hb a _
      rw [List.mem_singleton.mp hb]
    refine ⟨s, s', resp, hserve, hne, ?_⟩
    exact mirrored_of_oneRange (.step putNone (.init hinit) ⟨2, resp, s', hserve, hone, rfl⟩)

/-- The first `PUT` of a fresh tablet writes to the free list, to the block at the
    end of the heap and to the hash table; the hash slot is never sent. -/
theorem exists_not_mirrored : ∃ t, Reachable Mirrored (Round fun _ => True) t ∧
    ¬ Mirrored t := by
  obtain ⟨s, hs⟩ : ∃ s, s = Allocator.formatted true := ⟨_, rfl⟩
  -- the hash slot on the backup, a copy of the master, and on the master
  have hdec : (serve 2 (putOne 7) s).toOption.map (fun p =>
      (sync ⟨p.2, [s.mem]⟩).backups.map fun b => (b 67108864, p.2.mem 67108864)) =
      some [(0, 216)] := by
    rw [hs]
    decide +kernel
  have hinit : Mirrored ⟨s, [s.mem]⟩ := by
    intro b hb a _
    rw [List.mem_singleton.mp hb]
  cases hserve : serve 2 (putOne 7) s with
  | error e => rw [hserve] at hdec; cases hdec
  | ok p =>
    obtain ⟨resp, s'⟩ := p
    rw [hserve] at hdec
    have hround : Round (fun _ => True) ⟨s, [s.mem]⟩ (putOne 7) (sync ⟨s', [s.mem]⟩) :=
      ⟨2, resp, s', hserve, trivial, rfl⟩
    refine ⟨_, .step (putOne 7) (.init hinit) hround, ?_⟩
    intro hm
    have hlist : (sync ⟨s', [s.mem]⟩).backups.map (fun b => (b 67108864, s'.mem 67108864)) =
        [(0, 216)] := Option.some.inj hdec
    cases hb : (sync ⟨s', [s.mem]⟩).backups with
    | nil => rw [hb] at hlist; cases hlist
    | cons b bs =>
      rw [hb] at hlist
      simp only [List.map_cons, List.cons.injEq, Prod.mk.injEq] at hlist
      have heq := hm b (by rw [hb]; exact List.mem_cons_self) 67108864 (by decide)
      rw [sync_mem, hlist.1.1] at heq
      have hslot : (0 : UInt8) = 216 := heq.trans hlist.1.2
      exact absurd hslot (by decide)

end Nvds.Tablet
