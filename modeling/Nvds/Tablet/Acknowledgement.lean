import Nvds.Tablet.StartUp
import Nvds.Tablet.Sync

/-! # Replication that fails (`Tablet::Sync`, `Worker::Serve`)

    `Sync` throws a `TransportException` if `ibv_post_send` refuses the work
    requests for a backup, or if a queue pair reports a completion with a bad
    status. `Serve` catches the exception, prints it and posts the response
    it filled in before the call of `Sync`.
-/

open ByteMemory Program Nvds.Allocator

namespace Nvds.Tablet

/-! ### The code -/

/-- What the network does during one call of `Sync`: the result of `ibv_post_send` for backup
    `k`, the status of the completion polled from queue pair `j`, both 0 for success, and
    whether the bytes posted for backup `k` get there. -/
structure Network where
  postSend : Nat → Nat
  wcStatus : Nat → Nat
  lands : Nat → Bool

/-- The `TransportException`s of `Sync`, with their error numbers. -/
inductive TransportException where
  /-- `ibv_post_send failed`. -/
  | postSend (err : Nat)
  /-- The status of a completion. -/
  | completion (status : Nat)
  deriving DecidableEq, Repr

/-- The loop of `Sync` over the backups from number `k` on. An exception leaves the rest of
    the backups as they are. -/
def postAll (net : Network) (master : Nvm) (ws : List Modification) :
    Nat → List Mem → List Mem × Option TransportException
  | _, [] => ([], none)
  | k, b :: bs =>
    let b' := if net.lands k then ws.foldl (rdmaWrite master) b else b
    if net.postSend k ≠ 0 then
      (b' :: bs, some (.postSend (net.postSend k)))
    else
      let (bs', thrown) := postAll net master ws (k + 1) bs
      (b' :: bs', thrown)

/-- The loop of `Sync` over `n` queue pairs from number `j` on, one for each backup. -/
def pollAll (net : Network) : Nat → Nat → Option TransportException
  | _, 0 => none
  | j, n + 1 =>
    if net.wcStatus j ≠ 0 then
      some (.completion (net.wcStatus j))
    else
      pollAll net (j + 1) n

/-- `Sync` over a network, with the exception it throws. -/
def syncOver (net : Network) (t : Replicated) : Replicated × Option TransportException :=
  if t.master.modifications.length = 0 then
    (t, none)
  else
    let modifications := mergeModifications t.master.modifications
    let sent := postAll net t.master (workRequests modifications) 0 t.backups
    -- the completions are polled only if every post was accepted
    (⟨{ t.master with modifications }, sent.1⟩, sent.2.or (pollAll net 0 t.backups.length))

/-- The end of a round of `Serve`: the response that is posted, the exception that was caught
    and the tablets. -/
structure Served where
  posted : Response
  caught : Option TransportException
  after : Replicated

/-- One round of `Serve`. The handler only prints. -/
def serveOver (net : Network) (fuel : Nat) (r : Request) (t : Replicated) : Except Fault Served :=
  match serve fuel r t.master with
  | .error e => .error e
  | .ok (resp, s) =>
    let (after, caught) := syncOver net ⟨s, t.backups⟩
    .ok ⟨resp, caught, after⟩

/-! ### When `Sync` throws -/

/-- Nothing fails for the first `n` backups. -/
def Network.Reliable (net : Network) (n : Nat) : Prop :=
  ∀ k, k < n → net.postSend k = 0 ∧ net.wcStatus k = 0

variable {net : Network} {fuel : Nat} {r : Request} {s s' : Nvm} {t : Replicated}

theorem postAll_eq_none {master : Nvm} {ws : List Modification} {bs : List Mem} {k : Nat} :
    (postAll net master ws k bs).2 = none ↔ ∀ i, i < bs.length → net.postSend (k + i) = 0 := by
  induction bs generalizing k with
  | nil => simp [postAll]
  | cons b bs ih =>
    rw [postAll]
    by_cases h0 : net.postSend k = 0
    · rw [if_neg (not_not.mpr h0)]
      refine (ih (k := k + 1)).trans ?_
      constructor
      · intro h i hi
        cases i with
        | zero => exact h0
        | succ i =>
          rw [← Nat.add_assoc, Nat.add_right_comm]
          exact h i (by simpa using hi)
      · intro h i hi
        have := h (i + 1) (by simpa using hi)
        rwa [← Nat.add_assoc, Nat.add_right_comm] at this
    · rw [if_pos h0]
      refine iff_of_false (by simp) fun h => h0 ?_
      exact h 0 (by simp)

theorem pollAll_eq_none {j n : Nat} :
    pollAll net j n = none ↔ ∀ i, i < n → net.wcStatus (j + i) = 0 := by
  induction n generalizing j with
  | zero => simp [pollAll]
  | succ n ih =>
    rw [pollAll]
    by_cases h0 : net.wcStatus j = 0
    · rw [if_neg (not_not.mpr h0), ih]
      constructor
      · intro h i hi
        cases i with
        | zero => exact h0
        | succ i =>
          rw [← Nat.add_assoc, Nat.add_right_comm]
          exact h i (by omega)
      · intro h i hi
        have := h (i + 1) (by omega)
        rwa [← Nat.add_assoc, Nat.add_right_comm] at this
    · rw [if_pos h0]
      exact iff_of_false (by simp) fun h => h0 (h 0 (by omega))

/-- `Sync` throws exactly if there is something to send and something fails. -/
theorem syncOver_eq_none :
    (syncOver net t).2 = none ↔ t.master.modifications = [] ∨ net.Reliable t.backups.length := by
  unfold syncOver
  by_cases hnil : t.master.modifications = []
  · rw [if_pos (List.length_eq_zero_iff.mpr hnil)]
    exact iff_of_true rfl (Or.inl hnil)
  · rw [if_neg fun h => hnil (List.length_eq_zero_iff.mp h)]
    apply Option.or_eq_none_iff.trans
    rw [postAll_eq_none, pollAll_eq_none]
    simp only [Nat.zero_add]
    constructor
    · rintro ⟨hpost, hpoll⟩
      exact Or.inr fun k hk => ⟨hpost k hk, hpoll k hk⟩
    · intro h
      have hrel := h.resolve_left hnil
      exact ⟨fun k hk => (hrel k hk).1, fun k hk => (hrel k hk).2⟩

/-- Without failures this is the `Sync` of `Nvds.Tablet.Sync`. -/
theorem syncOver_of_reliable (h : net.Reliable t.backups.length)
    (hlands : ∀ k, k < t.backups.length → net.lands k = true) : syncOver net t = (sync t, none) := by
  -- every post is accepted and every write lands, backup by backup
  have hpost : ∀ (master : Nvm) (ws : List Modification) (bs : List Mem) (k : Nat),
      (∀ i, i < bs.length → net.postSend (k + i) = 0 ∧ net.lands (k + i) = true) →
      postAll net master ws k bs = (bs.map fun b => ws.foldl (rdmaWrite master) b, none) := by
    intro master ws bs
    induction bs with
    | nil => exact fun _ _ => rfl
    | cons b bs ih =>
      intro k hk
      obtain ⟨h0, hl⟩ := hk 0 (by simp)
      rw [Nat.add_zero] at h0 hl
      have hrest := ih (k + 1) fun i hi => by
        have := hk (i + 1) (by simpa using hi)
        rwa [← Nat.add_assoc, Nat.add_right_comm] at this
      rw [postAll, if_neg (not_not.mpr h0), if_pos hl, hrest]
      rfl
  -- and every completion is a success
  have hpoll : pollAll net 0 t.backups.length = none := by
    rw [pollAll_eq_none]
    intro i hi
    rw [Nat.zero_add]
    exact (h i hi).2
  unfold syncOver sync
  by_cases hnil : t.master.modifications.length = 0
  · rw [if_pos hnil, if_pos hnil]
  · rw [if_neg hnil, if_neg hnil]
    have hrun := hpost t.master (workRequests (mergeModifications t.master.modifications))
      t.backups 0 fun i hi => by rw [Nat.zero_add]; exact ⟨(h i hi).1, hlands i hi⟩
    simp only [hrun, hpoll, Option.or_none]

/-! ### When a request changes something -/

/-- The request finds nothing to do: an `ADD` of a key that an object of its bucket has, or a
    `DEL` in an empty bucket. -/
def Refused (m : Mem) (r : Request) : Prop :=
  (r.type = .add ∧ ∃ p, InChain m (slotOf (bucketOf r)) p ∧ keyAt m p = r.key) ∨
    (r.type = .del ∧ word m (slotOf (bucketOf r)) = 0)

/-- The chain behind a place is the first object and the chain behind that. -/
theorem inChain_iff {m : Mem} {a x : Nat} :
    InChain m a x ↔ word m a ≠ 0 ∧ (x = word m a ∨ InChain m (word m a) x) := by
  constructor
  · intro h
    induction h with
    | head h0 => exact ⟨h0, Or.inl rfl⟩
    | next _ h0 ih =>
      refine ⟨ih.1, Or.inr ?_⟩
      rcases ih.2 with rfl | hp
      · exact .head h0
      · exact .next hp h0
  · rintro ⟨h0, rfl | h⟩
    · exact .head h0
    · induction h with
      | head h1 => exact .next (.head h0) h1
      | next _ h1 ih => exact .next ih h1

/-- The walk finds an object exactly if one of the chain has the key. -/
theorem search_result {q a : Nat} {x : Nat × Nat}
    (h : search r fuel q (word s.mem a) s = .ok (x, s')) :
    s = s' ∧ (x.2 ≠ 0 ↔ ∃ p, InChain s.mem a p ∧ keyAt s.mem p = r.key) := by
  -- along the chain, with the object at `a` first
  induction fuel generalizing q a with
  | zero => cases h
  | succ fuel ih =>
    rw [search] at h
    by_cases h0 : word s.mem a = 0
    · rw [if_pos h0] at h
      cases h
      refine ⟨rfl, iff_of_false (not_not.mpr rfl) ?_⟩
      rintro ⟨p, hp, _⟩
      exact (inChain_iff.mp hp).1 h0
    · rw [if_neg h0] at h
      obtain ⟨found, s₁, hsame, h⟩ := bind_eq_ok.mp h
      obtain ⟨rfl, htest⟩ := sameKey_result hsame
      cases found with
      | true =>
        cases h
        exact ⟨rfl, iff_of_true h0 ⟨_, .head h0, htest.mp rfl⟩⟩
      | false =>
        obtain ⟨next, s₂, hread, h⟩ := bind_eq_ok.mp h
        obtain ⟨rfl, rfl⟩ := read_result hread
        rw [u32_of_lt (word_lt s.mem a)] at h
        obtain ⟨rfl, hrest⟩ := ih h
        refine ⟨rfl, hrest.trans ⟨?_, ?_⟩⟩
        · rintro ⟨p, hp, hkey⟩
          exact ⟨p, inChain_iff.mpr ⟨h0, Or.inr hp⟩, hkey⟩
        · rintro ⟨p, hp, hkey⟩
          -- it is not the object whose key was just compared
          rcases (inChain_iff.mp hp).2 with rfl | hp
          · exact absurd (htest.mpr hkey) Bool.false_ne_true
          · exact ⟨p, hp, hkey⟩

theorem write_recorded {off : Nat} {bs : List UInt8} {u : Unit}
    (h : Allocator.write true off bs s = .ok (u, s')) : s'.modifications ≠ [] := by
  rw [write_result h]
  exact List.append_ne_nil_of_right_ne_nil _ (List.cons_ne_nil _ _)

theorem memcpy_recorded {off : Nat} {bs : List UInt8} {u : Unit}
    (h : memcpy off bs s = .ok (u, s')) : s'.modifications ≠ [] := by
  rw [memcpy_result h]
  exact List.append_ne_nil_of_right_ne_nil _ (List.cons_ne_nil _ _)

theorem insertHead_result {slot head : Nat} {status : Status}
    (h : insertHead r slot head s = .ok (status, s')) :
    status = .ok ∧ s'.modifications ≠ [] := by
  obtain ⟨p, s₁, _, h⟩ := bind_eq_ok.mp h
  obtain ⟨_, s₂, hwrite, h⟩ := bind_eq_ok.mp h
  cases h
  exact ⟨rfl, write_recorded hwrite⟩

theorem put_result {status : Status} (h : put fuel r s = .ok (status, s')) :
    status = .ok ∧ s'.modifications ≠ [] := by
  obtain ⟨_, s₁, _, h⟩ := bind_eq_ok.mp h
  obtain ⟨head, s₂, _, h⟩ := bind_eq_ok.mp h
  obtain ⟨⟨q, p⟩, s₃, _, h⟩ := bind_eq_ok.mp h
  simp only at h
  split at h
  · obtain ⟨valLen, s₄, _, h⟩ := bind_eq_ok.mp h
    split at h
    · obtain ⟨_, s₅, _, h⟩ := bind_eq_ok.mp h
      obtain ⟨_, s₆, hcopy, h⟩ := bind_eq_ok.mp h
      cases h
      exact ⟨rfl, memcpy_recorded hcopy⟩
    · obtain ⟨next, s₅, _, h⟩ := bind_eq_ok.mp h
      obtain ⟨_, s₆, _, h⟩ := bind_eq_ok.mp h
      obtain ⟨p', s₇, _, h⟩ := bind_eq_ok.mp h
      obtain ⟨_, s₈, hwrite, h⟩ := bind_eq_ok.mp h
      cases h
      exact ⟨rfl, write_recorded hwrite⟩
  · exact insertHead_result h

theorem add_result {status : Status} (h : add fuel r s = .ok (status, s')) :
    (status = .error ∧ s = s' ∧ Refused s.mem r) ∨
      (status = .ok ∧ s'.modifications ≠ [] ∧ ¬ Refused s.mem r) := by
  obtain ⟨_, s₁, hassert, h⟩ := bind_eq_ok.mp h
  obtain ⟨ht, rfl⟩ := assert_result hassert
  rw [bind_of_ok (read_slot r)] at h
  obtain ⟨⟨q, p⟩, s₃, hsearch, h⟩ := bind_eq_ok.mp h
  obtain ⟨rfl, hfound⟩ := search_result hsearch
  simp only at h
  split at h
  case isTrue hp =>
    cases h
    exact Or.inl ⟨rfl, rfl, Or.inl ⟨ht, hfound.mp hp⟩⟩
  case isFalse hp =>
    obtain ⟨hok, hrec⟩ := insertHead_result h
    refine Or.inr ⟨hok, hrec, ?_⟩
    rintro (⟨_, hin⟩ | ⟨ht', _⟩)
    · exact hp (hfound.mpr hin)
    · rw [ht] at ht'
      cases ht'

/-- A loop of `Del` that returns has unlinked an object, if there was one. -/
theorem delLoop_result {q p : Nat} {status : Status} (hp : p ≠ 0)
    (h : delLoop r q p fuel s = .ok (status, s')) : status = .ok ∧ s'.modifications ≠ [] := by
  induction fuel generalizing s with
  | zero => cases h
  | succ fuel ih =>
    rw [delLoop, if_neg hp] at h
    obtain ⟨found, s₁, _, h⟩ := bind_eq_ok.mp h
    cases found with
    | true =>
      obtain ⟨next, s₂, _, h⟩ := bind_eq_ok.mp h
      obtain ⟨_, s₃, hwrite, h⟩ := bind_eq_ok.mp h
      obtain ⟨_, s₄, hfree, h⟩ := bind_eq_ok.mp h
      cases h
      obtain ⟨L, hlog⟩ := free_tracks true p hfree
      refine ⟨rfl, ?_⟩
      rw [hlog.log]
      exact List.append_ne_nil_of_left_ne_nil (write_recorded hwrite) _
    | false => exact ih h

theorem del_result {status : Status} (h : del fuel r s = .ok (status, s')) :
    (status = .error ∧ s = s' ∧ Refused s.mem r) ∨
      (status = .ok ∧ s'.modifications ≠ [] ∧ ¬ Refused s.mem r) := by
  obtain ⟨_, s₁, hassert, h⟩ := bind_eq_ok.mp h
  obtain ⟨ht, rfl⟩ := assert_result hassert
  rw [bind_of_ok (read_slot r)] at h
  by_cases h0 : word s.mem (slotOf (bucketOf r)) = 0
  · cases fuel with
    | zero => cases h
    | succ fuel =>
      rw [delLoop, if_pos h0] at h
      cases h
      exact Or.inl ⟨rfl, rfl, Or.inr ⟨ht, h0⟩⟩
  · obtain ⟨hok, hrec⟩ := delLoop_result h0 h
    refine Or.inr ⟨hok, hrec, ?_⟩
    rintro (⟨ht', _⟩ | ⟨_, hslot⟩)
    · rw [ht] at ht'
      cases ht'
    · exact h0 hslot

/-- A mutation that returns is refused and records nothing, or it returns `OK` and has
    recorded something. -/
theorem serve_result {resp : Response} (hr : r.type ≠ .get)
    (h : serve fuel r s = .ok (resp, s')) :
    (resp.status = .error ∧ s'.modifications = [] ∧ Refused s.mem r) ∨
      (resp.status = .ok ∧ s'.modifications ≠ [] ∧ ¬ Refused s.mem r) := by
  obtain ⟨_, s₁, hclear, h⟩ := bind_eq_ok.mp h
  cases hclear
  unfold dispatch at h
  -- a modification answers with what its function returns
  cases ht : r.type with
  | put =>
    rw [ht] at h
    obtain ⟨status, s₂, hput, h⟩ := bind_eq_ok.mp h
    obtain ⟨rfl, hrec⟩ := put_result hput
    cases h
    refine Or.inr ⟨rfl, hrec, ?_⟩
    rintro (⟨ht', _⟩ | ⟨ht', _⟩)
    · rw [ht] at ht'
      cases ht'
    · rw [ht] at ht'
      cases ht'
  | add =>
    rw [ht] at h
    obtain ⟨status, s₂, hadd, h⟩ := bind_eq_ok.mp h
    rcases add_result hadd with ⟨rfl, rfl, href⟩ | ⟨rfl, hrec, href⟩
    · cases h
      exact Or.inl ⟨rfl, rfl, href⟩
    · cases h
      exact Or.inr ⟨rfl, hrec, href⟩
  | del =>
    rw [ht] at h
    obtain ⟨status, s₂, hdel, h⟩ := bind_eq_ok.mp h
    rcases del_result hdel with ⟨rfl, rfl, href⟩ | ⟨rfl, hrec, href⟩
    · cases h
      exact Or.inl ⟨rfl, rfl, href⟩
    · cases h
      exact Or.inr ⟨rfl, hrec, href⟩
  | get => exact absurd ht hr

/-! ### Acknowledging -/

/-- A mutation that was not replicated is not acknowledged: if `Sync` throws, the response
    that is posted does not carry `OK`. -/
def NotAcknowledged (net : Network) (fuel : Nat) (r : Request) (t : Replicated) : Prop :=
  ∀ out, serveOver net fuel r t = .ok out → out.caught ≠ none → out.posted.status ≠ .ok

/-- **Acknowledgement.** A `PUT`, `ADD` or `DEL` that is answered is not acknowledged without
    having been replicated exactly if nothing fails on the way to the backups, or the request
    is refused. -/
theorem notAcknowledged_iff (hr : r.type ≠ .get)
    (hreturns : ∃ resp s, serve fuel r t.master = .ok (resp, s)) :
    NotAcknowledged net fuel r t ↔ net.Reliable t.backups.length ∨ Refused t.master.mem r := by
  obtain ⟨resp, s, hserve⟩ := hreturns
  -- the handler returns, and what is caught is a failure of `Sync`
  have hround : serveOver net fuel r t =
      .ok ⟨resp, (syncOver net ⟨s, t.backups⟩).2, (syncOver net ⟨s, t.backups⟩).1⟩ := by
    unfold serveOver
    rw [hserve]
  have hsync : (syncOver net ⟨s, t.backups⟩).2 = none ↔ _ := syncOver_eq_none
  constructor
  · intro h
    have hout := h _ hround
    rcases serve_result hr hserve with ⟨_, _, href⟩ | ⟨hok, hrec, _⟩
    · exact Or.inr href
    · left
      -- were the network reliable, nothing would be caught, and the status would be `OK`
      by_contra hrel
      refine hout (fun hnone => ?_) hok
      rcases hsync.mp hnone with hnil | hrel'
      · exact hrec hnil
      · exact hrel hrel'
  · intro h out hout hcaught
    rw [hround] at hout
    cases hout
    rcases serve_result hr hserve with ⟨herr, _, _⟩ | ⟨_, _, href⟩
    · rw [herr]
      decide
    · exact absurd (hsync.mpr (Or.inr (h.resolve_right href))) hcaught

/-- A formatted tablet with one backup. -/
def formattedPair : Replicated := ⟨formatted true, [(formatted true).mem]⟩

theorem notAcknowledged_iff_putOne :
    NotAcknowledged ⟨fun _ => 0, fun _ => 0, fun _ => true⟩ 2 (putOne 7) formattedPair := by
  have hpass : (serve 2 (putOne 7) (formatted true)).isOk = true := by
    decide +kernel
  refine (notAcknowledged_iff (by decide) ?_).mpr (Or.inl fun _ _ => ⟨rfl, rfl⟩)
  cases hrun : serve 2 (putOne 7) (formatted true) with
  | error e =>
    rw [hrun] at hpass
    cases hpass
  | ok p => exact ⟨p.1, p.2, hrun⟩

/-- The backup cannot be reached: the completion is `IBV_WC_RETRY_EXC_ERR`. -/
def unreachable : Network := ⟨fun _ => 0, fun _ => 12, fun _ => false⟩

theorem exists_acknowledged : ∃ out,
    serveOver unreachable 2 (putOne 7) formattedPair = .ok out ∧
    out.caught = some (.completion 12) ∧ out.posted.status = .ok ∧
    ¬ NotAcknowledged unreachable 2 (putOne 7) formattedPair := by
  have hdec : (serveOver unreachable 2 (putOne 7) formattedPair).toOption.map
      (fun out => (out.caught, out.posted.status)) = some (some (.completion 12), .ok) := by
    decide +kernel
  cases hrun : serveOver unreachable 2 (putOne 7) formattedPair with
  | error e =>
    rw [hrun] at hdec
    cases hdec
  | ok out =>
    rw [hrun] at hdec
    obtain ⟨hcaught, hok⟩ := Prod.mk.inj (Option.some.inj hdec)
    have hne : out.caught ≠ none := by
      rw [hcaught]
      simp
    exact ⟨out, rfl, hcaught, hok, fun h => h out hrun hne hok⟩

end Nvds.Tablet
