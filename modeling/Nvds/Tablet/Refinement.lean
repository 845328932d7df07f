import Nvds.Tablet.Requests

/-! # A tablet is a finite map

    Runs of `PUT`, `ADD` and `GET` from a fresh tablet. As long as no
    assertion fails and every replaced object is freed cleanly, the tablet
    answers as the abstract map does.
-/

open ByteMemory Program LinkedList Nvds.Allocator

namespace Nvds.Tablet

/-! ### Runs -/

/-- The answers of the abstract map. -/
def Store.serveAll (M : Store) : List Request → List Response
  | [] => []
  | r :: rs => (M.serve r).1 :: (M.serve r).2.serveAll rs

/-- The map after them. -/
def Store.after (M : Store) (rs : List Request) : Store := rs.foldl (fun M r => (M.serve r).2) M

/-- A `PUT`, `ADD` or `GET` of an item that is not too large, under the hash of
    its key. -/
structure Plain (hash : List UInt8 → Nat) (r : Request) : Prop where
  type : r.type ≠ .del
  hash : r.keyHash = hash r.key
  size : r.key.length + r.val.length ≤ kMaxItemSize

/-- A tablet as it is constructed: formatted, with an empty hash table. -/
def FreshTablet (s : Nvm) : Prop :=
  (∃ s₀, format true s₀ = .ok ((), s)) ∧
    ∀ a, kSize ≤ a → a < kNVMTabletSize → s.mem a = 0

/-- Every `PUT` of the run that replaces an object frees it cleanly. -/
def CleanRun (fuel : Nat) : Nvm → List Request → Prop
  | _, [] => True
  | s, r :: rs => CleanReplace s.mem r ∧
    ∀ resp s', serve fuel r s = .ok (resp, s') → CleanRun fuel s' rs

variable {hash : List UInt8 → Nat} {σ : Shape} {ch : Nat → List Entry} {M : Store} {s : Nvm}
  {r : Request}

/-- A fresh tablet is well-formed and represents the empty map. -/
theorem tabletInv_fresh (hash : List UInt8 → Nat) (h : FreshTablet s) :
    TabletInv hash s.mem Shape.fresh (fun _ => []) ∧
      Represents hash (fun _ => []) fun _ => none := by
  obtain ⟨⟨s₀, hs₀⟩, hzero⟩ := h
  obtain ⟨s', hrun, _, _, hheap, _⟩ := format_run true s₀
  obtain rfl : s = s' := by
    rw [hs₀] at hrun
    injection hrun with hrun
    exact (Prod.mk.inj hrun).2
  constructor
  · refine ⟨hheap, fresh_roomy true, ?_⟩
    intro i hi
    obtain ⟨hlo, hB, _⟩ := slotOf_bounds hi
    refine ⟨?_, fun e he => absurd he List.not_mem_nil, fun e he => absurd he List.not_mem_nil,
      fun e he => absurd he List.not_mem_nil, List.nodup_nil⟩
    -- the slot is 0
    have hword : word s.mem (slotOf i) = word (fun _ => 0) (slotOf i) := by
      apply word_congr
      intro a h₁ h₂
      exact hzero a (by simp; omega) (by omega)
    show word s.mem (slotOf i) = 0
    rw [hword]
    rfl
  · intro k v
    constructor
    · intro hv
      cases hv
    · intro ⟨e, he, _⟩
      cases he

/-- **One request.** The tablet fails an assertion, or answers as the map does and
    represents the new map. -/
theorem serve_run (h : TabletInv hash s.mem σ ch) (hM : Represents hash ch M) (hr : Plain hash r)
    (hclean : CleanReplace s.mem r) {fuel : Nat} (hfuel : (ch (bucketOf r)).length < fuel) :
    serve fuel r s = .error .assertion ∨
    ∃ s' σ' ch', serve fuel r s = .ok ((M.serve r).1, s') ∧ TabletInv hash s'.mem σ' ch' ∧
      Represents hash ch' (M.serve r).2 ∧ ∀ j, (ch' j).length ≤ (ch j).length + 1 := by
  obtain ⟨s₀, hs₀⟩ : ∃ s₀ : Nvm, s₀ = { s with modifications := [] } := ⟨_, rfl⟩
  have h₀ : TabletInv hash s₀.mem σ ch := by
    rw [hs₀]
    exact h
  have hclean₀ : CleanReplace s₀.mem r := by
    rw [hs₀]
    exact hclean
  have hserve : serve fuel r s = dispatch fuel r s₀ := by
    rw [hs₀]
    rfl
  rw [hserve]
  unfold dispatch Store.serve
  -- each handler answers as the store does; `Put` and `Add` may fail an assertion instead
  cases ht : r.type with
  | put =>
    dsimp only
    rcases put_run h₀ hM ht hr.hash hr.size hclean₀ hfuel with
      hrun | ⟨s', σ', ch', hrun, hinv, hrep, hlen⟩
    · left
      exact bind_of_error hrun
    · right
      exact ⟨s', σ', ch', by rw [bind_of_ok hrun, pure_run], hinv, hrep, hlen⟩
  | add =>
    dsimp only
    rcases add_run h₀ hM ht hr.hash hr.size hfuel with
      ⟨v, hv, hrun⟩ | ⟨hv, hrun | ⟨s', σ', ch', hrun, hinv, hrep, hlen⟩⟩
    · right
      refine ⟨s₀, σ, ch, ?_, h₀, ?_, fun j => Nat.le_succ _⟩
      · rw [bind_of_ok hrun, pure_run, hv]
      · rw [hv]
        exact hM
    · left
      exact bind_of_error hrun
    · right
      refine ⟨s', σ', ch', ?_, hinv, ?_, hlen⟩
      · rw [bind_of_ok hrun, pure_run, hv]
      · rw [hv]
        exact hrep
  | get =>
    dsimp only
    right
    have hrun := get_run h₀.wellFormed.chains hM ht hr.hash hfuel
    cases hv : M r.key with
    | none =>
      rw [hv] at hrun
      exact ⟨s₀, σ, ch, by rw [bind_of_ok hrun]; rfl, h₀, hM, fun j => Nat.le_succ _⟩
    | some v =>
      rw [hv] at hrun
      exact ⟨s₀, σ, ch, by rw [bind_of_ok hrun]; rfl, h₀, hM, fun j => Nat.le_succ _⟩
  | del => exact absurd ht hr.type

/-- A run from a tablet that represents `M`. -/
theorem serveAll_run {rs : List Request} {n fuel : Nat} (h : TabletInv hash s.mem σ ch)
    (hM : Represents hash ch M) (hlen : ∀ j, (ch j).length ≤ n) (hrs : ∀ r ∈ rs, Plain hash r)
    (hfuel : n + rs.length < fuel) (hclean : CleanRun fuel s rs) :
    serveAll fuel rs s = .error .assertion ∨
    ∃ s' σ' ch', serveAll fuel rs s = .ok (M.serveAll rs, s') ∧ TabletInv hash s'.mem σ' ch' ∧
      Represents hash ch' (M.after rs) := by
  -- on the requests; `n` bounds the length of the chains, and grows by one with each request
  induction rs generalizing s σ ch M n with
  | nil =>
    right
    exact ⟨s, σ, ch, pure_run _ _, h, hM⟩
  | cons r rs ih =>
    obtain ⟨hr, hrest⟩ := hclean
    rw [List.length_cons] at hfuel
    have hlt : (ch (bucketOf r)).length < fuel := by
      have := hlen (bucketOf r)
      omega
    unfold serveAll
    rcases serve_run h hM (hrs r List.mem_cons_self) hr hlt with
      hrun | ⟨s₁, σ₁, ch₁, hrun, hinv, hrep, hlen₁⟩
    · left
      exact bind_of_error hrun
    · rw [bind_of_ok hrun]
      have hlen' : ∀ j, (ch₁ j).length ≤ n + 1 := fun j =>
        (hlen₁ j).trans (Nat.add_le_add_right (hlen j) 1)
      rcases ih hinv hrep hlen' (fun x hx => hrs x (List.mem_cons_of_mem _ hx)) (by omega)
          (hrest _ _ hrun) with herr | ⟨s', σ', ch', hok, hinv', hrep'⟩
      · left
        exact bind_of_error herr
      · right
        exact ⟨s', σ', ch', by rw [bind_of_ok hok]; rfl, hinv', hrep'⟩

/-- **Refinement.** A fresh tablet answers every run of `PUT`, `ADD` and `GET` as
    the finite map does, up to the first assertion that fails, provided every
    replaced object is freed cleanly. -/
theorem serveAll_refines {rs : List Request} {fuel : Nat} (hs : FreshTablet s)
    (hrs : ∀ r ∈ rs, Plain hash r) (hfuel : rs.length < fuel) (hclean : CleanRun fuel s rs) :
    serveAll fuel rs s = .error .assertion ∨
    ∃ s', serveAll fuel rs s = .ok (Store.serveAll (fun _ => none) rs, s') := by
  obtain ⟨hinv, hrep⟩ := tabletInv_fresh hash hs
  rcases serveAll_run (n := 0) hinv hrep (fun _ => le_rfl) hrs (by omega) hclean with
    herr | ⟨s', _, _, hok, _⟩
  · exact Or.inl herr
  · exact Or.inr ⟨s', hok⟩

theorem freshTablet_formatted : FreshTablet (formatted true) := by
  obtain ⟨s', hrun, _, _, _, _, hkeep⟩ := format_run true ⟨0, fun _ => 0, []⟩
  have heq : formatted true = s' := by
    have h := (format_formatted true).symm.trans hrun
    injection h with h
    exact (Prod.mk.inj h).2
  refine ⟨⟨_, format_formatted true⟩, ?_⟩
  intro a ha _
  rw [heq, hkeep a ha]

/-- A request of type `t` with key `k` and value `v`, hashed by its first byte. -/
def request (t : RequestType) (k : UInt8) (v : List UInt8) (hv : v.length < 65536) : Request :=
  ⟨t, [k], v, k.toNat, by simp, hv, by have := k.toNat_lt; omega⟩

/-- The hash of `request`. -/
def firstByte (k : List UInt8) : Nat := (k.headD 0).toNat

theorem not_inChain {m : Mem} {slot p : Nat} (h : word m slot = 0) : ¬ InChain m slot p := by
  intro hp
  induction hp with
  | head h0 => exact h0 h
  | next _ _ ih => exact ih

theorem inChain_of_single {m : Mem} {slot p : Nat} (hend : word m (word m slot) = 0)
    (h : InChain m slot p) : p = word m slot := by
  induction h with
  | head => rfl
  | next _ h0 ih =>
    rw [ih] at h0
    exact absurd hend h0

/-- A request that is no `PUT` replaces nothing. -/
theorem cleanReplace_of_ne {m : Mem} {r : Request} (h : r.type ≠ .put) : CleanReplace m r :=
  fun ht => absurd ht h

theorem cleanReplace_of_empty {m : Mem} {r : Request} (h : word m (slotOf (bucketOf r)) = 0) :
    CleanReplace m r :=
  fun _ _ hp => absurd hp (not_inChain h)

/-- The only object of a bucket may be replaced if its block is freed cleanly. -/
theorem cleanReplace_of_single {m : Mem} {r : Request}
    (hend : word m (word m (slotOf (bucketOf r))) = 0)
    (h : FreesCleanly m (word m (slotOf (bucketOf r)) - 4)) : CleanReplace m r := by
  intro _ p hp _ _ _
  rw [inChain_of_single hend hp]
  exact h

/-- If it has another key, it stays. -/
theorem cleanReplace_of_other {m : Mem} {r : Request}
    (hend : word m (word m (slotOf (bucketOf r))) = 0)
    (h : loadNat m (word m (slotOf (bucketOf r)) + offsetofKeyLen) 2 ≠ r.key.length) :
    CleanReplace m r := by
  intro _ p hp hlen
  rw [inChain_of_single hend hp] at hlen
  exact absurd hlen h

/-- A run takes its first request, and then the others. -/
theorem cleanRun_cons {fuel : Nat} {rs : List Request} {P : Nvm → Prop} [DecidablePred P]
    (hr : CleanReplace s.mem r)
    (hP : (serve fuel r s).toOption.all (fun x => decide (P x.2)) = true)
    (hrest : ∀ s', P s' → CleanRun fuel s' rs) : CleanRun fuel s (r :: rs) := by
  refine ⟨hr, fun resp s' hrun => hrest s' ?_⟩
  rw [hrun] at hP
  exact of_decide_eq_true hP

/-- A value is replaced by a longer one, while another key is bound. -/
def replacing : List Request :=
  [request .put 2 [4] (by decide), request .put 1 [2, 3] (by decide),
   request .put 1 (List.replicate 20 7) (by decide), request .get 1 [] (by decide),
   request .get 2 [] (by decide)]

theorem serveAll_refines_put : ∃ s', serveAll 6 replacing (formatted true) =
    .ok (List.replicate 3 ⟨.put, .ok, []⟩ ++ [⟨.get, .ok, List.replicate 20 7⟩,
      ⟨.get, .ok, [4]⟩], s') := by
  have hplain : ∀ r ∈ replacing, Plain firstByte r := by
    unfold replacing
    simp only [List.forall_mem_cons]
    refine ⟨?_, ?_, ?_, ?_, ?_, fun _ h => absurd h List.not_mem_nil⟩ <;>
      exact ⟨by decide, by decide, by decide⟩
  let slot := slotOf (bucketOf (request .put 1 [] (by decide)))
  -- the block of the value that is replaced is merged with the free block before it
  have hclean : CleanRun 6 (formatted true) replacing := by
    let Q : Nvm → Prop := fun s₂ =>
      word s₂.mem (word s₂.mem slot) = 0 ∧ FreesCleanly s₂.mem (word s₂.mem slot - 4)
    refine cleanRun_cons (P := fun s₁ => word s₁.mem slot = 0 ∧
        (serve 6 (request .put 1 [2, 3] (by decide)) s₁).toOption.all (fun x => decide (Q x.2)) =
          true) (cleanReplace_of_empty (by decide +kernel)) (by decide +kernel) ?_
    rintro s₁ ⟨hempty, hsecond⟩
    refine cleanRun_cons (P := Q) (cleanReplace_of_empty hempty) hsecond ?_
    rintro s₂ ⟨hend, hfree⟩
    refine ⟨cleanReplace_of_single hend hfree, fun _ _ _ => ?_⟩
    exact ⟨cleanReplace_of_ne (by decide), fun _ _ _ =>
      ⟨cleanReplace_of_ne (by decide), fun _ _ _ => trivial⟩⟩
  have hpass : (serveAll 6 replacing (formatted true)).isOk = true := by
    decide +kernel
  rcases serveAll_refines freshTablet_formatted hplain (by decide) hclean with herr | hok
  · rw [herr] at hpass
    cases hpass
  · exact hok

/-- Six requests on three keys. The value put under key 2 ends in the word 64,
    the last word of its block of 32 bytes. When the block is freed, the word
    stays, and the `Free` of the block behind it takes the object of key 3,
    64 bytes below, for a free block. -/
def clash : List Request :=
  [request .put 1 (List.replicate 11 0) (by decide),
   request .put 2 (List.replicate 7 0 ++ [64, 0, 0, 0]) (by decide),
   request .put 3 (List.replicate 11 7) (by decide),
   request .put 2 (List.replicate 60 0) (by decide),
   request .put 1 (List.replicate 60 0) (by decide),
   request .get 3 [] (by decide)]

/-- The answers to `clash` on a fresh tablet: key 3 is gone. -/
theorem serveAll_clash :
    (serveAll 8 clash (formatted true)).toOption.map (·.1) =
      some (List.replicate 5 ⟨.put, .ok, []⟩ ++ [⟨.get, .error, []⟩]) := by
  decide +kernel

/-- A tablet is not a finite map. -/
theorem exists_wrong_answer : ∃ (hash : List UInt8 → Nat) (rs : List Request) (fuel : Nat)
    (s s' : Nvm) (resps : List Response), FreshTablet s ∧ (∀ r ∈ rs, Plain hash r) ∧
    rs.length < fuel ∧ serveAll fuel rs s = .ok (resps, s') ∧
    resps ≠ Store.serveAll (fun _ => none) rs := by
  have h := serveAll_clash
  cases hrun : serveAll 8 clash (formatted true) with
  | error e =>
    rw [hrun] at h
    cases h
  | ok r =>
    obtain ⟨resps, s'⟩ := r
    rw [hrun] at h
    injection h with h
    refine ⟨firstByte, clash, 8, formatted true, s', resps, freshTablet_formatted, ?_, by decide,
      hrun, ?_⟩
    · unfold clash
      simp only [List.forall_mem_cons]
      refine ⟨?_, ?_, ?_, ?_, ?_, ?_, fun _ h => absurd h List.not_mem_nil⟩ <;>
        exact ⟨by decide, by decide, by decide⟩
    · change resps = _ at h
      rw [h]
      decide

end Nvds.Tablet
