import Nvds.Tablet.Refinement

/-! # What was in the memory before

    A server builds its tablets in memory that `malloc` returned
    (`AcquireNVM`). The constructor of `Tablet` formats the heap and leaves
    the hash table as it was: the constructor of `NVMTablet`, which fills it
    with 0, is not called. The file says which contents of the memory can be
    told from the answers of the tablet.
-/

open ByteMemory Program Nvds.Allocator

namespace Nvds.Tablet

/-! ### Construction -/

/-- The `kNVMTabletSize` bytes a tablet is built in. -/
abbrev Region := Fin kNVMTabletSize → UInt8

/-- The bytes by offset. There is nothing behind the region. -/
def Region.mem (c : Region) : Mem := fun a => if h : a < kNVMTabletSize then c ⟨a, h⟩ else 0

/-- `Tablet::Tablet` on the region `c` at the address `base`: the allocator formats its heap. -/
def newTablet (base : Nat) (c : Region) : Nvm :=
  match format true ⟨base, c.mem, []⟩ with
  | .ok (_, s) => s
  | .error _ => ⟨base, c.mem, []⟩

theorem newTablet_run (base : Nat) (c : Region) :
    format true ⟨base, c.mem, []⟩ = .ok ((), newTablet base c) := by
  obtain ⟨s, hs, _⟩ := format_run true ⟨base, c.mem, []⟩
  rw [hs]
  unfold newTablet
  rw [hs]

/-- The answers to a sequence of requests, up to the first one that does not return. -/
def answers (fuel : Nat) : List Request → Nvm → List (Except Fault Response)
  | [], _ => []
  | r :: rs, s =>
    match serve fuel r s with
    | .ok (resp, s') => .ok resp :: answers fuel rs s'
    | .error e => [.error e]

/-- Every `GET` returns `ERROR`. -/
def NothingBound (s : Nvm) : Prop :=
  ∀ r : Request, r.type = .get →
    ∃ n, ∀ fuel, n ≤ fuel → ∃ s', get fuel r s = .ok ((.error, []), s')

/-- The region does not show: tablets built in `c` and in `c'` give the same answers, and a
    new tablet binds no key. -/
structure StartsAlike (base : Nat) (c c' : Region) : Prop where
  same : ∀ fuel rs, answers fuel rs (newTablet base c) = answers fuel rs (newTablet base c')
  left : NothingBound (newTablet base c)
  right : NothingBound (newTablet base c')

/-- The bytes of the hash table are 0. -/
def Region.TableZero (c : Region) : Prop := ∀ a, kSize ≤ a.val → c a = 0

variable {base : Nat} {c c' : Region} {s s' : Nvm} {r : Request}

/-- The bytes of the hash table are those of the region. -/
theorem newTablet_table (base : Nat) (c : Region) {a : Nat} (ha : kSize ≤ a) :
    (newTablet base c).mem a = c.mem a := by
  obtain ⟨s', hrun, _, _, _, _, hkeep⟩ := format_run true ⟨base, c.mem, []⟩
  rw [newTablet_run] at hrun
  cases hrun
  exact hkeep a ha

/-- `Format` reads no byte of the region before it has written it. -/
theorem newTablet_congr (h : ∀ a, kSize ≤ a → c.mem a = c'.mem a) :
    newTablet base c = newTablet base c' := by
  have hmem : (fun a => if a < kSize then 0 else c.mem a) =
      fun a => if a < kSize then 0 else c'.mem a := by
    funext a
    by_cases ha : a < kSize
    · rw [if_pos ha, if_pos ha]
    · rw [if_neg ha, if_neg ha, h a (by omega)]
  -- the state behind the `memset`
  have hset : ∀ m : Mem, (modify fun s => { s with
      mem := fun a => if a < kSize then 0 else s.mem a, modifications := [] } : NvmM Unit)
      ⟨base, m, []⟩ = .ok ((), ⟨base, fun a => if a < kSize then 0 else m a, []⟩) := fun _ => rfl
  have hrun : format true ⟨base, c.mem, []⟩ = format true ⟨base, c'.mem, []⟩ := by
    unfold format
    rw [bind_of_ok (hset c.mem), bind_of_ok (hset c'.mem), hmem]
  rw [newTablet_run, newTablet_run] at hrun
  injection hrun with hrun
  exact (Prod.mk.inj hrun).2

theorem Region.TableZero.mem_eq (h : c.TableZero) {a : Nat} (ha : kSize ≤ a) : c.mem a = 0 := by
  unfold Region.mem
  by_cases hlt : a < kNVMTabletSize
  · rw [dif_pos hlt]
    exact h ⟨a, hlt⟩ ha
  · rw [dif_neg hlt]

/-! ### A bucket that is not empty -/

/-- A `GET` of the bytes that a head of a bucket leads to does not return `ERROR`. -/
theorem get_leftover {i : Nat} (hi : i < kHashTableSize) (h0 : word s.mem (slotOf i) ≠ 0) :
    ∃ r : Request, r.type = .get ∧
      ∀ fuel val s', get fuel r s ≠ .ok ((.error, val), s') := by
  obtain ⟨p, hp⟩ : ∃ p, p = word s.mem (slotOf i) := ⟨_, rfl⟩
  rw [← hp] at h0
  have hhash : i < 18446744073709551616 := by
    rw [kHashTableSize_eq] at hi
    omega
  refine ⟨⟨.get, keyAt s.mem p, [], i, keyAt_length_lt _ _, nil_length_lt, hhash⟩, rfl, ?_⟩
  obtain ⟨r, hr⟩ : ∃ r : Request, r =
    ⟨.get, keyAt s.mem p, [], i, keyAt_length_lt _ _, nil_length_lt, hhash⟩ := ⟨_, rfl⟩
  rw [← hr]
  have hkey : r.key = keyAt s.mem p := by rw [hr]
  have hslot : slotOf (bucketOf r) = slotOf i := by
    rw [bucketOf, hr, Nat.mod_eq_of_lt hi]
  intro fuel val s' hrun
  unfold get at hrun
  rw [assert_of (show r.type = .get by rw [hr]), bind_of_ok (pure_run _ _),
    bind_of_ok (read_slot r), hslot, ← hp] at hrun
  obtain ⟨⟨q, found⟩, s₁, hsearch, hrun⟩ := bind_eq_ok.mp hrun
  cases fuel with
  | zero => cases hsearch
  | succ fuel =>
    rw [search, if_neg h0] at hsearch
    obtain ⟨same, s₂, hsame, hsearch⟩ := bind_eq_ok.mp hsearch
    obtain ⟨rfl, htest⟩ := sameKey_result hsame
    rw [if_pos (htest.mpr hkey.symm)] at hsearch
    cases hsearch
    -- the object is found, so the status is `OK`
    simp only [if_pos h0] at hrun
    obtain ⟨len, s₃, _, hrun⟩ := bind_eq_ok.mp hrun
    obtain ⟨v, s₄, _, hrun⟩ := bind_eq_ok.mp hrun
    cases hrun

theorem get_empty (ht : r.type = .get) (h0 : word s.mem (slotOf (bucketOf r)) = 0) :
    ∀ fuel, 1 ≤ fuel → get fuel r s = .ok ((.error, []), s) := by
  intro fuel hfuel
  obtain ⟨n, rfl⟩ := Nat.exists_eq_succ_of_ne_zero (by omega : fuel ≠ 0)
  unfold get
  rw [assert_of ht, bind_of_ok (pure_run _ _), bind_of_ok (read_slot r), h0, search, if_pos rfl]
  rfl

/-! ### The hash table -/

theorem Region.tableZero_iff (base : Nat) (c : Region) :
    c.TableZero ↔ ∀ i, i < kHashTableSize → word (newTablet base c).mem (slotOf i) = 0 := by
  constructor
  · intro h i hi
    apply leValue_eq_zero.mpr
    intro b hb
    obtain ⟨j, _, rfl⟩ := List.mem_map.mp hb
    have hlo : kSize ≤ slotOf i + j := by
      have := (slotOf_bounds hi).1
      rw [kSize_eq]
      omega
    rw [newTablet_table base c hlo]
    exact h.mem_eq hlo
  · intro h a ha
    have hlt := a.isLt.trans_eq kNVMTabletSize_eq
    rw [kSize_eq] at ha
    -- the slot of the byte
    have hi : (a.val - 67108864) / 4 < kHashTableSize := by
      rw [kHashTableSize_eq]
      omega
    have hplace : slotOf ((a.val - 67108864) / 4) + (a.val - 67108864) % 4 = a.val := by
      rw [slotOf, offsetofHashTable_eq]
      omega
    have hmem : (newTablet base c).mem a.val ∈
        load (newTablet base c).mem (slotOf ((a.val - 67108864) / 4)) 4 := by
      refine List.mem_map.mpr ⟨(a.val - 67108864) % 4, List.mem_range.mpr (by omega), ?_⟩
      rw [hplace]
    have hbyte := leValue_eq_zero.mp (h _ hi) _ hmem
    rw [newTablet_table base c (by rw [kSize_eq]; omega), Region.mem, dif_pos a.isLt] at hbyte
    exact hbyte

theorem nothingBound_iff (base : Nat) (c : Region) :
    NothingBound (newTablet base c) ↔ c.TableZero := by
  rw [Region.tableZero_iff base]
  constructor
  · intro h i hi
    by_contra h0
    obtain ⟨r, ht, hne⟩ := get_leftover hi h0
    obtain ⟨n, hn⟩ := h r ht
    obtain ⟨s', hrun⟩ := hn n le_rfl
    exact hne _ _ _ hrun
  · intro h r ht
    exact ⟨1, fun fuel hfuel => ⟨_, get_empty ht (h _ (bucketOf_lt r)) fuel hfuel⟩⟩

/-- **What was in the memory before** cannot be told from the answers exactly if it was 0
    in the place of the hash table. -/
theorem startsAlike_iff (base : Nat) (c c' : Region) :
    StartsAlike base c c' ↔ c.TableZero ∧ c'.TableZero := by
  constructor
  · intro h
    exact ⟨(nothingBound_iff base c).mp h.left, (nothingBound_iff base c').mp h.right⟩
  · rintro ⟨h, h'⟩
    refine ⟨?_, (nothingBound_iff base c).mpr h, (nothingBound_iff base c').mpr h'⟩
    intro fuel rs
    rw [newTablet_congr fun a ha => (h.mem_eq ha).trans (h'.mem_eq ha).symm]

/-- Memory that was used before. The head of bucket 1 leads to an object inside the table,
    at the slot of bucket 100, with the key `[1]` and the value `[42]`. -/
def leftover : Region := fun a =>
  store (store (store (fun _ => 0) (slotOf 1) (leBytes 4 (slotOf 100)))
    (slotOf 100 + offsetofKeyLen) [1, 0, 1, 0]) (slotOf 100 + offsetofData) [1, 42] a.val

theorem answers_leftover :
    answers 2 [request .get 1 [] nil_length_lt] (newTablet 0 fun _ => 0) =
      [.ok ⟨.get, .error, []⟩] ∧
    answers 2 [request .get 1 [] nil_length_lt] (newTablet 0 leftover) =
      [.ok ⟨.get, .ok, [42]⟩] ∧
    ¬ StartsAlike 0 (fun _ => 0) leftover := by
  have hzero : answers 2 [request .get 1 [] nil_length_lt] (newTablet 0 fun _ => 0) =
      [.ok ⟨.get, .error, []⟩] := by
    decide +kernel
  have hleft : answers 2 [request .get 1 [] nil_length_lt] (newTablet 0 leftover) =
      [.ok ⟨.get, .ok, [42]⟩] := by
    decide +kernel
  refine ⟨hzero, hleft, ?_⟩
  intro h
  have hsame := h.same 2 [request .get 1 [] nil_length_lt]
  rw [hzero, hleft] at hsame
  exact absurd hsame (by decide)

end Nvds.Tablet
