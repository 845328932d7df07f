import Nvds.Common
import Nvds.Framework.ExchangeSort
import Nvds.Framework.Intervals

/-! # Merging modifications (`Tablet::MergeModifications`)

    The recorded modifications of a request are sorted by destination and
    merged into ranges, with up to 16 unmodified bytes between two of them
    taken along. Both happen in place; the merged ranges are written to the
    front of the list while its rest is still read.
-/

open ExchangeSort Intervals

namespace Nvds

/-! ### The code -/

/-- The local variables of the merging loop, and the list it works on. -/
structure Merge where
  mods : List Modification
  i : Nat
  src : Nat
  first : Nat
  last : Nat

/-- `gap`. -/
def kMergeGap : Nat := 16

/-- The entry at index `k` starts too far behind the range that is being collected. -/
def Merge.Far (st : Merge) (k : Nat) : Prop :=
  (st.mods.getD k ⟨0, 0, 0⟩).des > st.last + kMergeGap

instance (st : Merge) (k : Nat) : Decidable (st.Far k) :=
  inferInstanceAs (Decidable (_ > _))

/-- The range that is being collected is written out. -/
def Merge.write (st : Merge) : List Modification :=
  st.mods.set st.i ⟨st.first, st.src, sub32 st.last st.first⟩

/-- One round of the loop, for the entry at index `k`. -/
def Merge.step (st : Merge) (k : Nat) : Merge :=
  if st.Far k then
    -- `m` is a reference into the list: its fields are read after the write
    let mods := st.write
    let m := mods.getD k ⟨0, 0, 0⟩
    { mods
      i := st.i + 1
      first := m.des
      last := u32 (m.des + m.len)
      src := m.src }
  else
    let m := st.mods.getD k ⟨0, 0, 0⟩
    { st with last := max st.last (u32 (m.des + m.len)) }

/-- The loop from index `k` on. -/
def Merge.loop : Nat → Nat → Merge → Merge
  | 0, _, st => st
  | rounds + 1, k, st => Merge.loop rounds (k + 1) (st.step k)

/-- The variables before the loop, when the list is sorted. -/
def Merge.start (sorted : List Modification) : Merge :=
  let m := sorted.getD 0 ⟨0, 0, 0⟩
  ⟨sorted, 0, m.src, m.des, u32 (m.des + m.len)⟩

/-- The last range is written and the list cut behind it. -/
def Merge.finish (st : Merge) : List Modification :=
  st.write.take (st.i + 1)

/-- `MergeModifications` of a list that is not empty. -/
def mergeModifications (modifications : List Modification) : List Modification :=
  let sorted := sort Modification.des modifications.length modifications
  (Merge.loop sorted.length 0 (Merge.start sorted)).finish

/-! ### Reading and writing in place -/

/-- The last of some rounds. -/
theorem Merge.loop_succ (rounds k : Nat) (st : Merge) :
    Merge.loop (rounds + 1) k st = (Merge.loop rounds k st).step (k + rounds) := by
  induction rounds generalizing k st with
  | zero => rfl
  | succ rounds ih =>
    rw [Merge.loop, ih, Merge.loop]
    congr 1
    omega

/-- Before round `k` over the list `sorted`: the entries from `k` on are as they were, and the
    next range will be written before them. -/
structure Merge.Behind (sorted : List Modification) (k : Nat) (st : Merge) : Prop where
  unread : st.mods.drop k = sorted.drop k
  length : st.mods.length = sorted.length
  lt : st.i < k

/-- Writing at position `i` and cutting behind it. -/
theorem take_set_succ {α : Type} {l : List α} {i : Nat} (h : i < l.length) (x : α) :
    (l.set i x).take (i + 1) = l.take i ++ [x] := by
  rw [List.take_add_one, List.take_set_of_le (by omega)]
  simp [h]

namespace Merge.Behind

variable {sorted : List Modification} {k : Nat} {st : Merge}

theorem write_length (h : Behind sorted k st) : st.write.length = sorted.length := by
  rw [Merge.write, List.length_set, h.length]

theorem drop_write (h : Behind sorted k st) : st.write.drop k = sorted.drop k := by
  rw [Merge.write, List.drop_set_of_lt h.lt, h.unread]

theorem getD_of_drop {mods : List Modification} (h : mods.drop k = sorted.drop k)
    (d : Modification) : mods.getD k d = sorted.getD k d := by
  have h0 := congrArg (·[0]?) h
  simp only [List.getElem?_drop, Nat.add_zero] at h0
  rw [List.getD_eq_getElem?_getD, List.getD_eq_getElem?_getD, h0]

theorem take_write (h : Behind sorted k st) (hk : k ≤ sorted.length) :
    st.write.take (st.i + 1) =
      st.mods.take st.i ++ [⟨st.first, st.src, sub32 st.last st.first⟩] := by
  have := h.lt
  have := h.length
  exact take_set_succ (by omega) _

/-- What round `k` does, in terms of the entry it reads. -/
theorem step_eq (h : Behind sorted k st) :
    st.step k =
      if st.last + kMergeGap < (sorted.getD k ⟨0, 0, 0⟩).des then
        { mods := st.write
          i := st.i + 1
          first := (sorted.getD k ⟨0, 0, 0⟩).des
          last := u32 ((sorted.getD k ⟨0, 0, 0⟩).des + (sorted.getD k ⟨0, 0, 0⟩).len)
          src := (sorted.getD k ⟨0, 0, 0⟩).src }
      else
        { st with
          last := max st.last
            (u32 ((sorted.getD k ⟨0, 0, 0⟩).des + (sorted.getD k ⟨0, 0, 0⟩).len)) } := by
  simp only [Merge.step, Merge.Far, getD_of_drop h.unread, getD_of_drop h.drop_write]

theorem step (h : Behind sorted k st) : Behind sorted (k + 1) (st.step k) := by
  have hlt := h.lt
  have hdrop : ∀ {mods : List Modification}, mods.drop k = sorted.drop k →
      mods.drop (k + 1) = sorted.drop (k + 1) := by
    intro mods hmods
    rw [← List.drop_drop, hmods, List.drop_drop]
  rw [h.step_eq]
  split
  · exact ⟨hdrop h.drop_write, h.write_length, Nat.add_lt_add_right hlt 1⟩
  · exact ⟨hdrop h.unread, h.length, Nat.lt_succ_of_lt hlt⟩

end Merge.Behind

/-! ### As a merge of intervals -/

/-- The range of bytes a modification covers. -/
def Modification.range (m : Modification) : Interval := ⟨m.des, m.des + m.len⟩

/-- The modification of a range, as recorded by a writer at `base`. -/
def ofRange (base : Nat) (v : Interval) : Modification := ⟨v.lo, base + v.lo, v.hi - v.lo⟩

/-- A recorded modification: the source is the same place in the writer's
    memory, and the range does not wrap. -/
def Recorded (base : Nat) (m : Modification) : Prop :=
  m.src = base + m.des ∧ m.des + m.len < 4294967296

/-- The ranges of modifications in the order of their destinations. -/
theorem pairwise_range {ms : List Modification} (h : ms.Pairwise fun x y => x.des ≤ y.des) :
    (ms.map Modification.range).Pairwise fun x y => x.lo ≤ y.lo :=
  List.pairwise_map.mpr h

theorem range_le (ms : List Modification) : ∀ v ∈ ms.map Modification.range, v.lo ≤ v.hi := by
  intro v hv
  obtain ⟨m, _, rfl⟩ := List.mem_map.mp hv
  exact Nat.le_add_right _ _

/-- The range of an entry as it is written out. -/
theorem Merge.range_out {st : Merge} (hle : st.first ≤ st.last) (hB : st.last < 4294967296) :
    (⟨st.first, st.src, sub32 st.last st.first⟩ : Modification).range = ⟨st.first, st.last⟩ := by
  rw [Modification.range, sub32_of_le hle hB, Nat.add_sub_cancel' hle]

/-- The loop, once past index 0, appends the merged ranges to what it has
    already written to the front. -/
theorem Merge.loop_finish {sorted ms : List Modification} {k : Nat} {st : Merge}
    (h : Behind sorted k st) (hk : k ≤ sorted.length) (hrest : sorted.drop k = ms)
    (hwrap : ∀ m ∈ ms, m.des + m.len < 4294967296) (hle : st.first ≤ st.last)
    (hB : st.last < 4294967296) :
    (Merge.loop ms.length k st).finish.map Modification.range =
      (st.mods.take st.i).map Modification.range ++
        mergeFrom kMergeGap ⟨st.first, st.last⟩ (ms.map Modification.range) := by
  -- on the elements that are still to be merged; `st` holds the range that is open
  induction ms generalizing k st with
  | nil =>
    rw [List.length_nil, Merge.loop, Merge.finish, h.take_write hk, List.map_append,
      List.map_singleton, Merge.range_out hle hB]
    rfl
  | cons m ms ih =>
    have hmB := hwrap m List.mem_cons_self
    have hwrap' : ∀ m ∈ ms, m.des + m.len < 4294967296 := fun x hx =>
      hwrap x (List.mem_cons_of_mem _ hx)
    have hklt : k < sorted.length := by
      by_contra hge
      rw [List.drop_eq_nil_of_le (by omega)] at hrest
      cases hrest
    have hget : sorted.getD k ⟨0, 0, 0⟩ = m := by
      rw [List.drop_eq_getElem_cons hklt] at hrest
      rw [← List.getElem_eq_getD (h := hklt)]
      exact (List.cons.inj hrest).1
    have hdrop : sorted.drop (k + 1) = ms := by
      rw [← List.drop_drop, hrest]
      rfl
    have hu : u32 (m.des + m.len) = m.des + m.len := u32_of_lt hmB
    have hstep := h.step
    rw [h.step_eq, hget, hu] at hstep
    rw [List.length_cons, Merge.loop, h.step_eq, hget, hu, List.map_cons, mergeFrom]
    show _ = _ ++ (if st.last + kMergeGap < m.des then _ else _)
    -- a gap closes the range and opens the next one
    by_cases hfar : st.last + kMergeGap < m.des
    · rw [if_pos hfar] at hstep
      rw [if_pos hfar, if_pos hfar, ih hstep hklt hdrop hwrap' (Nat.le_add_right _ _) hmB]
      show (st.write.take (st.i + 1)).map Modification.range ++ _ = _
      rw [h.take_write hk, List.map_append, List.map_singleton, Merge.range_out hle hB,
        List.append_assoc]
      rfl
    · rw [if_neg hfar] at hstep
      rw [if_neg hfar, if_neg hfar,
        ih hstep hklt hdrop hwrap' (hle.trans (le_max_left _ _)) (max_lt hB hmB)]
      rfl

/-- The ranges written out and the one that is being collected start like entries of `ms`. -/
structure Merge.Started (ms : List Modification) (st : Merge) : Prop where
  cur : ∃ m ∈ ms, st.first = m.des ∧ st.src = m.src
  out : ∀ w ∈ st.mods.take st.i, ∃ m ∈ ms, w.des = m.des ∧ w.src = m.src

theorem Merge.Started.mem_take_write {ms sorted : List Modification} {k : Nat} {st : Merge}
    (hs : Started ms st) (h : Behind sorted k st) (hk : k ≤ sorted.length) :
    ∀ w ∈ st.write.take (st.i + 1), ∃ m ∈ ms, w.des = m.des ∧ w.src = m.src := by
  intro w hw
  rw [h.take_write hk] at hw
  rcases List.mem_append.mp hw with hw | hw
  · exact hs.out w hw
  · rw [List.mem_singleton.mp hw]
    exact hs.cur

theorem Merge.Started.step {sorted : List Modification} {k : Nat} {st : Merge}
    (hs : Started sorted st) (h : Behind sorted k st) (hk : k < sorted.length) :
    Started sorted (st.step k) := by
  rw [h.step_eq]
  split
  · refine ⟨⟨sorted.getD k ⟨0, 0, 0⟩, ?_, rfl, rfl⟩, hs.mem_take_write h hk.le⟩
    rw [← List.getElem_eq_getD (h := hk)]
    exact List.getElem_mem hk
  · exact ⟨hs.cur, hs.out⟩

/-- The first round compares the first entry with itself and changes nothing. -/
theorem Merge.step_start {m₀ : Modification} {rest : List Modification}
    (hwrap : m₀.des + m₀.len < 4294967296) :
    (Merge.start (m₀ :: rest)).step 0 = Merge.start (m₀ :: rest) ∧
      ¬ (Merge.start (m₀ :: rest)).Far 0 := by
  have hnear : ¬ (Merge.start (m₀ :: rest)).Far 0 := by
    show ¬ m₀.des > u32 (m₀.des + m₀.len) + kMergeGap
    rw [u32_of_lt hwrap]
    omega
  refine ⟨?_, hnear⟩
  rw [Merge.step, if_neg hnear]
  simp only [Merge.start, List.getD_cons_zero, max_self]

/-- The state before each later round. -/
theorem Merge.rounds {m₀ : Modification} {rest : List Modification}
    (hwrap : m₀.des + m₀.len < 4294967296) {k : Nat} (hk : k ≤ rest.length) :
    Behind (m₀ :: rest) (k + 1) (Merge.loop (k + 1) 0 (Merge.start (m₀ :: rest))) ∧
      Started (m₀ :: rest) (Merge.loop (k + 1) 0 (Merge.start (m₀ :: rest))) := by
  induction k with
  | zero =>
    rw [Merge.loop, (Merge.step_start hwrap).1, Merge.loop]
    exact ⟨⟨rfl, rfl, Nat.one_pos⟩, ⟨m₀, List.mem_cons_self, rfl, rfl⟩, fun w hw => by cases hw⟩
  | succ k ih =>
    obtain ⟨hbehind, hstarted⟩ := ih (by omega)
    rw [Merge.loop_succ, Nat.zero_add]
    refine ⟨hbehind.step, hstarted.step hbehind ?_⟩
    rw [List.length_cons]
    omega

/-- What the sort hands to the loop. -/
theorem exists_sort_eq {ms : List Modification} (hne : ms ≠ []) :
    ∃ m₀ rest, sort Modification.des ms.length ms = m₀ :: rest ∧ (m₀ :: rest).Perm ms ∧
      (m₀ :: rest).Pairwise (fun x y => x.des ≤ y.des) := by
  have hperm := sort_perm Modification.des ms.length ms
  have hsort := sort_sorted Modification.des (le_refl ms.length)
  cases hs : sort Modification.des ms.length ms with
  | nil =>
    rw [hs] at hperm
    exact absurd hperm.symm.eq_nil hne
  | cons m₀ rest =>
    rw [hs] at hperm hsort
    exact ⟨m₀, rest, rfl, hperm, hsort⟩

section Ranges

variable {ms : List Modification} (hne : ms ≠ [])
  (hwrap : ∀ m ∈ ms, m.des + m.len < 4294967296)

include hne hwrap

/-- **Merging.** The code computes the merge of the ranges, sorted by their lower ends. -/
theorem range_mergeModifications :
    ∃ m₀ rest, (m₀ :: rest).Perm ms ∧ (m₀ :: rest).Pairwise (fun x y => x.des ≤ y.des) ∧
      (mergeModifications ms).map Modification.range =
        mergeFrom kMergeGap m₀.range (rest.map Modification.range) := by
  obtain ⟨m₀, rest, hs, hperm, hsort⟩ := exists_sort_eq hne
  have hwrap' : ∀ m ∈ m₀ :: rest, m.des + m.len < 4294967296 := fun m hm =>
    hwrap m (hperm.mem_iff.mp hm)
  have hB₀ := hwrap' m₀ List.mem_cons_self
  refine ⟨m₀, rest, hperm, hsort, ?_⟩
  have hbehind : Merge.Behind (m₀ :: rest) 1 (Merge.start (m₀ :: rest)) := ⟨rfl, rfl, Nat.one_pos⟩
  have hlast : (Merge.start (m₀ :: rest)).last = m₀.des + m₀.len := u32_of_lt hB₀
  have hloop := Merge.loop_finish hbehind (Nat.le_add_left _ _) rfl
    (fun m hm => hwrap' m (List.mem_cons_of_mem _ hm)) (by rw [hlast]; exact Nat.le_add_right _ _)
    (by rw [hlast]; exact hB₀)
  rw [hlast] at hloop
  rw [mergeModifications, hs, List.length_cons, Merge.loop, (Merge.step_start hB₀).1]
  exact hloop

/-- Each merged range starts with one of the modifications and has its source. -/
theorem start_of_mem_mergeModifications {w : Modification} (hw : w ∈ mergeModifications ms) :
    ∃ m ∈ ms, w.des = m.des ∧ w.src = m.src := by
  obtain ⟨m₀, rest, hs, hperm, _⟩ := exists_sort_eq hne
  have hB₀ := hwrap m₀ (hperm.mem_iff.mp List.mem_cons_self)
  obtain ⟨hbehind, hstarted⟩ := Merge.rounds hB₀ (le_refl rest.length)
  rw [mergeModifications, hs] at hw
  obtain ⟨m, hm, hstart⟩ := hstarted.mem_take_write hbehind (le_refl _) w hw
  exact ⟨m, hperm.mem_iff.mp hm, hstart⟩

/-- The merged ranges lie one behind the other, more than 16 bytes apart. -/
theorem pairwise_mergeModifications :
    (mergeModifications ms).Pairwise fun x y =>
      x.des < y.des ∧ x.des + x.len + kMergeGap < y.des := by
  obtain ⟨m₀, rest, _, hsort, heq⟩ := range_mergeModifications hne hwrap
  have hpair : ((mergeModifications ms).map Modification.range).Pairwise fun x y =>
      x.lo < y.lo ∧ x.hi + kMergeGap < y.lo := by
    rw [heq]
    exact pairwise_mergeFrom (pairwise_range hsort) (range_le (m₀ :: rest))
  exact List.pairwise_map.mp hpair

/-- Each modification is inside a merged range. -/
theorem exists_contains_mergeModifications {m : Modification} (hm : m ∈ ms) :
    ∃ w ∈ mergeModifications ms, w.des ≤ m.des ∧ m.des + m.len ≤ w.des + w.len := by
  obtain ⟨m₀, rest, hperm, hsort, heq⟩ := range_mergeModifications hne hwrap
  have hmem : m.range ∈ m₀.range :: rest.map Modification.range :=
    List.mem_map.mpr ⟨m, hperm.mem_iff.mpr hm, rfl⟩
  obtain ⟨v, hv, hlo, hhi⟩ :
      ∃ v ∈ mergeFrom kMergeGap m₀.range (rest.map Modification.range),
        v.lo ≤ m.range.lo ∧ m.range.hi ≤ v.hi :=
    exists_mem_mergeFrom (pairwise_range hsort) hmem
  rw [← heq] at hv
  obtain ⟨w, hw, rfl⟩ := List.mem_map.mp hv
  exact ⟨w, hw, hlo, hhi⟩

/-- Each byte of a merged range was modified or lies in a small gap. -/
theorem has_or_inGap_of_mem_mergeModifications {w : Modification}
    (hw : w ∈ mergeModifications ms) {a : Nat} (ha : w.range.Has a) :
    (∃ m ∈ ms, m.range.Has a) ∨ InGap kMergeGap (ms.map Modification.range) a := by
  obtain ⟨m₀, rest, hperm, hsort, heq⟩ := range_mergeModifications hne hwrap
  have hmem : w.range ∈ mergeFrom kMergeGap m₀.range (rest.map Modification.range) := by
    rw [← heq]
    exact List.mem_map_of_mem hw
  rcases has_or_inGap_of_mem_mergeFrom (pairwise_range hsort) (range_le (m₀ :: rest)) hmem ha with
    ⟨v, hv, hva⟩ | hgap
  · obtain ⟨m, hm, rfl⟩ := List.mem_map.mp (List.map_cons ▸ hv)
    exact Or.inl ⟨m, hperm.mem_iff.mp hm, hva⟩
  · exact Or.inr (hgap.perm (hperm.map Modification.range))

end Ranges

/-- On recorded modifications, the merged ones are recorded as well. -/
theorem mergeModifications_eq {base : Nat} {ms : List Modification} (hne : ms ≠ [])
    (hrec : ∀ m ∈ ms, Recorded base m) :
    ∃ m₀ rest, (m₀ :: rest).Perm ms ∧ (m₀ :: rest).Pairwise (fun x y => x.des ≤ y.des) ∧
      mergeModifications ms =
        (mergeFrom kMergeGap m₀.range (rest.map Modification.range)).map (ofRange base) := by
  have hwrap : ∀ m ∈ ms, m.des + m.len < 4294967296 := fun m hm => (hrec m hm).2
  obtain ⟨m₀, rest, hperm, hsort, heq⟩ := range_mergeModifications hne hwrap
  refine ⟨m₀, rest, hperm, hsort, ?_⟩
  -- an entry is given by its range once its source is known
  have hself : ∀ w ∈ mergeModifications ms, ofRange base w.range = w := by
    intro w hw
    obtain ⟨m, hm, hdes, hsrc⟩ := start_of_mem_mergeModifications hne hwrap hw
    show (⟨w.des, base + w.des, w.des + w.len - w.des⟩ : Modification) = w
    rw [Nat.add_sub_cancel_left, hdes, ← (hrec m hm).1, ← hsrc, ← hdes]
  calc mergeModifications ms = (mergeModifications ms).map id := (List.map_id _).symm
    _ = (mergeModifications ms).map fun w => ofRange base w.range :=
      List.map_congr_left fun w hw => (hself w hw).symm
    _ = ((mergeModifications ms).map Modification.range).map (ofRange base) := by
      rw [List.map_map]
      rfl
    _ = _ := by rw [heq]

/-! ### What the merged list is good for -/

/-- The merged modifications are recorded ones, inside any bound of the given ones. -/
theorem mem_mergeModifications {base B : Nat} {ms : List Modification} (hne : ms ≠ [])
    (hrec : ∀ m ∈ ms, Recorded base m) (hB : ∀ m ∈ ms, m.des + m.len ≤ B) :
    ∀ w ∈ mergeModifications ms, w.src = base + w.des ∧ w.des + w.len ≤ B := by
  obtain ⟨m₀, rest, hperm, _, heq⟩ := mergeModifications_eq hne hrec
  intro w hw
  rw [heq] at hw
  obtain ⟨v, hv, rfl⟩ := List.mem_map.mp hw
  have hmem : ∀ u ∈ m₀.range :: rest.map Modification.range, u.lo ≤ u.hi ∧ u.hi ≤ B := by
    rw [← List.map_cons]
    intro u hu
    obtain ⟨m, hm, rfl⟩ := List.mem_map.mp hu
    exact ⟨Nat.le_add_right _ _, hB m (hperm.mem_iff.mp hm)⟩
  obtain ⟨h₁, h₂⟩ := mem_mergeFrom hmem hv
  refine ⟨rfl, ?_⟩
  show v.lo + (v.hi - v.lo) ≤ B
  omega

/-- Every modified byte is in a merged range. -/
theorem covered_mergeModifications {base : Nat} {ms : List Modification} (hne : ms ≠ [])
    (hrec : ∀ m ∈ ms, Recorded base m) {m : Modification} (hm : m ∈ ms) {a : Nat}
    (ha : m.range.Has a) : ∃ w ∈ mergeModifications ms, w.range.Has a := by
  obtain ⟨w, hw, hlo, hhi⟩ :=
    exists_contains_mergeModifications hne (fun m hm => (hrec m hm).2) hm
  exact ⟨w, hw, hlo.trans ha.1, lt_of_lt_of_le ha.2 hhi⟩

/-- The first range `w` of merged modifications: it starts with the lowest and ends with one of
    them, every byte of it is less than 16 bytes behind a modification, and all others are more
    than 16 bytes behind its end. -/
structure FirstRange (ms : List Modification) (w : Modification) : Prop where
  start : ∃ m ∈ ms, w.des = m.des
  lowest : ∀ m ∈ ms, w.des ≤ m.des
  stop : ∃ m ∈ ms, w.des + w.len = m.des + m.len
  near : ∀ a, w.range.Has a → ∃ m ∈ ms, m.des ≤ a ∧ a < m.des + m.len + kMergeGap
  apart : ∀ m ∈ ms, m.des + m.len ≤ w.des + w.len ∨ w.des + w.len + kMergeGap < m.des

theorem exists_firstRange {base : Nat} {ms : List Modification} (hne : ms ≠ [])
    (hrec : ∀ m ∈ ms, Recorded base m) :
    ∃ w ws, mergeModifications ms = w :: ws ∧ FirstRange ms w := by
  obtain ⟨m₀, rest, hperm, hsort, heq⟩ := mergeModifications_eq hne hrec
  have hmem : ∀ {m}, m ∈ ms ↔ m ∈ m₀ :: rest := fun {m} => hperm.mem_iff.symm
  obtain ⟨v, vs, hv, hlo, hhi, hfirst⟩ :=
    exists_first_mergeFrom kMergeGap (pairwise_range hsort)
  rw [← List.map_cons (f := Modification.range)] at hfirst
  have hrange : ∀ {u}, u ∈ (m₀ :: rest).map Modification.range → ∃ m ∈ ms, m.range = u :=
    fun hu => (List.mem_map.mp hu).imp fun m hm => ⟨hmem.mpr hm.1, hm.2⟩
  -- the first range of the list is the first one of the loop
  have hend : (ofRange base v).des + (ofRange base v).len = v.hi := by
    have : m₀.des + m₀.len ≤ v.hi := hhi
    have : v.lo = m₀.des := hlo
    show v.lo + (v.hi - v.lo) = v.hi
    omega
  refine ⟨ofRange base v, vs.map (ofRange base), by rw [heq, hv, List.map_cons],
    ⟨m₀, hmem.mpr List.mem_cons_self, hlo⟩, ?_, ?_, ?_, ?_⟩
  · intro m hm
    show v.lo ≤ m.des
    rw [show v.lo = m₀.des from hlo]
    rcases List.mem_cons.mp (hmem.mp hm) with rfl | hm
    · exact le_refl _
    · exact (List.pairwise_cons.mp hsort).1 m hm
  · obtain ⟨u, hu, hstop⟩ := hfirst.stop
    obtain ⟨m, hm, rfl⟩ := hrange hu
    exact ⟨m, hm, hend.trans hstop⟩
  · intro a ha
    obtain ⟨u, hu, h₁, h₂⟩ := hfirst.near a ⟨ha.1, by rw [← hend]; exact ha.2⟩
    obtain ⟨m, hm, rfl⟩ := hrange hu
    exact ⟨m, hm, h₁, h₂⟩
  · intro m hm
    rw [hend]
    exact hfirst.apart m.range (List.mem_map_of_mem (hmem.mp hm))

/-- **The number of ranges.** If every modification starts at one of the places `as`, or at most
    16 bytes behind the end of a lower one, there are at most as many ranges as places. -/
theorem length_mergeModifications_le {base : Nat} {ms : List Modification} (hne : ms ≠ [])
    (hrec : ∀ m ∈ ms, Recorded base m) {as : List Nat}
    (h : ∀ m ∈ ms, m.des ∈ as ∨ ∃ x ∈ ms, x.des < m.des ∧ m.des ≤ x.des + x.len + kMergeGap) :
    (mergeModifications ms).length ≤ as.length := by
  obtain ⟨m₀, rest, hperm, hsort, heq⟩ := mergeModifications_eq hne hrec
  have hsort' := pairwise_range hsort
  have hle := range_le (m₀ :: rest)
  have hnodup : ((mergeFrom kMergeGap m₀.range (rest.map Modification.range)).map (·.lo)).Nodup :=
    List.pairwise_map.mpr ((pairwise_mergeFrom hsort' hle).imp fun hlt => Nat.ne_of_lt hlt.1)
  have hsub : (mergeFrom kMergeGap m₀.range (rest.map Modification.range)).map (·.lo) ⊆ as := by
    intro a ha
    obtain ⟨w, hw, rfl⟩ := List.mem_map.mp ha
    obtain ⟨v, hv, hlo, hfirst⟩ := start_of_mem_mergeFrom hsort' hw
    rw [← List.map_cons (f := Modification.range)] at hv hfirst
    obtain ⟨m, hm, rfl⟩ := List.mem_map.mp hv
    -- a range starts where nothing is close before
    rcases h m (hperm.mem_iff.mp hm) with has | ⟨x, hx, hlt, hnear⟩
    · rw [hlo]
      exact has
    · have hx' : x.range ∈ (m₀ :: rest).map Modification.range :=
        List.mem_map.mpr ⟨x, hperm.mem_iff.mpr hx, rfl⟩
      have hfar : x.des + x.len + kMergeGap < m.des := hfirst _ hx' hlt
      omega
  rw [heq, List.length_map, ← List.length_map (f := (·.lo))]
  exact (hnodup.subperm hsub).length_le

/-- The modifications form one range: each of them that is not among the lowest
    starts at most 16 bytes behind the end of a lower one. -/
def OneRange (ms : List Modification) : Prop :=
  ∀ m ∈ ms, (∀ x ∈ ms, m.des ≤ x.des) ∨
    ∃ x ∈ ms, x.des < m.des ∧ m.des ≤ x.des + x.len + kMergeGap

instance (ms : List Modification) : Decidable (OneRange ms) :=
  inferInstanceAs (Decidable (∀ m ∈ ms, _))

theorem mergeModifications_of_oneRange {base : Nat} {ms : List Modification} (hne : ms ≠ [])
    (hrec : ∀ m ∈ ms, Recorded base m) (hone : OneRange ms) :
    ∃ w, mergeModifications ms = [w] := by
  obtain ⟨w, ws, heq, hfirst⟩ := exists_firstRange hne hrec
  have hlen : (mergeModifications ms).length ≤ [w.des].length := by
    apply length_mergeModifications_le hne hrec
    intro m hm
    rcases hone m hm with hlow | hnear
    · -- the lowest modifications start where the first range does
      left
      obtain ⟨m₀, hm₀, hstart⟩ := hfirst.start
      have h₁ := hlow m₀ hm₀
      have h₂ := hfirst.lowest m hm
      rw [List.mem_singleton]
      omega
    · exact Or.inr hnear
  rw [heq] at hlen ⊢
  rw [List.length_cons, List.length_singleton] at hlen
  rw [List.length_eq_zero_iff.mp (show ws.length = 0 by omega)]
  exact ⟨w, rfl⟩

/-! ### The union with its small gaps closed -/

/-- `src - des`, in 64 bits. -/
def Modification.shift (m : Modification) : Nat :=
  (m.src + 18446744073709551616 - m.des) % 18446744073709551616

/-- `ws` is the union of the ranges of `ms`, with the gaps of at most 16 bytes closed. All ranges
    are shifted by `shift` against their source. -/
structure ClosedUnion (shift : Nat) (ms ws : List Modification) : Prop where
  sorted : ws.Pairwise fun x y => x.des < y.des
  apart : ws.Pairwise fun x y => x.des + x.len + kMergeGap < y.des
  contains : ∀ m ∈ ms, ∃ w ∈ ws, w.des ≤ m.des ∧ m.des + m.len ≤ w.des + w.len
  tight : ∀ w ∈ ws, ∀ a, w.range.Has a →
    (∃ m ∈ ms, m.range.Has a) ∨ InGap kMergeGap (ms.map Modification.range) a
  start : ∀ w ∈ ws, w.shift = shift ∧ ∃ m ∈ ms, w.des = m.des ∧ w.src = m.src

/-- The variables of the loop over `sorted` before round `k`. -/
def Merge.before (sorted : List Modification) (k : Nat) : Merge :=
  Merge.loop k 0 (Merge.start sorted)

/-- The loop over `sorted` overwrites no entry that is still to be read: round `k` finds the
    entries from `k` on as they were, and what it writes goes before the entry it reads. The
    range written after the loop stays inside the list. -/
structure Merge.InPlace (sorted : List Modification) : Prop where
  unread : ∀ k < sorted.length, (Merge.before sorted k).mods.drop k = sorted.drop k
  behind : ∀ k < sorted.length, (Merge.before sorted k).Far k → (Merge.before sorted k).i < k
  inside : (Merge.before sorted sorted.length).i < sorted.length

theorem Merge.inPlace_cons {m₀ : Modification} {rest : List Modification}
    (hwrap : m₀.des + m₀.len < 4294967296) : Merge.InPlace (m₀ :: rest) := by
  have hlater : ∀ {k}, k ≤ rest.length →
      Behind (m₀ :: rest) (k + 1) (Merge.before (m₀ :: rest) (k + 1)) := fun hk =>
    (Merge.rounds hwrap hk).1
  refine ⟨?_, ?_, (hlater (le_refl _)).lt⟩
  · intro k hk
    cases k with
    | zero => rfl
    | succ k => exact (hlater (by rw [List.length_cons] at hk; omega)).unread
  · intro k hk hfar
    cases k with
    | zero => exact absurd hfar (Merge.step_start hwrap).2
    | succ k => exact (hlater (by rw [List.length_cons] at hk; omega)).lt

section Union

variable {ms : List Modification} (hne : ms ≠ [])
  (hwrap : ∀ m ∈ ms, m.des + m.len < 4294967296)

include hne hwrap

/-- **The gap-closed union.** Modifications with the same shift are merged into the union of their
    ranges with the small gaps closed, and no entry is overwritten before it is read. -/
theorem mergeModifications_closedUnion {shift : Nat} (hshift : ∀ m ∈ ms, m.shift = shift) :
    ClosedUnion shift ms (mergeModifications ms) ∧
      Merge.InPlace (sort Modification.des ms.length ms) := by
  have hpair := pairwise_mergeModifications hne hwrap
  constructor
  · refine ⟨hpair.imp And.left, hpair.imp And.right, ?_, ?_, ?_⟩
    · intro m hm
      exact exists_contains_mergeModifications hne hwrap hm
    · intro w hw a ha
      exact has_or_inGap_of_mem_mergeModifications hne hwrap hw ha
    · intro w hw
      obtain ⟨m, hm, hdes, hsrc⟩ := start_of_mem_mergeModifications hne hwrap hw
      refine ⟨?_, m, hm, hdes, hsrc⟩
      rw [Modification.shift, hdes, hsrc]
      exact hshift m hm
  · obtain ⟨m₀, rest, hs, hperm, _⟩ := exists_sort_eq hne
    rw [hs]
    exact Merge.inPlace_cons (hwrap m₀ (hperm.mem_iff.mp List.mem_cons_self))

end Union

/-- Nested, touching, equal and empty ranges in any order, with a source that is lower than the
    destination. -/
theorem mergeModifications_closedUnion_mixed :
    mergeModifications
        [⟨140, 40, 8⟩, ⟨110, 10, 20⟩, ⟨112, 12, 4⟩, ⟨200, 100, 0⟩, ⟨110, 10, 0⟩, ⟨165, 65, 3⟩] =
      [⟨110, 10, 38⟩, ⟨165, 65, 3⟩, ⟨200, 100, 0⟩] ∧
    ClosedUnion (2 ^ 64 - 100)
      [⟨140, 40, 8⟩, ⟨110, 10, 20⟩, ⟨112, 12, 4⟩, ⟨200, 100, 0⟩, ⟨110, 10, 0⟩, ⟨165, 65, 3⟩]
      (mergeModifications
        [⟨140, 40, 8⟩, ⟨110, 10, 20⟩, ⟨112, 12, 4⟩, ⟨200, 100, 0⟩, ⟨110, 10, 0⟩, ⟨165, 65, 3⟩]) :=
  ⟨by decide, (mergeModifications_closedUnion (by decide) (by decide) (by decide)).1⟩

end Nvds
