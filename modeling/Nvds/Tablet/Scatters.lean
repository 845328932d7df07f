import Nvds.Tablet.Traces

/-! # The scatter arrays of `Sync` (`tablet.h`, `tablet.cc`)

    `Sync` has room for 16 scatter entries and work requests, and sets the
    `next` field of each request to the one behind it. A replacing `PUT`
    records up to 25 modifications. They start at no more than 15 places:
    the words of a block's header and links are next to each other, and so
    are the words at both ends of an object and its bytes.
-/

open ByteMemory Program Nvds.Allocator

namespace Nvds.Tablet

/-- `kNumScatters`. -/
def kNumScatters : Nat := 16

variable {hash : List UInt8 → Nat} {σ : Shape} {ch : Nat → List Entry} {s s' : Nvm} {r : Request}
  {base : Nat}

/-! ### Counting places -/

/-- Each of the modifications starts at one of `k` places, or at most 16 bytes behind a lower
    one. -/
def Starts (k : Nat) (ms : List Modification) : Prop :=
  ∃ as : List Nat, as.length ≤ k ∧ ∀ m ∈ ms, m.des ∈ as ∨
    ∃ x ∈ ms, x.des < m.des ∧ m.des ≤ x.des + x.len + kMergeGap

theorem Starts.append {j k : Nat} {ms ns : List Modification} (h₁ : Starts j ms)
    (h₂ : Starts k ns) : Starts (j + k) (ms ++ ns) := by
  obtain ⟨as, has, h₁⟩ := h₁
  obtain ⟨bs, hbs, h₂⟩ := h₂
  refine ⟨as ++ bs, by rw [List.length_append]; omega, ?_⟩
  intro m hm
  rcases List.mem_append.mp hm with hm | hm
  · rcases h₁ m hm with h | ⟨x, hx, hnear⟩
    · exact Or.inl (List.mem_append_left _ h)
    · exact Or.inr ⟨x, List.mem_append_left _ hx, hnear⟩
  · rcases h₂ m hm with h | ⟨x, hx, hnear⟩
    · exact Or.inl (List.mem_append_right _ h)
    · exact Or.inr ⟨x, List.mem_append_right _ hx, hnear⟩

theorem Starts.mono {j k : Nat} {ms : List Modification} (h : Starts j ms) (hle : j ≤ k) :
    Starts k ms := by
  obtain ⟨as, has, h⟩ := h
  exact ⟨as, has.trans hle, h⟩

/-- The same for words. -/
theorem starts_words {ws : List Nat} (as : List Nat)
    (h : ∀ a ∈ ws, a ∈ as ∨ ∃ x ∈ ws, x < a ∧ a ≤ x + 20) : Starts as.length (words base ws) := by
  refine ⟨as, le_refl _, ?_⟩
  intro m hm
  obtain ⟨a, ha, rfl⟩ := List.mem_map.mp hm
  rcases h a ha with has | ⟨x, hx, hlt, hle⟩
  · exact Or.inl has
  · exact Or.inr ⟨wordAt base x, List.mem_map_of_mem hx, hlt, hle⟩

theorem starts_singleton (a : Nat) : Starts 1 (words base [a]) :=
  starts_words [a] fun _ ha => Or.inl ha

/-! ### Freeing -/

/-- `FreeBlock` stores at eight places at most: the links of both neighbours, the new header and
    links, the new end, a list head and a back link. -/
theorem free_starts {blk lo hi : Nat} {prev next size back : List Nat} (hσ : σ.WF)
    (hb : σ.size blk ≠ 0) (h : FreeTrace σ blk lo hi prev next size back) :
    Starts 8 (words base (freeWords lo hi prev next size back)) := by
  obtain ⟨hp, hn, hk⟩ := h.lengths
  have hhi : 4 < hi := by
    obtain ⟨hlo, _, _, _, _⟩ := hσ.layout hb
    rcases h.next with ⟨h₁, _⟩ | ⟨_, h₁, _⟩ <;> omega
  -- a write close behind another one does not begin a range; the rest are counted
  rcases h.size with ⟨_, _, rfl⟩ | rfl
  · have hs : Starts (prev ++ next ++ back ++ [4 * classOf (hi - lo), lo + 4, hi]).length
        (words base (freeWords lo hi prev next [] back)) := by
      apply starts_words _
      intro a ha
      simp only [freeWords, List.mem_append, List.mem_cons, List.not_mem_nil, or_false] at ha ⊢
      rcases ha with ha | ha | ha | ha | (ha | ha | rfl) | ha
      · simp [ha]
      · simp [ha]
      · exact absurd ha id
      · simp [ha]
      · simp [ha]
      · simp [ha]
      · exact Or.inr ⟨lo + 4, by simp, by omega, by omega⟩
      · simp [ha]
    apply hs.mono
    simp only [List.length_append, List.length_cons, List.length_nil]
    omega
  · have hs : Starts (prev ++ next ++ back ++ [4 * classOf (hi - lo), lo, hi - 4]).length
        (words base (freeWords lo hi prev next [lo, hi - 4] back)) := by
      apply starts_words _
      intro a ha
      simp only [freeWords, List.mem_append, List.mem_cons, List.not_mem_nil, or_false] at ha ⊢
      rcases ha with ha | ha | (ha | ha) | rfl | (ha | rfl | rfl) | ha
      · simp [ha]
      · simp [ha]
      · simp [ha]
      · simp [ha]
      · exact Or.inr ⟨a - 4, by simp, by omega, by omega⟩
      · simp [ha]
      · exact Or.inr ⟨lo, by simp, by omega, by omega⟩
      · exact Or.inr ⟨lo, by simp, by omega, by omega⟩
      · simp [ha]
    apply hs.mono
    simp only [List.length_append, List.length_cons, List.length_nil]
    omega

/-! ### New objects -/

/-- The bytes of an object lead from its header to a word at most 16 bytes behind them. -/
theorem newMods_starts {p q : Nat} {as : List Nat} (cs : List Nat)
    (has : ∀ a ∈ as, a ∈ cs ∨ (∃ x ∈ as, x < a ∧ a ≤ x + 20) ∨
      p + 16 < a ∧ a ≤ p + 32 + r.key.length + r.val.length)
    (hp : p ∈ cs ∨ ∃ x ∈ as, x < p ∧ p ≤ x + 20) (hq : q ∈ cs) :
    Starts cs.length (newMods base p r q as) := by
  have hword : ∀ {x}, x ∈ as → wordAt base x ∈ newMods base p r q as := fun hx =>
    mem_newMods.mpr (Or.inl ⟨_, hx, rfl⟩)
  refine ⟨cs, le_refl _, ?_⟩
  intro m hm
  -- the data follow the header, and begin no range of their own
  rcases mem_newMods.mp hm with ⟨a, ha, rfl⟩ | rfl | rfl | rfl
  · rcases has a ha with h | ⟨x, hx, hlt, hle⟩ | ⟨hlt, hle⟩
    · exact Or.inl h
    · exact Or.inr ⟨_, hword hx, hlt, hle⟩
    · refine Or.inr ⟨dataMod base p r, mem_newMods.mpr (by simp), hlt, ?_⟩
      show a ≤ p + 16 + (r.key.length + r.val.length) + 16
      omega
  · rcases hp with h | ⟨x, hx, hlt, hle⟩
    · exact Or.inl h
    · exact Or.inr ⟨_, hword hx, hlt, hle⟩
  · refine Or.inr ⟨headerMod base p, mem_newMods.mpr (by simp), ?_, ?_⟩
    · show p < p + 16
      omega
    · show p + 16 ≤ p + 16 + 16
      omega
  · exact Or.inl hq

/-- A new object is stored at seven places at most. -/
theorem new_starts {m : Mem} {q : Nat} {L : List Modification}
    (hsize : r.key.length + r.val.length ≤ kMaxItemSize) (h : NewMods base m σ r q L) :
    Starts 7 L := by
  obtain ⟨_, hge, _, hlt, _⟩ := sizeFor_bounds hsize
  cases h with
  | @mk b as hwords =>
  -- an exact fit, or a split, which writes more
  cases hwords with
  | @exact _ w _ _ hb hn hw =>
    have hs : Starts [4 * classOf (sizeFor r), w, b + 4, q].length
        (newMods base (b + 4) r q [b + sizeFor r, 4 * classOf (sizeFor r), w]) := by
      refine newMods_starts _ ?_ (by simp) (by simp)
      intro a ha
      simp only [List.mem_cons, List.not_mem_nil, or_false] at ha
      rcases ha with rfl | rfl | rfl
      · exact Or.inr (Or.inr ⟨by omega, by omega⟩)
      · simp
      · simp
    exact hs.mono (by simp)
  | @split b n next back _ _ hb hr hsum ht =>
    obtain ⟨hnext, hback⟩ := ht.lengths
    have hs : Starts (next ++ back ++ [4 * σ.cls b, 4 * classOf n, b, b + n - 4, q]).length
        (newMods base (b + n + 4) r q (splitWords σ b n next back)) := by
      refine newMods_starts _ ?_ (Or.inr ⟨b + n, ?_, ?_, ?_⟩) (by simp)
      · intro a ha
        simp only [splitWords, List.mem_append, List.mem_cons, List.not_mem_nil, or_false] at ha ⊢
        rcases ha with ha | ha | (ha | ha) | (rfl | rfl | ha) | ha | (rfl | rfl | rfl)
        · simp [ha]
        · simp [ha]
        · simp [ha]
        · simp [ha]
        · exact Or.inr (Or.inl ⟨b, by simp, by omega, by omega⟩)
        · exact Or.inr (Or.inl ⟨b, by simp, by omega, by omega⟩)
        · simp [ha]
        · simp [ha]
        · exact Or.inr (Or.inl ⟨b + n - 4, by simp, by omega, by omega⟩)
        · exact Or.inr (Or.inr ⟨by omega, by omega⟩)
        · exact Or.inr (Or.inl ⟨b + σ.size b - 4, by simp, by omega, by omega⟩)
      · simp [splitWords]
      · omega
      · omega
    apply hs.mono
    simp only [List.length_append, List.length_cons, List.length_nil]
    omega

/-! ### Requests -/

/-- All modifications of a request start at 15 places at most. -/
theorem mods_starts {m : Mem} {L : List Modification} (h : WellFormed hash m σ ch)
    (hsize : r.key.length + r.val.length ≤ kMaxItemSize) (hmods : Mods base m σ ch r L) :
    Starts 15 L := by
  have hplaced := (h.buckets _ (bucketOf_lt r)).placed
  cases hmods with
  | unchanged => exact ⟨[], by simp, fun m hm => absurd hm List.not_mem_nil⟩
  | shrunk =>
    refine ⟨_, ?_, fun m hm => Or.inl (List.mem_map_of_mem (f := Modification.des) hm)⟩
    simp [shrinkMods]
  | inserted _ hnew => exact (new_starts hsize hnew).mono (by omega)
  | @replaced pre post e lo hi prev next size back m₁ L _ hes _ _ htrace _ hnew =>
    have hlive := (hplaced e (by rw [hes]; simp)).live
    exact (free_starts h.heap.wf hlive.1 htrace).append (new_starts hsize hnew)
  | @deleted e es lo hi prev next size back _ hes htrace =>
    have hlive := (hplaced e (by rw [hes]; simp)).live
    exact ((starts_singleton _).append (free_starts h.heap.wf hlive.1 htrace)).mono (by omega)

/-- **The scatter arrays.** The merged modifications of a request that returns are at most 15, so
    that `sges[i]`, `wrs[i]` and `wrs[i + 1]` are inside the arrays for each of them. -/
theorem merged_fit_scatters (h : WellFormed hash s.mem σ ch) (ht : r.type ≠ .get)
    (hsize : r.key.length + r.val.length ≤ kMaxItemSize) {fuel : Nat} {resp : Response}
    (hrun : serve fuel r s = .ok (resp, s')) :
    (mergeModifications s'.modifications).length ≤ kNumScatters - 1 ∧
      ∀ i, i < (mergeModifications s'.modifications).length → i + 1 < kNumScatters := by
  have hlen : (mergeModifications s'.modifications).length ≤ 15 := by
    obtain ⟨hmods, hrec⟩ := serve_mods h ht hsize hrun
    by_cases hnil : s'.modifications = []
    · rw [hnil]
      decide
    · obtain ⟨as, has, hstart⟩ := mods_starts h hsize hmods
      exact (length_mergeModifications_le hnil hrec hstart).trans has
  refine ⟨hlen, ?_⟩
  intro i hi
  unfold kNumScatters
  omega

theorem merged_fit_scatters_put : ∃ resp s', serve 2 (item .put) (formatted true) = .ok (resp, s') ∧
    (mergeModifications s'.modifications).length ≤ kNumScatters - 1 := by
  have hpass : (serve 2 (item .put) (formatted true)).isOk = true := by
    decide +kernel
  cases hrun : serve 2 (item .put) (formatted true) with
  | error e =>
    rw [hrun] at hpass
    cases hpass
  | ok p =>
    obtain ⟨resp, s'⟩ := p
    obtain ⟨hinv, _⟩ := tabletInv_fresh firstByte freshTablet_formatted
    exact ⟨resp, s', rfl, (merged_fit_scatters hinv.wellFormed (by decide) (by decide) hrun).1⟩

end Nvds.Tablet
