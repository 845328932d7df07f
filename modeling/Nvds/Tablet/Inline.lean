import Nvds.Tablet.Leads

/-! # Inline sends (`Tablet::Sync`, `Infiniband::QueuePair`)

    `Sync` posts its work requests with `IBV_SEND_INLINE`, whatever their
    length; the queue pairs are created for 128 bytes of inline data.
    `PostSend` sets the flag only up to that length.

    The first range of a request, the one that is posted, is mostly short. It
    is too long in two cases. A value stored in its place is merged with its
    length if the key has at most 8 bytes. And where a value is replaced by a
    longer one, the list heads and links that are stored when the old object
    is freed may lead up to the new one, so that it is merged with them
    (`Overreaches`).
-/

open ByteMemory Program Intervals LinkedList Nvds.Allocator

namespace Nvds.Tablet

/-! ### The code -/

/-- `Infiniband::kMaxInlineData`, the `max_inline_data` of the queue pairs. -/
def kMaxInlineData : Nat := 128

/-- A work request: the source and the length of its only scatter entry, the offset in the
    backup, and the flags `IBV_SEND_INLINE` and `IBV_SEND_SIGNALED`. -/
structure SendWr where
  src : Nat
  len : Nat
  des : Nat
  inlined : Bool
  signaled : Bool
  deriving DecidableEq, Repr

/-- The work requests for the merged modifications, as `Sync` posts them to the queue pair of
    each backup. -/
def sendWrs (modifications : List Modification) : List SendWr :=
  let ms := workRequests modifications
  ms.mapIdx fun i m => ⟨m.src, m.len, m.des, true, decide (i + 1 = ms.length)⟩

/-- The work requests of a call of `Sync`. -/
def postedWrs (modifications : List Modification) : List SendWr :=
  if modifications.length = 0 then [] else sendWrs (mergeModifications modifications)

/-- Every inline request that is posted fits the queue pair. -/
def FitsInline (modifications : List Modification) : Prop :=
  ∀ w ∈ postedWrs modifications, w.inlined = true → w.len ≤ kMaxInlineData

instance (ms : List Modification) : Decidable (FitsInline ms) :=
  inferInstanceAs (Decidable (∀ w ∈ postedWrs ms, _ → _))

/-- A value is stored in its place, at most 16 bytes behind its length, and does not fit. -/
def LongInPlace (ch : Nat → List Entry) (r : Request) : Prop :=
  r.type = .put ∧ r.key.length ≤ 8 ∧ 118 < r.key.length + r.val.length ∧
    ∃ e ∈ ch (bucketOf r), e.key = r.key ∧ r.val.length < e.val.length

/-- An object is replaced by a longer one, and that leads too far. -/
def LongReplaced (m : Mem) (σ : Shape) (ch : Nat → List Entry) (r : Request) : Prop :=
  r.type = .put ∧ ∃ e ∈ ch (bucketOf r), e.key = r.key ∧ e.val.length ≤ r.val.length ∧
    Overreaches m σ (e.ptr - 4) (sizeFor r)

variable {hash : List UInt8 → Nat} {σ : Shape} {ch : Nat → List Entry} {s s' : Nvm} {r : Request}
  {base : Nat} {L : List Modification} {w : Modification}

/-! ### The first range -/

theorem fitsInline_nil : FitsInline [] := by
  intro w hw
  cases hw

theorem fitsInline_iff {ws : List Modification} (hne : L ≠ [])
    (heq : mergeModifications L = w :: ws) : FitsInline L ↔ w.len ≤ 128 := by
  unfold FitsInline postedWrs
  rw [if_neg (by simpa using hne), heq]
  simp [sendWrs, workRequests, kMaxInlineData]

/-! ### A value in its place -/

/-- **A value in its place.** The length and the value are one range if the key has at most 8
    bytes; else the range is the length. -/
theorem shrink_fits_iff {p : Nat} (hf : FirstRange (shrinkMods base p r) w) :
    w.len ≤ 128 ↔ ¬ (r.key.length ≤ 8 ∧ 118 < r.key.length + r.val.length) := by
  have hmem : ∀ {m}, m ∈ shrinkMods base p r ↔ m = ⟨p + 6, base + (p + 6), 2⟩ ∨
      m = ⟨p + 16 + r.key.length, base + (p + 16 + r.key.length), r.val.length⟩ := by
    intro m
    simp [shrinkMods]
  -- the first merged write begins at the length, which is in front of the value
  have hdes : w.des = p + 6 := by
    have hle : w.des ≤ p + 6 := hf.lowest _ (hmem.mpr (Or.inl rfl))
    obtain ⟨m, hm, hstart⟩ := hf.start
    rcases hmem.mp hm with rfl | rfl
    · exact hstart
    · change w.des = p + 16 + r.key.length at hstart
      omega
  have hlen : p + 8 ≤ w.des + w.len := by
    rcases hf.apart _ (hmem.mpr (Or.inl rfl)) with hin | hout
    · change p + 6 + 2 ≤ w.des + w.len at hin
      omega
    · change w.des + w.len + 16 < p + 6 at hout
      omega
  have hstop : w.des + w.len = p + 8 ∨
      w.des + w.len = p + 16 + r.key.length + r.val.length := by
    obtain ⟨m, hm, hstop⟩ := hf.stop
    rcases hmem.mp hm with rfl | rfl
    · exact Or.inl hstop
    · exact Or.inr hstop
  -- with a short key the two are merged
  by_cases hk : r.key.length ≤ 8
  · rcases hf.apart _ (hmem.mpr (Or.inr rfl)) with hin | hout
    · change p + 16 + r.key.length + r.val.length ≤ w.des + w.len at hin
      omega
    · change w.des + w.len + 16 < p + 16 + r.key.length at hout
      omega
  · -- the value is too far behind the length
    have hshort : w.des + w.len ≤ p + 24 := by
      by_contra hcon
      obtain ⟨m, hm, h₁, h₂⟩ :=
        hf.near (p + 24) ⟨by show w.des ≤ p + 24; omega, by show p + 24 < w.des + w.len; omega⟩
      rcases hmem.mp hm with rfl | rfl
      · change p + 24 < p + 6 + 2 + 16 at h₂
        omega
      · change p + 16 + r.key.length ≤ p + 24 at h₁
        omega
    omega

/-! ### Links -/

/-- The slot of a bucket is behind the heap. -/
theorem linkAt_slot (hσ : σ.WF) (r : Request) : LinkAt σ (slotOf (bucketOf r)) := by
  intro x hx
  have hlo := (slotOf_bounds (bucketOf_lt r)).1
  have := (hx.node hσ).2.2
  exact Or.inr (by omega)

/-- The block of an object is larger than 16 bytes. -/
theorem Placed.size_ge (hσ : σ.WF) {e : Entry} (h : Placed σ e) : 32 ≤ σ.size (e.ptr - 4) := by
  obtain ⟨_, _, _, h16, _⟩ := hσ.layout h.live.1
  have hfits := h.fits
  have hlen := e.len_ge
  omega

/-- The place of a link is the slot of the bucket, or the start of another object. -/
theorem WellFormed.linkAt {m : Mem} (h : WellFormed hash m σ ch) {pre post : List Entry} {e : Entry}
    (hes : ch (bucketOf r) = pre ++ e :: post) {lo hi : Nat}
    (hM : Merged m σ (e.ptr - 4) lo hi) (hσ₁ : (σ.fuse lo hi).WF) :
    LinkAt (σ.fuse lo hi) (linkOf (slotOf (bucketOf r)) pre) ∧
      292 ≤ linkOf (slotOf (bucketOf r)) pre := by
  have hσ := h.heap.wf
  have hb := h.buckets _ (bucketOf_lt r)
  have he := hb.placed e (mem_of_split hes)
  rcases link_cases (bucketOf r) pre with hq | ⟨y, hy, hq⟩
  · rw [hq]
    have hlo := (slotOf_bounds (bucketOf_lt r)).1
    exact ⟨linkAt_slot hσ₁ r, by omega⟩
  · have hmem : y ∈ ch (bucketOf r) := by
      rw [hes]
      exact List.mem_append_left _ hy
    have hpl := hb.placed y hmem
    have h32 := hpl.size_ge hσ
    have hptr := hpl.ptr
    -- the key of `y` is another one, so it is another object
    have hne : y.ptr - 4 ≠ e.ptr - 4 := by
      intro heq
      have hye : y.ptr = e.ptr := by
        have := he.ptr
        omega
      have hbucket := h.chains.buckets _ (bucketOf_lt r)
      rw [hes] at hbucket
      apply hbucket.key_ne y (List.mem_append_left _ hy)
      rw [(hb.object y hmem).unique (hb.object e (mem_of_split hes)) hye]
    have hout := hM.outside hσ he.live hpl.live hne
    have hbounds := hM.bounds
    have hge := hσ.size_ge he.live.1
    have hsize : (σ.fuse lo hi).size (y.ptr - 4) = σ.size (y.ptr - 4) :=
      Tiling.fuse_of_outside hout (by omega)
    have hlay := (hσ.layout hpl.live.1).1
    rw [hq]
    refine ⟨fun x hx => ?_, by omega⟩
    have := hx.eq_or hσ₁ (y.ptr - 4) (by rw [hsize]; omega)
    omega

/-! ### All requests -/

theorem fuse_wf_of_trace (hσ : σ.WF) {blk lo hi : Nat} {prev next size back : List Nat}
    (hb : σ.Live blk) (h : FreeTrace σ blk lo hi prev next size back) : (σ.fuse lo hi).WF := by
  have hge := hσ.size_ge hb.1
  have hlo : σ.size lo ≠ 0 ∧ lo ≤ blk := by
    rcases h.prev with ⟨rfl, _⟩ | ⟨hF, hend, _⟩
    · exact ⟨hb.1, le_refl _⟩
    · exact ⟨hF.1, by omega⟩
  rcases h.next with ⟨rfl, _⟩ | ⟨hF, rfl, _⟩
  · exact hσ.fuse hlo.1 (hσ.end_cut hb.1) (by omega)
  · exact hσ.fuse hlo.1 (hσ.end_cut hF.1) (by omega)

/-- A key of a bucket is bound once. -/
theorem not_longInPlace_of_replaced {m : Mem} (h : WellFormed hash m σ ch) {e : Entry}
    (he : e ∈ ch (bucketOf r)) (hkey : e.key = r.key) (hle : e.val.length ≤ r.val.length) :
    ¬ LongInPlace ch r := by
  rintro ⟨_, _, _, x, hx, hxk, hlt⟩
  obtain rfl := (h.chains.buckets _ (bucketOf_lt r)).eq_of_key he hx (hxk.trans hkey.symm)
  omega

/-- A `PUT` records something. -/
theorem mods_ne_nil {m : Mem} (hmods : Mods base m σ ch r L) (ht : r.type = .put) : L ≠ [] := by
  have hnew : ∀ {m σ q L}, NewMods base m σ r q L → L ≠ [] := by
    intro m σ q L h
    cases h with
    | mk => exact List.ne_nil_of_mem (mem_newMods.mpr (Or.inr (Or.inl rfl)))
  cases hmods with
  | unchanged hput => exact absurd ht hput
  | shrunk => exact List.cons_ne_nil _ _
  | inserted _ h => exact hnew h
  | replaced _ _ _ _ _ _ h => exact List.append_ne_nil_of_right_ne_nil _ (hnew h)
  | deleted hput => exact absurd ht hput

/-- Whether a value is replaced by a long one is a matter of its own block. -/
theorem longReplaced_iff {m : Mem} (h : WellFormed hash m σ ch) {e : Entry} (ht : r.type = .put)
    (he : e ∈ ch (bucketOf r)) (hkey : e.key = r.key) :
    LongReplaced m σ ch r ↔
      e.val.length ≤ r.val.length ∧ Overreaches m σ (e.ptr - 4) (sizeFor r) := by
  constructor
  · rintro ⟨_, x, hx, hxk, hle, hover⟩
    obtain rfl := (h.chains.buckets _ (bucketOf_lt r)).eq_of_key he hx (hxk.trans hkey.symm)
    exact ⟨hle, hover⟩
  · rintro ⟨hle, hover⟩
    exact ⟨ht, e, he, hkey, hle, hover⟩

/-- The first range of what a request records. -/
theorem mods_fit_iff {m : Mem} (h : WellFormed hash m σ ch)
    (hsize : r.key.length + r.val.length ≤ kMaxItemSize) (hmods : Mods base m σ ch r L)
    (hf : FirstRange L w) : w.len ≤ 128 ↔ ¬ LongInPlace ch r ∧ ¬ LongReplaced m σ ch r := by
  have hσ := h.heap.wf
  have hplaced := (h.buckets _ (bucketOf_lt r)).placed
  have hslot := (slotOf_bounds (bucketOf_lt r)).1
  -- what a request records depends on the path it takes; only two of them can be long
  cases hmods with
  | unchanged =>
    obtain ⟨x, hx, _⟩ := hf.start
    cases hx
  | @shrunk e ht he hkey hlt =>
    have hno : ¬ LongReplaced m σ ch r := by
      rw [longReplaced_iff h ht he hkey]
      omega
    -- a value that is not longer is overwritten
    rw [shrink_fits_iff hf, and_iff_left hno, not_iff_not]
    constructor
    · intro hlong
      exact ⟨ht, hlong.1, hlong.2, e, he, hkey, hlt⟩
    · intro hlong
      exact ⟨hlong.2.1, hlong.2.2.1⟩
  | inserted hno hnew =>
    have hf' : FirstRange (words base [] ++ L) w := hf
    refine iff_of_true (inserted_fits hsize hσ hnew (linkAt_slot hσ r) (by omega) hf') ⟨?_, ?_⟩
    · rintro ⟨_, _, _, x, hx, hxk, _⟩
      exact hno x hx hxk
    · rintro ⟨_, x, hx, hxk, _⟩
      exact hno x hx hxk
  | @replaced pre post e lo hi prev next size back m₁ L ht hes hkey hle htrace hfreed hnew =>
    have hpl := hplaced e (mem_of_split hes)
    obtain ⟨hq, hq292⟩ := h.linkAt hes hfreed.merged hfreed.heap.wf
    rw [and_iff_right (not_longInPlace_of_replaced h (mem_of_split hes) hkey hle),
      longReplaced_iff h ht (mem_of_split hes) hkey, and_iff_right hle]
    exact replaced_fits_iff hsize hσ hpl.live (hpl.size_ge hσ) htrace hfreed hnew hq hq292 hf
  | @deleted e es lo hi prev next size back hput hes htrace =>
    have hpl := hplaced e (by rw [hes]; simp)
    have hσ₁ := fuse_wf_of_trace hσ hpl.live htrace
    rw [words_append] at hf
    refine iff_of_true (free_fits hσ hpl.live (hpl.size_ge hσ) htrace hσ₁ (linkAt_slot hσ₁ r)
      (by omega) hf) ⟨?_, ?_⟩
    · intro hlong
      exact hput hlong.1
    · intro hlong
      exact hput hlong.1

/-- **Inline sends.** The work requests of a request that returns fit the queue pairs exactly if
    no long value is stored in its place under a short key, and no object is replaced by one that
    the words stored for the two lead to. -/
theorem fitsInline_iff_not_long (h : WellFormed hash s.mem σ ch) (ht : r.type ≠ .get)
    (hsize : r.key.length + r.val.length ≤ kMaxItemSize) {fuel : Nat} {resp : Response}
    (hrun : serve fuel r s = .ok (resp, s')) :
    FitsInline s'.modifications ↔ ¬ LongInPlace ch r ∧ ¬ LongReplaced s.mem σ ch r := by
  obtain ⟨hmods, hrec⟩ := serve_mods h ht hsize hrun
  by_cases hnil : s'.modifications = []
  · have hput : r.type ≠ .put := fun hput => mods_ne_nil hmods hput hnil
    rw [hnil]
    exact iff_of_true fitsInline_nil ⟨fun hlong => hput hlong.1, fun hlong => hput hlong.1⟩
  · obtain ⟨w, ws, heq, hf⟩ := exists_firstRange hnil hrec
    rw [fitsInline_iff hnil heq]
    exact mods_fit_iff h hsize hmods hf

/-! ### A tablet in which the words lead to the new object -/

/-- Words stored in memory that is 0, the first of them last. -/
def storeWords (ws : List (Nat × Nat)) : Mem :=
  ws.foldr (fun w m => storeNat m w.1 4 w.2) fun _ => 0

theorem word_storeWords {ws : List (Nat × Nat)} (hws : ∀ w ∈ ws, w.1 % 4 = 0 ∧ w.2 < 2 ^ 32)
    {a : Nat} (ha : a % 4 = 0) : word (storeWords ws) a = (ws.lookup a).getD 0 := by
  induction ws with
  | nil =>
    refine leValue_eq_zero.mpr fun b hb => ?_
    obtain ⟨_, _, rfl⟩ := List.mem_map.mp hb
    rfl
  | cons w ws ih =>
    obtain ⟨hmod, hlt⟩ := hws w List.mem_cons_self
    have hrest := ih fun x hx => hws x (List.mem_cons_of_mem _ hx)
    show word (storeNat (storeWords ws) w.1 4 w.2) a = _
    rw [word_storeNat hmod ha hlt, hrest]
    by_cases haw : a = w.1
    · rw [if_pos haw, haw, List.lookup_cons_self]
      rfl
    · rw [if_neg haw, List.lookup_cons, beq_false_of_ne haw]

/-- A number that is bound to something is in the list. -/
theorem mem_of_lookup {ws : List (Nat × Nat)} {a : Nat} (h : (ws.lookup a).getD 0 ≠ 0) :
    a ∈ ws.map (·.1) := by
  by_contra hno
  have hnone : ws.lookup a = none := by
    rw [List.lookup_eq_none_iff]
    intro p hp
    rw [bne_iff_ne]
    rintro rfl
    exact hno (List.mem_map_of_mem hp)
  exact h (by rw [hnone]; rfl)

/-- Six blocks and their sizes. -/
def sixBlocks : List (Nat × Nat) :=
  [(292, 1056), (1348, 1056), (2404, 64), (2468, 67105264), (67107732, 1056), (67108788, 64)]

/-- All of them are free but the one of an object. -/
def sixShape : Shape where
  size b := (sixBlocks.lookup b).getD 0
  free b := decide (b ≠ 67107732)

/-- Their words: the heads and links of the lists, the headers, the last words, the header and
    key of the object, and the slot of its bucket. -/
def sixTablet : Nvm where
  base := 0
  mem := storeWords [(260, 292), (12, 2404), (288, 2468),
    (300, 1348), (1352, 292), (2412, 67108788), (67108792, 2404),
    (292, 1056), (1348, 2147484704), (2404, 2147483712), (2468, 2214588912),
    (67107732, 2147484704), (67108788, 64), (67108852, 2147483648),
    (1344, 1056), (2400, 1056), (2464, 64), (67107728, 67105264), (67108848, 64),
    (67107740, 1), (67107744, 1), (67107752, 1), (67108868, 67107736)]
  modifications := []

/-- The object has the key `[1]` and no value. -/
def sixChains (i : Nat) : List Entry := if i = 1 then [⟨67107736, [1], []⟩] else []

theorem six_block {b : Nat} (h : sixShape.size b ≠ 0) : b ∈ sixBlocks.map (·.1) :=
  mem_of_lookup h

theorem six_wf : sixShape.WF := by
  have hcuts : ∀ b ∈ sixBlocks.map (·.1), (kHeapBegin ≤ b ∧ b + sixShape.size b ≤ kHeapEnd) ∧
      (b + sixShape.size b = kHeapEnd ∨ sixShape.size (b + sixShape.size b) ≠ 0) ∧
      sixShape.size b % 16 = 0 := by
    decide
  have happart : ∀ b ∈ sixBlocks.map (·.1), ∀ x ∈ sixBlocks.map (·.1),
      b < x → b + sixShape.size b ≤ x := by
    decide
  refine ⟨⟨by decide, fun b hb => (hcuts b (six_block hb)).1,
    fun b hb => (hcuts b (six_block hb)).2.1, ?_⟩, ?_⟩
  · intro b x hb hlt hend
    by_contra hx
    have := happart b (six_block hb) x (six_block hx) hlt
    omega
  · intro b
    by_cases hb : sixShape.size b = 0
    · rw [hb]
      exact dvd_zero 16
    · exact Nat.dvd_of_mod_eq_zero (hcuts b (six_block hb)).2.2

theorem six_tags : Tags sixTablet.mem sixShape := by
  have h : ∀ b ∈ sixBlocks.map (·.1), word sixTablet.mem b % 2147483648 = sixShape.size b ∧
      (2147483648 ≤ word sixTablet.mem (b + sixShape.size b) ↔ sixShape.free b = true) ∧
      (sixShape.free b = true →
        word sixTablet.mem (b + sixShape.size b - 4) = sixShape.size b) := by
    decide +kernel
  exact ⟨fun b hb => (h b (six_block hb)).1, by decide +kernel, by decide +kernel,
    fun b hb => (h b (six_block hb)).2.1, fun b hb => (h b (six_block hb)).2.2⟩

theorem six_linked : Linked (lists sixTablet.mem) sixShape.Free sixShape.cls := by
  obtain ⟨l, hl⟩ : ∃ l, l = lists sixTablet.mem := ⟨_, rfl⟩
  have hhead : ∀ c ∈ List.range 73, l.head c ≠ 0 → sixShape.Free (l.head c) ∧
      sixShape.cls (l.head c) = c ∧ l.prev (l.head c) = 0 := by
    rw [hl]
    decide +kernel
  have hlink : ∀ b ∈ sixBlocks.map (·.1), sixShape.Free b →
      (l.next b ≠ 0 → sixShape.Free (l.next b) ∧
        sixShape.cls (l.next b) = sixShape.cls b ∧ l.prev (l.next b) = b) ∧
      (l.prev b ≠ 0 → sixShape.Free (l.prev b) ∧
        sixShape.cls (l.prev b) = sixShape.cls b ∧ l.next (l.prev b) = b) := by
    rw [hl]
    decide +kernel
  rw [← hl]
  refine ⟨?_, ?_, ?_, ?_⟩
  · rintro b hb rfl
    exact hb.1 rfl
  · intro c hc
    refine hhead c (List.mem_range.mpr ?_) hc
    by_contra hge
    rw [hl] at hc
    exact hc (if_neg (by rw [kNumFreeLists_eq]; omega))
  · exact fun b hb => (hlink b (six_block hb.1) hb).1
  · exact fun b hb => (hlink b (six_block hb.1) hb).2

theorem six_slot {i : Nat} (h1 : i ≠ 1) (hi : i < kHashTableSize) :
    word sixTablet.mem (slotOf i) = 0 := by
  obtain ⟨hlo, _, hmod⟩ := slotOf_bounds hi
  have hne : slotOf i ≠ 67108868 := by
    rw [slotOf, offsetofHashTable_eq]
    omega
  rw [sixTablet, word_storeWords (by decide) hmod]
  by_contra h0
  have hin := mem_of_lookup h0
  simp only [List.map_cons, List.map_nil, List.mem_cons, List.not_mem_nil, or_false] at hin
  omega

theorem wellFormed_six : WellFormed firstByte sixTablet.mem sixShape sixChains := by
  refine ⟨⟨six_wf, six_tags, six_linked⟩, ?_⟩
  intro i hi
  by_cases h1 : i = 1
  · subst h1
    refine ⟨?_, ?_, ?_, ?_, by decide⟩
    · exact ⟨by decide +kernel, by decide,
        show word sixTablet.mem 67107736 = 0 by decide +kernel⟩
    · intro e he
      obtain rfl := List.mem_singleton.mp he
      exact ⟨by decide +kernel, by decide +kernel, by decide +kernel, rfl⟩
    · intro e he
      obtain rfl := List.mem_singleton.mp he
      exact ⟨by decide, ⟨by decide, by decide⟩, by decide⟩
    · intro e he
      obtain rfl := List.mem_singleton.mp he
      decide
  · rw [sixChains, if_neg h1]
    exact ⟨six_slot h1 hi, by simp, by simp, by simp, List.nodup_nil⟩

theorem replicate_length_lt {n : Nat} (h : n < 65536) :
    (List.replicate n (7 : UInt8)).length < 65536 := by
  rw [List.length_replicate]
  exact h

/-- A `PUT` of `n` bytes under the key `[1]`. -/
def putBytes (n : Nat) (h : n < 65536) : Request :=
  request .put 1 (List.replicate n 7) (replicate_length_lt h)

theorem putBytes_size {n : Nat} (h : n < 65536) (hn : n < 1024) :
    (putBytes n h).key.length + (putBytes n h).val.length ≤ kMaxItemSize := by
  have hlen : (putBytes n h).val.length = n := List.length_replicate
  rw [hlen, kMaxItemSize_eq]
  exact (Nat.add_comm 1 n).le.trans hn

theorem fitsInline_iff_not_long_six : ∃ resp s',
    serve 2 (putBytes 1020 (by decide)) sixTablet = .ok (resp, s') ∧
      ¬ FitsInline s'.modifications ∧
      LongReplaced sixTablet.mem sixShape sixChains (putBytes 1020 (by decide)) := by
  have hdec : (serve 2 (putBytes 1020 (by decide)) sixTablet).toOption.map
      (fun p => decide (FitsInline p.2.modifications)) = some false := by
    decide +kernel
  cases hrun : serve 2 (putBytes 1020 (by decide)) sixTablet with
  | error e =>
    rw [hrun] at hdec
    cases hdec
  | ok p =>
    obtain ⟨resp, s'⟩ := p
    rw [hrun] at hdec
    have hlong : ¬ FitsInline s'.modifications := of_decide_eq_false (Option.some.inj hdec)
    have hiff := fitsInline_iff_not_long wellFormed_six (by decide)
      (putBytes_size _ (by decide)) hrun
    refine ⟨resp, s', rfl, hlong, ?_⟩
    by_contra hno
    refine hlong (hiff.mpr ⟨?_, hno⟩)
    -- the value that is replaced is empty
    rintro ⟨_, _, _, e, he, _, hlt⟩
    obtain rfl := List.mem_singleton.mp he
    exact absurd hlt (Nat.not_lt_zero _)

/-- A value of 130 bytes is replaced by one of 120 bytes: 131 bytes are posted inline. -/
theorem exists_not_fitsInline : ∃ s σ ch resp s', TabletInv firstByte s.mem σ ch ∧
    (putBytes 120 (by decide)).key.length + (putBytes 120 (by decide)).val.length ≤ kMaxItemSize ∧
    serve 2 (putBytes 120 (by decide)) s = .ok (resp, s') ∧ ¬ FitsInline s'.modifications := by
  obtain ⟨hinv, hrep⟩ := tabletInv_fresh firstByte freshTablet_formatted
  -- no object is replaced by the first request, since the tablet is empty
  have hclean : CleanReplace (formatted true).mem (putBytes 130 (by decide)) := by
    intro _ p hp
    exact absurd hp (not_inChain (by decide +kernel))
  have hdec : ((put 2 (putBytes 130 (by decide)) >>= fun _ => serve 2 (putBytes 120 (by decide)))
      (formatted true)).toOption.map (fun p => decide (FitsInline p.2.modifications)) =
      some false := by
    decide +kernel
  rcases put_run hinv hrep rfl (by decide) (putBytes_size _ (by decide)) hclean
      (show 0 < 2 by decide) with herr | ⟨s, σ, ch, hput, hbound⟩
  · rw [bind_of_error herr] at hdec
    cases hdec
  · rw [bind_of_ok hput] at hdec
    cases hrun : serve 2 (putBytes 120 (by decide)) s with
    | error e =>
      rw [hrun] at hdec
      cases hdec
    | ok p =>
      obtain ⟨resp, s'⟩ := p
      rw [hrun] at hdec
      exact ⟨s, σ, ch, resp, s', hbound.inv, putBytes_size _ (by decide), hrun,
        of_decide_eq_false (Option.some.inj hdec)⟩

end Nvds.Tablet
