import Nvds.Tablet.Reach

/-! # Where the words of a request lead

    A new object is in the first range if the words that are stored before it
    lead to it. Those of an inserted object never do. Where an object is
    replaced by a longer one, the list heads and links that are stored when
    its block is freed may lead up to the new one (`Overreaches`).
-/

open ByteMemory Program Intervals LinkedList Nvds.Allocator

namespace Nvds.Tablet

/-- The words `ws` lead to the offset `t`: from the first of them on there is no gap of more than
    16 bytes before `t`. -/
def Leads (ws : List Nat) (t : Nat) : Prop :=
  ∀ a, a < t → (∃ p ∈ ws, p ≤ a) → ∃ p ∈ ws, p ≤ a ∧ a < p + 4 + kMergeGap

/-- They lead so far that the first words of a block at `t` are more than 128 bytes behind. -/
def Stretches (ws : List Nat) (t : Nat) : Prop := Leads ws t ∧ ∃ p ∈ ws, p + 116 < t

/-- The links and list heads that are stored to free the block `blk`: those of its free
    neighbours, and the head for the new block. -/
def releasedWords (m : Mem) (σ : Shape) (blk : Nat) : List Nat :=
  unlinkWords σ.cls (lists m) (σ.absorbed blk (mergedFrom m blk) (mergedTo m blk)) ++
    [4 * classOf (mergedTo m blk - mergedFrom m blk)]

/-- Replacing the block `blk` by one of `n` bytes stores words that lead too far. Once `blk` is
    free, the first block `b` that serves the request fits exactly, another one is behind it on
    its list, and the words lead to the header of an object in `b`. Or `b` is split, and they lead
    far up to `b` or to the block that `blk` has become. -/
def Overreaches (m : Mem) (σ : Shape) (blk n : Nat) : Prop :=
  let σ' := σ.fuse (mergedFrom m blk) (mergedTo m blk)
  let l := freedLists m σ blk (mergedFrom m blk) (mergedTo m blk)
  ∃ b, FirstFit l (classOf n) (σ'.cls b) ∧ l.head (σ'.cls b) = b ∧
    (σ'.size b = n ∧ l.next b ≠ 0 ∧ Leads (releasedWords m σ blk ++ [4 * classOf n]) (b + 4) ∨
      n < σ'.size b ∧ ∃ t, (t = mergedFrom m blk ∨ t = b) ∧ Stretches
        (releasedWords m σ blk ++ [4 * σ'.cls b, 4 * classOf (σ'.size b - n)]) t)

variable {σ : Shape} {r : Request} {base : Nat} {L : List Modification} {w : Modification}

/-! ### The first range -/

/-- The first range gets as far as its words lead. -/
theorem le_of_leads {ws : List Nat} {t : Nat} (hf : FirstRange L w)
    (hws : ∀ a ∈ ws, wordAt base a ∈ L) (hstart : w.des ∈ ws) (h : Leads ws t) :
    t ≤ w.des + w.len + 16 := by
  by_contra hcon
  obtain ⟨p, hp, hpa, hap⟩ := h (w.des + w.len + 16) (by omega) ⟨w.des, hstart, by omega⟩
  change w.des + w.len + 16 < p + 4 + 16 at hap
  rcases hf.apart _ (hws p hp) with hin | hout
  · change p + 4 ≤ w.des + w.len at hin
    omega
  · change w.des + w.len + 16 < p at hout
    omega

/-- Its words lead as far as it gets. -/
theorem leads_of_reached {ws : List Nat} {t : Nat} (hf : FirstRange L w)
    (hws : ∀ a ∈ ws, wordAt base a ∈ L) (hreach : t ≤ w.des + w.len)
    (hbelow : ∀ m ∈ L, m.des < t → m.des ∈ ws ∧ m.len = 4) : Leads ws t := by
  rintro a hat ⟨p, hp, hpa⟩
  have hlow : w.des ≤ p := hf.lowest _ (hws p hp)
  obtain ⟨m, hm, hma, ham⟩ := hf.near a ⟨by show w.des ≤ a; omega, by show a < w.des + w.len; omega⟩
  obtain ⟨hin, hlen⟩ := hbelow m hm (by omega)
  rw [hlen] at ham
  exact ⟨m.des, hin, hma, ham⟩

/-- Every word leads 20 bytes at most. -/
theorem Leads.le {ws : List Nat} {t p : Nat} (h : Leads ws t) (hp : p ∈ ws) :
    t - p ≤ ws.length * 20 :=
  length_le_of_near fun a h₁ h₂ => h a h₂ ⟨p, hp, h₁⟩

/-! ### New objects -/

/-- The place of a link, seen from the heap `σ`: it is the second word of the first larger block,
    or far behind. -/
def LinkAt (σ : Shape) (q : Nat) : Prop := ∀ x, FirstLarge σ x → q = x + 4 ∨ x + 32 ≤ q

theorem few_linkAt (hσ : σ.WF) {x q : Nat} (hx : FirstLarge σ x) (hq : LinkAt σ q) :
    Few x [q] 0 0 := by
  have hnode := (hx.node hσ).1
  rcases hq x hx with rfl | hfar
  · exact few_start hnode (Or.inl rfl) (by omega)
  · exact few_behind hnode hfar

/-- The modifications of a new object, with the words `ws` of a freed block before. -/
theorem mem_new {ws as : List Nat} {p q : Nat} {m : Modification} :
    m ∈ words base ws ++ newMods base p r q as ↔
      (∃ a ∈ ws ++ (as ++ [q]), m = wordAt base a) ∨ m = headerMod base p ∨
        m = dataMod base p r := by
  rw [List.mem_append, mem_words, mem_newMods]
  constructor
  · rintro (⟨a, ha, rfl⟩ | ⟨a, ha, rfl⟩ | rfl | rfl | rfl)
    · exact Or.inl ⟨a, by simp [ha], rfl⟩
    · exact Or.inl ⟨a, by simp [ha], rfl⟩
    · exact Or.inr (Or.inl rfl)
    · exact Or.inr (Or.inr rfl)
    · exact Or.inl ⟨q, by simp, rfl⟩
  · rintro (⟨a, ha, rfl⟩ | rfl | rfl)
    · rcases List.mem_append.mp ha with ha | ha
      · exact Or.inl ⟨a, ha, rfl⟩
      · rcases List.mem_append.mp ha with ha | ha
        · exact Or.inr (Or.inl ⟨a, ha, rfl⟩)
        · rw [List.mem_singleton.mp ha]
          simp
    · simp
    · simp

theorem word_mem_new {ws as : List Nat} {p q a : Nat} (ha : a ∈ ws ++ (as ++ [q])) :
    wordAt base a ∈ words base ws ++ newMods base p r q as :=
  mem_new.mpr (Or.inl ⟨a, ha, rfl⟩)

theorem new_heads (base : Nat) (r : Request) {ws as : List Nat} {p q : Nat} (hp : 292 ≤ p)
    (hq : 292 ≤ q)    (hsome : ∃ a ∈ as, a < 292) (hfive : (heads ws).length + (heads as).length ≤ 5) :
    Heads (heads (ws ++ (as ++ [q]))) (words base ws ++ newMods base p r q as) := by
  obtain ⟨a, ha, hlt⟩ := hsome
  have hnil : heads [q] = [] := heads_cons_of_ge hq
  refine heads_of_words ⟨a, by simp [ha], hlt⟩ ?_ (fun _ => word_mem_new) ?_
  · rw [heads_append, heads_append, hnil, List.append_nil, List.length_append]
    exact hfive
  · intro m hm
    rcases mem_new.mp hm with hw | rfl | rfl
    · exact Or.inl hw
    · exact Or.inr hp
    · exact Or.inr (by show 292 ≤ p + 16; omega)

/-- A range that gets to the header of a new object has the whole object. -/
theorem object_le {ws as : List Nat} {p q : Nat}
    (hf : FirstRange (words base ws ++ newMods base p r q as) w) (hp : p ≤ w.des + w.len + 16) :
    p + 16 + (r.key.length + r.val.length) ≤ w.des + w.len := by
  have hhead : p + 16 ≤ w.des + w.len := by
    rcases hf.apart (headerMod base p) (mem_new.mpr (by simp)) with hin | hout
    · exact hin
    · change w.des + w.len + 16 < p at hout
      omega
  rcases hf.apart (dataMod base p r) (mem_new.mpr (by simp)) with hin | hout
  · exact hin
  · change w.des + w.len + 16 < p + 16 at hout
    omega

/-- The heads a block is taken from are those of blocks as large as an object, and do not get to
    the heap. -/
theorem inserted_exact_fits (hsize : r.key.length + r.val.length ≤ kMaxItemSize) (hσ : σ.WF)
    {m : Mem} {b q w' : Nat} (hb : σ.Free b) (hw : PopsTo m σ b w') (hq : 292 ≤ q)
    (hf : FirstRange (words base [] ++
      newMods base (b + 4) r q [b + sizeFor r, 4 * classOf (sizeFor r), w']) w) : w.len ≤ 128 := by
  obtain ⟨_, _, hle, _, _⟩ := sizeFor_bounds hsize
  have hb292 := (hσ.layout hb.1).1
  -- the lowest write is a list head, and the object is far behind it in the heap
  have hc : 4 * classOf (sizeFor r) ≤ 260 := by
    rw [classOf_of_le (by omega)]
    omega
  have hw' : w' = 4 ∨ 292 ≤ w' := by
    rcases hw with ⟨_, rfl⟩ | ⟨_, y, hy, _, _, rfl⟩
    · exact Or.inl rfl
    · have := (hσ.layout hy.1).1
      exact Or.inr (by omega)
  have hfive :
      (heads []).length + (heads [b + sizeFor r, 4 * classOf (sizeFor r), w']).length ≤ 5 :=
    (Nat.add_le_add (heads_length_le []) (heads_length_le _)).trans (by simp)
  have hheads := new_heads base r (p := b + 4) (by omega) hq
    ⟨4 * classOf (sizeFor r), by simp, by omega⟩ hfive
  -- a write that is too long would bridge the gap before the heap
  by_contra hlong
  obtain ⟨hend, _⟩ := hheads.high hf (by omega)
  have hlow := hheads.low hf
  obtain ⟨m, hm, hma, ham⟩ :=
    hf.near 291 ⟨by show w.des ≤ 291; omega, by show 291 < w.des + w.len; omega⟩
  rcases mem_new.mp hm with ⟨a, ha, rfl⟩ | rfl | rfl
  · change a ≤ 291 at hma
    change 291 < a + 4 + 16 at ham
    simp only [List.nil_append, List.mem_append, List.mem_cons, List.not_mem_nil, or_false] at ha
    omega
  · change b + 4 ≤ 291 at hma
    omega
  · change b + 4 + 16 ≤ 291 at hma
    omega

section split

variable {m : Mem} {b n q : Nat} {next back : List Nat} (hσ : σ.WF) (hb : σ.Free b) (hn : 32 ≤ n)
  (hsum : n + sizeFor r = σ.size b) (ht : SplitTrace σ b n next back)

include hσ hb hn hsum ht

/-- A split stores two heads, and the new object is behind the heads. -/
theorem split_heads (base : Nat) (hq : 292 ≤ q) {ws : List Nat} (hfew : (heads ws).length ≤ 3) :
    Heads (heads (ws ++ (splitWords σ b n next back ++ [q])))
      (words base ws ++ newMods base (b + n + 4) r q (splitWords σ b n next back)) := by
  have hb292 := (hσ.layout hb.1).1
  have hclass : 4 * σ.cls b < 292 := by
    have := classOf_lt (σ.size b)
    rw [kNumFreeLists_eq] at this
    show 4 * classOf (σ.size b) < 292
    omega
  -- links, tags and the words of the new block are in the heap
  have hlinks : ∀ a ∈ next ++ back, 292 ≤ a := by
    intro a ha
    obtain ⟨y, hy, rfl⟩ := ht.mem_links (List.mem_append.mp ha)
    have := (hσ.layout hy.1).1
    omega
  have hnil : heads next = [] ∧ heads back = [] :=
    ⟨heads_eq_nil fun a ha => hlinks a (List.mem_append_left _ ha),
      heads_eq_nil fun a ha => hlinks a (List.mem_append_right _ ha)⟩
  have hsizes : heads [b, b + n - 4] = [] ∧ heads [b + n, b + σ.size b - 4, b + σ.size b] = [] := by
    constructor
    · apply heads_eq_nil
      intro a ha
      simp only [List.mem_cons, List.not_mem_nil, or_false] at ha
      omega
    · apply heads_eq_nil
      intro a ha
      simp only [List.mem_cons, List.not_mem_nil, or_false] at ha
      omega
  have hown : heads [b + 4, b + 8, 4 * classOf n] = heads [4 * classOf n] := by
    rw [heads_cons_of_ge (by omega), heads_cons_of_ge (by omega)]
  -- so the heads are the one it is taken from and the one its rest goes to
  refine new_heads base r (by omega) hq ⟨4 * σ.cls b, by simp [splitWords], hclass⟩ ?_
  have h₁ := heads_length_le [4 * σ.cls b]
  have h₂ := heads_length_le [4 * classOf n]
  rw [splitWords, heads_append, heads_append, heads_append, heads_append, heads_append, hnil.1,
    hnil.2, hsizes.1, hsizes.2, hown]
  simp only [List.length_append, List.length_singleton, List.length_nil] at h₁ h₂ ⊢
  omega

/-- It stores no other words below the heap. -/
theorem split_low : ∀ a ∈ splitWords σ b n next back, a < 292 →
    a ∈ [4 * σ.cls b, 4 * classOf n] := by
  have hb292 := (hσ.layout hb.1).1
  have hlink : ∀ {a}, a ∈ next ∨ a ∈ back → 292 ≤ a := by
    intro a ha
    obtain ⟨y, hy, rfl⟩ := ht.mem_links ha
    have := (hσ.layout hy.1).1
    omega
  intro a ha hlt
  simp only [splitWords, List.mem_append, List.mem_cons, List.not_mem_nil, or_false] at ha ⊢
  rcases ha with h | ha | (rfl | rfl) | (rfl | rfl | h) | ha | (rfl | rfl | rfl)
  · exact Or.inl h
  · have := hlink (Or.inl ha)
    omega
  · omega
  · omega
  · omega
  · omega
  · exact Or.inr h
  · have := hlink (Or.inr ha)
    omega
  · omega
  · omega
  · omega

/-- The steps of a range with the words of a split, and the words `ws` before. -/
theorem split_steps (base : Nat) (w : Modification) {x : Nat} (hx : FirstLarge σ x)
    {ws : List Nat} {k l : Nat} (hq : LinkAt σ q) (hws : Few x ws k l)
    (hhigh : ∀ a ∈ splitWords σ b n next back, 192 ≤ a) :
    Few x (ws ++ (splitWords σ b n next back ++ [q])) (k + 4) l ∧
      Steps (heads (ws ++ (splitWords σ b n next back ++ [q])))
        (stones x (ws ++ (splitWords σ b n next back ++ [q]))) x
        (words base ws ++ newMods base (b + n + 4) r q (splitWords σ b n next back)) w := by
  obtain ⟨hx292, hxmod, _⟩ := hx.node hσ
  have hxb := hx.le b (by omega)
  have hlarge := large_of_high (hhigh (4 * classOf n) (by simp [splitWords]))
  have hfew := hws.append ((split_few hσ hx hb hn hsum ht hhigh).1.append
    (few_linkAt hσ hx hq))
  refine ⟨hfew, hfew.steps base ⟨hx292, hxmod⟩ ?_⟩
  intro m hm
  rcases mem_new.mp hm with hw | rfl | rfl
  · exact Or.inl hw
  · exact Or.inr (Or.inl (by show x + 32 ≤ b + n + 4; omega))
  · exact Or.inr (Or.inl (by show x + 32 ≤ b + n + 4 + 16; omega))

theorem inserted_split_fits (hq : LinkAt σ q)
    (hf : FirstRange (words base [] ++
      newMods base (b + n + 4) r q (splitWords σ b n next back)) w) : w.len ≤ 128 := by
  obtain ⟨x, hx⟩ := exists_firstLarge (show 32 ≤ σ.size b by omega)
  have hx292 := (hx.node hσ).1
  have hqx := hq x hx
  have hnil : (heads []).length ≤ 3 := Nat.zero_le 3
  have hheads := split_heads hσ hb hn hsum ht base (q := q) (by omega) hnil
  by_contra hlong
  obtain ⟨_, hhigh⟩ := hheads.high hf (by omega)
  obtain ⟨hfew, hsteps⟩ := split_steps hσ hb hn hsum ht base w hx hq few_nil
    fun a ha => hhigh _ (word_mem_new (by simp [ha]))
  have := hfew.weight
  have := hfew.links
  exact hlong (hsteps.fits hf (hheads.low hf) (by omega) (by omega))

end split

/-- **New objects.** An inserted object is never in a long range. -/
theorem inserted_fits (hsize : r.key.length + r.val.length ≤ kMaxItemSize) (hσ : σ.WF) {m : Mem}
    {q : Nat} {L : List Modification} (hnew : NewMods base m σ r q L) (hq : LinkAt σ q)
    (hq292 : 292 ≤ q) (hf : FirstRange (words base [] ++ L) w) : w.len ≤ 128 := by
  cases hnew with
  | mk has =>
    cases has with
    | exact _ _ hb _ hw => exact inserted_exact_fits hsize hσ hb hw hq292 hf
    | split _ _ hb hn hsum ht => exact inserted_split_fits hσ hb hn hsum ht hq hf

/-! ### Objects in place of others -/

/-- A range that gets to a block has its first words, if the first and the third of them are
    stored. -/
theorem words_le {t : Nat} (hf : FirstRange L w) (h₀ : wordAt base t ∈ L)
    (h₈ : wordAt base (t + 8) ∈ L) (ht : t ≤ w.des + w.len + 16) : t + 12 ≤ w.des + w.len := by
  have hin : t + 4 ≤ w.des + w.len := by
    rcases hf.apart _ h₀ with hin | hout
    · exact hin
    · change w.des + w.len + 16 < t at hout
      omega
  rcases hf.apart _ h₈ with hin | hout
  · exact hin
  · change w.des + w.len + 16 < t + 8 at hout
    omega

section replaced

variable {m m₁ : Mem} {blk lo hi q : Nat} {prev next size back : List Nat} (hσ : σ.WF)
  (hlive : σ.Live blk) (htrace : FreeTrace σ blk lo hi prev next size back)

include hσ hlive htrace

/-- The first range starts with one of the heads that are stored for the two blocks. -/
theorem start_mem {as bs : List Nat} {p : Nat} (hp : 292 ≤ p) (hq : 292 ≤ q)
    (has : ∀ a ∈ as, a < 292 → a ∈ bs) (hhead : ∃ a ∈ as, a < 292)
    (hf : FirstRange
      (words base (freeWords lo hi prev next size back) ++ newMods base p r q as) w) :
    w.des < 292 ∧ w.des ∈ prev ++ next ++ [4 * classOf (hi - lo)] ++ bs := by
  obtain ⟨a₀, ha₀, hlt₀⟩ := hhead
  have hlow : w.des < 292 := (hf.lowest _ (word_mem_new (by simp [ha₀]))).trans_lt hlt₀
  refine ⟨hlow, ?_⟩
  obtain ⟨m, hm, hstart⟩ := hf.start
  rw [hstart] at hlow ⊢
  -- the first merged write begins at a head, and these are the heads that are written
  rcases mem_new.mp hm with ⟨a, ha, rfl⟩ | rfl | rfl
  · change a < 292 at hlow
    show a ∈ _
    rcases List.mem_append.mp ha with ha | ha
    · rcases ((free_heads hσ hlive.1 htrace).2 a ha hlow).1 with h | rfl
      · exact List.mem_append_left _ (List.mem_append_left _ h)
      · simp
    · rcases List.mem_append.mp ha with ha | ha
      · exact List.mem_append_right _ (has a ha hlow)
      · rw [List.mem_singleton.mp ha] at hlow
        omega
  · change p < 292 at hlow
    omega
  · change p + 16 < 292 at hlow
    omega

variable (h32 : 32 ≤ σ.size blk) (hσ₁ : (σ.fuse lo hi).WF)

include h32 hσ₁

/-- The words of the freed block, if all heads are high. -/
theorem freed_few {x : Nat} (hx : FirstLarge (σ.fuse lo hi) x)
    (hhigh : ∀ a ∈ freeWords lo hi prev next size back, 192 ≤ a) :
    Few x (freeWords lo hi prev next size back) 6 4 ∧
      stones x (freeWords lo hi prev next size back) = stones x (prev ++ next) ∧
      ∀ a ∈ freeWords lo hi prev next size back, a ∈ prev ++ next ∨ a = 4 * classOf (hi - lo) ∨
        a = x + 4 ∨ x + 32 ≤ a ∨ x ≤ a ∧ lo = x :=
  free_few hσ h32 (htrace.prev.imp (fun h => h.1) fun h => ⟨h.1, h.2.1⟩)
    (htrace.next.imp (fun h => h.1) fun h => ⟨h.1, h.2.1⟩) hσ₁ hx hlive.2 htrace hhigh

variable (hq : LinkAt (σ.fuse lo hi) q)

include hq

/-- **An exact fit.** The range is too long exactly if the words stored for the two blocks lead
    to the header of the new object. -/
theorem exact_fits_iff (hsize : r.key.length + r.val.length ≤ kMaxItemSize) {b w' : Nat}
    (hb : (σ.fuse lo hi).Free b) (hfit : (σ.fuse lo hi).size b = sizeFor r)
    (hw : PopsTo m₁ (σ.fuse lo hi) b w') (hq292 : 292 ≤ q)
    (hf : FirstRange (words base (freeWords lo hi prev next size back) ++
      newMods base (b + 4) r q [b + sizeFor r, 4 * classOf (sizeFor r), w']) w) :
    w.len ≤ 128 ↔ ¬ ((lists m₁).next b ≠ 0 ∧
      Leads (prev ++ next ++ [4 * classOf (hi - lo)] ++ [4 * classOf (sizeFor r)]) (b + 4)) := by
  obtain ⟨_, hn32, hmax, hlen, _⟩ := sizeFor_bounds hsize
  obtain ⟨hb292, hbmod, _, _, _⟩ := hσ₁.layout hb.1
  obtain ⟨hfew3, hfreeHeads⟩ := free_heads hσ hlive.1 htrace
  have hc : 4 * classOf (sizeFor r) ≤ 260 := by
    rw [classOf_of_le (by omega)]
    omega
  -- the heads of the statement are among the words that are written
  have hsub : ∀ a ∈ prev ++ next ++ [4 * classOf (hi - lo)] ++ [4 * classOf (sizeFor r)],
      a ∈ freeWords lo hi prev next size back ++
        ([b + sizeFor r, 4 * classOf (sizeFor r), w'] ++ [q]) := by
    intro a ha
    simp only [List.mem_append, List.mem_singleton] at ha
    rcases ha with ((ha | ha) | rfl) | rfl <;> simp [freeWords, *]
  constructor
  · rintro hshort ⟨hnext, hlead⟩
    have hw292 : 292 ≤ w' := by
      rcases hw with ⟨h0, _⟩ | ⟨_, y, hy, _, _, rfl⟩
      · exact absurd h0 hnext
      · have := (hσ₁.layout hy.1).1
        omega
    have hown : ∀ a ∈ [b + sizeFor r, 4 * classOf (sizeFor r), w'], a < 292 →
        a ∈ [4 * classOf (sizeFor r)] := by
      intro a ha hlt
      simp only [List.mem_cons, List.not_mem_nil, or_false] at ha ⊢
      omega
    obtain ⟨_, hstart⟩ := start_mem hσ hlive htrace (by omega) hq292 hown
      ⟨4 * classOf (sizeFor r), by simp, by omega⟩ hf
    have hobj := object_le hf (le_of_leads hf (fun a ha => word_mem_new (hsub a ha)) hstart hlead)
    -- the head is close to the heap, so the object is long
    have hlow := hf.lowest _ (word_mem_new (hsub (4 * classOf (sizeFor r)) (by simp)))
    change w.des ≤ 4 * classOf (sizeFor r) at hlow
    have hnear := hlead.le (p := 4 * classOf (sizeFor r)) (by simp)
    obtain ⟨h₁, h₂, _⟩ := htrace.lengths
    simp only [List.length_append, List.length_singleton] at hnear
    have hcn : classOf (sizeFor r) = sizeFor r / 16 - 1 := classOf_of_le (by omega)
    omega
  · intro hno
    -- at most five heads are written, so they are not enough for a long write without the object
    have hfive : (heads (freeWords lo hi prev next size back)).length +
        (heads [b + sizeFor r, 4 * classOf (sizeFor r), w']).length ≤ 5 := by
      have := heads_length_le [4 * classOf (sizeFor r), w']
      rw [heads_cons_of_ge (show 292 ≤ b + sizeFor r by omega)]
      exact Nat.add_le_add hfew3 this
    have hheads := new_heads base r (p := b + 4) (by omega) hq292
      ⟨4 * classOf (sizeFor r), by simp, by omega⟩ hfive
    by_contra hlong
    obtain ⟨hend, hhigh⟩ := hheads.high hf (by omega)
    have hlow := hheads.low hf
    have hhigh' : ∀ a ∈ freeWords lo hi prev next size back ++
        ([b + sizeFor r, 4 * classOf (sizeFor r), w'] ++ [q]), 192 ≤ a :=
      fun a ha => hhigh _ (word_mem_new ha)
    -- what is stored behind the first of the larger blocks is too far away
    obtain ⟨x, hx⟩ := exists_firstLarge (show 32 ≤ (σ.fuse lo hi).size b by omega)
    obtain ⟨hx292, hxmod, _⟩ := hx.node hσ₁
    have hqx := hq x hx
    obtain ⟨hfree, _, hfreeWords⟩ := freed_few hσ hlive htrace h32 hσ₁ hx
      fun a ha => hhigh' a (List.mem_append_left _ ha)
    obtain ⟨hexact, hwx, hnext⟩ := exact_few hσ₁ hx hn32 hfit hw
      fun a ha => hhigh' a (List.mem_append_right _ (List.mem_append_left _ ha))
    have hfew := hfree.append (hexact.append (few_linkAt hσ₁ hx hq))
    have hweight := hfew.weight
    have hlinks := hfew.links
    have hbx := hx.eq_or hσ₁ b (by omega)
    by_cases hreach : w.des + w.len < b + 4
    · -- the object is not reached, and the rest is short
      have hsteps := hfew.steps (L := words base (freeWords lo hi prev next size back) ++
          newMods base (b + 4) r q [b + sizeFor r, 4 * classOf (sizeFor r), w']) (w := w) base
        ⟨hx292, hxmod⟩ (fun m hm => by
          rcases mem_new.mp hm with hword | rfl | rfl
          · exact Or.inl hword
          · exact Or.inr (Or.inr hreach)
          · exact Or.inr (Or.inr (by show w.des + w.len < b + 4 + 16; omega)))
      exact hlong (hsteps.fits hf hlow (by omega) (by omega))
    · have hobj := object_le hf (show b + 4 ≤ w.des + w.len + 16 by omega)
      -- only the first of the larger blocks is reached
      obtain rfl : b = x := by
        rcases hbx with heq | hfar
        · exact heq
        · have hsteps := hfew.steps (L := words base (freeWords lo hi prev next size back) ++
              newMods base (b + 4) r q [b + sizeFor r, 4 * classOf (sizeFor r), w']) (w := w) base
            ⟨hx292, hxmod⟩ (fun m hm => by
              rcases mem_new.mp hm with hword | rfl | rfl
              · exact Or.inl hword
              · exact Or.inr (Or.inl (by show x + 32 ≤ b + 4; omega))
              · exact Or.inr (Or.inl (by show x + 32 ≤ b + 4 + 16; omega)))
          have := hsteps.stop_le hf hlow
          omega
      -- the new block is another one, since its head is not close to the heap
      have hlob : lo ≠ b := by
        rintro rfl
        have hself : (σ.fuse lo hi).size lo = hi - lo := Tiling.fuse_self _ _ _
        have hclass : classOf (hi - lo) = classOf (sizeFor r) := by
          rw [← hself, hfit]
        obtain ⟨m, hm, hma, ham⟩ :=
          hf.near 291 ⟨by show w.des ≤ 291; omega, by show 291 < w.des + w.len; omega⟩
        rcases mem_new.mp hm with ⟨a, ha, rfl⟩ | rfl | rfl
        · change a ≤ 291 at hma
          change 291 < a + 4 + 16 at ham
          rcases List.mem_append.mp ha with ha | ha
          · have := (hfreeHeads a ha (by omega)).2
            omega
          · simp only [List.mem_append, List.mem_cons, List.not_mem_nil, or_false] at ha
            omega
        · change lo + 4 ≤ 291 at hma
          omega
        · change lo + 4 + 16 ≤ 291 at hma
          omega
      refine hno ⟨hnext, leads_of_reached hf (fun a ha => word_mem_new (hsub a ha)) (by omega) ?_⟩
      intro m hm hlt
      rcases mem_new.mp hm with ⟨a, ha, rfl⟩ | rfl | rfl
      · change a < b + 4 at hlt
        refine ⟨?_, rfl⟩
        show a ∈ _
        rcases List.mem_append.mp ha with ha | ha
        -- a word before the object is one of those that the statement counts
        · rcases hfreeWords a ha with h | rfl | rfl | hfar | ⟨_, rfl⟩
          · exact List.mem_append_left _ (List.mem_append_left _ h)
          · simp
          · omega
          · omega
          · exact absurd rfl hlob
        · simp only [List.mem_append, List.mem_cons, List.not_mem_nil, or_false] at ha
          rcases ha with (rfl | rfl | rfl) | rfl
          · omega
          · simp
          · omega
          · omega
      · change b + 4 < b + 4 at hlt
        omega
      · change b + 4 + 16 < b + 4 at hlt
        omega

/-- **A split.** The range is too long exactly if the words stored for the two blocks stretch to
    one of them. -/
theorem split_fits_iff {b n : Nat} {nexts backs : List Nat} (hb : (σ.fuse lo hi).Free b)
    (hn : 32 ≤ n) (hsum : n + sizeFor r = (σ.fuse lo hi).size b)
    (ht : SplitTrace (σ.fuse lo hi) b n nexts backs) (hq292 : 292 ≤ q)
    (hf : FirstRange (words base (freeWords lo hi prev next size back) ++
      newMods base (b + n + 4) r q (splitWords (σ.fuse lo hi) b n nexts backs)) w) :
    w.len ≤ 128 ↔ ¬ ∃ t, (t = lo ∨ t = b) ∧ Stretches (prev ++ next ++ [4 * classOf (hi - lo)] ++
      [4 * (σ.fuse lo hi).cls b, 4 * classOf n]) t := by
  obtain ⟨hb292, hbmod, _, _, _⟩ := hσ₁.layout hb.1
  obtain ⟨hfew3, hfreeHeads⟩ := free_heads hσ hlive.1 htrace
  have hsub : ∀ a ∈ prev ++ next ++ [4 * classOf (hi - lo)] ++
      [4 * (σ.fuse lo hi).cls b, 4 * classOf n], a ∈ freeWords lo hi prev next size back ++
        (splitWords (σ.fuse lo hi) b n nexts backs ++ [q]) := by
    intro a ha
    simp only [List.mem_append, List.mem_cons, List.not_mem_nil, or_false] at ha
    rcases ha with ((ha | ha) | rfl) | rfl | rfl <;> simp [freeWords, splitWords, *]
  have hheads := split_heads hσ₁ hb hn hsum ht base hq292 hfew3
  -- the first merged write begins at one of the heads of the statement
  obtain ⟨hlow, hstart⟩ := start_mem hσ hlive htrace (by omega) hq292
    (split_low hσ₁ hb hn hsum ht) ⟨4 * (σ.fuse lo hi).cls b, by simp [splitWords], by
      have := classOf_lt ((σ.fuse lo hi).size b)
      rw [kNumFreeLists_eq] at this
      show 4 * classOf ((σ.fuse lo hi).size b) < 292
      omega⟩ hf
  constructor
  · rintro hshort ⟨t, htb, hlead, p, hp, hpt⟩
    have hle := le_of_leads hf (fun a ha => word_mem_new (hsub a ha)) hstart hlead
    have hdes : w.des ≤ p := hf.lowest _ (word_mem_new (hsub p hp))
    have hwords : t ∈ freeWords lo hi prev next size back ++
          (splitWords (σ.fuse lo hi) b n nexts backs ++ [q]) ∧
        t + 8 ∈ freeWords lo hi prev next size back ++
          (splitWords (σ.fuse lo hi) b n nexts backs ++ [q]) := by
      rcases htb with rfl | rfl
      · -- so many words are stored only if a neighbour is merged
        have hnear := hlead.le hp
        simp only [List.length_append, List.length_cons, List.length_nil] at hnear
        have hsize : size = [t, hi - 4] := by
          rcases htrace.size with ⟨rfl, hhi, _⟩ | h
          · rcases htrace.prev with ⟨_, rfl⟩ | ⟨hF, hend, _⟩
            · rcases htrace.next with ⟨_, rfl⟩ | ⟨hF, hend, _⟩
              · simp only [List.length_nil] at hnear
                omega
              · have := hF.1
                omega
            · have := hF.1
              omega
          · exact h
        exact ⟨by simp [freeWords, hsize], by simp [freeWords]⟩
      · exact ⟨by simp [splitWords], by simp [splitWords]⟩
    -- the write that reaches the block covers its links as well, so it is too long
    have := words_le hf (word_mem_new hwords.1) (word_mem_new hwords.2) hle
    omega
  · intro hno
    by_contra hlong
    obtain ⟨hend, hhigh⟩ := hheads.high hf (by omega)
    have hhigh' : ∀ a ∈ freeWords lo hi prev next size back ++
        (splitWords (σ.fuse lo hi) b n nexts backs ++ [q]), 192 ≤ a :=
      fun a ha => hhigh _ (word_mem_new ha)
    have hhighs : ∀ a ∈ splitWords (σ.fuse lo hi) b n nexts backs, 192 ≤ a := fun a ha =>
      hhigh' a (List.mem_append_right _ (List.mem_append_left _ ha))
    obtain ⟨x, hx⟩ := exists_firstLarge (show 32 ≤ (σ.fuse lo hi).size b by omega)
    obtain ⟨hx292, hxmod, _⟩ := hx.node hσ₁
    have hqx := hq x hx
    have hbx := hx.eq_or hσ₁ b (by omega)
    obtain ⟨hfree, hstones, hfreeWords⟩ := freed_few hσ hlive htrace h32 hσ₁ hx
      fun a ha => hhigh' a (List.mem_append_left _ ha)
    obtain ⟨hsplit, hsplitWords⟩ := split_few hσ₁ hx hb hn hsum ht hhighs
    -- between the heads and `x` there are not enough words but for all four links
    obtain ⟨hfew, hsteps⟩ := split_steps hσ₁ hb hn hsum ht base w hx hq hfree hhighs
    obtain ⟨hfour, hreach, hfar⟩ := hsteps.long hf hlow hfew.weight hfew.links (by omega)
    have hstop := hsteps.stop_le hf hlow
    -- all four links are before `x`
    have hbefore : ∀ a ∈ prev ++ next, a < x := by
      intro a ha
      by_contra hge
      have hrest := (hsplit.append (few_linkAt hσ₁ hx hq)).stones_eq_nil
      rw [stones_append, hstones, hrest, List.append_nil] at hfour
      have hlt : (stones x (prev ++ next)).length < (prev ++ next).length :=
        List.length_filter_lt_length_iff_exists.mpr ⟨a, ha, by
          rw [decide_eq_true_eq]
          omega⟩
      obtain ⟨h₁, h₂, _⟩ := htrace.lengths
      rw [List.length_append] at hlt
      omega
    refine hno ⟨x, ?_, leads_of_reached hf (fun a ha => word_mem_new (hsub a ha)) (by omega) ?_,
      _, hstart, hfar⟩
    · -- the third word of `x` is stored: it is one of the two blocks
      obtain ⟨m, hm, hmend⟩ := hf.stop
      rcases mem_new.mp hm with ⟨a, ha, rfl⟩ | rfl | rfl
      · change w.des + w.len = a + 4 at hmend
        rcases List.mem_append.mp ha with ha | ha
        · rcases hfreeWords a ha with h | rfl | rfl | h | ⟨_, heq⟩
          · have := hbefore a h
            omega
          · have := classOf_lt (hi - lo)
            rw [kNumFreeLists_eq] at this
            omega
          · omega
          · omega
          · exact Or.inl heq.symm
        · rcases List.mem_append.mp ha with ha | ha
          · rcases hsplitWords a ha with rfl | rfl | rfl | h | ⟨_, heq⟩
            · have := classOf_lt ((σ.fuse lo hi).size b)
              rw [kNumFreeLists_eq] at this
              change w.des + w.len = 4 * classOf ((σ.fuse lo hi).size b) + 4 at hmend
              omega
            · have := classOf_lt n
              rw [kNumFreeLists_eq] at this
              omega
            · omega
            · omega
            · exact Or.inr heq.symm
          · rw [List.mem_singleton.mp ha] at hmend
            omega
      · change w.des + w.len = b + n + 4 + 16 at hmend
        omega
      · change w.des + w.len = b + n + 4 + 16 + (r.key.length + r.val.length) at hmend
        omega
    · intro m hm hlt
      rcases mem_new.mp hm with ⟨a, ha, rfl⟩ | rfl | rfl
      · change a < x at hlt
        refine ⟨?_, rfl⟩
        show a ∈ _
        rcases List.mem_append.mp ha with ha | ha
        -- a word before `x` is one of those that the statement counts
        · rcases hfreeWords a ha with h | rfl | rfl | h | h
          · exact List.mem_append_left _ (List.mem_append_left _ h)
          · simp
          · omega
          · omega
          · omega
        · rcases List.mem_append.mp ha with ha | ha
          · rcases hsplitWords a ha with rfl | rfl | rfl | h | h
            · simp
            · simp
            · omega
            · omega
            · omega
          · rw [List.mem_singleton.mp ha] at hlt
            omega
      · change b + n + 4 < x at hlt
        omega
      · change b + n + 4 + 16 < x at hlt
        omega

end replaced

/-- **An object in place of another.** The range is too long exactly if replacing its block leads
    too far. -/
theorem replaced_fits_iff (hsize : r.key.length + r.val.length ≤ kMaxItemSize) (hσ : σ.WF)
    {m m₁ : Mem} {blk lo hi q : Nat} {prev next size back : List Nat} {L : List Modification}
    (hlive : σ.Live blk) (h32 : 32 ≤ σ.size blk)
    (htrace : FreeTrace σ blk lo hi prev next size back)
    (hfreed : Freed m σ blk lo hi (prev ++ next) m₁) (hnew : NewMods base m₁ (σ.fuse lo hi) r q L)
    (hq : LinkAt (σ.fuse lo hi) q) (hq292 : 292 ≤ q)
    (hf : FirstRange (words base (freeWords lo hi prev next size back) ++ L) w) :
    w.len ≤ 128 ↔ ¬ Overreaches m σ blk (sizeFor r) := by
  obtain ⟨rfl, rfl, _, hlinks, hlists, hcore⟩ := hfreed
  have hwords : releasedWords m σ blk =
      prev ++ next ++ [4 * classOf (mergedTo m blk - mergedFrom m blk)] := by
    rw [releasedWords, ← hlinks]
  cases hnew with
  | @mk b as has =>
    -- the allocator takes a block as it is or splits one, and the statement tells which
    cases has with
    | @exact _ w' hfirst hhead hb hfit hw =>
      rw [exact_fits_iff hσ hlive htrace h32 hcore.wf hq hsize hb hfit hw hq292 hf, not_iff_not,
        ← hwords, hlists]
      rw [hlists] at hfirst hhead
      constructor
      · intro hlead
        exact ⟨b, hfirst, hhead, Or.inl ⟨hfit, hlead⟩⟩
      · rintro ⟨b', hfirst', hhead', hlead⟩
        have hbb : b' = b := by
          rw [← hhead, ← hhead', hfirst.unique hfirst']
        rw [hbb] at hlead
        rcases hlead with ⟨_, hlead⟩ | ⟨hlt, _⟩
        · exact hlead
        · omega
    | @split b n nexts backs hfirst hhead hb hn hsum ht =>
      have hrest : (σ.fuse (mergedFrom m blk) (mergedTo m blk)).size b - sizeFor r = n := by
        omega
      rw [split_fits_iff hσ hlive htrace h32 hcore.wf hq hb hn hsum ht hq292 hf, not_iff_not,
        ← hwords]
      rw [hlists] at hfirst hhead
      constructor
      · intro hstretch
        refine ⟨b, hfirst, hhead, Or.inr ⟨by omega, ?_⟩⟩
        rw [hrest]
        exact hstretch
      · rintro ⟨b', hfirst', hhead', hlead⟩
        have hbb : b' = b := by
          rw [← hhead, ← hhead', hfirst.unique hfirst']
        rw [hbb] at hlead
        rcases hlead with ⟨hfit, _⟩ | ⟨_, hstretch⟩
        · omega
        · rw [hrest] at hstretch
          exact hstretch

/-! ### Objects that are deleted -/

theorem words_append (as bs : List Nat) : words base as ++ words base bs = words base (as ++ bs) :=
  List.map_append.symm

/-- **`DEL`.** The link and the words of the freed block. -/
theorem free_fits (hσ : σ.WF) {blk lo hi q : Nat} {prev next size back : List Nat}
    (hlive : σ.Live blk) (h32 : 32 ≤ σ.size blk)
    (htrace : FreeTrace σ blk lo hi prev next size back) (hσ₁ : (σ.fuse lo hi).WF)
    (hq : LinkAt (σ.fuse lo hi) q) (hq292 : 292 ≤ q)
    (hf : FirstRange (words base ([q] ++ freeWords lo hi prev next size back)) w) :
    w.len ≤ 128 := by
  have hclass := classOf_lt (hi - lo)
  rw [kNumFreeLists_eq] at hclass
  obtain ⟨hfew3, _⟩ := free_heads hσ hlive.1 htrace
  have hword : ∀ m ∈ words base ([q] ++ freeWords lo hi prev next size back),
      ∃ a ∈ [q] ++ freeWords lo hi prev next size back, m = wordAt base a :=
    fun m hm => mem_words.mp hm
  have hmem : ∀ a ∈ [q] ++ freeWords lo hi prev next size back,
      wordAt base a ∈ words base ([q] ++ freeWords lo hi prev next size back) :=
    fun a ha => mem_words.mpr ⟨a, ha, rfl⟩
  -- without an object, the words of `Free` and the link in the chain are too few
  have hfive : (heads ([q] ++ freeWords lo hi prev next size back)).length ≤ 5 := by
    rw [List.singleton_append, heads_cons_of_ge hq292]
    omega
  have hheads := heads_of_words ⟨4 * classOf (hi - lo), by simp [freeWords], by omega⟩ hfive hmem
    fun m hm => Or.inl (hword m hm)
  have hlo : lo = blk ∨ σ.Free lo ∧ lo + σ.size lo = blk :=
    htrace.prev.imp (fun h => h.1) fun h => ⟨h.1, h.2.1⟩
  have hhi : hi = blk + σ.size blk ∨ σ.Free (blk + σ.size blk) ∧
      hi = blk + σ.size blk + σ.size (blk + σ.size blk) :=
    htrace.next.imp (fun h => h.1) fun h => ⟨h.1, h.2.1⟩
  by_contra hlong
  obtain ⟨_, hhigh⟩ := hheads.high hf (by omega)
  have hself : (σ.fuse lo hi).size lo = hi - lo := Tiling.fuse_self _ _ _
  obtain ⟨x, hx⟩ := exists_firstLarge (show 32 ≤ (σ.fuse lo hi).size lo by omega)
  obtain ⟨hx292, hxmod, _⟩ := hx.node hσ₁
  have hfew := (few_linkAt hσ₁ hx hq).append (freed_few hσ hlive htrace h32 hσ₁ hx
    fun a ha => hhigh _ (hmem a (List.mem_append_right _ ha))).1
  have hsteps := hfew.steps (w := w) base ⟨hx292, hxmod⟩ fun m hm => Or.inl (hword m hm)
  have := hfew.weight
  have := hfew.links
  exact hlong (hsteps.fits hf (hheads.low hf) (by omega) (by omega))


end Nvds.Tablet
