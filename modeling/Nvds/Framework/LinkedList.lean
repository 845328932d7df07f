import Mathlib.Logic.Function.Basic
import Mathlib.Data.List.Nodup

/-! # Linked lists in a flat address space

    Nodes are non-zero numbers, `0` is the null pointer, and a link field is
    a map from nodes to pointers. The first part is about singly linked
    segments `Seg`; the second about families of doubly linked lists that
    share two link fields.

    `Linked` is the local consistency of a family: every link is answered by
    its back link. It is kept by every edit, also by one that loses the head
    of a list. `Complete` says in addition that no node has been lost: the
    walk from each head meets every node of its list.
-/

namespace LinkedList

/-! ## Segments -/

/-- Following `next` from the pointer `a` visits exactly `xs` and arrives at `b`. -/
def Seg (next : Nat → Nat) : Nat → List Nat → Nat → Prop
  | a, [], b => a = b
  | a, x :: xs, b => a = x ∧ x ≠ 0 ∧ Seg next (next x) xs b

variable {next next' : Nat → Nat} {a b c x : Nat} {xs ys : List Nat}

@[simp] theorem seg_nil : Seg next a [] b ↔ a = b := Iff.rfl

@[simp] theorem seg_cons : Seg next a (x :: xs) b ↔ a = x ∧ x ≠ 0 ∧ Seg next (next x) xs b :=
  Iff.rfl

/-- A walk is cut at any of its nodes. -/
theorem seg_append : Seg next a (xs ++ ys) c ↔ ∃ b, Seg next a xs b ∧ Seg next b ys c := by
  induction xs generalizing a with
  | nil => simp
  | cons x xs ih =>
    simp only [List.cons_append, seg_cons, ih]
    constructor
    · rintro ⟨rfl, h0, b, h₁, h₂⟩
      exact ⟨b, ⟨rfl, h0, h₁⟩, h₂⟩
    · rintro ⟨b, ⟨rfl, h0, h₁⟩, h₂⟩
      exact ⟨rfl, h0, b, h₁, h₂⟩

/-- A walk reads the links of its own nodes only. -/
theorem Seg.congr (h : Seg next a xs b) (hag : ∀ x ∈ xs, next' x = next x) :
    Seg next' a xs b := by
  induction xs generalizing a with
  | nil => exact h
  | cons x xs ih =>
    obtain ⟨rfl, h0, hrest⟩ := h
    refine ⟨rfl, h0, ?_⟩
    rw [hag a (by simp)]
    exact ih hrest fun y hy => hag y (by simp [hy])

theorem Seg.ne_zero (h : Seg next a xs b) : ∀ x ∈ xs, x ≠ 0 := by
  induction xs generalizing a with
  | nil => simp
  | cons y ys ih =>
    obtain ⟨rfl, h0, hrest⟩ := h
    intro x hx
    rcases List.mem_cons.mp hx with rfl | hx
    · exact h0
    · exact ih hrest x hx

/-- The walk to null is determined by where it starts. -/
theorem Seg.unique (h₁ : Seg next a xs 0) (h₂ : Seg next a ys 0) : xs = ys := by
  induction xs generalizing a ys with
  | nil =>
    cases ys with
    | nil => rfl
    | cons y ys =>
      obtain ⟨hy, h0, _⟩ := h₂
      exact absurd (hy.symm.trans h₁) h0
  | cons x xs ih =>
    obtain ⟨rfl, h0, hrest⟩ := h₁
    cases ys with
    | nil => exact absurd h₂ h0
    | cons y ys =>
      obtain ⟨rfl, _, hrest'⟩ := h₂
      rw [ih hrest hrest']

/-- The walk to null passes every node that is reached from its start. -/
theorem Seg.mem_of_reaches (h : Seg next a xs b) (hb : b ≠ 0) (h₀ : Seg next a ys 0) : b ∈ ys := by
  induction xs generalizing a ys with
  | nil =>
    obtain rfl : a = b := h
    cases ys with
    | nil => exact absurd h₀ hb
    | cons y ys =>
      obtain ⟨rfl, _, _⟩ := h₀
      exact List.mem_cons_self
  | cons x xs ih =>
    obtain ⟨rfl, h0, hrest⟩ := h
    cases ys with
    | nil => exact absurd h₀ h0
    | cons y ys =>
      obtain ⟨rfl, _, hrest'⟩ := h₀
      exact List.mem_cons_of_mem _ (ih hrest hrest')

/-- The last node of a walk carries the link to where the walk arrives. -/
theorem Seg.link_last {p : Nat} (h : Seg next a (xs ++ [p]) b) : next p = b := by
  obtain ⟨d, _, rfl, _, hb⟩ := seg_append.mp h
  exact hb

/-- Changing the link of the last node redirects the walk. -/
theorem Seg.redirect {p : Nat} (h : Seg next a (xs ++ [p]) b) (hp : p ∉ xs)
    (hag : ∀ x ∈ xs, next' x = next x) (hlast : next' p = c) : Seg next' a (xs ++ [p]) c := by
  obtain ⟨d, h₁, rfl, h0, _⟩ := seg_append.mp h
  exact seg_append.mpr ⟨d, h₁.congr hag, rfl, h0, hlast⟩

/-! ## Families of doubly linked lists -/

/-- The heads of a family of lists, indexed by a class, and the two link fields. -/
@[ext] structure Lists where
  head : Nat → Nat
  prev : Nat → Nat
  next : Nat → Nat

/-- Every link between the nodes `L` is answered by its back link and stays in
    the class `cls`; a head has no predecessor. -/
structure Linked (l : Lists) (L : Nat → Prop) (cls : Nat → Nat) : Prop where
  ne_zero : ∀ b, L b → b ≠ 0
  head : ∀ c, l.head c ≠ 0 → L (l.head c) ∧ cls (l.head c) = c ∧ l.prev (l.head c) = 0
  next : ∀ b, L b → l.next b ≠ 0 →
    L (l.next b) ∧ cls (l.next b) = cls b ∧ l.prev (l.next b) = b
  prev : ∀ b, L b → l.prev b ≠ 0 →
    L (l.prev b) ∧ cls (l.prev b) = cls b ∧ l.next (l.prev b) = b

/-- The walk from each head ends and meets every node of its class. -/
def Complete (l : Lists) (L : Nat → Prop) (cls : Nat → Nat) : Prop :=
  ∀ c, ∃ xs, Seg l.next (l.head c) xs 0 ∧ ∀ b, L b → cls b = c → b ∈ xs

/-- Take the node `b` off the list of class `c`. -/
def Lists.remove (l : Lists) (c b : Nat) : Lists where
  head := if l.prev b = 0 then Function.update l.head c (l.next b) else l.head
  next := if l.prev b = 0 then l.next else Function.update l.next (l.prev b) (l.next b)
  prev := if l.next b = 0 then l.prev else Function.update l.prev (l.next b) (l.prev b)

/-- Put the node `b` in front of the list of class `c`. -/
def Lists.push (l : Lists) (c b : Nat) : Lists where
  head := Function.update l.head c b
  next := Function.update l.next b (l.head c)
  prev :=
    if l.head c = 0 then Function.update l.prev b 0
    else Function.update (Function.update l.prev b 0) (l.head c) b

/-- Forget the list of class `c`. -/
def Lists.drop (l : Lists) (c : Nat) : Lists :=
  { l with head := Function.update l.head c 0 }

variable {l l' : Lists} {L L' : Nat → Prop} {cls cls' : Nat → Nat}

/-- `Linked` reads the heads and the links of its nodes only. -/
theorem Linked.congr (h : Linked l L cls) (hL : ∀ b, L' b ↔ L b) (hcls : ∀ b, L b → cls' b = cls b)
    (hhead : ∀ c, l'.head c = l.head c) (hprev : ∀ b, L b → l'.prev b = l.prev b)
    (hnext : ∀ b, L b → l'.next b = l.next b) : Linked l' L' cls' := by
  refine ⟨fun b hb => h.ne_zero b ((hL b).mp hb), ?_, ?_, ?_⟩
  · intro c hc
    rw [hhead] at hc ⊢
    obtain ⟨h₁, h₂, h₃⟩ := h.head c hc
    exact ⟨(hL _).mpr h₁, by rw [hcls _ h₁, h₂], by rw [hprev _ h₁, h₃]⟩
  · intro b hb hn
    have hb := (hL b).mp hb
    rw [hnext b hb] at hn ⊢
    obtain ⟨h₁, h₂, h₃⟩ := h.next b hb hn
    exact ⟨(hL _).mpr h₁, by rw [hcls _ h₁, hcls _ hb, h₂], by rw [hprev _ h₁, h₃]⟩
  · intro b hb hp
    have hb := (hL b).mp hb
    rw [hprev b hb] at hp ⊢
    obtain ⟨h₁, h₂, h₃⟩ := h.prev b hb hp
    exact ⟨(hL _).mpr h₁, by rw [hcls _ h₁, hcls _ hb, h₂], by rw [hnext _ h₁, h₃]⟩

/-- The nodes met on the walk from a head belong to its class. -/
theorem Linked.mem_of_seg (h : Linked l L cls) {c : Nat} {xs : List Nat}
    (hs : Seg l.next (l.head c) xs 0) : ∀ b ∈ xs, L b ∧ cls b = c := by
  have key : ∀ (a : Nat) (xs : List Nat), (a ≠ 0 → L a ∧ cls a = c) → Seg l.next a xs 0 →
      ∀ b ∈ xs, L b ∧ cls b = c := by
    intro a xs
    induction xs generalizing a with
    | nil => simp
    | cons x xs ih =>
      rintro ha ⟨rfl, h0, hrest⟩ b hb
      obtain ⟨hLa, hca⟩ := ha h0
      rcases List.mem_cons.mp hb with rfl | hb
      · exact ⟨hLa, hca⟩
      · refine ih (l.next a) ?_ hrest b hb
        intro hn
        obtain ⟨h₁, h₂, _⟩ := h.next a hLa hn
        exact ⟨h₁, h₂.trans hca⟩
  exact key _ xs (fun h0 => ⟨(h.head c h0).1, (h.head c h0).2.1⟩) hs

/-- A walk that starts behind `p` never comes back to a node it has met: the
    back links tell its nodes apart. -/
theorem Linked.nodup_of_seg (h : Linked l L cls) {p a : Nat} {xs : List Nat}
    (hs : Seg l.next a xs 0) (hL : ∀ b ∈ xs, L b) (hp : a ≠ 0 → l.prev a = p)
    (hfresh : p ∉ xs) : xs.Nodup := by
  induction xs generalizing p a with
  | nil => simp
  | cons x xs ih =>
    obtain ⟨rfl, h0, hrest⟩ := hs
    have hLa := hL a (by simp)
    have hback : l.next a ≠ 0 → l.prev (l.next a) = a := fun hn => (h.next a hLa hn).2.2
    -- were `a` met again, its back link would be a later node as well as `p`
    have hnot : a ∉ xs := by
      intro hmem
      obtain ⟨ys, zs, rfl⟩ := List.append_of_mem hmem
      obtain ⟨d, hys, hd, _, _⟩ := seg_append.mp hrest
      subst hd
      rcases List.eq_nil_or_concat ys with rfl | ⟨ys', q, rfl⟩
      · have hnext : l.next d = d := hys
        have : l.prev d = d := by
          have := hback (by rw [hnext]; exact h0)
          rwa [hnext] at this
        have hpd : d = p := by rw [← this]; exact hp h0
        exact hfresh (by simp [hpd])
      · rw [List.concat_eq_append] at hys hL hfresh
        have hq : l.next q = d := hys.link_last
        have hqL := hL q (by simp)
        have hqd : l.prev d = q := by
          have := (h.next q hqL (by rw [hq]; exact h0)).2.2
          rwa [hq] at this
        exact hfresh (by simp [← hp h0, hqd])
    exact List.nodup_cons.mpr ⟨hnot, ih hrest (fun b hb => hL b (by simp [hb])) hback hnot⟩

/-- The walk from a head meets every node once. -/
theorem Linked.nodup_of_head (h : Linked l L cls) {c : Nat} {xs : List Nat}
    (hs : Seg l.next (l.head c) xs 0) : xs.Nodup :=
  h.nodup_of_seg hs (fun b hb => (h.mem_of_seg hs b hb).1) (fun h0 => (h.head c h0).2.2)
    fun h0 => hs.ne_zero 0 h0 rfl

/-! ### Taking a node off -/

/-- Removing a node keeps the rest linked. -/
theorem Linked.remove (h : Linked l L cls) {c b : Nat} (hb : L b) (hc : cls b = c) :
    Linked (l.remove c b) (fun x => L x ∧ x ≠ b) cls := by
  have hb0 := h.ne_zero b hb
  have hN := h.next b hb
  have hP := h.prev b hb
  refine ⟨fun x hx => h.ne_zero x hx.1, ?_, ?_, ?_⟩
  · intro d hd
    have hH := h.head d
    simp only [Lists.remove] at hd ⊢
    grind [Function.update_apply]
  · intro x hx hn
    have hX := h.next x hx.1
    have hx0 := h.ne_zero x hx.1
    simp only [Lists.remove] at hn ⊢
    grind [Function.update_apply]
  · intro x hx hp
    have hX := h.prev x hx.1
    have hx0 := h.ne_zero x hx.1
    simp only [Lists.remove] at hp ⊢
    grind [Function.update_apply]

/-- Removing a node loses no other node. -/
theorem Complete.remove (h : Linked l L cls) (hcomp : Complete l L cls) {c b : Nat} (hb : L b)
    (hc : cls b = c) : Complete (l.remove c b) (fun x => L x ∧ x ≠ b) cls := by
  intro d
  obtain ⟨xs, hs, hall⟩ := hcomp d
  have hmem := h.mem_of_seg hs
  have hnd := h.nodup_of_head hs
  -- the list of `b` loses it; the other lists are not on its links
  by_cases hd : d = c
  · subst hd
    obtain ⟨ys, zs, rfl⟩ := List.append_of_mem (hall b hb hc)
    obtain ⟨e, hys, he, hb0, hzs⟩ := seg_append.mp hs
    subst he
    refine ⟨ys ++ zs, ?_, ?_⟩
    · rcases List.eq_nil_or_concat ys with rfl | ⟨ys', p, rfl⟩
      · -- `b` is the head: the list now starts behind it
        have hhead : l.head d = e := hys
        have hprev : l.prev e = 0 := by
          have := (h.head d (by rw [hhead]; exact hb0)).2.2
          rwa [hhead] at this
        simpa [Lists.remove, hprev] using hzs
      · -- `b` has a predecessor: its link is redirected
        rw [List.concat_eq_append] at hys hnd hmem ⊢
        have hp : l.next p = e := hys.link_last
        have hpL := (hmem p (by simp)).1
        have hprev : l.prev e = p := by
          have := (h.next p hpL (by rw [hp]; exact hb0)).2.2
          rwa [hp] at this
        have hp0 := h.ne_zero p hpL
        simp only [List.append_assoc, List.cons_append, List.nil_append, List.nodup_append,
          List.nodup_cons, List.mem_cons] at hnd
        refine seg_append.mpr ⟨l.next e, ?_, hzs.congr ?_⟩
        · have hhead : (l.remove d e).head d = l.head d := by simp [Lists.remove, hprev, hp0]
          rw [hhead]
          refine hys.redirect (fun hpy => hnd.2.2 p hpy p (by simp) rfl) ?_ ?_
          · intro x hx
            have hxp : x ≠ p := fun hxp => hnd.2.2 x hx p (by simp) hxp
            simp [Lists.remove, hprev, hp0, hxp]
          · simp [Lists.remove, hprev, hp0]
        · intro x hx
          have hxp : x ≠ p := by
            rintro rfl
            exact hnd.2.1.1 (Or.inr hx)
          simp [Lists.remove, hprev, hp0, hxp]
    · intro x hx hxc
      have := hall x hx.1 hxc
      simp only [List.mem_append, List.mem_cons] at this ⊢
      have hxe := hx.2
      tauto
  · refine ⟨xs, ?_, fun x hx hxc => hall x hx.1 hxc⟩
    have hhead : (l.remove c b).head d = l.head d := by
      simp only [Lists.remove]
      split <;> simp [hd]
    rw [hhead]
    apply hs.congr
    intro x hx
    simp only [Lists.remove]
    split
    · rfl
    · next hp =>
      have hpc := (h.prev b hb hp).2.1
      have hxp : x ≠ l.prev b := by
        rintro rfl
        exact hd ((hmem _ hx).2.symm.trans (hpc.trans hc))
      simp [hxp]

/-! ### Putting a node in front -/

/-- A new node in front of a list is linked. -/
theorem Linked.push (h : Linked l L cls) {c b : Nat} (hb : ¬ L b) (hb0 : b ≠ 0) :
    Linked (l.push c b) (fun x => L x ∨ x = b) (Function.update cls b c) := by
  have hC := h.head c
  have hfresh : ∀ x, L x → x ≠ b := fun x hx hxb => hb (hxb ▸ hx)
  refine ⟨?_, ?_, ?_, ?_⟩
  · intro x hx
    rcases hx with hx | rfl
    · exact h.ne_zero x hx
    · exact hb0
  · intro d hd
    have hH := h.head d
    simp only [Lists.push] at hd ⊢
    grind [Function.update_apply]
  · intro x hx hn
    have hX := h.next x
    have hx0 := h.ne_zero x
    simp only [Lists.push] at hn ⊢
    grind [Function.update_apply]
  · intro x hx hp
    have hX := h.prev x
    have hx0 := h.ne_zero x
    simp only [Lists.push] at hp ⊢
    grind [Function.update_apply]

/-- A new node in front of a list loses no node. -/
theorem Complete.push (h : Linked l L cls) (hcomp : Complete l L cls) {c b : Nat} (hb : ¬ L b)
    (hb0 : b ≠ 0) : Complete (l.push c b) (fun x => L x ∨ x = b) (Function.update cls b c) := by
  intro d
  obtain ⟨xs, hs, hall⟩ := hcomp d
  have hxb : ∀ x ∈ xs, x ≠ b := fun x hx hxb => hb (hxb ▸ (h.mem_of_seg hs x hx).1)
  have hs' : Seg (l.push c b).next (l.head d) xs 0 :=
    hs.congr fun x hx => by simp [Lists.push, hxb x hx]
  -- the list pushed onto starts at `b` now, the others are as they were
  by_cases hd : d = c
  · subst hd
    refine ⟨b :: xs, ⟨by simp [Lists.push], hb0, ?_⟩, ?_⟩
    · simpa [Lists.push] using hs'
    · intro x hx hxc
      rcases hx with hx | rfl
      · have hxb' : x ≠ b := fun hxb' => hb (hxb' ▸ hx)
        rw [Function.update_apply, if_neg hxb'] at hxc
        exact List.mem_cons_of_mem _ (hall x hx hxc)
      · simp
  · refine ⟨xs, ?_, ?_⟩
    · simpa [Lists.push, Function.update_apply, hd] using hs'
    · intro x hx hxc
      rcases hx with hx | rfl
      · have hxb' : x ≠ b := fun hxb' => hb (hxb' ▸ hx)
        rw [Function.update_apply, if_neg hxb'] at hxc
        exact hall x hx hxc
      · exact absurd (by simpa using hxc : c = d).symm hd

/-! ### Losing a head -/

/-- A family stays linked when a head is lost. -/
theorem Linked.drop (h : Linked l L cls) (c : Nat) : Linked (l.drop c) L cls := by
  refine ⟨h.ne_zero, ?_, h.next, h.prev⟩
  intro d hd
  have hdc : d ≠ c := by
    rintro rfl
    simp [Lists.drop] at hd
  simp only [Lists.drop, Function.update_apply, hdc, if_false] at hd ⊢
  exact h.head d hd

/-- Losing the head of an empty list loses nothing. -/
theorem Complete.drop (hcomp : Complete l L cls) {c : Nat} (hempty : l.head c = 0) :
    Complete (l.drop c) L cls := by
  have hsame : l.drop c = l := by
    obtain ⟨head, prev, next⟩ := l
    simp only [Lists.drop] at hempty ⊢
    rw [← hempty, Function.update_eq_self]
  rwa [hsame]

/-- `Complete` reads the heads and the forward links only. -/
theorem Complete.congr (h : Linked l L cls) (hcomp : Complete l L cls) (hL : ∀ b, L' b ↔ L b)
    (hcls : ∀ b, L b → cls' b = cls b) (hhead : ∀ c, l'.head c = l.head c)
    (hnext : ∀ b, L b → l'.next b = l.next b) : Complete l' L' cls' := by
  intro c
  obtain ⟨xs, hs, hall⟩ := hcomp c
  refine ⟨xs, ?_, ?_⟩
  · rw [hhead]
    exact hs.congr fun x hx => hnext x (h.mem_of_seg hs x hx).1
  · intro b hb hc
    have hb := (hL b).mp hb
    rw [hcls b hb] at hc
    exact hall b hb hc

end LinkedList
