import Mathlib.Data.List.Nodup
import Mathlib.Data.List.Perm.Subperm

/-! # Custody of a fixed set of tokens

    Tokens are handed around between places, each of which keeps a list of
    those it holds. `Partition` says that no token is lost, doubled or held
    at two places; it is kept when a place hands one token to another.
-/

namespace Custody

variable {α ι : Type}

/-- Every token of `all` is held once, at exactly one place, and nothing else is held. -/
structure Partition (all : List α) (holds : ι → List α) : Prop where
  nodup : ∀ p, (holds p).Nodup
  unique : ∀ p q x, x ∈ holds p → x ∈ holds q → p = q
  mem_all : ∀ x, x ∈ all ↔ ∃ p, x ∈ holds p

namespace Partition

variable {all : List α} {holds holds' : ι → List α}

theorem mem (h : Partition all holds) {p : ι} {x : α} (hx : x ∈ holds p) : x ∈ all :=
  (h.mem_all x).mpr ⟨p, hx⟩

theorem not_mem (h : Partition all holds) {p q : ι} {x : α} (hx : x ∈ holds p) (hpq : p ≠ q) :
    x ∉ holds q :=
  fun hq => hpq (h.unique p q x hx hq)

/-- At first one place holds all tokens. -/
theorem initial {p : ι} (hnd : all.Nodup) (hp : holds p = all)
    (hrest : ∀ q, q ≠ p → holds q = []) : Partition all holds := by
  -- a place that holds anything is `p`
  have honly : ∀ q x, x ∈ holds q → q = p := by
    intro q x hx
    by_contra hq
    rw [hrest q hq] at hx
    simp at hx
  refine ⟨?_, ?_, fun x => ⟨fun hx => ⟨p, hp ▸ hx⟩, ?_⟩⟩
  · intro q
    by_cases hq : q = p
    · rw [hq, hp]
      exact hnd
    · rw [hrest q hq]
      exact List.nodup_nil
  · intro q r x hq hr
    rw [honly q x hq, honly r x hr]
  · rintro ⟨q, hx⟩
    rw [honly q x hx, hp] at hx
    exact hx

/-- The order in which a place keeps its tokens does not matter. -/
theorem perm (h : Partition all holds) (hperm : ∀ p, (holds' p).Perm (holds p)) :
    Partition all holds' where
  nodup p := (hperm p).nodup_iff.mpr (h.nodup p)
  unique p q x hp hq := h.unique p q x ((hperm p).mem_iff.mp hp) ((hperm q).mem_iff.mp hq)
  mem_all x := by simp only [h.mem_all, (hperm _).mem_iff]

theorem congr (h : Partition all holds) (heq : ∀ p, holds' p = holds p) : Partition all holds' := by
  rwa [funext heq]

/-- The place `p` hands the token `x` to the place `q`. -/
theorem move (h : Partition all holds) {p q : ι} {x : α} (hpq : p ≠ q)
    (hp : (holds p).Perm (x :: holds' p)) (hq : (holds' q).Perm (x :: holds q))
    (hrest : ∀ r, r ≠ p → r ≠ q → holds' r = holds r) : Partition all holds' := by
  have hx : x ∈ holds p := hp.mem_iff.mpr (by simp)
  have hleft : x ∉ holds' p := (List.nodup_cons.mp (hp.nodup_iff.mp (h.nodup p))).1
  -- what is held where afterwards, in terms of what was held before
  have hmem : ∀ r y, y ∈ holds' r ↔ (y ≠ x ∧ y ∈ holds r) ∨ (y = x ∧ r = q) := by
    intro r y
    by_cases hrp : r = p
    · subst hrp
      have hback : y ∈ holds r ↔ y = x ∨ y ∈ holds' r := by
        rw [hp.mem_iff, List.mem_cons]
      grind
    · by_cases hrq : r = q
      · subst hrq
        have hthere : y ∈ holds' r ↔ y = x ∨ y ∈ holds r := by
          rw [hq.mem_iff, List.mem_cons]
        have hnot := h.not_mem hx hpq
        grind
      · rw [hrest r hrp hrq]
        have hnot : x ∉ holds r := h.not_mem hx (Ne.symm hrp)
        grind
  refine ⟨?_, ?_, ?_⟩
  · intro r
    by_cases hrp : r = p
    · subst hrp
      exact (List.nodup_cons.mp (hp.nodup_iff.mp (h.nodup r))).2
    · by_cases hrq : r = q
      · subst hrq
        exact hq.nodup_iff.mpr (List.nodup_cons.mpr ⟨h.not_mem hx hpq, h.nodup r⟩)
      · rw [hrest r hrp hrq]
        exact h.nodup r
  · intro r t y hr ht
    rcases (hmem r y).mp hr with ⟨hyx, hr⟩ | ⟨rfl, rfl⟩
    -- who holds `y` now held it before, unless it is the one that moved
    · rcases (hmem t y).mp ht with ⟨_, ht⟩ | ⟨rfl, _⟩
      · exact h.unique r t y hr ht
      · exact absurd rfl hyx
    · rcases (hmem t y).mp ht with ⟨hyx, _⟩ | ⟨_, rfl⟩
      · exact absurd rfl hyx
      · rfl
  · intro y
    rw [h.mem_all]
    constructor
    · rintro ⟨r, hr⟩
      by_cases hyx : y = x
      · exact ⟨q, (hmem q y).mpr (Or.inr ⟨hyx, rfl⟩)⟩
      · exact ⟨r, (hmem r y).mpr (Or.inl ⟨hyx, hr⟩)⟩
    · rintro ⟨r, hr⟩
      rcases (hmem r y).mp hr with ⟨_, hr⟩ | ⟨rfl, _⟩
      · exact ⟨r, hr⟩
      · exact ⟨p, hx⟩

/-- No place holds more tokens than there are. -/
theorem length_le (h : Partition all holds) (p : ι) : (holds p).length ≤ all.length :=
  ((h.nodup p).subperm fun _ hx => h.mem hx).length_le

/-- A place that holds as many tokens as there are holds all of them. -/
theorem mem_of_length (h : Partition all holds) {p : ι} (hlen : all.length ≤ (holds p).length)
    {x : α} (hx : x ∈ all) : x ∈ holds p :=
  (((h.nodup p).subperm fun _ hy => h.mem hy).perm_of_length_le hlen).mem_iff.mpr hx

end Partition

end Custody
