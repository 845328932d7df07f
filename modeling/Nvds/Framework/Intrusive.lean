import Nvds.Framework.LinkedList

/-! # Intrusive stacks and queues

    Stacks and queues whose nodes carry the link themselves, so that one link
    field serves all of them. A stack is a pointer to its top and ends at
    null. A queue has a pointer to either end; the link of its last node is
    not part of it and may be anything.
-/

namespace LinkedList

variable {next next' : Nat → Nat} {a b root head tail : Nat} {xs : List Nat}

/-- A walk does not see the link of a node it does not meet. -/
theorem Seg.update {c : Nat} (h : Seg next a xs c) (hb : b ∉ xs) (v : Nat) :
    Seg (Function.update next b v) a xs c := by
  refine h.congr fun x hx => Function.update_of_ne ?_ _ _
  rintro rfl
  exact hb hx

/-! ### Stacks -/

/-- A stack with a null top is empty. -/
theorem Seg.eq_nil (h : Seg next 0 xs 0) : xs = [] :=
  h.unique rfl

/-- The top of a stack that is not empty. -/
theorem Seg.pop (h : Seg next root xs 0) (h0 : root ≠ 0) :
    ∃ ys, xs = root :: ys ∧ Seg next (next root) ys 0 := by
  cases xs with
  | nil => exact absurd h h0
  | cons x ys =>
    obtain ⟨rfl, _, hrest⟩ := h
    exact ⟨ys, rfl, hrest⟩

/-- A new node on top of a stack. -/
theorem Seg.push (h : Seg next root xs 0) (hb : b ∉ xs) (h0 : b ≠ 0) :
    Seg (Function.update next b root) b (b :: xs) 0 := by
  refine ⟨rfl, h0, ?_⟩
  rw [Function.update_self]
  exact h.update hb root

/-! ### Queues -/

/-- The queue between `head` and `tail` holds `xs`. It is empty if `head` is null; else
    the walk from `head` arrives at `tail`, which is the last node. -/
def IsQueue (next : Nat → Nat) (head tail : Nat) (xs : List Nat) : Prop :=
  (head = 0 ∧ xs = []) ∨ (tail ≠ 0 ∧ ∃ ys, xs = ys ++ [tail] ∧ Seg next head ys tail)

namespace IsQueue

theorem empty : IsQueue next 0 tail [] := Or.inl ⟨rfl, rfl⟩

/-- A queue of one node. -/
theorem single (h0 : b ≠ 0) : IsQueue next b b [b] :=
  Or.inr ⟨h0, [], rfl, rfl⟩

/-- A queue is empty exactly if its head is null. -/
theorem head_eq_zero (h : IsQueue next head tail xs) : head = 0 ↔ xs = [] := by
  rcases h with ⟨h0, rfl⟩ | ⟨h0, ys, rfl, hseg⟩
  · simp [h0]
  · refine iff_of_false ?_ (by simp)
    cases ys with
    | nil =>
      rw [show head = tail from hseg]
      exact h0
    | cons y ys =>
      obtain ⟨rfl, hy, _⟩ := hseg
      exact hy

/-- A queue does not see the link of a node it does not hold. -/
theorem update (h : IsQueue next head tail xs) (hb : b ∉ xs) (v : Nat) :
    IsQueue (Function.update next b v) head tail xs := by
  rcases h with h | ⟨h0, ys, rfl, hseg⟩
  · exact Or.inl h
  · exact Or.inr ⟨h0, ys, rfl, hseg.update (fun hy => hb (by simp [hy])) v⟩

/-- A node that is linked behind the last one is the new last one, whatever its own link is. -/
theorem append (h : IsQueue next head tail xs) (hhead : head ≠ 0) (hnd : xs.Nodup) (h0 : b ≠ 0) :
    IsQueue (Function.update next tail b) head b (xs ++ [b]) := by
  rcases h with ⟨hnull, _⟩ | ⟨ht, ys, rfl, hseg⟩
  · exact absurd hnull hhead
  · have hfresh : tail ∉ ys := by
      intro hmem
      exact (List.nodup_append.mp hnd).2.2 tail hmem tail (by simp) rfl
    refine Or.inr ⟨h0, ys ++ [tail], rfl, seg_append.mpr ⟨tail, hseg.update hfresh b, rfl, ht, ?_⟩⟩
    rw [Function.update_self]
    rfl

/-- The last node is taken off. -/
theorem pop_last (h : IsQueue next head tail xs) (hhead : head ≠ 0) (hnd : xs.Nodup)
    (hlast : head = tail) : xs = [head] := by
  rcases h with ⟨hnull, _⟩ | ⟨ht, ys, rfl, hseg⟩
  · exact absurd hnull hhead
  · cases ys with
    | nil => rw [hlast]; rfl
    | cons y ys =>
      obtain ⟨rfl, _, _⟩ := hseg
      subst hlast
      simp at hnd

/-- The first of several nodes is taken off. -/
theorem pop (h : IsQueue next head tail xs) (hhead : head ≠ 0) (hlast : head ≠ tail) :
    ∃ ys, xs = head :: ys ∧ IsQueue next (next head) tail ys := by
  rcases h with ⟨hnull, _⟩ | ⟨ht, ys, rfl, hseg⟩
  · exact absurd hnull hhead
  · cases ys with
    | nil => exact absurd hseg hlast
    | cons y ys =>
      obtain ⟨rfl, _, hrest⟩ := hseg
      exact ⟨ys ++ [tail], rfl, Or.inr ⟨ht, ys, rfl, hrest⟩⟩

end IsQueue

end LinkedList
