import Nvds.Tablet.Model
import Nvds.Allocator.Tracking

/-! # Recorded modifications

    What a request records, and that it tells all the request changes.
-/

open ByteMemory Program Intervals Nvds.Allocator

namespace Nvds

/-! ### The tablet -/

namespace Tablet

variable (r : Request)

theorem sameKey_tracks (p : Nat) : Tracks (sameKey r p) :=
  .bind (read16_tracks true _) fun _ =>
    Tracks.ite (.bind (memcmp_tracks _ _ _) fun _ => .pure _) (.pure _)

theorem search_tracks (fuel q p : Nat) : Tracks (search r fuel q p) := by
  induction fuel generalizing q p with
  | zero => exact .throw _
  | succ fuel ih =>
    rw [search]
    refine Tracks.ite (.pure _) (.bind (sameKey_tracks r p) ?_)
    intro found
    exact Tracks.ite (.pure _) (.bind (read32_tracks true _) fun next => ih _ _)

theorem newObject_tracks (next : Nat) : Tracks (newObject r next) :=
  .bind (alloc_tracks true _) fun _ => .bind (.assert _) fun _ => .bind (write_tracks true _ _)
    fun _ => .bind (memcpy_tracks _ _) fun _ => .pure _

theorem insertHead_tracks (slot head : Nat) : Tracks (insertHead r slot head) :=
  .bind (newObject_tracks r _) fun _ => .bind (write32_tracks true _ _) fun _ => .pure _

theorem put_tracks (fuel : Nat) : Tracks (put fuel r) := by
  unfold put
  refine .bind (.assert _) fun _ => .bind (read32_tracks true _) fun head =>
    .bind (search_tracks r _ _ _) fun found => Tracks.ite ?_ ?_
  · refine .bind (read16_tracks true _) fun valLen => Tracks.ite ?_ ?_
    · exact .bind (write16_tracks true _ _) fun _ => .bind (memcpy_tracks _ _) fun _ => .pure _
    · exact .bind (read32_tracks true _) fun next => .bind (free_tracks true _) fun _ =>
        .bind (newObject_tracks r _) fun p => .bind (write32_tracks true _ _) fun _ => .pure _
  · exact insertHead_tracks r _ _

theorem add_tracks (fuel : Nat) : Tracks (add fuel r) := by
  unfold add
  refine .bind (.assert _) fun _ => .bind (read32_tracks true _) fun head =>
    .bind (search_tracks r _ _ _) fun found => Tracks.ite (.pure _) ?_
  exact insertHead_tracks r _ _

theorem get_tracks (fuel : Nat) : Tracks (get fuel r) := by
  unfold get
  refine .bind (.assert _) fun _ => .bind (read32_tracks true _) fun head =>
    .bind (search_tracks r _ _ _) fun found => Tracks.ite ?_ (.pure _)
  exact .bind (read16_tracks true _) fun len => .bind (memcpyOut_tracks _ _) fun val => .pure _

theorem delLoop_tracks (q p fuel : Nat) : Tracks (delLoop r q p fuel) := by
  induction fuel with
  | zero => exact .throw _
  | succ fuel ih =>
    rw [delLoop]
    refine Tracks.ite (.pure _) (.bind (sameKey_tracks r p) fun found => Tracks.ite ?_ ih)
    exact .bind (read32_tracks true _) fun next => .bind (write32_tracks true _ _) fun _ =>
      .bind (free_tracks true _) fun _ => .pure _

theorem del_tracks (fuel : Nat) : Tracks (del fuel r) :=
  .bind (.assert _) fun _ => .bind (read32_tracks true _) fun _ => delLoop_tracks r _ _ _

theorem dispatch_tracks (fuel : Nat) : Tracks (dispatch fuel r) := by
  unfold dispatch
  cases r.type with
  | put => exact .bind (put_tracks r fuel) fun _ => .pure _
  | add => exact .bind (add_tracks r fuel) fun _ => .pure _
  | del => exact .bind (del_tracks r fuel) fun _ => .pure _
  | get => exact .bind (get_tracks r fuel) fun _ => .pure _

/-- What one round of `Serve` records, starting from the cleared list. -/
theorem serve_logged {fuel : Nat} {r : Request} {s s' : Nvm} {resp : Response}
    (h : serve fuel r s = .ok (resp, s')) :
    LoggedBy { s with modifications := [] } s'.modifications s' := by
  obtain ⟨_, s₁, hclear, hrun⟩ := bind_eq_ok.mp h
  obtain rfl : { s with modifications := [] } = s₁ := by
    injection hclear with hclear
    exact (Prod.mk.inj hclear).2
  obtain ⟨L, hlogged⟩ := dispatch_tracks r fuel hrun
  have hL : s'.modifications = L := hlogged.log
  rw [hL]
  exact hlogged

end Tablet

/-! ### Replaying the merged modifications -/

/-- `m` with the ranges of `ws` overwritten by the bytes of `m'`. -/
def overlay (m' : Mem) (ws : List Modification) (m : Mem) : Mem :=
  ws.foldl (fun m w => store m w.des (load m' w.des w.len)) m

/-- A copied range has the new bytes, and the rest is as before. -/
theorem store_load_eq (m m' : Mem) (w : Modification) (a : Nat) [Decidable (w.range.Has a)] :
    store m w.des (load m' w.des w.len) a = if w.range.Has a then m' a else m a := by
  unfold store
  rw [length_load]
  by_cases hw : w.range.Has a
  · have h₁ : w.des ≤ a := hw.1
    have h₂ : a < w.des + w.len := hw.2
    have hlt : a - w.des < (load m' w.des w.len).length := by
      rw [length_load]
      omega
    rw [if_pos hw, if_pos ⟨h₁, h₂⟩, List.getD_eq_getElem?_getD,
      List.getElem?_eq_getElem hlt, getElem_load, Option.getD_some]
    congr 1
    omega
  · rw [if_neg hw]
    exact if_neg hw

open Classical in
theorem overlay_apply (m' : Mem) (ws : List Modification) (m : Mem) (a : Nat) :
    overlay m' ws m a = if ∃ w ∈ ws, w.range.Has a then m' a else m a := by
  induction ws generalizing m with
  | nil => simp [overlay]
  | cons w ws ih =>
    show overlay m' ws (store m w.des (load m' w.des w.len)) a = _
    rw [ih, store_load_eq]
    by_cases hrest : ∃ w ∈ ws, w.range.Has a
    · obtain ⟨x, hx, hxa⟩ := hrest
      rw [if_pos ⟨x, hx, hxa⟩, if_pos ⟨x, List.mem_cons_of_mem _ hx, hxa⟩]
    · rw [if_neg hrest]
      by_cases hw : w.range.Has a
      · rw [if_pos hw, if_pos ⟨w, List.mem_cons_self, hw⟩]
      · rw [if_neg hw, if_neg]
        intro ⟨x, hx, hxa⟩
        rcases List.mem_cons.mp hx with rfl | hx
        · exact hw hxa
        · exact hrest ⟨x, hx, hxa⟩

/-- Overwriting the merged ranges of everything recorded gives the new memory. -/
theorem LoggedBy.overlay_eq {s s' : Nvm} {L : List Modification} (h : LoggedBy s L s')
    (hne : L ≠ []) : overlay s'.mem (mergeModifications L) s.mem = s'.mem := by
  classical
  funext a
  rw [overlay_apply]
  split
  · rfl
  · next hno =>
    refine (h.same a fun m hm ha => hno ?_).symm
    exact covered_mergeModifications hne h.recorded hm ha

/-- Where nothing was recorded, nothing changed. -/
theorem LoggedBy.mem_eq {s s' : Nvm} {L : List Modification} (h : LoggedBy s L s')
    (hnil : L = []) : s'.mem = s.mem := by
  funext a
  apply h.same a
  intro m hm
  rw [hnil] at hm
  cases hm

/-- The merged ranges are taken from the same places of the writer's memory. -/
theorem LoggedBy.src_eq {s s' : Nvm} {L : List Modification} (h : LoggedBy s L s')
    (hne : L ≠ []) {w : Modification} (hw : w ∈ mergeModifications L) :
    w.src = s.base + w.des := by
  have hB : ∀ m ∈ L, m.des + m.len ≤ 4294967296 := fun m hm => (h.recorded m hm).2.le
  exact (mem_mergeModifications hne h.recorded hB w hw).1

namespace Tablet

/-- **Recorded modifications.** What a request records tells all it changes: if
    nothing, nothing; else copying the merged ranges brings any copy of the
    old memory to the new state. -/
theorem serve_modifications {fuel : Nat} {r : Request} {s s' : Nvm} {resp : Response}
    (h : serve fuel r s = .ok (resp, s')) :
    (s'.modifications = [] → s'.mem = s.mem) ∧
    (s'.modifications ≠ [] →
      (∀ w ∈ mergeModifications s'.modifications, w.src = s.base + w.des) ∧
      overlay s'.mem (mergeModifications s'.modifications) s.mem = s'.mem) := by
  have hlogged := serve_logged h
  constructor
  · intro hnil
    exact hlogged.mem_eq hnil
  · intro hne
    constructor
    · intro w hw
      exact hlogged.src_eq hne hw
    · exact hlogged.overlay_eq hne

/-- A `PUT` of one byte under the empty key. -/
def putOne (v : UInt8) : Request :=
  ⟨.put, [], [v], 0, nil_length_lt, singleton_length_lt v, zero_hash_lt⟩

theorem serve_modifications_put :
    ∃ s' resp, serve 2 (putOne 7) (formatted true) = .ok (resp, s') ∧ s'.modifications ≠ [] ∧
      overlay s'.mem (mergeModifications s'.modifications) (formatted true).mem = s'.mem := by
  have hdec : (serve 2 (putOne 7) (formatted true)).toOption.map
      (fun p => p.2.modifications.isEmpty) = some false := by
    decide +kernel
  cases hrun : serve 2 (putOne 7) (formatted true) with
  | error e => rw [hrun] at hdec; cases hdec
  | ok p =>
    obtain ⟨resp, s'⟩ := p
    rw [hrun] at hdec
    have hne : s'.modifications ≠ [] := by
      intro hnil
      simp [Except.toOption, hnil] at hdec
    exact ⟨s', resp, rfl, hne, ((serve_modifications hrun).2 hne).2⟩

end Tablet

end Nvds
