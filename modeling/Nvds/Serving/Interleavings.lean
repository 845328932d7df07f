import Nvds.Serving.Atomicity
import Nvds.Serving.Rounds

/-! # Interleavings of single accesses

    In every interleaving of the single accesses of all threads, the server
    with the begun calls finished is in a state that an interleaving of whole
    calls reaches. The invariant says who has which lock, and that what is
    left of a call touches only cells its thread may touch.
-/

open Sections (Pending)

namespace Nvds.Serving.Spinlock

variable {n : Nat} {Req Resp T : Type} {sv : Service n Req Resp T} {s s' : State n Req Resp T}
  {m m' : Loc n → Nat} {c c' : Contents n}

/-- What a step may do to the server with the begun calls finished: nothing, or a step of the
    threads with whole calls. -/
def Refines (sv : Service n Req Resp T) (a a' : Serving.State n Req Resp T) : Prop :=
  a' = a ∨ ∃ l, a.aborted = none ∧ Serving.Step sv a l a'

/-! ### The invariant -/

/-- The locks and the calls that have begun; `m` is memory and `c` what the objects hold when
    they are finished. -/
structure Inv (s : State n Req Resp T) (m : Loc n → Nat) (c : Contents n) : Prop where
  sound : Sound (s.atomic m) c
  pending : Pending s.server.cells s.code m
  /-- A thread in a call has the lock and touches only what it may. -/
  inside : ∀ i k, s.code i = some k → ∃ l body, s.server.call i = some (l, body) ∧
    s.flag l = true ∧ ∀ x ∈ k.footprint s.server.cells, (s.atomic m).Owns c i l x
  /-- No two threads have the same lock. -/
  exclusive : ∀ i j l b b', s.code i ≠ none → s.code j ≠ none →
    s.server.call i = some (l, b) → s.server.call j = some (l, b') → i = j
  /-- A lock that is taken is had by a thread. -/
  held : ∀ l, s.flag l = true → ∃ i b, s.code i ≠ none ∧ s.server.call i = some (l, b)
  /-- A worker that is going to fail has found no send buffer, and there is none until then. -/
  failing : ∀ i r, s.result i = some r → s.server.failed r i ≠ none →
    ∃ w work, i = .worker w ∧ s.server.worker w = .alloc work ∧ m (.root .send) = 0

namespace Inv

theorem init {t : Fin n → T} (h : Init t s) :
    Inv s s.server.cells ⟨recvBuffers, sendBuffers, fun _ => []⟩ where
  sound := by
    rw [State.atomic_of_idle h.code]
    exact .init h.server
  pending := .idle h.code
  inside i k hk := by rw [h.code i] at hk; cases hk
  exclusive i j l b b' hi := absurd (h.code i) hi
  held l hl := by rw [h.flag l] at hl; cases hl
  failing i r hr := by simp [State.result, h.code i] at hr

/-- A thread that could take a lock is the only one with that lock. -/
theorem lock_ne (h : Inv s m c) {l k : Lock n} (hflag : s.flag l = false) {j : Thread n}
    {body : Code n} (hj : s.code j ≠ none) (hcall : s.server.call j = some (k, body)) : k ≠ l := by
  rintro rfl
  obtain ⟨code, hcode⟩ := Option.ne_none_iff_exists'.mp hj
  obtain ⟨k', body', hcall', hflag', _⟩ := h.inside j code hcode
  rw [hcall] at hcall'
  cases hcall'
  rw [hflag] at hflag'
  cases hflag'

/-- The result of a call that has begun stays what it is while other threads make accesses. -/
theorem result_access (h : Inv s m c) {i : Thread n} {k k' : Code n} {m₁ : Loc n → Nat}
    (hk : s.code i = some k) (hstep : k.Access s.server.cells m₁ k') (j : Thread n) :
    State.result { s with
      server := s.server.withCells m₁
      code := Function.update s.code i (some k') } j = s.result j := by
  simp only [State.result, Serving.State.cells_withCells]
  by_cases hj : j = i
  · subst hj
    rw [Function.update_self, hk, Option.map_some, Option.map_some, hstep.run_eq]
  · rw [Function.update_of_ne hj]
    cases hl : s.code j with
    | none => rfl
    | some l => exact congrArg some (Sections.Code.result_congr (h.pending.others hk hstep hj hl))

/-- A thread inside of its call makes an access. -/
theorem access (h : Inv s m c) {i : Thread n} {k k' : Code n} {m₁ : Loc n → Nat}
    (hk : s.code i = some k) (hstep : k.Access s.server.cells m₁ k') :
    (State.atomic { s with
      server := s.server.withCells m₁
      code := Function.update s.code i (some k') } m = s.atomic m) ∧
    Inv { s with
      server := s.server.withCells m₁
      code := Function.update s.code i (some k') } m c := by
  have hresult := h.result_access hk hstep
  -- an access in the middle of a call is no step of the atomic server
  have hatomic : State.atomic { s with
      server := s.server.withCells m₁
      code := Function.update s.code i (some k') } m = s.atomic m :=
    atomic_congr (by rw [Serving.State.cells_withCells]) hresult
  have hsome : ∀ j, Function.update s.code i (some k') j ≠ none → s.code j ≠ none := by
    intro j hj
    by_cases hij : j = i
    · subst hij
      rw [hk]
      simp
    · rwa [Function.update_of_ne hij] at hj
  refine ⟨hatomic, ?_, ?_, ?_, ?_, ?_, ?_⟩
  · rw [hatomic]
    exact h.sound
  · simpa only [Serving.State.cells_withCells] using h.pending.access hk hstep
  · intro j l hl
    simp only [Serving.State.cells_withCells, hatomic]
    -- the thread has one access less to make, and what the others touch it does not
    by_cases hj : j = i
    · subst hj
      simp only [Function.update_self] at hl
      cases hl
      obtain ⟨lock, body, hcall, hflag, howns⟩ := h.inside j k hk
      refine ⟨lock, body, hcall, hflag, fun x hx => howns x ?_⟩
      obtain ⟨y, hfoot, _⟩ := hstep.footprint_eq
      rw [hfoot]
      exact List.mem_cons_of_mem y hx
    · simp only [Function.update_of_ne hj] at hl
      obtain ⟨lock, body, hcall, hflag, howns⟩ := h.inside j l hl
      refine ⟨lock, body, hcall, hflag, fun x hx => howns x ?_⟩
      rwa [Sections.Code.footprint_congr (h.pending.others hk hstep hj hl)] at hx
  · intro j j' l b b' hj hj'
    exact h.exclusive j j' l b b' (hsome j hj) (hsome j' hj')
  · intro l hl
    obtain ⟨j, b, hj, hcall⟩ := h.held l hl
    refine ⟨j, b, ?_, hcall⟩
    by_cases hij : j = i
    · subst hij
      simp
    · simpa only [Function.update_of_ne hij] using hj
  · intro j r hr
    rw [hresult j] at hr
    exact h.failing j r hr

/-- A thread gets the lock: what is left to show is what the call does to the server. -/
theorem enter (h : Inv s m c) {i : Thread n} {l : Lock n} {body : Code n}
    (hcall : s.server.call i = some (l, body)) (hcode : s.code i = none) (hflag : s.flag l = false)
    (hserver : s'.server = s.server.record i) (hflag' : s'.flag = Function.update s.flag l true)
    (hcode' : s'.code = Function.update s.code i (some body)) (hsound : Sound (s'.atomic m') c')
    (hpending : Pending s'.server.cells s'.code m')
    (hself : ∀ x ∈ body.footprint s'.server.cells, (s'.atomic m').Owns c' i l x)
    (hothers : ∀ j k x, j ≠ i → k ≠ l → (s.atomic m).Owns c j k x → (s'.atomic m').Owns c' j k x)
    (hfailing : ∀ r, s'.result i = some r → s.server.failed r i ≠ none →
      ∃ w work, i = .worker w ∧ s.server.worker w = .alloc work ∧ m' (.root .send) = 0)
    (hsend : l ≠ .pool .send → m' (.root .send) = m (.root .send)) : Inv s' m' c' := by
  have hcalls : ∀ j, s'.server.call j = s.server.call j := fun j => by rw [hserver]; rfl
  have hcells : s'.server.cells = s.server.cells := by rw [hserver]; rfl
  have hself' : s'.code i = some body := by rw [hcode', Function.update_self]
  have hother : ∀ j, j ≠ i → s'.code j = s.code j := fun j hj => by
    rw [hcode', Function.update_of_ne hj]
  -- the other threads in calls have other locks
  have hlocks : ∀ j k b, j ≠ i → s'.code j ≠ none → s'.server.call j = some (k, b) → k ≠ l := by
    intro j k b hj hk hb
    rw [hother j hj] at hk
    rw [hcalls] at hb
    exact h.lock_ne hflag hk hb
  -- the flags and the calls have changed at `i` only
  refine ⟨hsound, hpending, ?_, ?_, ?_, ?_⟩
  · intro j k hk
    by_cases hj : j = i
    · subst hj
      rw [hself'] at hk
      cases hk
      exact ⟨l, body, (hcalls j).trans hcall, by rw [hflag', Function.update_self], hself⟩
    · have hk' := hk
      rw [hother j hj] at hk
      obtain ⟨lock, b, hb, hset, howns⟩ := h.inside j k hk
      have hne : lock ≠ l := hlocks j lock b hj (by rw [hk']; simp) ((hcalls j).trans hb)
      refine ⟨lock, b, (hcalls j).trans hb, ?_, ?_⟩
      · rw [hflag', Function.update_of_ne hne, hset]
      · intro x hx
        rw [hcells] at hx
        exact hothers j lock x hj hne (howns x hx)
  · intro j j' k b b' hj hj' hb hb'
    -- a second thread in a call with the same lock would have found its flag set
    by_cases hi : j = i
    · by_cases hi' : j' = i
      · rw [hi, hi']
      · subst hi
        rw [hcalls, hcall] at hb
        cases hb
        exact absurd rfl (hlocks j' l b' hi' hj' hb')
    · by_cases hi' : j' = i
      · subst hi'
        rw [hcalls, hcall] at hb'
        cases hb'
        exact absurd rfl (hlocks j l b hi hj hb)
      · rw [hother j hi] at hj
        rw [hother j' hi'] at hj'
        rw [hcalls] at hb hb'
        exact h.exclusive j j' k b b' hj hj' hb hb'
  · intro k hk
    -- the flag that is set now belongs to the call of `i`
    by_cases hkl : k = l
    · subst hkl
      exact ⟨i, body, by rw [hself']; simp, (hcalls i).trans hcall⟩
    · rw [hflag', Function.update_of_ne hkl] at hk
      obtain ⟨j, b, hj, hb⟩ := h.held k hk
      have hji : j ≠ i := by
        rintro rfl
        exact hj hcode
      exact ⟨j, b, by rwa [hother j hji], (hcalls j).trans hb⟩
  · intro j r hr hfail
    -- a call of `Alloc` that will fail is that of a worker at the send pool, whose lock is taken
    have hfailed : s'.server.failed r j = s.server.failed r j := by rw [hserver]; rfl
    have hworker : s'.server.worker = s.server.worker := by rw [hserver]; rfl
    rw [hfailed] at hfail
    by_cases hj : j = i
    · subst hj
      rw [hworker]
      exact hfailing r hr hfail
    · have hresult : s'.result j = s.result j := by
        simp only [State.result, hother j hj, hcells]
      rw [hresult] at hr
      obtain ⟨w, work, rfl, hw, h0⟩ := h.failing j r hr hfail
      have hne : Lock.pool Pool.send ≠ l := by
        have hcode : s'.code (.worker w) ≠ none := by
          intro hnone
          rw [hother _ hj] at hnone
          simp [State.result, hnone] at hr
        apply hlocks (.worker w) _ (RegisteredBuffers.allocCode .send) hj hcode
        rw [hcalls, Serving.State.call, hw, Worker.call]
      refine ⟨w, work, rfl, ?_, ?_⟩
      · rw [hworker, hw]
      · rw [hsend hne.symm, h0]

/-- A thread that gets its lock makes the whole call, or it is a worker that will fail. -/
theorem enter_step (h : Inv s m c) {i : Thread n} {l : Lock n} {body : Code n}
    (halive : s.server.aborted = none) (hcall : s.server.call i = some (l, body))
    (hcode : s.code i = none) (hflag : s.flag l = false) (hserver : s'.server = s.server.record i)
    (hflag' : s'.flag = Function.update s.flag l true)
    (hcode' : s'.code = Function.update s.code i (some body)) :
    ∃ m' c', Inv s' m' c' ∧ Refines sv (s.atomic m) (s'.atomic m') := by
  have hcall' : (s.atomic m).call i = some (l, body) := (State.call_atomic hcode).trans hcall
  have hcells : s'.server.cells = s.server.cells := by rw [hserver]; rfl
  -- what the call touches, nobody else may touch
  have howns : ∀ x ∈ body.footprint m, (s.atomic m).Owns c i l x := by
    intro x hx
    exact h.sound.owns_call hcall' (by rwa [State.cells_atomic])
  have hapart : ∀ j k, s.code j = some k →
      ∀ x ∈ body.footprint m, x ∉ k.footprint s.server.cells := by
    intro j k hk x hx hmem
    obtain ⟨lock, b, hb, _, hother⟩ := h.inside j k hk
    have hij : i ≠ j := by
      rintro rfl
      rw [hcode] at hk
      cases hk
    have hne : l ≠ lock := (h.lock_ne hflag (by rw [hk]; simp) hb).symm
    exact h.sound.owns_apart hij hne (howns x hx) (hother x hmem)
  have hagree := h.pending.begin_agrees hapart
  have hfoot : body.footprint s'.server.cells = body.footprint m := by
    rw [hcells]
    exact Sections.Code.footprint_congr hagree
  have hrun : (body.run s'.server.cells).1 = (body.run m).1 := by
    rw [hcells]
    exact Sections.Code.result_congr hagree
  have hpending : Pending s'.server.cells s'.code (body.run m).2 := by
    rw [hcells, hcode']
    exact h.pending.begin hcode hapart
  have hself : s'.result i = some (body.run m).1 := by
    simp only [State.result, hcode', Function.update_self, Option.map_some, hrun]
  have hother : ∀ j, j ≠ i → s'.result j = s.result j := by
    intro j hj
    simp only [State.result, hcode', Function.update_of_ne hj, hcells]
  by_cases hok : s.server.failed (body.run m).1 i = none
  · -- the call takes place now
    have hok' : (s.atomic m).failed (body.run (s.atomic m).cells).1 i = none := by
      rw [State.cells_atomic, State.failed_atomic hcode, hok]
    obtain ⟨lab, hlab, hstep⟩ : ∃ lab, lab.thread = some i ∧
        Serving.Step sv (s.atomic m) lab _ := h.sound.step_of_call halive hcall' hok'
    have hatomic : s'.atomic (body.run m).2 =
        (((s.atomic m).record i).withCells (body.run m).2).goOn (body.run m).1 i :=
      atomic_begin hcode hserver hself hother hok halive
    rw [State.cells_atomic, ← hatomic] at hstep
    have hsound := h.sound.step hstep
    -- the areas that the step touches
    have hquiet : ∀ k, k ≠ l → ¬ lab.Touches (s.atomic m) (.lock k) := by
      rintro k hk ⟨j, b, hj, hb⟩
      rw [hlab] at hj
      cases hj
      rw [hcall'] at hb
      cases hb
      exact hk rfl
    refine ⟨_, _, h.enter hcall hcode hflag hserver hflag' hcode' hsound hpending ?_ ?_ ?_ ?_,
      Or.inr ⟨lab, halive, hstep⟩⟩
    · intro x hx
      rw [hfoot] at hx
      exact owns_of_call hstep h.sound hsound hlab hcall' (howns x hx)
    · intro j k x hj hk hx
      refine owns_frame hstep ?_ (hquiet k hk) hx
      intro hthread
      rw [Label.Touches, hlab] at hthread
      exact hj (Option.some.inj hthread).symm
    · intro r hr hfail
      rw [hself] at hr
      cases hr
      exact absurd hok hfail
    · intro hl
      exact sendRoot_frame hstep (hquiet _ hl.symm)
  · -- the pool is empty, and nothing happens
    have hok' : (s.atomic m).failed (body.run (s.atomic m).cells).1 i ≠ none := by
      rwa [State.cells_atomic, State.failed_atomic hcode]
    obtain ⟨_, hbody, w, work, rfl, hw, h0⟩ := h.sound.failed_cases hcall' hok'
    rw [State.cells_atomic] at hbody
    have hw' : s.server.worker w = .alloc work := (State.worker_atomic m hcode).symm.trans hw
    rw [hbody] at hpending hself hok
    have hatomic : s'.atomic m = s.atomic m := atomic_failing hcode hserver hself hother hok
    refine ⟨m, c, h.enter hcall hcode hflag hserver hflag' hcode' (hatomic ▸ h.sound) hpending
      ?_ ?_ ?_ fun _ => rfl, Or.inl hatomic⟩
    · intro x hx
      rw [hfoot] at hx
      rw [hatomic]
      exact howns x hx
    · intro j k x _ _ hx
      rwa [hatomic]
    · intro r hr _
      exact ⟨w, work, rfl, hw', h0⟩

/-- The server with the calls finished, when a thread leaves its call. -/
theorem leave_atomic (h : Inv s m c) {i : Thread n} {r : Nat} (halive : s.server.aborted = none)
    (hcode : s.code i = some (.ret r))
    (hatomic : s'.atomic m = { s.atomic m with aborted := s.server.failed r i }) :
    Refines sv (s.atomic m) (s'.atomic m) := by
  have hresult : s.result i = some r := by simp only [State.result, hcode, Option.map_some]; rfl
  rw [hatomic]
  -- the atomic server has gone on with this result when the call began
  by_cases hok : s.server.failed r i = none
  · refine Or.inl ?_
    rw [hok, ← halive]
    rfl
  · -- the assertion fails there as well
    obtain ⟨w, work, rfl, hw, h0⟩ := h.failing i r hresult hok
    have hfailed : (s.server.worker w).failed r = some .sendBuffer := by
      have hne : (s.server.worker w).failed r ≠ none := hok
      rw [hw, Worker.failed] at hne ⊢
      split at hne
      · exact absurd rfl hne
      · next hnot => rw [if_neg hnot]
    have hw' : (s.atomic m).worker w = .alloc work := by
      have hreturned : s.worker w = (s.server.worker w).returned r := by
        simp only [State.worker, hresult]
      exact hreturned.trans ((Worker.returned_of_failed hok).trans hw)
    refine Or.inr ⟨.serve w, halive, ?_⟩
    rw [show s.server.failed r (.worker w) = some .sendBuffer from hfailed]
    exact .sendFail hw' (Or.inr h0)

/-- A thread leaves its call. -/
theorem leave (h : Inv s m c) {i : Thread n} {l : Lock n} {body : Code n} {r : Nat}
    (hcall : s.server.call i = some (l, body)) (hcode : s.code i = some (.ret r))
    (hserver : s'.server = s.server.goOn r i) (hflag' : s'.flag = Function.update s.flag l false)
    (hcode' : s'.code = Function.update s.code i none)
    (hatomic : s'.atomic m = { s.atomic m with aborted := s.server.failed r i }) :
    Inv s' m c := by
  have hcells : s'.server.cells = s.server.cells := by rw [hserver, Serving.State.cells_goOn]
  have hself : s'.code i = none := by rw [hcode', Function.update_self]
  have hne : ∀ j, s'.code j ≠ none → j ≠ i := by
    rintro j hj rfl
    exact hj hself
  have hother : ∀ j, j ≠ i → s'.code j = s.code j := fun j hj => by
    rw [hcode', Function.update_of_ne hj]
  have hcalls : ∀ j, j ≠ i → s'.server.call j = s.server.call j := fun j hj => by
    rw [hserver, Serving.State.call_goOn _ hj]
  -- nobody else was in a call with this lock
  have hlock : ∀ j k b, j ≠ i → s.code j ≠ none → s.server.call j = some (k, b) → k ≠ l := by
    rintro j k b hj hk hb rfl
    exact hj (h.exclusive j i k b body hk (by rw [hcode]; simp) hb hcall)
  refine ⟨?_, ?_, ?_, ?_, ?_, ?_⟩
  · rw [hatomic]
    exact ⟨h.sound.represents, h.sound.recv, h.sound.send, h.sound.filled⟩
  · rw [hcells, hcode']
    exact h.pending.finish hcode
  · intro j k hk
    -- the other calls go on as they were
    have hj := hne j (by rw [hk]; simp)
    rw [hother j hj] at hk
    obtain ⟨lock, b, hb, hset, howns⟩ := h.inside j k hk
    refine ⟨lock, b, (hcalls j hj).trans hb, ?_, ?_⟩
    · rw [hflag', Function.update_of_ne (hlock j lock b hj (by rw [hk]; simp) hb), hset]
    · intro x hx
      rw [hcells] at hx
      rw [hatomic]
      exact howns x hx
  · intro j j' k b b' hj hj' hb hb'
    have hi := hne j hj
    have hi' := hne j' hj'
    rw [hother j hi] at hj
    rw [hother j' hi'] at hj'
    rw [hcalls j hi] at hb
    rw [hcalls j' hi'] at hb'
    exact h.exclusive j j' k b b' hj hj' hb hb'
  · intro k hk
    -- the flag of this lock is cleared, the others are not
    have hkl : k ≠ l := by
      rintro rfl
      rw [hflag', Function.update_self] at hk
      cases hk
    rw [hflag', Function.update_of_ne hkl] at hk
    obtain ⟨j, b, hj, hb⟩ := h.held k hk
    have hji : j ≠ i := by
      rintro rfl
      rw [hcall] at hb
      cases hb
      exact hkl rfl
    exact ⟨j, b, by rwa [hother j hji], (hcalls j hji).trans hb⟩
  · intro j q hq hfail
    have hj : j ≠ i := by
      rintro rfl
      simp [State.result, hself] at hq
    have hresult : s'.result j = s.result j := by
      simp only [State.result, hother j hj, hcells]
    rw [hresult] at hq
    rw [hserver, Serving.State.failed_goOn _ hj] at hfail
    obtain ⟨w, work, rfl, hw, h0⟩ := h.failing j q hq hfail
    refine ⟨w, work, rfl, ?_, h0⟩
    rw [hserver, Serving.State.worker_goOn _ hj, hw]

/-- A step outside of the calls. -/
theorem other (h : Inv s m c) {l : Serving.Label n Req} {t : Serving.State n Req Resp T}
    (hcalling : s.calling l = false) (hstep : Serving.Step sv s.server l t) :
    ∃ m' c', Inv { s with server := t } m' c' ∧
      Serving.Step sv (s.atomic m) l (State.atomic { s with server := t } m') ∧
      ∀ i k, s.code i = some k →
        t.call i = s.server.call i ∧ k.footprint t.cells = k.footprint s.server.cells := by
  have hnone : ∀ i, l.thread = some i → s.server.call i = none := by
    intro i hi
    simpa [State.calling, hi] using hcalling
  -- the thread that makes the step is in no call
  have hidle : ∀ i, l.thread = some i → s.code i = none := by
    intro i hi
    by_contra hcode
    obtain ⟨k, hk⟩ := Option.ne_none_iff_exists'.mp hcode
    obtain ⟨_, _, hcall, _⟩ := h.inside i k hk
    rw [hnone i hi] at hcall
    cases hcall
  have hthread : ∀ j, s.code j ≠ none → l.thread ≠ some j := fun j hj hl => hj (hidle j hl)
  -- so the step touches nothing that belongs to a lock
  have hquiet : ∀ k, ¬ l.Touches (s.atomic m) (.lock k) := by
    rintro k ⟨i, b, hi, hb⟩
    rw [State.call_atomic (hidle i hi), hnone i hi] at hb
    cases hb
  obtain ⟨m', hatomic, hpending, hsame⟩ := step_other hstep hcalling hidle h.sound h.pending
    fun i k hk => by
      obtain ⟨lock, _, _, _, howns⟩ := h.inside i k hk
      exact ⟨lock, howns⟩
  have hcalls : ∀ j, s.code j ≠ none → t.call j = s.server.call j :=
    fun j hj => call_frame hstep (hthread j hj)
  refine ⟨m', _, ⟨h.sound.step hatomic, hpending, ?_, ?_, ?_, ?_⟩, hatomic, ?_⟩
  · intro j k hk
    have hj : s.code j ≠ none := by
      rw [show s.code j = some k from hk]
      simp
    -- what a call may touch, it may touch after the step as well
    obtain ⟨lock, b, hb, hset, howns⟩ := h.inside j k hk
    refine ⟨lock, b, (hcalls j hj).trans hb, hset, ?_⟩
    intro x hx
    rw [Sections.Code.footprint_congr (hsame j k hk)] at hx
    exact owns_frame hatomic (hthread j hj) (hquiet lock) (howns x hx)
  · intro j j' k b b' hj hj' hb hb'
    exact h.exclusive j j' k b b' hj hj' ((hcalls j hj).symm.trans hb)
      ((hcalls j' hj').symm.trans hb')
  · intro k hk
    obtain ⟨j, b, hj, hb⟩ := h.held k hk
    exact ⟨j, b, hj, (hcalls j hj).trans hb⟩
  · intro j r hr hfail
    obtain ⟨k, hk⟩ : ∃ k, s.code j = some k := by
      cases hk : s.code j with
      | none => simp [State.result, hk] at hr
      | some k => exact ⟨k, rfl⟩
    have hj : s.code j ≠ none := by
      rw [hk]
      simp
    have hresult : State.result { s with server := t } j = s.result j := by
      simp only [State.result, hk, Option.map_some, Sections.Code.result_congr (hsame j k hk)]
    rw [hresult] at hr
    have hfailed : t.failed r j = s.server.failed r j := failed_frame hstep (hthread j hj) r
    obtain ⟨w, work, rfl, hw, h0⟩ := h.failing j r hr (hfailed ▸ hfail)
    refine ⟨w, work, rfl, ?_, ?_⟩
    · exact (worker_frame hstep (hthread _ hj)).trans hw
    · exact (sendRoot_frame hatomic (hquiet _)).trans h0
  · intro j k hk
    refine ⟨hcalls j ?_, Sections.Code.footprint_congr (hsame j k hk)⟩
    rw [hk]
    simp

end Inv

/-! ### Every run -/

/-- Every step is one of the server with the calls finished, or it does not show there. -/
theorem Inv.refines (h : Inv s m c) {l : Label n Req} (hstep : Step sv s l s') :
    ∃ m' c', Inv s' m' c' ∧ Refines sv (s.atomic m) (s'.atomic m') := by
  cases hstep with
  | spin _ => exact ⟨m, c, h, Or.inl rfl⟩
  | enter halive hcall hcode hflag => exact h.enter_step halive hcall hcode hflag rfl rfl rfl
  | access hk haccess =>
    obtain ⟨hatomic, hinv⟩ := h.access hk haccess
    exact ⟨m, c, hinv, Or.inl hatomic⟩
  | @leave i l body r halive hcall hcode =>
    have hatomic : State.atomic ⟨s.server.goOn r i, Function.update s.flag l false,
        Function.update s.code i none⟩ m = { s.atomic m with aborted := s.server.failed r i } := by
      apply atomic_leave _ rfl
      · simp only [State.result, Function.update_self, Option.map_none]
      · intro j hj
        simp only [State.result, Function.update_of_ne hj, Serving.State.cells_goOn]
      · simp only [State.result, hcode, Option.map_some, Sections.Code.run]
    exact ⟨m, c, h.leave hcall hcode rfl rfl rfl hatomic, h.leave_atomic halive hcode hatomic⟩
  | other hcalling halive hother =>
    obtain ⟨m', c', hinv, hatomic, _⟩ := h.other hcalling hother
    exact ⟨m', c', hinv, Or.inr ⟨_, halive, hatomic⟩⟩

/-- At every moment the locks are in order, and the server with the begun calls finished is in
    a state that the threads reach with whole calls as steps. -/
theorem inv_of_reachable {t : Fin n → T} (h : Reachable sv t s) :
    ∃ m c, Inv s m c ∧ Serving.Reachable sv t (s.atomic m) := by
  refine h.invariant (fun s => ∃ m c, Inv s m c ∧ Serving.Reachable sv t (s.atomic m)) ?_ ?_
  · intro s hs
    refine ⟨_, _, .init hs, ?_⟩
    rw [State.atomic_of_idle hs.code]
    exact .init hs.server
  · rintro s l s' ⟨m, c, hinv, hreach⟩ hstep
    obtain ⟨m', c', hinv', hrefines⟩ := hinv.refines (step_cases hstep)
    refine ⟨m', c', hinv', ?_⟩
    rcases hrefines with heq | ⟨lab, halive, hlab⟩
    · rw [heq]
      exact hreach
    · exact .step lab hreach (step_of_effect halive hlab)

/-- The calls of the queues and the pools are atomic in the state `s` of a run. -/
structure Atomic (sv : Service n Req Resp T) (t : Fin n → T) (s : State n Req Resp T) : Prop where
  /-- No two threads are inside of calls with the same lock. -/
  exclusive : ∀ i j l b b', s.code i ≠ none → s.code j ≠ none →
    s.server.call i = some (l, b) → s.server.call j = some (l, b') → i = j
  /-- With the calls that have begun finished, the memory is some `m`, and the state is one of a
      run with whole calls. -/
  finished : ∃ m, Pending s.server.cells s.code m ∧ Serving.Reachable sv t (s.atomic m)
  /-- When no call has begun the state is itself one of such a run. -/
  idle : (∀ i, s.code i = none) → Serving.Reachable sv t s.server

/-- **Atomicity of the calls.** It does not matter that the single accesses of all threads are
    interleaved. -/
theorem calls_atomic {t : Fin n → T} (h : Reachable sv t s) : Atomic sv t s := by
  obtain ⟨m, c, hinv, hreach⟩ := inv_of_reachable h
  refine ⟨hinv.exclusive, ⟨m, hinv.pending, hreach⟩, ?_⟩
  intro hidle
  rwa [hinv.pending.eq_of_none hidle, State.atomic_of_idle hidle] at hreach

/-- Two threads are inside of calls at the same time. -/
theorem calls_atomic_two : ∃ s : State _ _ _ _,
    s.code .poller ≠ none ∧ s.code (.worker firstWorker) ≠ none ∧
      Atomic (Service.ofServer firstServer 1) blankTablets s := by
  have r₀ : Reachable (Service.ofServer firstServer 1) blankTablets
      ⟨blank, fun _ => false, fun _ => none⟩ := .init ⟨init_blank, fun _ => rfl, fun _ => rfl⟩
  have r₁ := r₀.step (.call .poller) rfl
  have r₂ := r₁.step (.call (.worker firstWorker)) rfl
  exact ⟨_, Option.some_ne_none _, Option.some_ne_none _, calls_atomic r₂⟩

/-! ### The locks are released -/

/-- The state after the steps `ls`, if all of them are possible. -/
def run (sv : Service n Req Resp T) (s : State n Req Resp T) :
    List (Label n Req) → Option (State n Req Resp T)
  | [] => some s
  | l :: ls =>
    match step sv s l with
    | none => none
    | some s' => run sv s' ls

/-- The label of a step that the thread `i` makes in a call. -/
def Label.isCall (i : Thread n) : Label n Req → Bool
  | .call j => decide (j = i)
  | .other _ => false

/-- The accesses that a thread in a call has still to make. -/
def State.left (s : State n Req Resp T) (i : Thread n) : Nat :=
  match s.code i with
  | none => 0
  | some k => (k.footprint s.server.cells).length

/-- No call makes more than seven accesses. -/
theorem length_footprint {t : Serving.State n Req Resp T} {i : Thread n} {l : Lock n}
    {body : Code n} (h : t.call i = some (l, body)) (m : Loc n → Nat) :
    (body.footprint m).length ≤ 7 := by
  cases call_cases h with
  | fill _ _ | refill _ | allocSend _ =>
    simp only [RegisteredBuffers.allocCode, Sections.Code.footprint]
    split <;> simp [Sections.Code.footprint]
  | enqueue _ =>
    simp only [WorkQueue.enqueueCode, Sections.Code.footprint]
    split <;> simp [Sections.Code.footprint]
  | dequeue _ =>
    simp only [WorkQueue.dequeueCode, Sections.Code.footprint]
    split
    · simp [Sections.Code.footprint]
    · simp only [Sections.Code.footprint]
      split <;> simp [Sections.Code.footprint]
  | freeSend _ | freeRecv _ => simp [RegisteredBuffers.freeCode, Sections.Code.footprint]

theorem State.left_of_some {i : Thread n} {k : Code n} (h : s.code i = some k) :
    s.left i = (k.footprint s.server.cells).length := by
  simp only [left, h]

/-- While a thread is in a call, every step of its own is one access or leaves the call, and the
    steps of others do not matter. -/
theorem Inv.left_step (h : Inv s m c) {l : Label n Req} (hstep : Step sv s l s') {i : Thread n}
    {k : Code n} (hk : s.code i = some k) :
    (l.isCall i = true ∧ s.left i = 0 ∧ s'.code i = none ∧
      ∀ lock b, s.server.call i = some (lock, b) → s'.flag lock = false) ∨
    (s'.code i ≠ none ∧ s'.server.call i = s.server.call i ∧
      s.left i = s'.left i + if l.isCall i = true then 1 else 0) := by
  -- another thread makes the step
  have hothers : ∀ {j : Thread n}, j ≠ i → s'.code i = s.code i →
      s'.server.call i = s.server.call i →
      k.footprint s'.server.cells = k.footprint s.server.cells →
      s'.code i ≠ none ∧ s'.server.call i = s.server.call i ∧
        s.left i = s'.left i + if Label.isCall i (.call j : Label n Req) = true then 1 else 0 := by
    intro j hj hcode hcall hfoot
    rw [hk] at hcode
    refine ⟨by rw [hcode]; simp, hcall, ?_⟩
    simp [State.left_of_some hk, State.left_of_some hcode, hfoot, Label.isCall, hj]
  have hne : ∀ {j : Thread n}, s.code j = none → j ≠ i := by
    rintro j hj rfl
    rw [hk] at hj
    cases hj
  -- only an access of the call itself makes fewer accesses left
  cases hstep with
  | spin hj => exact Or.inr (hothers (hne hj) rfl rfl rfl)
  | enter _ _ hj _ =>
    exact Or.inr (hothers (hne hj) (Function.update_of_ne (hne hj).symm _ _) rfl rfl)
  | @access j k₁ k₂ m₁ hk₁ haccess =>
    by_cases hj : j = i
    · subst hj
      rw [hk] at hk₁
      cases hk₁
      obtain ⟨x, hfoot, _⟩ := haccess.footprint_eq
      refine Or.inr ⟨by simp, rfl, ?_⟩
      rw [State.left_of_some hk, State.left_of_some (Function.update_self ..), hfoot]
      simp [Label.isCall]
    · refine Or.inr (hothers hj (Function.update_of_ne (Ne.symm hj) _ _) rfl ?_)
      rw [Serving.State.cells_withCells]
      exact Sections.Code.footprint_congr (h.pending.others hk₁ haccess (Ne.symm hj) hk)
  | @leave j lock b r _ hcall hcode =>
    by_cases hj : j = i
    · subst hj
      rw [hk] at hcode
      cases hcode
      refine Or.inl ⟨by simp [Label.isCall], ?_, Function.update_self .., ?_⟩
      · rw [State.left_of_some hk]
        rfl
      · intro lock' b' hcall'
        rw [hcall] at hcall'
        cases hcall'
        exact Function.update_self ..
    · refine Or.inr (hothers hj (Function.update_of_ne (Ne.symm hj) _ _) ?_ ?_)
      · exact Serving.State.call_goOn _ (Ne.symm hj)
      · rw [Serving.State.cells_goOn]
  | @other l t hcalling _ hother =>
    obtain ⟨_, _, _, _, hsame⟩ := h.other hcalling hother
    obtain ⟨hcall, hfoot⟩ := hsame i k hk
    have hk' : State.code { s with server := t } i = some k := hk
    refine Or.inr ⟨by rw [hk']; simp, hcall, ?_⟩
    rw [State.left_of_some hk, State.left_of_some hk', hfoot]
    rfl

/-- A thread that has just come into a call is at its beginning. -/
theorem entered {l : Label n Req} (hstep : Step sv s l s') {i : Thread n} {k : Code n}
    (hk : s.code i = none) (hk' : s'.code i = some k) : ∃ l, s.server.call i = some (l, k) := by
  -- the other steps leave `none` alone
  have hne : ∀ {j : Thread n} {o : Option (Code n)}, j ≠ i →
      Function.update s.code j o i ≠ some k := by
    intro j o hj ho
    rw [Function.update_of_ne (Ne.symm hj), hk] at ho
    cases ho
  cases hstep with
  | spin _ =>
    rw [hk] at hk'
    cases hk'
  | @enter j l body _ hcall _ _ =>
    by_cases hj : j = i
    · subst hj
      simp only [Function.update_self] at hk'
      cases hk'
      exact ⟨l, hcall⟩
    · exact absurd hk' (hne hj)
  | @access j _ _ _ hcode _ =>
    apply absurd hk' (hne _)
    rintro rfl
    rw [hk] at hcode
    cases hcode
  | @leave j _ _ _ _ _ hcode =>
    apply absurd hk' (hne _)
    rintro rfl
    rw [hk] at hcode
    cases hcode
  | other _ _ _ =>
    have hsame : s.code i = some k := hk'
    rw [hk] at hsame
    cases hsame

/-- A thread in a call has at most seven accesses left. -/
theorem left_le {t : Fin n → T} (h : Reachable sv t s) (i : Thread n) : s.left i ≤ 7 := by
  refine (h.invariant (fun s => (∃ m c, Inv s m c) ∧ s.left i ≤ 7) ?_ ?_).2
  · intro s hs
    refine ⟨⟨_, _, .init hs⟩, ?_⟩
    simp [State.left, hs.code i]
  · rintro s l s' ⟨⟨m, c, hinv⟩, hle⟩ hstep
    have hstep := step_cases hstep
    obtain ⟨m', c', hinv', _⟩ := hinv.refines hstep
    refine ⟨⟨m', c', hinv'⟩, ?_⟩
    cases hk' : s'.code i with
    | none => simp [State.left, hk']
    | some k' =>
      cases hk : s.code i with
      | some k =>
        rcases hinv.left_step hstep hk with ⟨_, _, hnone, _⟩ | ⟨_, _, hleft⟩
        · rw [hk'] at hnone
          cases hnone
        · omega
      | none =>
        obtain ⟨l, hcall⟩ := entered hstep hk hk'
        rw [State.left_of_some hk']
        exact length_footprint hcall _

/-- A thread that is in a call leaves it, and clears the flag, at the latest when it has made
    more steps than it has accesses left. -/
theorem Inv.released (h : Inv s m c) {i : Thread n} {k : Code n} (hk : s.code i = some k)
    {l : Lock n} {b : Code n} (hcall : s.server.call i = some (l, b)) {ls : List (Label n Req)}
    (hrun : run sv s ls = some s') (hcount : s.left i < ls.countP (Label.isCall i)) :
    ∃ ls₁ s₁, ls₁ <+: ls ∧ run sv s ls₁ = some s₁ ∧ s₁.code i = none ∧ s₁.flag l = false := by
  induction ls generalizing s m c k with
  | nil => simp at hcount
  | cons lab ls ih =>
    rw [run] at hrun
    split at hrun
    · cases hrun
    · next s₁ hs₁ =>
      have hstep := step_cases hs₁
      rcases h.left_step hstep hk with ⟨_, _, hnone, hflag⟩ | ⟨hsome, hcall', hleft⟩
      · refine ⟨[lab], s₁, ⟨ls, rfl⟩, ?_, hnone, hflag l b hcall⟩
        simp only [run, hs₁]
      · obtain ⟨k₁, hk₁⟩ := Option.ne_none_iff_exists'.mp hsome
        obtain ⟨m₁, c₁, hinv₁, _⟩ := h.refines hstep
        rw [List.countP_cons] at hcount
        obtain ⟨ls₂, s₂, hpre, hrun₂, hnone, hflag⟩ :=
          ih hinv₁ hk₁ (hcall'.trans hcall) hrun (by omega)
        obtain ⟨rest, rfl⟩ := hpre
        refine ⟨lab :: ls₂, s₂, ⟨rest, rfl⟩, ?_, hnone, hflag⟩
        simp only [run, hs₁, hrun₂]

/-- **No spinlock is held for ever.** A lock whose flag is set is had by a thread that can go on
    as long as no assertion has failed, and that has cleared the flag when it has made eight
    steps, whatever the other threads do in between. -/
theorem spinlock_released {t : Fin n → T} (h : Reachable sv t s) {l : Lock n}
    (hl : s.flag l = true) : ∃ i b, s.code i ≠ none ∧ s.server.call i = some (l, b) ∧
      (s.server.aborted = none → (step sv s (.call i)).isSome) ∧
      ∀ ls s', run sv s ls = some s' → 8 ≤ ls.countP (Label.isCall i) →
        ∃ ls₁ s₁, ls₁ <+: ls ∧ run sv s ls₁ = some s₁ ∧ s₁.flag l = false := by
  obtain ⟨m, c, hinv, _⟩ := inv_of_reachable h
  obtain ⟨i, b, hi, hcall⟩ := hinv.held l hl
  obtain ⟨k, hk⟩ := Option.ne_none_iff_exists'.mp hi
  refine ⟨i, b, hi, hcall, ?_, ?_⟩
  · intro halive
    simp [step, halive, hcall]
  · intro ls s' hrun hcount
    have hle := left_le h i
    obtain ⟨ls₁, s₁, hpre, hrun₁, _, hflag⟩ := hinv.released hk hcall hrun (by omega)
    exact ⟨ls₁, s₁, hpre, hrun₁, hflag⟩

/-- The poller has taken the lock of the receive buffers. -/
theorem spinlock_released_alloc : ∃ s : State _ _ _ _, s.flag (.pool .recv) = true ∧
    ∃ i b, s.code i ≠ none ∧ s.server.call i = some (.pool .recv, b) ∧
      (s.server.aborted = none → (step (Service.ofServer firstServer 1) s (.call i)).isSome) ∧
      ∀ ls s', run (Service.ofServer firstServer 1) s ls = some s' →
        8 ≤ ls.countP (Label.isCall i) → ∃ ls₁ s₁, ls₁ <+: ls ∧
          run (Service.ofServer firstServer 1) s ls₁ = some s₁ ∧ s₁.flag (.pool .recv) = false := by
  have r₀ : Reachable (Service.ofServer firstServer 1) blankTablets
      ⟨blank, fun _ => false, fun _ => none⟩ := .init ⟨init_blank, fun _ => rfl, fun _ => rfl⟩
  have r₁ := r₀.step (.call .poller) rfl
  have hflag : Function.update (fun _ => false) (.pool .recv) true
      (Lock.pool .recv : Lock Cluster.shipped.kNumTabletsPerServer) = true := Function.update_self ..
  exact ⟨_, hflag, spinlock_released r₁ hflag⟩

end Nvds.Serving.Spinlock
