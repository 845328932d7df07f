import Mathlib.Data.List.Infix

/-! # Linearizability

    Processes call the operations of an object. A call takes time, so that
    the calls of several processes overlap; each process has one call at a
    time. A history of such calls is linearizable if there is one order of
    the operations in which each of them returns what it returned in the
    history, and in which an operation that had returned before another one
    was called comes first.

    To show that the histories of a system are linearizable, it is enough to
    name for every call one step of the system, between the call and its
    return, at which its operation takes effect.
-/

namespace Linearizability

variable {P Op R S : Type}

/-- What is seen of a call of the process `p`. -/
inductive Event (P Op R : Type) where
  | call (p : P) (op : Op)
  | ret (p : P) (r : R)

def Event.proc : Event P Op R → P
  | .call p _ => p
  | .ret p _ => p

/-- An object without concurrency: its state at first, and what an operation returns and does. -/
structure Object (Op R S : Type) where
  init : S
  act : Op → S → R × S

namespace Object

variable (obj : Object Op R S)

/-- The state after the operations `ops`, one after another. -/
def after (ops : List (P × Op)) : S := ops.foldl (fun s x => (obj.act x.2 s).2) obj.init

/-- The operations `ops` from the state `s` on, each with what it returns. -/
def runFrom : S → List (P × Op) → List (P × Op × R)
  | _, [] => []
  | s, x :: ops => (x.1, x.2, (obj.act x.2 s).1) :: runFrom (obj.act x.2 s).2 ops

def run (ops : List (P × Op)) : List (P × Op × R) := obj.runFrom obj.init ops

theorem after_append (ops : List (P × Op)) (x : P × Op) :
    obj.after (ops ++ [x]) = (obj.act x.2 (obj.after ops)).2 := by
  rw [after, List.foldl_append]
  rfl

theorem runFrom_append (s : S) (ops : List (P × Op)) (x : P × Op) :
    obj.runFrom s (ops ++ [x]) = obj.runFrom s ops ++
      [(x.1, x.2, (obj.act x.2 (ops.foldl (fun s x => (obj.act x.2 s).2) s)).1)] := by
  induction ops generalizing s with
  | nil => rfl
  | cons y ops ih =>
    rw [List.cons_append, runFrom, ih]
    rfl

theorem run_append (ops : List (P × Op)) (x : P × Op) :
    obj.run (ops ++ [x]) = obj.run ops ++ [(x.1, x.2, (obj.act x.2 (obj.after ops)).1)] :=
  obj.runFrom_append obj.init ops x

end Object

/-- The events of calls of which each returns before the next one begins. -/
def events (calls : List (P × Op × R)) : List (Event P Op R) :=
  calls.flatMap fun x => [.call x.1 x.2.1, .ret x.1 x.2.2]

theorem events_append (calls : List (P × Op × R)) (p : P) (op : Op) (r : R) :
    events (calls ++ [(p, op, r)]) = events calls ++ [.call p op] ++ [.ret p r] := by
  simp [events]

/-- Where a process stands. -/
inductive Status (Op R : Type) where
  | idle
  /-- It has called `op`, which has no effect yet. -/
  | called (op : Op)
  /-- The operation took effect, and its call is going to return `r`. -/
  | taken (op : Op) (r : R)

variable [DecidableEq P]

def eventsOf (p : P) (H : List (Event P Op R)) : List (Event P Op R) :=
  H.filter fun e => e.proc = p

def callsOf (p : P) (calls : List (P × Op × R)) : List (P × Op × R) :=
  calls.filter fun x => x.1 = p

section

variable (obj : Object Op R S) (H : List (Event P Op R)) (ops : List (P × Op))

/-- The events of `p` in `H` are those of its operations in `ops`, as far as it is. -/
def Sees (p : P) : Status Op R → Prop
  | .idle => eventsOf p H = events (callsOf p (obj.run ops))
  | .called op => eventsOf p H = events (callsOf p (obj.run ops)) ++ [.call p op]
  | .taken op r => ∃ calls, callsOf p (obj.run ops) = calls ++ [(p, op, r)] ∧
      eventsOf p H = events calls ++ [.call p op]

/-- `ops` is an order in which the operations of `H` may have taken effect. -/
structure Linearizes : Prop where
  /-- The operations of each process are those it called, with what they returned. -/
  calls : ∀ p, ∃ st, Sees obj H ops p st
  /-- At every moment the operations whose calls had returned are among those that had taken
      effect, and of these all had been called. -/
  order : ∀ H₁, H₁ <+: H → ∃ ops₁, ops₁ <+: ops ∧ ∀ p, ∃ st, Sees obj H₁ ops₁ p st

def Linearizable : Prop := ∃ ops : List (P × Op), Linearizes obj H ops

end

/-! ### The steps of a process -/

variable {obj : Object Op R S} {H : List (Event P Op R)} {ops : List (P × Op)} {p q : P} {op : Op}
  {r : R}

theorem eventsOf_append (p : P) (H : List (Event P Op R)) (e : Event P Op R) :
    eventsOf p (H ++ [e]) = eventsOf p H ++ if e.proc = p then [e] else [] := by
  rw [eventsOf, List.filter_append, List.filter_singleton]
  split <;> simp_all [eventsOf]

theorem callsOf_append (p : P) (calls : List (P × Op × R)) (x : P × Op × R) :
    callsOf p (calls ++ [x]) = callsOf p calls ++ if x.1 = p then [x] else [] := by
  rw [callsOf, List.filter_append, List.filter_singleton]
  split <;> simp_all [callsOf]

/-- A process has one call at a time. -/
theorem Sees.called_inj {op' : Op} (h : Sees obj H ops p (.called op))
    (h' : Sees obj H ops p (.called op')) : op = op' := by
  have heq := List.append_cancel_left (h.symm.trans h')
  cases heq
  rfl

/-- A process does not see the events of others. -/
theorem sees_event_ne {e : Event P Op R} (hne : e.proc ≠ p) :
    Sees obj (H ++ [e]) ops p = Sees obj H ops p := by
  funext st
  have hevents : eventsOf p (H ++ [e]) = eventsOf p H := by
    rw [eventsOf_append, if_neg hne, List.append_nil]
  cases st with
  | idle | called | taken => simp only [Sees, hevents]

/-- Nor does it see that their operations take effect. -/
theorem sees_point_ne (hne : q ≠ p) : Sees obj H (ops ++ [(q, op)]) p = Sees obj H ops p := by
  funext st
  have hcalls : callsOf p (obj.run (ops ++ [(q, op)])) = callsOf p (obj.run ops) := by
    rw [Object.run_append, callsOf_append, if_neg hne, List.append_nil]
  cases st with
  | idle | called | taken => simp only [Sees, hcalls]

theorem Sees.call (h : Sees obj H ops p .idle) (op : Op) :
    Sees obj (H ++ [.call p op]) ops p (.called op) := by
  have hevents : eventsOf p H = events (callsOf p (obj.run ops)) := h
  show eventsOf p (H ++ [.call p op]) = _ ++ [.call p op]
  rw [eventsOf_append, hevents]
  exact congrArg _ (if_pos rfl)

/-- The operation takes effect. -/
theorem Sees.point (h : Sees obj H ops p (.called op)) :
    Sees obj H (ops ++ [(p, op)]) p (.taken op (obj.act op (obj.after ops)).1) := by
  refine ⟨_, ?_, h⟩
  rw [Object.run_append, callsOf_append, if_pos rfl]

theorem Sees.ret (h : Sees obj H ops p (.taken op r)) : Sees obj (H ++ [.ret p r]) ops p .idle := by
  obtain ⟨calls, hcalls, hevents⟩ := h
  show eventsOf p (H ++ [.ret p r]) = events (callsOf p (obj.run ops))
  rw [eventsOf_append, hcalls, hevents, events_append]
  exact congrArg _ (if_pos rfl)

/-! ### The rule -/

theorem linearizes_nil : Linearizes (P := P) obj [] [] := by
  have hidle : ∀ p : P, ∃ st, Sees obj [] [] p st := fun _ => ⟨.idle, rfl⟩
  refine ⟨hidle, ?_⟩
  intro H₁ hle
  rw [List.prefix_nil.mp hle]
  exact ⟨[], List.prefix_rfl, hidle⟩

namespace Linearizes

/-- One more event of the process `p`. -/
theorem event (h : Linearizes obj H ops) {e : Event P Op R}
    (hp : ∃ st, Sees obj (H ++ [e]) ops e.proc st) : Linearizes obj (H ++ [e]) ops := by
  have hcalls : ∀ q, ∃ st, Sees obj (H ++ [e]) ops q st := by
    intro q
    by_cases hq : e.proc = q
    · rw [← hq]
      exact hp
    · rw [sees_event_ne hq]
      exact h.calls q
  refine ⟨hcalls, ?_⟩
  intro H₁ hle
  -- before the event nothing has changed
  rcases List.prefix_concat_iff.mp hle with rfl | hle
  · exact ⟨ops, List.prefix_rfl, hcalls⟩
  · exact h.order H₁ hle

theorem call (h : Linearizes obj H ops) (hp : Sees obj H ops p .idle) (op : Op) :
    Linearizes obj (H ++ [.call p op]) ops :=
  h.event ⟨_, hp.call op⟩

theorem ret (h : Linearizes obj H ops) (hp : Sees obj H ops p (.taken op r)) :
    Linearizes obj (H ++ [.ret p r]) ops :=
  h.event ⟨_, hp.ret⟩

/-- **Linearization points.** An operation may take effect at any time between its call and
    its return. -/
theorem point (h : Linearizes obj H ops) (hp : Sees obj H ops p (.called op)) :
    Linearizes obj H (ops ++ [(p, op)]) := by
  constructor
  · intro q
    by_cases hq : p = q
    · subst hq
      exact ⟨_, hp.point⟩
    · rw [sees_point_ne hq]
      exact h.calls q
  · intro H₁ hle
    -- at earlier moments the operation need not have taken effect
    obtain ⟨ops₁, hops, hsees⟩ := h.order H₁ hle
    exact ⟨ops₁, hops.trans (List.prefix_append _ _), hsees⟩

end Linearizes

end Linearizability
