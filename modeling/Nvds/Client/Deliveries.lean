import Nvds.Client.System

/-! # Which response is delivered next

    The responses that are posted are those of one map to the requests in
    the order of their arrival, each at most once. So if all requests of a
    client but the last one have been answered, what is delivered to it next
    is the response to the last one.
-/

open Nvds.Cluster Nvds.Serving

namespace Nvds.Client

/-! ### Counting -/

theorem count_map_prod {α β γ : Type} [BEq β] [LawfulBEq β] [DecidableEq γ] (f : α → β)
    (g : α → γ) (b : β) (a : γ) (l : List α) : (l.map fun x => (f x, g x)).count (b, a) =
      ((l.filter fun x => g x = a).map f).count b := by
  induction l with
  | nil => rfl
  | cons x l ih =>
    rw [List.map_cons, List.count_cons, ih, List.filter_cons]
    by_cases hg : g x = a
    · by_cases hf : f x = b <;> simp [hg, hf]
    · simp [hg]

theorem count_filter_cons {α β : Type} [BEq β] [LawfulBEq β] (f : α → β) (q : α → Prop)
    [DecidablePred q] (b : β) (x : α) (l : List α) :
    (((x :: l).filter fun y => q y).map f).count b =
      ((l.filter fun y => q y).map f).count b + if q x ∧ f x == b then 1 else 0 := by
  by_cases hq : q x
  · by_cases hb : f x = b <;> simp [hq, hb]
  · simp [hq]

/-- Elements that are in one of several disjoint parts of a list are in the list. -/
theorem sum_count_filter_le {α β ι : Type} [Fintype ι] [BEq β] [LawfulBEq β] (f : α → β)
    (part : ι → α → Prop) [∀ i, DecidablePred (part i)]
    (hdisjoint : ∀ i j x, part i x → part j x → i = j) (b : β) (l : List α) :
    ∑ i, ((l.filter fun x => part i x).map f).count b ≤ (l.map f).count b := by
  induction l with
  | nil => simp
  | cons x l ih =>
    -- `x` is in at most one of the parts
    have hone : ∑ i, (if part i x ∧ f x == b then 1 else 0) ≤ if f x == b then 1 else 0 := by
      by_cases hb : f x == b
      · rw [if_pos hb, ← Finset.card_filter]
        refine Finset.card_le_one.mpr fun i hi j hj => ?_
        exact hdisjoint i j x (Finset.mem_filter.mp hi).2.1 (Finset.mem_filter.mp hj).2.1
      · simp [hb]
    rw [Finset.sum_congr rfl fun i _ => count_filter_cons f (part i) b x l,
      Finset.sum_add_distrib, List.map_cons, List.count_cons]
    exact Nat.add_le_add ih hone

/-- Elements of a list are counted in its parts, if each of them is in one. -/
theorem count_le_sum_filter {α β ι : Type} [Fintype ι] [BEq β] [LawfulBEq β] (f : α → β)
    (part : ι → α → Prop) [∀ i, DecidablePred (part i)] (b : β) {l : List α}
    (hcover : ∀ x ∈ l, ∃ i, part i x) :
    (l.map f).count b ≤ ∑ i, ((l.filter fun x => part i x).map f).count b := by
  induction l with
  | nil => simp
  | cons x l ih =>
    obtain ⟨j, hj⟩ := hcover x List.mem_cons_self
    have hone : (if f x == b then 1 else 0) ≤ ∑ i, if part i x ∧ f x == b then 1 else 0 := by
      have hpart : (if f x == b then 1 else 0) = if part j x ∧ f x == b then 1 else 0 := by
        by_cases hb : f x = b <;> simp [hj, hb]
      rw [hpart]
      exact Finset.single_le_sum
        (f := fun i => if part i x ∧ f x == b then 1 else 0) (fun _ _ => Nat.zero_le _)
        (Finset.mem_univ j)
    rw [Finset.sum_congr rfl fun i _ => count_filter_cons f (part i) b x l,
      Finset.sum_add_distrib, List.map_cons, List.count_cons]
    exact Nat.add_le_add (ih fun y hy => hcover y (List.mem_cons_of_mem _ hy)) hone

/-! ### The responses to a client -/

/-- What the map answers to the requests that came from the address `a`. -/
def responsesTo (log : List (Request × Address)) (a : Address) : List Response :=
  (((Tablet.storeObject Address).history (fun _ => none) log).filter fun x => x.1.2 = a).map
    fun x => x.2

/-- What was delivered to this address. -/
def deliveredTo (ds : List (Response × Address)) (a : Address) : List Response :=
  (ds.filter fun m => m.2 = a).map fun m => m.1

theorem count_delivered (ds : List (Response × Address)) (resp : Response) (a : Address) :
    ds.count (resp, a) = (deliveredTo ds a).count resp := by
  have hcount := count_map_prod (fun m : Response × Address => m.1) (fun m => m.2) resp a ds
  rwa [List.map_id''] at hcount
  intro m
  rfl

theorem deliveredTo_append (ds : List (Response × Address)) (resp : Response) (a b : Address) :
    deliveredTo (ds ++ [(resp, b)]) a = deliveredTo ds a ++ if b = a then [resp] else [] := by
  unfold deliveredTo
  by_cases hb : b = a
  · simp [hb]
  · simp [hb]

/-- The map after the requests of `log`. -/
def mapAfter (log : List (Request × Address)) : Tablet.Store :=
  (Tablet.storeObject Address).after (fun _ => none) log

theorem mapAfter_append (log : List (Request × Address)) (e : Request × Address) :
    mapAfter (log ++ [e]) = ((mapAfter log).serve e.1).2 := by
  unfold mapAfter
  rw [Keyed.Object.after_append, Tablet.storeObject_step]

theorem responsesTo_append (log : List (Request × Address)) (r : Request) (a b : Address) :
    responsesTo (log ++ [(r, b)]) a =
      responsesTo log a ++ if b = a then [((mapAfter log).serve r).1] else [] := by
  unfold responsesTo mapAfter
  rw [Keyed.Object.history_append, Tablet.storeObject_step, List.filter_append, List.map_append]
  by_cases hb : b = a
  · simp [hb]
  · simp [hb]

variable {c : Config} {s : Deployment c} {server : Fin c.kNumServers → Server c}
  {hash : List UInt8 → Nat}

/-- Only responses of the map are posted. -/
theorem postedCount_le (h : s.OneStore hash server) (resp : Response) (a : Address) :
    postedCount s (resp, a) ≤ (responsesTo s.log a).count resp := by
  let history := (Tablet.storeObject Address).history (fun _ => none) s.log
  have hfirst : postedCount s (resp, a) ≤
      ∑ x : Fin c.kNumServers × Fin c.kNumTabletsPerServer, ((history.filter fun y =>
        keyIndex c (hash y.1.1.key) = x.1 * c.kNumTabletsPerServer + x.2).map
          fun y => (y.2, y.1.2)).count (resp, a) := by
    apply Finset.sum_le_sum
    intro x _
    exact (h.answers x.1 x.2).sublist.count_le _
  -- a key has one server and one worker
  refine hfirst.trans ((sum_count_filter_le _ _ ?_ _ _).trans ?_)
  · intro x x' y hx hx'
    obtain ⟨hi, hw⟩ := Arrays.row_inj x.2.isLt x'.2.isLt (hx.symm.trans hx')
    exact Prod.ext (Fin.ext hi) (Fin.ext hw)
  · rw [count_map_prod]
    exact le_rfl

/-- When the servers have answered everything, all responses of the map are posted. -/
theorem le_postedCount (h : s.OneStore hash server)
    (hall : ∀ i w, (s.servers i).posted w =
      Deployment.answersOf hash c (i * c.kNumTabletsPerServer + w) s.log)
    (resp : Response) (a : Address) :
    (responsesTo s.log a).count resp ≤ postedCount s (resp, a) := by
  rw [responsesTo, ← count_map_prod]
  refine (count_le_sum_filter _ (fun x : Fin c.kNumServers × Fin c.kNumTabletsPerServer => fun y =>
    keyIndex c (hash y.1.1.key) = x.1 * c.kNumTabletsPerServer + x.2) _ ?_).trans ?_
  · intro y hy
    have hlog : y.1 ∈ s.log := by
      have hfst := List.mem_map_of_mem (f := Prod.fst) hy
      rwa [Keyed.Object.map_fst_history] at hfst
    obtain ⟨i, w, hiw⟩ := h.routed _ hlog
    exact ⟨(i, w), hiw⟩
  · apply Finset.sum_le_sum
    intro x _
    rw [hall x.1 x.2]
    exact le_rfl

/-- **The next response** is that to the only request without one. -/
theorem next_response (h : s.OneStore hash server) {ds : List (Response × Address)}
    {resp own : Response} {a : Address}
    (hlt : ds.count (resp, a) < postedCount s (resp, a))
    (hresps : responsesTo s.log a = deliveredTo ds a ++ [own]) : resp = own := by
  have hle := postedCount_le h resp a
  rw [count_delivered] at hlt
  rw [hresps, List.count_append, List.count_singleton] at hle
  -- of any other response all that may be posted were delivered
  by_contra hne
  rw [if_neg (by simpa using Ne.symm hne)] at hle
  omega

/-- Without such a request nothing is delivered. -/
theorem no_response (h : s.OneStore hash server) {ds : List (Response × Address)}
    {resp : Response} {a : Address} (hresps : responsesTo s.log a = deliveredTo ds a) :
    ¬ ds.count (resp, a) < postedCount s (resp, a) := by
  have hle := postedCount_le h resp a
  rw [count_delivered]
  rw [hresps] at hle
  omega

/-! ### What the map answers -/

theorem bounded_after {log : List (Request × Address)}
    (hlog : ∀ e ∈ log, e.1.key.length + e.1.val.length ≤ kMaxItemSize) :
    Bounded (mapAfter log) := by
  induction log using List.reverseRecOn with
  | nil =>
    intro k v hv
    cases hv
  | append_singleton log e ih =>
    rw [mapAfter_append]
    have hbound := ih fun x hx => hlog x (List.mem_append_left _ hx)
    exact hbound.serve (hlog e (List.mem_append_right _ (List.mem_singleton_self e)))

theorem isAnswer_serve {M : Tablet.Store} (h : Bounded M) (r : Request) :
    IsAnswer (M.serve r).1 ∧ (M.serve r).1.type = r.type := by
  unfold Tablet.Store.serve
  cases r.type with
  | put => exact ⟨⟨fun hne => absurd rfl hne, Nat.zero_le _⟩, rfl⟩
  | add =>
    cases M r.key with
    | none => exact ⟨⟨fun hne => absurd rfl hne, Nat.zero_le _⟩, rfl⟩
    | some v => exact ⟨⟨fun hne => absurd rfl hne, Nat.zero_le _⟩, rfl⟩
  | get =>
    cases hv : M r.key with
    | none => exact ⟨⟨fun hne => absurd rfl hne, Nat.zero_le _⟩, rfl⟩
    | some v =>
      refine ⟨⟨fun _ => ⟨rfl, rfl⟩, ?_⟩, rfl⟩
      have hsize := h _ _ hv
      show v.length ≤ kMaxItemSize
      omega
  | del =>
    cases M r.key with
    | none => exact ⟨⟨fun hne => absurd rfl hne, Nat.zero_le _⟩, rfl⟩
    | some v => exact ⟨⟨fun hne => absurd rfl hne, Nat.zero_le _⟩, rfl⟩

/-- `r` is the request of the call `op`. -/
structure Carries (op : Op) (r : Request) : Prop where
  type : r.type = op.type
  key : r.key = op.key
  val : r.val = op.val.getD []
  hash : r.keyHash = Nvds.hash op.key

/-- The call determines the request. -/
theorem Carries.unique {op : Op} {r r' : Request} (h : Carries op r) (h' : Carries op r') :
    r = r' := by
  obtain ⟨type, key, val, keyHash, _, _, _⟩ := r
  obtain ⟨rfl, rfl, rfl, rfl⟩ := h
  obtain ⟨type', key', val', keyHash', _, _, _⟩ := r'
  obtain ⟨rfl, rfl, rfl, rfl⟩ := h'
  rfl

/-- A call returns what its operation means. -/
theorem Carries.act {op : Op} {r : Request} (h : Carries op r) (M : Tablet.Store) :
    op.act M = (answerOf op.type (M.serve r).1, (M.serve r).2) := by
  unfold Tablet.Store.serve
  rw [h.type, h.key, h.val]
  cases op with
  | get key => cases hv : M key <;> simp [Op.act, Op.type, Op.key, answerOf, hv]
  | put key val => rfl
  | add key val => cases hv : M key <;> simp [Op.act, Op.type, Op.key, Op.val, answerOf, hv]
  | del key =>
    cases hv : M key with
    | none =>
      -- there is nothing to delete
      have hsame : Function.update M key none = M := by
        rw [← hv]
        exact Function.update_eq_self _ _
      simp [Op.act, Op.type, Op.key, answerOf, hv, hsame]
    | some v => simp [Op.act, Op.type, Op.key, answerOf, hv]

end Nvds.Client
