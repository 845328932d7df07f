import Nvds.Tablet.Refinement

/-! # Single operations on a well-formed tablet

    What one `PUT`, `ADD` or `DEL` does to the bindings and to the chains of
    a well-formed tablet. Lookups are runs of `Get`. The loops of the source
    have no bound: where an operation returns, it returns with every fuel
    from some amount on.
-/

open ByteMemory Program LinkedList Nvds.Allocator

namespace Nvds.Tablet

variable {hash : List UInt8 → Nat} {B B' : Blocks} {σ : Shape} {ch ch' : Nat → List Entry}
  {M M' : Store} {s s' : Nvm} {r r' : Request} {e : Entry}

/-! ### Lookups -/

/-- The key is bound in some bucket. -/
def Binds (ch : Nat → List Entry) (k : List UInt8) : Prop :=
  ∃ i e, i < kHashTableSize ∧ e ∈ ch i ∧ e.key = k

/-- Every `GET` of the key `k` is answered by `res`, and changes nothing. -/
def Answers (hash : List UInt8 → Nat) (s : Nvm) (k : List UInt8) (res : Status × List UInt8) :
    Prop :=
  ∃ n, ∀ fuel, n ≤ fuel → ∀ g : Request, g.type = .get → g.key = k → g.keyHash = hash k →
    get fuel g s = .ok (res, s)

/-- The map that the chains represent. -/
def storeOf (hash : List UInt8 → Nat) (ch : Nat → List Entry) : Store := fun k =>
  ((ch (hash k % kHashTableSize)).find? fun e => decide (e.key = k)).map (·.val)

theorem Chains.represents (h : Chains hash s.mem B ch) : Represents hash ch (storeOf hash ch) := by
  intro k v
  have hb := h.buckets (hash k % kHashTableSize) (Nat.mod_lt _ (by decide))
  unfold storeOf
  constructor
  · intro hv
    obtain ⟨e, he, rfl⟩ := Option.map_eq_some_iff.mp hv
    have hk := List.find?_some he
    exact ⟨e, List.mem_of_find?_eq_some he, by simpa using hk, rfl⟩
  · rintro ⟨e, he, hk, rfl⟩
    obtain ⟨pre, post, hes⟩ := List.append_of_mem he
    rw [hes] at hb ⊢
    -- no object in front has the key
    have hpre : pre.find? (fun e => decide (e.key = k)) = none := by
      rw [List.find?_eq_none]
      intro x hx hxk
      apply hb.key_ne x (List.mem_append_left _ hx)
      rw [hk]
      simpa using hxk
    rw [List.find?_append, hpre, List.find?_cons_of_pos (by simpa using hk)]
    rfl

theorem Chains.answers (h : Chains hash s.mem B ch) (hM : Represents hash ch M) (k : List UInt8) :
    Answers hash s k (match M k with | some v => (.ok, v) | none => (.error, [])) := by
  refine ⟨(ch (hash k % kHashTableSize)).length + 1, ?_⟩
  intro fuel hfuel g ht hk hh
  subst hk
  apply get_run h hM ht hh
  rw [← bucketOf_eq hh]
  exact hfuel

/-- A key that both maps bind alike is looked up alike. -/
theorem same_answers (h : Chains hash s.mem B ch) (hM : Represents hash ch M)
    (h' : Chains hash s'.mem B' ch') (hM' : Represents hash ch' M') {k : List UInt8}
    (hk : M' k = M k) : ∃ res, Answers hash s k res ∧ Answers hash s' k res := by
  refine ⟨_, h.answers hM k, ?_⟩
  rw [← hk]
  exact h'.answers hM' k

/-! ### More fuel changes no result -/

theorem search_mono {fuel q p : Nat} {x : Nat × Nat} (n : Nat)
    (h : search r fuel q p s = .ok (x, s')) : search r (fuel + n) q p s = .ok (x, s') := by
  induction fuel generalizing q p s with
  | zero => cases h
  | succ fuel ih =>
    rw [Nat.succ_add, search]
    rw [search] at h
    by_cases hp : p = 0
    · rw [if_pos hp] at h ⊢
      exact h
    · rw [if_neg hp] at h ⊢
      obtain ⟨found, s₁, hsame, h⟩ := bind_eq_ok.mp h
      rw [bind_of_ok hsame]
      cases found with
      | true => exact h
      | false =>
        obtain ⟨next, s₂, hread, h⟩ := bind_eq_ok.mp h
        show (read32 true p >>= _) s₁ = _
        rw [bind_of_ok hread]
        exact ih h

theorem put_mono {fuel : Nat} {status : Status} (n : Nat)
    (h : put fuel r s = .ok (status, s')) : put (fuel + n) r s = .ok (status, s') := by
  unfold put at h ⊢
  obtain ⟨_, s₁, hassert, h⟩ := bind_eq_ok.mp h
  obtain ⟨head, s₂, hread, h⟩ := bind_eq_ok.mp h
  obtain ⟨qp, s₃, hsearch, h⟩ := bind_eq_ok.mp h
  rw [bind_of_ok hassert, bind_of_ok hread, bind_of_ok (search_mono n hsearch)]
  exact h

theorem get_mono {fuel : Nat} {y : Status × List UInt8} (n : Nat)
    (h : get fuel r s = .ok (y, s')) : get (fuel + n) r s = .ok (y, s') := by
  unfold get at h ⊢
  obtain ⟨_, s₁, hassert, h⟩ := bind_eq_ok.mp h
  obtain ⟨head, s₂, hread, h⟩ := bind_eq_ok.mp h
  obtain ⟨qp, s₃, hsearch, h⟩ := bind_eq_ok.mp h
  rw [bind_of_ok hassert, bind_of_ok hread, bind_of_ok (search_mono n hsearch)]
  exact h

/-- A walk that returns. -/
theorem Chains.search_result (h : Chains hash s.mem B ch) {fuel : Nat} {y : Nat × Nat}
    (hrun : search r fuel (slotOf (bucketOf r)) (word s.mem (slotOf (bucketOf r))) s =
      .ok (y, s')) :
    s' = s ∧ ((∃ pre e post, ch (bucketOf r) = pre ++ e :: post ∧ e.key = r.key ∧
        y = (linkOf (slotOf (bucketOf r)) pre, e.ptr)) ∨
      ((∀ x ∈ ch (bucketOf r), x.key ≠ r.key) ∧ y.2 = 0)) := by
  have hmore := search_mono ((ch (bucketOf r)).length + 1) hrun
  have hfuel : (ch (bucketOf r)).length < fuel + ((ch (bucketOf r)).length + 1) := by omega
  rcases h.search_run r hfuel with
    ⟨pre, e, post, hes, hkey, hok⟩ | ⟨hno, hok⟩
  · rw [hok] at hmore
    cases hmore
    exact ⟨rfl, Or.inl ⟨pre, e, post, hes, hkey, rfl⟩⟩
  · rw [hok] at hmore
    cases hmore
    exact ⟨rfl, Or.inr ⟨hno, rfl⟩⟩

/-! ### `Put` -/

/-- What a `PUT` does: it returns `OK`, binds its key and no other, and keeps the order of
    every chain. -/
structure PutEffect (hash : List UInt8 → Nat) (s : Nvm) (ch : Nat → List Entry) (r : Request)
    (status : Status) (s' : Nvm) : Prop where
  status : status = .ok
  bound : Answers hash s' r.key (.ok, r.val)
  others : ∀ k, k ≠ r.key → ∃ res, Answers hash s k res ∧ Answers hash s' k res
  order : ∃ B' ch', Chains hash s'.mem B' ch' ∧ Rebound ch r ch'

theorem Bound.effect {clean : Prop} {σ' : Shape} (h : Bound hash s σ ch r clean s' σ' ch')
    (hc : Chains hash s.mem B ch) (hh : r.keyHash = hash r.key) :
    PutEffect hash s ch r .ok s' := by
  have hM := hc.represents
  have hM' := h.rebound.represents hc hM hh
  refine ⟨rfl, ?_, ?_, _, ch', h.chains, h.rebound⟩
  · have hans := h.chains.answers hM' r.key
    rw [Function.update_self] at hans
    exact hans
  · intro k hk
    exact same_answers hc hM h.chains hM' (Function.update_of_ne hk _ _)

/-- **`Put` updates one binding.** On a well-formed tablet every `PUT` of an item that is not
    too large returns or fails an assertion, and if it returns, it has bound its key and
    nothing else. -/
theorem put_updates (h : WellFormed hash s.mem σ ch) (ht : r.type = .put)
    (hh : r.keyHash = hash r.key) (hsize : r.key.length + r.val.length ≤ kMaxItemSize) :
    (∀ fuel status s', put fuel r s = .ok (status, s') → PutEffect hash s ch r status s') ∧
    ∃ n, ∀ fuel, n ≤ fuel → put fuel r s = .error .assertion ∨
      ∃ status s', put fuel r s = .ok (status, s') := by
  have hcases := fun fuel (hfuel : (ch (bucketOf r)).length < fuel) =>
    put_cases h ht hh hsize hfuel
  constructor
  · intro fuel status s' hrun
    -- with more fuel the run is the same, and the loop reaches the end of the chain
    have hmore := put_mono ((ch (bucketOf r)).length + 1) hrun
    rcases hcases _ (show _ < fuel + ((ch (bucketOf r)).length + 1) by omega) with
      herr | ⟨s₁, σ', ch', hok, hbound⟩
    · rw [herr] at hmore
      cases hmore
    · rw [hok] at hmore
      cases hmore
      exact hbound.effect h.chains hh
  · refine ⟨(ch (bucketOf r)).length + 1, ?_⟩
    intro fuel hfuel
    rcases hcases fuel hfuel with herr | ⟨s₁, _, _, hok, _⟩
    · exact Or.inl herr
    · exact Or.inr ⟨_, s₁, hok⟩

theorem pair_length_lt : ([2, 3] : List UInt8).length < 65536 := by decide

/-- A request for the key `[1]` and the value `[2, 3]`. -/
def item (t : RequestType) : Request := request t 1 [2, 3] pair_length_lt

/-- A request for the key `[1, k]`, which is in the bucket of `[1]`. -/
def neighbour (t : RequestType) (k : UInt8) (v : List UInt8) (hv : v.length < 65536) : Request :=
  ⟨t, [1, k], v, 1, by simp, hv, by decide⟩

theorem nine_length_lt : ([9] : List UInt8).length < 65536 := by decide

/-- Two keys of one bucket. -/
def twoPuts : List Request := [item .put, neighbour .put 0 [9] nine_length_lt]

/-- A tablet that has both of them. -/
theorem exists_twoPuts : ∃ s σ ch, (serveAll 3 twoPuts (formatted true)).toOption.map (·.2) = some s ∧
    TabletInv firstByte s.mem σ ch ∧
    Represents firstByte ch (Store.after (fun _ => none) twoPuts) := by
  have hplain : ∀ r ∈ twoPuts, Plain firstByte r := by
    unfold twoPuts
    simp only [List.forall_mem_cons]
    refine ⟨?_, ?_, fun _ h => absurd h List.not_mem_nil⟩ <;>
      exact ⟨by decide, by decide, by decide⟩
  let slot := slotOf (bucketOf (item .put))
  have hclean : CleanRun 3 (formatted true) twoPuts := by
    refine cleanRun_cons (P := fun s => word s.mem (word s.mem slot) = 0 ∧
      loadNat s.mem (word s.mem slot + offsetofKeyLen) 2 ≠ 2)
      (cleanReplace_of_empty (by decide +kernel)) (by decide +kernel) ?_
    rintro s ⟨hend, hlen⟩
    exact ⟨cleanReplace_of_other hend hlen, fun _ _ _ => trivial⟩
  have hpass : (serveAll 3 twoPuts (formatted true)).isOk = true := by
    decide +kernel
  obtain ⟨hinv, hrep⟩ := tabletInv_fresh firstByte freshTablet_formatted
  rcases serveAll_run (n := 0) hinv hrep (fun _ => le_rfl) hplain (by decide) hclean with
    herr | ⟨s, σ, ch, hok, hinv', hrep'⟩
  · rw [herr] at hpass
    cases hpass
  · exact ⟨s, σ, ch, by rw [hok]; rfl, hinv', hrep'⟩

/-- A `GET` gives one answer. -/
theorem Answers.unique {k : List UInt8} {res res' : Status × List UInt8}
    (h : Answers hash s k res) (h' : Answers hash s k res') {g : Request} (ht : g.type = .get)
    (hk : g.key = k) (hh : g.keyHash = hash k) : res = res' := by
  obtain ⟨n, hn⟩ := h
  obtain ⟨n', hn'⟩ := h'
  have hrun := hn (n + n') (by omega) g ht hk hh
  rw [hn' (n + n') (by omega) g ht hk hh] at hrun
  cases hrun
  rfl

/-- The value of one key becomes longer; the other key is behind it in the same bucket. -/
theorem put_updates_longer : ∃ s s',
    put 3 (request .put 1 (List.replicate 20 7) (by decide)) s = .ok (.ok, s') ∧
    Answers firstByte s [1] (.ok, [2, 3]) ∧ Answers firstByte s [1, 0] (.ok, [9]) ∧
    Answers firstByte s' [1] (.ok, List.replicate 20 7) ∧
    Answers firstByte s' [1, 0] (.ok, [9]) := by
  obtain ⟨s, σ, ch, hs, hinv, hrep⟩ := exists_twoPuts
  have hpass : (serveAll 3 twoPuts (formatted true)).toOption.all (fun x =>
      (put 3 (request .put 1 (List.replicate 20 7) (by decide)) x.2).isOk) = true := by
    decide +kernel
  obtain ⟨x, hx, rfl⟩ := Option.map_eq_some_iff.mp hs
  rw [hx] at hpass
  cases hrun : put 3 (request .put 1 (List.replicate 20 7) (by decide)) x.2 with
  | error e =>
    rw [Option.all_some, hrun] at hpass
    cases hpass
  | ok p =>
    obtain ⟨status, s'⟩ := p
    -- the key is bound to a longer value, and another key of the bucket keeps its own
    have heffect := (put_updates hinv.wellFormed rfl (by decide) (by decide)).1 3 status s' hrun
    obtain rfl := heffect.status
    have hone := hinv.wellFormed.chains.answers hrep [1]
    have hother := hinv.wellFormed.chains.answers hrep [1, 0]
    obtain ⟨res, hbefore, hafter⟩ := heffect.others [1, 0] (by decide)
    have hres := hbefore.unique hother (g := neighbour .get 0 [] nil_length_lt) rfl rfl rfl
    rw [hres] at hafter
    exact ⟨x.2, s', hrun, hone, hother, heffect.bound, hafter⟩

/-! ### `Add` -/

theorem sameKey_congr (hkey : r'.key = r.key) : sameKey r' = sameKey r := by
  funext p
  unfold sameKey
  rw [hkey]

theorem search_congr (hkey : r'.key = r.key) (fuel q p : Nat) :
    search r' fuel q p = search r fuel q p := by
  induction fuel generalizing q p with
  | zero => rfl
  | succ fuel ih => simp only [search, sameKey_congr hkey, ih]

theorem insertHead_congr (hkey : r'.key = r.key) (hval : r'.val = r.val)
    (hhash : r'.keyHash = r.keyHash) (slot head : Nat) :
    insertHead r' slot head = insertHead r slot head := by
  unfold insertHead newObject objectBytes
  rw [hkey, hval, hhash]

/-- The key of a request is bound exactly if its bucket has it. -/
theorem WellFormed.binds_iff (h : WellFormed hash s.mem σ ch) (hh : r.keyHash = hash r.key) :
    Binds ch r.key ↔ ∃ e ∈ ch (bucketOf r), e.key = r.key := by
  constructor
  · rintro ⟨i, e, hi, he, hk⟩
    have hbucket := (h.buckets i hi).bucket e he
    rw [hk, bucketOf_eq hh] at hbucket
    exact ⟨e, hbucket ▸ he, hk⟩
  · rintro ⟨e, he, hk⟩
    exact ⟨_, e, bucketOf_lt r, he, hk⟩

/-- **`Add` and `Put`.** `Add` of a bound key returns `ERROR`, changes no byte and records
    nothing; of a new key it does exactly what `Put` does. -/
theorem add_agrees_with_put (h : WellFormed hash s.mem σ ch) (hadd : r.type = .add)
    (hput : r'.type = .put) (hkey : r'.key = r.key) (hval : r'.val = r.val)
    (hhash : r'.keyHash = r.keyHash) (hh : r.keyHash = hash r.key) :
    ∃ n, ∀ fuel, n ≤ fuel →
      (Binds ch r.key → add fuel r s = .ok (.error, s)) ∧
      (¬ Binds ch r.key → add fuel r s = put fuel r' s) := by
  refine ⟨(ch (bucketOf r)).length + 1, ?_⟩
  intro fuel hfuel
  have hc := h.chains
  have hbucket : bucketOf r' = bucketOf r := by
    unfold bucketOf
    rw [hhash]
  rw [h.binds_iff hh]
  unfold add put
  rw [assert_of hadd, assert_of hput, bind_of_ok (pure_run _ _), bind_of_ok (pure_run _ _), hbucket]
  simp only
  rw [bind_of_ok (read_slot r), bind_of_ok (read_slot r), search_congr hkey]
  -- the search is the same run, and only `Put` goes on when it finds the key
  rcases hc.search_run r hfuel with ⟨pre, e, post, hes, hk, hrun⟩ | ⟨hno, hrun⟩
  · have he := mem_of_split hes
    have h0 := (((hc.buckets _ (bucketOf_lt r)).fits e he).inside hc.wf).1
    refine ⟨?_, fun hno => absurd ⟨e, he, hk⟩ hno⟩
    intro _
    rw [bind_of_ok hrun]
    simp only
    rw [if_pos h0, pure_run]
  · refine ⟨fun ⟨e, he, hk⟩ => absurd hk (hno e he), ?_⟩
    intro _
    rw [bind_of_ok hrun, bind_of_ok hrun]
    simp only
    rw [if_neg (by simp), if_neg (by simp), insertHead_congr hkey hval hhash]

/-- A key that is bound, and one that is not, both in a bucket with two objects. -/
theorem add_agrees_with_put_two : ∃ s n,
    (serveAll 3 twoPuts (formatted true)).toOption.map (·.2) = some s ∧ ∀ fuel, n ≤ fuel →
      add fuel (item .add) s = .ok (.error, s) ∧
      add fuel (neighbour .add 1 [9] nine_length_lt) s =
        put fuel (neighbour .put 1 [9] nine_length_lt) s := by
  obtain ⟨s, σ, ch, hs, hinv, hrep⟩ := exists_twoPuts
  have hwf := hinv.wellFormed
  obtain ⟨n, hn⟩ := add_agrees_with_put hwf (show (item .add).type = .add from rfl)
    (show (item .put).type = .put from rfl) rfl rfl rfl (by decide)
  obtain ⟨n', hn'⟩ := add_agrees_with_put hwf
    (show (neighbour .add 1 [9] nine_length_lt).type = .add from rfl)
    (show (neighbour .put 1 [9] nine_length_lt).type = .put from rfl) rfl rfl rfl (by decide)
  refine ⟨s, n + n', hs, fun fuel hfuel => ⟨(hn fuel (by omega)).1 ?_, (hn' fuel (by omega)).2 ?_⟩⟩
  · obtain ⟨e, he, hkey, _⟩ := (hrep [1] [2, 3]).mp (by decide)
    exact ⟨_, e, Nat.mod_lt _ (by decide), he, hkey⟩
  · rw [hwf.binds_iff (by decide)]
    rintro ⟨e, he, hkey⟩
    have hnone : Store.after (fun _ => none) twoPuts [1, 1] = none := by decide
    rw [(hrep [1, 1] e.val).mpr ⟨e, he, hkey, rfl⟩] at hnone
    cases hnone

/-! ### `Del` -/

/-- What a `DEL` should do. A bound key: the operation returns `OK`, the node of the key is
    taken out of its chain, its block is freed and no other binding changes. A key that is
    not bound: it returns `ERROR` and nothing changes. -/
structure DelSpec (hash : List UInt8 → Nat) (s : Nvm) (σ : Shape) (ch : Nat → List Entry)
    (r : Request) : Prop where
  bound : ∀ pre e post, ch (bucketOf r) = pre ++ e :: post → e.key = r.key →
    ∃ s' σ', (∃ n, ∀ fuel, n ≤ fuel → del fuel r s = .ok (.ok, s')) ∧
      Chains hash s'.mem (blocks σ') (Function.update ch (bucketOf r) (pre ++ post)) ∧
      HeapCore s'.mem σ' ∧ (∀ x, σ'.Live x ↔ σ.Live x ∧ x ≠ e.ptr - 4) ∧
      ∀ k, k ≠ r.key → ∃ res, Answers hash s k res ∧ Answers hash s' k res
  absent : ¬ Binds ch r.key → ∃ n, ∀ fuel, n ≤ fuel → del fuel r s = .ok (.error, s)

/-- The loop of `Del` does not leave an object with another key. -/
theorem delLoop_stuck {q : Nat} (h0 : e.ptr ≠ 0) (hobj : ObjectAt s.mem e) (hin : e.Inside)
    (hkey : e.key ≠ r.key) (fuel : Nat) :
    delLoop r q e.ptr fuel s = .error .nonTermination := by
  induction fuel with
  | zero => rfl
  | succ fuel ih =>
    rw [delLoop, if_neg h0, bind_of_ok (sameKey_run hobj hin), decide_eq_false hkey]
    exact ih

theorem del_start (ht : r.type = .del) (fuel : Nat) : del fuel r s =
    delLoop r (slotOf (bucketOf r)) (word s.mem (slotOf (bucketOf r))) fuel s := by
  unfold del
  rw [assert_of ht, bind_of_ok (pure_run _ _), bind_of_ok (read_slot r)]

theorem del_empty (h : Chains hash s.mem B ch) (ht : r.type = .del)
    (hnil : ch (bucketOf r) = []) : ∀ fuel, 1 ≤ fuel → del fuel r s = .ok (.error, s) := by
  intro fuel hfuel
  obtain ⟨n, rfl⟩ := Nat.exists_eq_succ_of_ne_zero (by omega : fuel ≠ 0)
  have hslot : word s.mem (slotOf (bucketOf r)) = 0 := by
    have hchain := (h.buckets _ (bucketOf_lt r)).chain
    rw [hnil] at hchain
    exact hchain
  rw [del_start ht, hslot, delLoop, if_pos rfl, pure_run]

/-- The other bindings after the binding of a key was dropped. -/
theorem Represents.unbind (hc : Chains hash s.mem B ch) (hM : Represents hash ch M)
    (hh : r.keyHash = hash r.key) {pre post : List Entry}
    (hes : ch (bucketOf r) = pre ++ e :: post) (hkey : e.key = r.key) :
    Represents hash (Function.update ch (bucketOf r) (pre ++ post))
      (Function.update M r.key none) := by
  have hb := hc.buckets _ (bucketOf_lt r)
  rw [hes] at hb
  have hne := hb.key_ne
  rw [hkey] at hne
  intro k v
  -- no other object of the bucket has the key, and other keys keep their objects
  by_cases hk : k = r.key
  · subst hk
    rw [Function.update_self, bucketOf_eq hh, Function.update_self]
    refine iff_of_false (fun hc => by cases hc) ?_
    rintro ⟨x, hx, hxk, _⟩
    exact hne x hx hxk
  · rw [Function.update_of_ne hk, hM k v]
    by_cases hj : hash k % kHashTableSize = bucketOf r
    · rw [hj, Function.update_self, hes]
      constructor
      · rintro ⟨x, hx, hxk, hxv⟩
        refine ⟨x, ?_, hxk, hxv⟩
        rcases List.mem_append.mp hx with hx | hx
        · exact List.mem_append_left _ hx
        · rcases List.mem_cons.mp hx with rfl | hx
          · exact absurd (hxk.symm.trans hkey) hk
          · exact List.mem_append_right _ hx
      · rintro ⟨x, hx, hxk, hxv⟩
        refine ⟨x, ?_, hxk, hxv⟩
        exact (List.Sublist.append_left (List.sublist_cons_self e post) pre).subset hx
    · rw [Function.update_of_ne hj]

/-- `Del` of the first key of a bucket leads the slot past the object and frees it. -/
theorem del_unlinks (h : Chains hash s.mem B ch) (ht : r.type = .del) {es : List Entry}
    (hes : ch (bucketOf r) = e :: es) (hkey : e.key = r.key) {fuel : Nat} (hfuel : 1 ≤ fuel) :
    del fuel r s = (free true e.ptr >>= fun _ => pure .ok)
      (s.wr (slotOf (bucketOf r)) (word s.mem e.ptr)) := by
  obtain ⟨n, rfl⟩ := Nat.exists_eq_succ_of_ne_zero (by omega : fuel ≠ 0)
  have hb := h.buckets _ (bucketOf_lt r)
  have he : e ∈ ch (bucketOf r) := by
    rw [hes]
    exact List.mem_cons_self
  have hin := (hb.fits e he).inside h.wf
  have hhi := hin.2
  rw [kSize_eq] at hhi
  have hlen := e.len_ge
  obtain ⟨hslo, hsB, _⟩ := slotOf_bounds (bucketOf_lt r)
  have hslot : word s.mem (slotOf (bucketOf r)) = e.ptr := by
    have hchain := hb.chain
    rw [hes] at hchain
    exact hchain.1
  rw [del_start ht, hslot, delLoop, if_neg hin.1, bind_of_ok (sameKey_run (hb.object e he) hin),
    decide_eq_true hkey, if_pos rfl, bind_of_ok (read32_ok (by simp; omega) fun _ => hin.1),
    bind_of_ok (write32_ok hsB (by omega))]

/-- `Del` of the first key of a bucket: it fails an assertion if a neighbour of the block is
    in the way. -/
theorem del_head (h : WellFormed hash s.mem σ ch) (ht : r.type = .del) {es : List Entry}
    (hes : ch (bucketOf r) = e :: es) (hkey : e.key = r.key) :
    (Blocked true s.mem σ (e.ptr - 4) ∧ ∀ fuel, 1 ≤ fuel → del fuel r s = .error .assertion) ∨
    ¬ Blocked true s.mem σ (e.ptr - 4) ∧ ∃ s' σ', (∀ fuel, 1 ≤ fuel → del fuel r s = .ok (.ok, s')) ∧
      Chains hash s'.mem (blocks σ') (Function.update ch (bucketOf r) es) ∧
      HeapCore s'.mem σ' ∧ ∀ x, σ'.Live x ↔ σ.Live x ∧ x ≠ e.ptr - 4 := by
  have hi := bucketOf_lt r
  have hσ := h.heap.wf
  have hc := h.chains
  have hb := hc.buckets _ hi
  have he : e ∈ ch (bucketOf r) := by
    rw [hes]
    exact List.mem_cons_self
  have hfit := hb.fits e he
  have hpl := (placed_iff hσ).mpr hfit
  have he4 := hpl.ptr
  have hlen := e.len_ge
  have hfits := hpl.fits
  have hin := hfit.inside hc.wf
  have hes' : ch (bucketOf r) = [] ++ e :: es := hes
  obtain ⟨hslo, hsB, _⟩ := slotOf_bounds hi
  -- the slot is led past the object
  obtain ⟨s₁, hs₁⟩ : ∃ s₁, s₁ = s.wr (slotOf (bucketOf r)) (word s.mem e.ptr) := ⟨_, rfl⟩
  have hheap₁ : HeapInv s₁.mem σ := by
    rw [hs₁]
    exact heapInv_link [] h.heap hi fun x hx => absurd hx List.not_mem_nil
  have hc₁ : Chains hash s₁.mem (blocks σ) (Function.update ch (bucketOf r) es) := by
    rw [hs₁]
    exact hc.unlink hi hes'
  -- the block of the object is on no chain now
  have hrest : ∀ j, j < kHashTableSize → ∀ x ∈ Function.update ch (bucketOf r) es j,
      x.ptr ≠ e.ptr := by
    intro j hj x hx
    rcases mem_update hx with ⟨hji, hx'⟩ | ⟨hji, hx'⟩
    · refine hc.ptr_ne hi hj hes' ?_ fun _ => hx'
      rw [hji, hes]
      exact List.mem_cons_of_mem _ hx'
    · exact hc.ptr_ne hi hj hes' hx' fun hcon => absurd hcon hji
  have hdel := fun fuel (hfuel : 1 ≤ fuel) => del_unlinks hc ht hes hkey hfuel
  rw [← hs₁] at hdel
  -- the slot is no part of the heap
  have hag : ∀ a, a + 4 ≤ kHeapEnd → word s₁.mem a = word s.mem a := by
    intro a ha
    rw [kHeapEnd_eq] at ha
    rw [hs₁]
    refine word_congr fun b _ hb => store_of_not_mem ?_
    rw [length_leBytes]
    omega
  have hfree := free_run true hheap₁ hpl.live (fun _ => by omega)
  rw [Nat.sub_add_cancel he4] at hfree
  rcases hfree with ⟨hbad, hfree⟩ | ⟨hok, s₂, σ₂, hfree, rel⟩
  · refine Or.inl ⟨hbad.congr hσ (fun a ha => (hag a ha).symm) hpl.live, ?_⟩
    intro fuel hfuel
    rw [hdel fuel hfuel, bind_of_error hfree]
  refine Or.inr ⟨fun hbad => hok (hbad.congr hσ hag hpl.live), s₂, σ₂, ?_, ?_, rel.heap, rel.live⟩
  · intro fuel hfuel
    rw [hdel fuel hfuel, bind_of_ok hfree, pure_run]
  · refine hc₁.congr (blocks_wf rel.heap.wf)
      (fun j hj => slot_word (fun a ha => rel.keeps a (Or.inl ha)) hj) ?_
    intro j hj x hx
    have hne := hrest j hj x hx
    exact released_kept rel hσ ((hc₁.buckets j hj).fits x hx) (by omega)

/-- With another key in front, `Del` does not return. -/
theorem del_stuck (h : Chains hash s.mem B ch) (ht : r.type = .del) {es : List Entry}
    (hes : ch (bucketOf r) = e :: es) (hkey : e.key ≠ r.key) (fuel : Nat) :
    del fuel r s = .error .nonTermination := by
  have hb := h.buckets _ (bucketOf_lt r)
  have he : e ∈ ch (bucketOf r) := by
    rw [hes]
    exact List.mem_cons_self
  have hin := (hb.fits e he).inside h.wf
  have hslot : word s.mem (slotOf (bucketOf r)) = e.ptr := by
    have hchain := hb.chain
    rw [hes] at hchain
    exact hchain.1
  rw [del_start ht, hslot]
  exact delLoop_stuck hin.1 (hb.object e he) hin hkey fuel

theorem DelSpec.returns (h : DelSpec hash s σ ch r) (hc : WellFormed hash s.mem σ ch)
    (hh : r.keyHash = hash r.key) :
    ∃ n, ∀ fuel, n ≤ fuel → ∃ status s', del fuel r s = .ok (status, s') := by
  by_cases hbound : Binds ch r.key
  · obtain ⟨e, he, hkey⟩ := (hc.binds_iff hh).mp hbound
    obtain ⟨pre, post, hes⟩ := List.append_of_mem he
    obtain ⟨s', _, ⟨n, hn⟩, _⟩ := h.bound pre e post hes hkey
    exact ⟨n, fun fuel hfuel => ⟨_, s', hn fuel hfuel⟩⟩
  · obtain ⟨n, hn⟩ := h.absent hbound
    exact ⟨n, fun fuel hfuel => ⟨_, s, hn fuel hfuel⟩⟩

/-- **`Del`** does what it should exactly if the bucket of the key is empty, or its first
    object has the key and no neighbour of its block is in the way. -/
theorem del_correct_iff (h : WellFormed hash s.mem σ ch) (ht : r.type = .del)
    (hh : r.keyHash = hash r.key) :
    DelSpec hash s σ ch r ↔
      ch (bucketOf r) = [] ∨ ∃ e es, ch (bucketOf r) = e :: es ∧ e.key = r.key ∧
        ¬ Blocked true s.mem σ (e.ptr - 4) := by
  have hc := h.chains
  constructor
  · intro hspec
    obtain ⟨fuel, hreturns⟩ := hspec.returns h hh
    cases hes : ch (bucketOf r) with
    | nil => exact Or.inl rfl
    | cons e es =>
      have hkey : e.key = r.key := by
        by_contra hkey
        obtain ⟨status, s', hrun⟩ := hreturns fuel le_rfl
        rw [del_stuck hc ht hes hkey] at hrun
        cases hrun
      -- the first object has the key, so `Del` returns unless `Free` fails an assertion
      rcases del_head h ht hes hkey with ⟨_, herr⟩ | ⟨hok, _⟩
      · obtain ⟨status, s', hrun⟩ := hreturns (fuel + 1) (by omega)
        rw [herr _ (by omega)] at hrun
        cases hrun
      · exact Or.inr ⟨e, es, rfl, hkey, hok⟩
  · rintro (hnil | ⟨e, es, hes, hkey, hok⟩)
    · refine ⟨?_, fun _ => ⟨1, del_empty hc ht hnil⟩⟩
      intro pre e post hes _
      rw [hnil] at hes
      exact absurd hes (by simp)
    · have he : e ∈ ch (bucketOf r) := by
        rw [hes]
        exact List.mem_cons_self
      refine ⟨fun pre x post hes' hxkey => ?_, fun hno => absurd ?_ hno⟩
      · -- no two objects have the key, so it is the first one
        have hb := hc.buckets _ (bucketOf_lt r)
        have hsplit : pre = [] ∧ x = e ∧ post = es := by
          rw [hes'] at hb
          have hne := hb.key_ne
          rw [hes] at hes'
          cases pre with
          | nil =>
            obtain ⟨rfl, rfl⟩ := List.cons.inj hes'
            exact ⟨rfl, rfl, rfl⟩
          | cons y pre =>
            obtain ⟨rfl, _⟩ := List.cons.inj hes'
            exact absurd (hkey.trans hxkey.symm) (hne e List.mem_cons_self)
        obtain ⟨rfl, rfl, rfl⟩ := hsplit
        rcases del_head h ht hes hkey with ⟨hbad, _⟩ | ⟨_, s', σ', hrun, hc', hheap, hlive⟩
        · exact absurd hbad hok
        have hM' := Represents.unbind hc hc.represents hh hes' hkey
        refine ⟨s', σ', ⟨1, hrun⟩, hc', hheap, hlive, ?_⟩
        intro k hk
        exact same_answers hc hc.represents hc' hM' (Function.update_of_ne hk _ _)
      · exact (h.binds_iff hh).mpr ⟨e, he, hkey⟩

/-- A tablet that has one object, under the key `[1]`. -/
theorem put_item : ∃ s σ ch e, put 2 (item .put) (formatted true) = .ok (.ok, s) ∧
    TabletInv firstByte s.mem σ ch ∧ ch 1 = [e] ∧ e.key = [1] := by
  obtain ⟨hinv, hrep⟩ := tabletInv_fresh firstByte freshTablet_formatted
  -- nothing is replaced, so the run either fails an assertion or returns, and it does not fail
  have hclean : CleanReplace (formatted true).mem (item .put) := by
    intro _ p hp
    exact absurd hp (not_inChain (by decide +kernel))
  have hpass : (put 2 (item .put) (formatted true)).isOk = true := by
    decide +kernel
  rcases put_run hinv hrep rfl (by decide) (by decide) hclean (show 0 < 2 by decide) with
    herr | ⟨s, σ, ch, hrun, hbound⟩
  · rw [herr] at hpass
    cases hpass
  · -- the chain of the bucket has one object
    have hlen := hbound.length 1
    obtain ⟨e, he, hkey, _⟩ := (hbound.represents [1] [2, 3]).mp (by decide)
    have he' : e ∈ ch 1 := he
    cases hes : ch 1 with
    | nil =>
      rw [hes] at he'
      cases he'
    | cons x xs =>
      rw [hes] at he' hlen
      have hxs : xs = [] := List.length_eq_zero_iff.mp (by simpa using hlen)
      subst hxs
      obtain rfl := List.mem_singleton.mp he'
      exact ⟨s, σ, ch, e, hrun, hbound.inv, hes, hkey⟩

theorem del_correct_iff_item : ∃ s σ ch, put 2 (item .put) (formatted true) = .ok (.ok, s) ∧
    DelSpec firstByte s σ ch (item .del) := by
  obtain ⟨s, σ, ch, e, hrun, hinv, hes, hkey⟩ := put_item
  refine ⟨s, σ, ch, hrun, (del_correct_iff hinv.wellFormed rfl (by decide)).mpr (Or.inr ?_)⟩
  refine ⟨e, [], hes, hkey, ?_⟩
  rintro ⟨b, _, hbad, _⟩
  exact hinv.roomy hbad.1 b hbad.2.2

theorem one_hash_lt : 1 < 18446744073709551616 := by decide

/-- A `DEL` of the key `[1, 0]`, which belongs to the bucket of `[1]`. -/
def delOther : Request := ⟨.del, [1, 0], [], 1, pair_length_lt, nil_length_lt, one_hash_lt⟩

theorem del_never_returns : ∃ s σ ch, put 2 (item .put) (formatted true) = .ok (.ok, s) ∧
    WellFormed firstByte s.mem σ ch ∧ ¬ Binds ch delOther.key ∧
    (∀ fuel, del fuel delOther s = .error .nonTermination) ∧
    ¬ DelSpec firstByte s σ ch delOther := by
  obtain ⟨s, σ, ch, e, hrun, hinv, hes, hkey⟩ := put_item
  have hwf := hinv.wellFormed
  have hh : delOther.keyHash = firstByte delOther.key := by decide
  have hes' : ch (bucketOf delOther) = [e] := hes
  have hne : e.key ≠ delOther.key := by
    rw [hkey]
    decide
  have hstuck : ∀ fuel, del fuel delOther s = .error .nonTermination :=
    del_stuck hwf.chains rfl hes' hne
  refine ⟨s, σ, ch, hrun, hwf, ?_, hstuck, ?_⟩
  · rw [hwf.binds_iff hh, hes']
    rintro ⟨x, hx, hxk⟩
    rw [List.mem_singleton.mp hx] at hxk
    exact hne hxk
  · intro hspec
    obtain ⟨fuel, hreturns⟩ := hspec.returns hwf hh
    obtain ⟨status, s', hok⟩ := hreturns fuel le_rfl
    rw [hstuck] at hok
    cases hok

end Nvds.Tablet
