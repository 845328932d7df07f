import Nvds.Framework.Arrays

/-! # JSON values

    JSON as data: integers of any size, arrays, and objects whose members are
    looked up by key. Decoders return an error for a value of another type, a
    missing key, or an array that is too short. Round trips of members and of
    array elements are what the round trip of a record is put together from.
-/

open Arrays

namespace Json

/-- A JSON value. -/
inductive Value where
  | null
  | bool (b : Bool)
  | int (n : Int)
  | string (s : String)
  | array (xs : List Value)
  | object (members : List (String × Value))

/-- Why a value is not decoded. -/
inductive Error where
  | type
  | missing
  | outOfRange
  deriving DecidableEq, Repr

/-- The result of a decoder. -/
abbrev Decoded (α : Type) := Except Error α

/-! ### Scalars -/

/-- Conversion to a boolean. -/
def toBool : Value → Decoded Bool
  | .bool b => .ok b
  | _ => .error .type

/-- Conversion to a string. -/
def toString : Value → Decoded String
  | .string s => .ok s
  | _ => .error .type

/-- Conversion to an unsigned integer of `w` bits. Higher bits are cut off. -/
def toUnsigned (w : Nat) : Value → Decoded Nat
  | .int n => .ok (n % 2 ^ w).toNat
  | _ => .error .type

/-- Conversion to a signed integer of `w` bits. Higher bits are cut off. -/
def toSigned (w : Nat) : Value → Decoded Int
  | .int n => .ok (n.bmod (2 ^ w))
  | _ => .error .type

/-- The value of an unsigned integer. -/
def ofNat (n : Nat) : Value := .int n

theorem toUnsigned_ofNat {w n : Nat} (h : n < 2 ^ w) : toUnsigned w (ofNat n) = .ok n := by
  have hmod : (n : Int) % 2 ^ w = n := Int.emod_eq_of_lt (Int.natCast_nonneg n) (by exact_mod_cast h)
  rw [ofNat, toUnsigned, hmod, Int.toNat_natCast]

theorem toSigned_int {w : Nat} {n : Int} (hlo : -2 ^ w ≤ n) (hhi : n < 2 ^ w) :
    toSigned (w + 1) (.int n) = .ok n := by
  rw [toSigned, Int.bmod_eq_of_le]
  · rw [pow_succ]
    push_cast
    omega
  · rw [pow_succ]
    push_cast
    omega

/-! ### Objects -/

/-- The value of the first member with the key. -/
def find (key : String) : List (String × Value) → Option Value
  | [] => none
  | (k, v) :: members => if k = key then some v else find key members

/-- `j[key]` of a value that is read. -/
def member (j : Value) (key : String) : Decoded Value :=
  match j with
  | .object members =>
    match find key members with
    | some v => .ok v
    | none => .error .missing
  | _ => .error .type

/-- The members with the one of the given key set to `v`. -/
def insert (key : String) (v : Value) : List (String × Value) → List (String × Value)
  | [] => [(key, v)]
  | (k, u) :: members => if k = key then (k, v) :: members else (k, u) :: insert key v members

/-- `j[key] = v`; `null` becomes an object. -/
def setMember (j : Value) (key : String) (v : Value) : Value :=
  match j with
  | .null => .object [(key, v)]
  | .object members => .object (insert key v members)
  | j => j

/-- The member that was set, and the others. -/
theorem find_insert (key key' : String) (v : Value) (members : List (String × Value)) :
    find key' (insert key v members) = if key' = key then some v else find key' members := by
  induction members with
  | nil =>
    simp only [insert, find]
    by_cases h : key' = key
    · rw [if_pos h.symm, if_pos h]
    · rw [if_neg (Ne.symm h), if_neg h]
  | cons m members ih =>
    obtain ⟨k, u⟩ := m
    by_cases hk : k = key
    · subst hk
      simp only [insert, if_true, find]
      by_cases h : key' = k
      · rw [if_pos h.symm, if_pos h]
      · rw [if_neg (Ne.symm h), if_neg h, if_neg (Ne.symm h)]
    · simp only [insert, if_neg hk, find, ih]
      by_cases hk' : k = key'
      · rw [if_pos hk', if_pos hk', if_neg (fun h => hk (hk'.trans h))]
      · rw [if_neg hk', if_neg hk']

/-! ### Arrays -/

/-- The `i`-th element. -/
def element (j : Value) (i : Nat) : Decoded Value :=
  match j with
  | .array xs =>
    match xs[i]? with
    | some v => .ok v
    | none => .error .outOfRange
  | _ => .error .type

variable {α : Type} {n : Nat}

/-- Conversion to an array of `n` elements: each is decoded by itself. -/
def toArray (decode : Value → Decoded α) (n : Nat) (j : Value) : Decoded (Vector α n) :=
  Vector.ofFnM fun i : Fin n => do
    let v ← element j i
    decode v

/-- The value of an array. -/
def ofArray (encode : α → Value) (v : Vector α n) : Value := .array (v.toList.map encode)

theorem element_ofArray (encode : α → Value) (v : Vector α n) (i : Fin n) :
    element (ofArray encode v) i = .ok (encode (v.get i)) := by
  have hi : (v.toList.map encode)[i.val]? = some (encode (v.get i)) := by
    rw [List.getElem?_map, Vector.getElem?_toList, Vector.getElem?_eq_getElem i.isLt]
    rfl
  simp only [element, ofArray, hi]

/-- **Round trip of an array.** If every element is decoded to one that stands in the relation `R`
    to it, so is the array. -/
theorem toArray_ofArray {encode : α → Value} {decode : Value → Decoded α} {R : α → α → Prop}
    {v : Vector α n} (h : ∀ i, ∃ a, decode (encode (v.get i)) = .ok a ∧ R (v.get i) a) :
    ∃ v' : Vector α n, toArray decode n (ofArray encode v) = .ok v' ∧
      ∀ i, R (v.get i) (v'.get i) := by
  choose f hdec hR using h
  refine ⟨Vector.ofFn f, ?_, ?_⟩
  · apply ofFnM_of_ok
    intro i
    rw [element_ofArray, get_ofFn]
    show decode (encode (v.get i)) = _
    exact hdec i
  · intro i
    rw [get_ofFn]
    exact hR i

/-- The same if every element comes back as it was. -/
theorem toArray_ofArray_eq {encode : α → Value} {decode : Value → Decoded α} {v : Vector α n}
    (h : ∀ i, decode (encode (v.get i)) = .ok (v.get i)) :
    toArray decode n (ofArray encode v) = .ok v := by
  obtain ⟨v', hrun, heq⟩ := toArray_ofArray (R := Eq) fun i => ⟨v.get i, h i, rfl⟩
  obtain rfl : v = v' := Vector.ext fun i hi => heq ⟨i, hi⟩
  exact hrun

/-- Conversion to a sequence of any length. -/
def toList (decode : Value → Decoded α) : Value → Decoded (List α)
  | .array xs => xs.mapM decode
  | _ => .error .type

/-- The value of a sequence. -/
def ofList (encode : α → Value) (as : List α) : Value := .array (as.map encode)

/-- A sequence comes back if its elements do. -/
theorem toList_ofList {encode : α → Value} {decode : Value → Decoded α} {as : List α}
    (h : ∀ a ∈ as, decode (encode a) = .ok a) : toList decode (ofList encode as) = .ok as := by
  show (as.map encode).mapM decode = .ok as
  induction as with
  | nil => rfl
  | cons a as ih =>
    have hrest := ih fun x hx => h x (List.mem_cons_of_mem _ hx)
    rw [List.map_cons, List.mapM_cons, h a List.mem_cons_self, hrest]
    rfl

/-! ### Values that differ in the order of members -/

/-- The two values are the same, up to the order of the members of objects. -/
inductive Value.Equiv : Value → Value → Prop
  | null : Equiv .null .null
  | bool (b : Bool) : Equiv (.bool b) (.bool b)
  | int (n : Int) : Equiv (.int n) (.int n)
  | string (s : String) : Equiv (.string s) (.string s)
  | array {xs ys : List Value} : List.Forall₂ Equiv xs ys → Equiv (.array xs) (.array ys)
  /-- The member `v` with the key `key` has become `f key v`. -/
  | object {ms ms' : List (String × Value)} (f : String → Value → Value) :
      (∀ key, find key ms' = (find key ms).map (f key)) →
      (∀ key v, find key ms = some v → Equiv v (f key v)) → Equiv (.object ms) (.object ms')

/-- The decoder does not depend on the order of members. -/
def Respects {α : Type} (decode : Value → Decoded α) : Prop :=
  ∀ v v' a, v.Equiv v' → decode v = .ok a → decode v' = .ok a

variable {β : Type}

theorem respects_toUnsigned (w : Nat) : Respects (toUnsigned w) := by
  intro v v' n h hrun
  cases h with
  | int => exact hrun
  | null | bool | string | array | object => cases hrun

theorem respects_toSigned (w : Nat) : Respects (toSigned w) := by
  intro v v' n h hrun
  cases h with
  | int => exact hrun
  | null | bool | string | array | object => cases hrun

theorem respects_toBool : Respects toBool := by
  intro v v' b h hrun
  cases h with
  | bool => exact hrun
  | null | int | string | array | object => cases hrun

theorem respects_toString : Respects toString := by
  intro v v' s h hrun
  cases h with
  | string => exact hrun
  | null | bool | int | array | object => cases hrun

theorem respects_pure (a : α) : Respects fun _ => pure a := fun _ _ _ _ h => h

theorem Respects.bind {d : Value → Decoded α} {e : Value → α → Decoded β} (hd : Respects d)
    (he : ∀ a, Respects fun v => e v a) : Respects fun v => d v >>= e v := by
  intro v v' b h hrun
  replace hrun : (d v >>= e v) = .ok b := hrun
  cases ha : d v with
  | error e =>
    rw [ha] at hrun
    cases hrun
  | ok a =>
    rw [ha] at hrun
    show d v' >>= e v' = _
    rw [hd v v' a h ha]
    exact he a v v' b h hrun

/-- The value of a member. -/
theorem Respects.member {d : Value → Decoded α} (hd : Respects d) (key : String) :
    Respects fun v => member v key >>= d := by
  intro v v' a h hrun
  cases h with
  | null | bool | int | string | array => cases hrun
  | @object ms ms' f hfind hequiv =>
    cases hm : find key ms with
    | none =>
      simp only [Json.member, hm] at hrun
      cases hrun
    | some u =>
      simp only [Json.member, hm] at hrun
      show Json.member (.object ms') key >>= d = _
      simp only [Json.member, hfind, hm, Option.map_some]
      exact hd u _ a (hequiv key u hm) hrun

theorem Respects.toList {d : Value → Decoded α} (hd : Respects d) : Respects (toList d) := by
  intro v v' as h hrun
  -- only an array decodes as a list
  cases h with
  | null | bool | int | string | object => cases hrun
  | @array xs ys hxs =>
    have hrun' : xs.mapM d = .ok as := hrun
    show ys.mapM d = .ok as
    clear hrun
    induction hxs generalizing as with
    | nil => exact hrun'
    | @cons x y xs ys hxy _ ih =>
      rw [List.mapM_cons] at hrun' ⊢
      cases ha : d x with
      | error e =>
        rw [ha] at hrun'
        cases hrun'
      | ok a =>
        rw [ha] at hrun'
        rw [hd x y a hxy ha]
        cases has : xs.mapM d with
        | error e =>
          change (xs.mapM d >>= _) = _ at hrun'
          rw [has] at hrun'
          cases hrun'
        | ok bs =>
          change (xs.mapM d >>= _) = _ at hrun'
          rw [has] at hrun'
          change (ys.mapM d >>= _) = _
          rw [ih bs has]
          exact hrun'

/-- The elements of an array stay in their places. -/
theorem Value.Equiv.element {v v' u : Value} {i : Nat} (h : v.Equiv v')
    (hu : element v i = .ok u) : ∃ u', element v' i = .ok u' ∧ u.Equiv u' := by
  cases h with
  | null | bool | int | string | object => cases hu
  | @array xs ys hxs =>
    cases hget : xs[i]? with
    | none =>
      simp only [Json.element, hget] at hu
      cases hu
    | some x =>
      simp only [Json.element, hget] at hu
      cases hu
      obtain ⟨hi, rfl⟩ := List.getElem?_eq_some_iff.mp hget
      have hi' : i < ys.length := hxs.length_eq ▸ hi
      refine ⟨ys[i], ?_, hxs.get hi hi'⟩
      simp only [Json.element, List.getElem?_eq_getElem hi']

theorem Respects.toArray {d : Value → Decoded α} (hd : Respects d) (n : Nat) :
    Respects (toArray d n) := by
  intro v v' as h hrun
  refine ofFnM_of_ok fun i => ?_
  have hi : (element v i >>= d) = .ok (as.get i) := ok_of_ofFnM hrun i
  show (element v' i >>= d) = .ok (as.get i)
  cases hu : element v i with
  | error e =>
    rw [hu] at hi
    cases hi
  | ok u =>
    rw [hu] at hi
    obtain ⟨u', hu', hequiv⟩ := h.element hu
    rw [hu']
    exact hd u u' _ hequiv hi

/-- A member that is missing is not found elsewhere either. -/
theorem Value.Equiv.missing {v v' : Value} {key : String} (h : v.Equiv v')
    (hno : member v key = .error .missing) : member v' key = .error .missing := by
  cases h with
  | null | bool | int | string | array => cases hno
  | @object ms ms' f hfind _ =>
    cases hm : find key ms with
    | none => simp only [member, hfind, hm, Option.map_none]
    | some u =>
      simp only [member, hm] at hno
      cases hno

theorem find_sizeOf {key : String} {ms : List (String × Value)} {v : Value}
    (h : find key ms = some v) : sizeOf v < sizeOf ms := by
  induction ms with
  | nil => cases h
  | cons m ms ih =>
    obtain ⟨k, u⟩ := m
    rw [find] at h
    split at h
    · cases h
      simp
      omega
    · have := ih h
      simp
      omega

theorem Value.Equiv.refl : (v : Value) → v.Equiv v
  | .null => .null
  | .bool b => .bool b
  | .int n => .int n
  | .string s => .string s
  | .array xs => .array (List.forall₂_same.mpr fun x hx =>
      have := List.sizeOf_lt_of_mem hx
      Equiv.refl x)
  | .object ms => .object (fun _ v => v) (fun key => by simp) fun key v h =>
      have := find_sizeOf h
      Equiv.refl v
termination_by v => sizeOf v
decreasing_by
  all_goals simp; omega

end Json
