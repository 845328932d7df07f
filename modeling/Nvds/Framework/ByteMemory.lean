import Mathlib.Data.List.Basic
import Mathlib.Tactic.Ring

/-! # Byte-addressed memory

    A memory is a total map from addresses to bytes. Programs that keep
    their metadata in-band read and write it in three ways: single bytes,
    runs of bytes, and little-endian integers of a fixed width. This file
    defines the three and says how a store is seen by a later load:

    * at the same place it is read back (`load_store_same`, `loadNat_storeNat`),
    * at a disjoint place it is not seen (`load_store_disjoint`,
      `loadNat_store_disjoint`),
    * between 4-aligned words it behaves as a function update
      (`word_storeNat`).
-/

namespace ByteMemory

/-- A memory: one byte for every address. -/
abbrev Mem := Nat → UInt8

/-! ### Runs of bytes -/

/-- Overwrite the bytes at `off, off + 1, ...` with `bs`. -/
def store (m : Mem) (off : Nat) (bs : List UInt8) : Mem :=
  fun a => if off ≤ a ∧ a < off + bs.length then bs.getD (a - off) 0 else m a

/-- The `len` bytes from `off` on. -/
def load (m : Mem) (off len : Nat) : List UInt8 :=
  (List.range len).map fun i => m (off + i)

@[simp] theorem length_load (m : Mem) (off len : Nat) : (load m off len).length = len := by
  simp [load]

theorem getElem_load (m : Mem) (off len i : Nat) (h : i < (load m off len).length) :
    (load m off len)[i] = m (off + i) := by
  simp [load]

/-- Two memories that agree on a range load the same bytes from it. -/
theorem load_congr {m m' : Mem} {off len : Nat}
    (h : ∀ a, off ≤ a → a < off + len → m' a = m a) :
    load m' off len = load m off len := by
  apply List.map_congr_left
  intro i hi
  have hi' := List.mem_range.mp hi
  exact h (off + i) (by omega) (by omega)

/-- A load gives `bs` exactly when the memory holds `bs` byte by byte. -/
theorem load_eq_iff {m : Mem} {off : Nat} {bs : List UInt8} :
    load m off bs.length = bs ↔ ∀ i (h : i < bs.length), m (off + i) = bs[i] := by
  constructor
  · intro heq i hi
    have hload := getElem_load m off bs.length i (by simpa using hi)
    rw [← hload]
    congr 1
  · intro h
    apply List.ext_getElem (by simp)
    intro i h₁ h₂
    rw [getElem_load, h i h₂]

theorem load_append (m : Mem) (off a b : Nat) :
    load m off (a + b) = load m off a ++ load m (off + a) b := by
  simp only [load, List.range_add, List.map_append, List.map_map]
  congr 1
  apply List.map_congr_left
  intro i _
  simp [Nat.add_assoc]

/-- A store leaves every byte outside its range alone. -/
theorem store_of_not_mem {m : Mem} {off a : Nat} {bs : List UInt8}
    (h : a < off ∨ off + bs.length ≤ a) : store m off bs a = m a := by
  unfold store
  rw [if_neg (by omega)]

theorem load_store_same (m : Mem) (off : Nat) (bs : List UInt8) :
    load (store m off bs) off bs.length = bs := by
  rw [load_eq_iff]
  intro i hi
  unfold store
  rw [if_pos (by omega)]
  simp [hi]

theorem load_store_disjoint {m : Mem} {off off' len : Nat} {bs : List UInt8}
    (h : off' + len ≤ off ∨ off + bs.length ≤ off') :
    load (store m off bs) off' len = load m off' len :=
  load_congr fun _ h₁ h₂ => store_of_not_mem (by omega)

/-- A part of a run of bytes. -/
theorem take_drop_load (m : Mem) {off len i n : Nat} (h : i + n ≤ len) :
    ((load m off len).drop i).take n = load m (off + i) n := by
  apply List.ext_getElem (by simp; omega)
  intro j h₁ h₂
  simp [getElem_load, Nat.add_assoc]

/-- A run that was copied is copied in all its parts. -/
theorem load_of_copy {m m' : Mem} {off off' len i n : Nat}
    (h : load m' off' len = load m off len) (hin : i + n ≤ len) :
    load m' (off' + i) n = load m (off + i) n := by
  rw [← take_drop_load m' hin, h, take_drop_load m hin]

/-! ### Records -/

/-- Stores one after another, as the fields of a record are filled in. -/
def storeAll (m : Mem) (fs : List (Nat × List UInt8)) : Mem :=
  fs.foldl (fun m f => store m f.1 f.2) m

/-- The fields do not overlap. -/
def Apart (f f' : Nat × List UInt8) : Prop :=
  f.1 + f.2.length ≤ f'.1 ∨ f'.1 + f'.2.length ≤ f.1

theorem load_storeAll_disjoint {m : Mem} {fs : List (Nat × List UInt8)} {f : Nat × List UInt8}
    (h : ∀ f' ∈ fs, Apart f f') :
    load (storeAll m fs) f.1 f.2.length = load m f.1 f.2.length := by
  induction fs generalizing m with
  | nil => rfl
  | cons f' fs ih =>
    have hapart := h f' List.mem_cons_self
    have hrest : ∀ x ∈ fs, Apart f x := fun x hx => h x (List.mem_cons_of_mem _ hx)
    show load (storeAll (store m f'.1 f'.2) fs) f.1 f.2.length = _
    rw [ih hrest, load_store_disjoint hapart]

/-- The record with the fields `fs` lies at `off`. -/
def Holds (m : Mem) (off : Nat) (fs : List (Nat × List UInt8)) : Prop :=
  ∀ f ∈ fs, load m (off + f.1) f.2.length = f.2

/-- Every field of a record is read back. -/
theorem holds_storeAll (m : Mem) {fs : List (Nat × List UInt8)} (h : fs.Pairwise Apart) :
    Holds (storeAll m fs) 0 fs := by
  intro f hf
  rw [Nat.zero_add]
  induction fs generalizing m with
  | nil => cases hf
  | cons f' fs ih =>
    obtain ⟨hhead, hrest⟩ := List.pairwise_cons.mp h
    show load (storeAll (store m f'.1 f'.2) fs) f.1 f.2.length = _
    rcases List.mem_cons.mp hf with rfl | hf
    · rw [load_storeAll_disjoint hhead, load_store_same]
    · exact ih _ hrest hf

/-- A record is copied with the bytes it lies in. -/
theorem Holds.copy {m m' : Mem} {off off' len : Nat} {fs : List (Nat × List UInt8)}
    (h : Holds m off fs) (hcopy : load m' off' len = load m off len)
    (hin : ∀ f ∈ fs, f.1 + f.2.length ≤ len) : Holds m' off' fs := by
  intro f hf
  rw [load_of_copy hcopy (hin f hf)]
  exact h f hf

/-! ### Little-endian integers -/

/-- The `w` low-order bytes of `v`, least significant first. -/
def leBytes : Nat → Nat → List UInt8
  | 0, _ => []
  | w + 1, v => UInt8.ofNat v :: leBytes w (v / 256)

/-- The integer a run of bytes denotes, least significant byte first. -/
def leValue : List UInt8 → Nat
  | [] => 0
  | b :: bs => b.toNat + 256 * leValue bs

@[simp] theorem length_leBytes (w v : Nat) : (leBytes w v).length = w := by
  induction w generalizing v with
  | zero => rfl
  | succ w ih => simp [leBytes, ih]

theorem leValue_leBytes (w v : Nat) : leValue (leBytes w v) = v % 256 ^ w := by
  induction w generalizing v with
  | zero => simp [leBytes, leValue, Nat.mod_one]
  | succ w ih =>
    have hb : (UInt8.ofNat v).toNat = v % 256 := by simp
    simp only [leBytes, leValue, ih, hb]
    rw [pow_succ, mul_comm (256 ^ w) 256, Nat.mod_mul]

theorem leValue_lt (bs : List UInt8) : leValue bs < 256 ^ bs.length := by
  induction bs with
  | nil => simp [leValue]
  | cons b bs ih =>
    have hb : b.toNat < 256 := b.toNat_lt
    simp only [leValue, List.length_cons, pow_succ]
    omega

theorem leValue_eq_zero {bs : List UInt8} : leValue bs = 0 ↔ ∀ b ∈ bs, b = 0 := by
  induction bs with
  | nil => simp [leValue]
  | cons b bs ih =>
    rw [leValue, List.forall_mem_cons, ← ih]
    constructor
    · intro h
      refine ⟨UInt8.toNat_inj.mp ?_, by omega⟩
      show b.toNat = 0
      omega
    · rintro ⟨rfl, h⟩
      rw [h]
      rfl

/-- The `w`-byte little-endian integer at `off`. -/
def loadNat (m : Mem) (off w : Nat) : Nat := leValue (load m off w)

/-- Overwrite the `w` bytes at `off` with the low-order bytes of `v`. -/
def storeNat (m : Mem) (off w v : Nat) : Mem := store m off (leBytes w v)

theorem loadNat_lt (m : Mem) (off w : Nat) : loadNat m off w < 256 ^ w := by
  have h := leValue_lt (load m off w)
  rwa [length_load] at h

theorem loadNat_congr {m m' : Mem} {off w : Nat}
    (h : ∀ a, off ≤ a → a < off + w → m' a = m a) : loadNat m' off w = loadNat m off w := by
  unfold loadNat
  rw [load_congr h]

theorem loadNat_storeNat (m : Mem) (off w v : Nat) :
    loadNat (storeNat m off w v) off w = v % 256 ^ w := by
  unfold loadNat storeNat
  have h := load_store_same m off (leBytes w v)
  rw [length_leBytes] at h
  rw [h, leValue_leBytes]

theorem loadNat_store_disjoint {m : Mem} {off off' w : Nat} {bs : List UInt8}
    (h : off' + w ≤ off ∨ off + bs.length ≤ off') :
    loadNat (store m off bs) off' w = loadNat m off' w := by
  unfold loadNat
  rw [load_store_disjoint h]

theorem storeNat_of_not_mem {m : Mem} {off w v a : Nat} (h : a < off ∨ off + w ≤ a) :
    storeNat m off w v a = m a :=
  store_of_not_mem (by simpa using h)

/-- An integer inside a longer load is the integer at that place. -/
theorem leValue_take_drop_load (m : Mem) (off len i w : Nat) (h : i + w ≤ len) :
    leValue (((load m off len).drop i).take w) = loadNat m (off + i) w := by
  rw [take_drop_load m h]
  rfl

/-! ### Four-byte words -/

/-- The four-byte word at `off`. -/
def word (m : Mem) (off : Nat) : Nat := loadNat m off 4

theorem word_lt (m : Mem) (off : Nat) : word m off < 2 ^ 32 := by
  have h := loadNat_lt m off 4
  norm_num at h ⊢
  exact h

/-- Between 4-aligned places a word store is a function update. -/
theorem word_storeNat {m : Mem} {a b v : Nat} (ha : a % 4 = 0) (hb : b % 4 = 0) (hv : v < 2 ^ 32) :
    word (storeNat m a 4 v) b = if b = a then v else word m b := by
  unfold word
  by_cases hab : b = a
  · rw [if_pos hab, hab, loadNat_storeNat]
    exact Nat.mod_eq_of_lt (by norm_num at hv ⊢; exact hv)
  · rw [if_neg hab]
    exact loadNat_store_disjoint (by rw [length_leBytes]; omega)

theorem word_congr {m m' : Mem} {off : Nat}
    (h : ∀ a, off ≤ a → a < off + 4 → m' a = m a) : word m' off = word m off :=
  loadNat_congr h

end ByteMemory
