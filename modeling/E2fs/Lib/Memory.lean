import Mathlib.Tactic

/-! Byte memory around an origin, with little-endian numbers of a given width in it. Writes
far from what is read do not matter, and what was written is read again. -/
namespace E2fs.Memory
open List Nat

abbrev Mem := Int → UInt8

def readBytes (m : Mem) (p : Int) (n : Nat) : List UInt8 :=
  (List.range n).map fun i : Nat => m (p + i)

def writeBytes (m : Mem) (p : Int) (l : List UInt8) : Mem := fun q =>
  if p ≤ q ∧ q < p + l.length then l.getD (q - p).toNat 0 else m q

/- `memset` with zero. -/
def zero (m : Mem) (p : Int) (n : Nat) : Mem := fun q => if p ≤ q ∧ q < p + n then 0 else m q

def ofBytes : List UInt8 → Nat
  | [] => 0
  | b :: l => b.toNat + 256 * ofBytes l

def toBytes : Nat → Nat → List UInt8
  | 0, _ => []
  | w + 1, n => UInt8.ofNat n :: toBytes w (n / 256)

def load (m : Mem) (p : Int) (w : Nat) : Nat := ofBytes (readBytes m p w)

def store (m : Mem) (p : Int) (w n : Nat) : Mem := writeBytes m p (toBytes w n)

def shift (m : Mem) (p : Int) : Mem := fun q => m (p + q)

theorem readBytes_succ (m : Mem) (p : Int) (n : Nat) :
    readBytes m p (n + 1) = m p :: readBytes m (p + 1) n := by
  rw [readBytes, readBytes, range_succ_eq_map, map_cons, map_map]
  congr 1
  · simp
  · apply map_congr_left
    intro i _
    rw [Function.comp_apply]
    congr 1
    push_cast
    ring

@[simp] theorem readBytes_zero (m : Mem) (p : Int) : readBytes m p 0 = [] := rfl

@[simp] theorem length_readBytes (m : Mem) (p : Int) (n : Nat) : (readBytes m p n).length = n := by
  simp [readBytes]

@[simp] theorem length_toBytes (w n : Nat) : (toBytes w n).length = w := by
  induction w generalizing n with
  | zero => rfl
  | succ w ih => simp [toBytes, ih]

theorem ofBytes_toBytes (w n : Nat) : ofBytes (toBytes w n) = n % 256 ^ w := by
  induction w generalizing n with
  | zero => simp [toBytes, ofBytes, mod_one]
  | succ w ih =>
    have low : (UInt8.ofNat n).toNat = n % 256 := UInt8.toNat_ofNat'
    rw [toBytes, ofBytes, ih, low, pow_succ', mod_mul]

theorem ofBytes_lt (l : List UInt8) : ofBytes l < 256 ^ l.length := by
  induction l with
  | nil => simp [ofBytes]
  | cons b l ih =>
    have := b.toNat_lt
    rw [ofBytes, length_cons, pow_succ]
    omega

theorem load_lt (m : Mem) (p : Int) (w : Nat) : load m p w < 256 ^ w := by
  simpa [load] using ofBytes_lt (readBytes m p w)

section Writes

variable {m m' : Mem} {p q : Int} {n w v k : Nat} {l : List UInt8}

theorem writeBytes_apart (apart : q < p ∨ p + l.length ≤ q) : writeBytes m p l q = m q :=
  if_neg (by omega)

theorem zero_apart (apart : q < p ∨ p + n ≤ q) : zero m p n q = m q := if_neg (by omega)

theorem zero_inside (low : p ≤ q) (high : q < p + n) : zero m p n q = 0 := if_pos ⟨low, high⟩

theorem readBytes_congr (same : ∀ q, p ≤ q → q < p + n → m' q = m q) :
    readBytes m' p n = readBytes m p n := by
  apply map_congr_left
  intro i mem
  have := mem_range.mp mem
  exact same (p + i) (by omega) (by omega)

theorem load_congr (same : ∀ q, p ≤ q → q < p + n → m' q = m q) : load m' p n = load m p n :=
  congrArg ofBytes (readBytes_congr same)

theorem readBytes_writeBytes_apart (apart : q + n ≤ p ∨ p + l.length ≤ q) :
    readBytes (writeBytes m p l) q n = readBytes m q n :=
  readBytes_congr fun r low high => writeBytes_apart (by omega)

theorem readBytes_writeBytes (m : Mem) (p : Int) (l : List UInt8) :
    readBytes (writeBytes m p l) p l.length = l := by
  apply ext_getElem (length_readBytes _ _ _)
  intro i low high
  simp only [readBytes, getElem_map, getElem_range, writeBytes]
  rw [if_pos ⟨by omega, by omega⟩, show (p + (i : Int) - p).toNat = i by omega,
    getD_eq_getElem?_getD, getElem?_eq_getElem high, Option.getD_some]

theorem load_store_apart (apart : q + w ≤ p ∨ p + v ≤ q) : load (store m p v k) q w = load m q w :=
  congrArg ofBytes (readBytes_writeBytes_apart (by simpa using apart))

theorem load_writeBytes_apart (apart : q + w ≤ p ∨ p + l.length ≤ q) :
    load (writeBytes m p l) q w = load m q w := congrArg ofBytes (readBytes_writeBytes_apart apart)

theorem readBytes_store_apart (apart : q + w ≤ p ∨ p + v ≤ q) :
    readBytes (store m p v k) q w = readBytes m q w :=
  readBytes_writeBytes_apart (by simpa using apart)

theorem store_apart (apart : q < p ∨ p + v ≤ q) : store m p v k q = m q :=
  writeBytes_apart (by simpa using apart)

theorem load_store (m : Mem) (p : Int) (w k : Nat) : load (store m p w k) p w = k % 256 ^ w := by
  have same := readBytes_writeBytes m p (toBytes w k)
  rw [length_toBytes] at same
  rw [load, store, same, ofBytes_toBytes]

theorem load_store_of_lt (lt : k < 256 ^ w) : load (store m p w k) p w = k := by
  rw [load_store, mod_eq_of_lt lt]

theorem load_of_zero (zeros : ∀ q, p ≤ q → q < p + w → m q = 0) : load m p w = 0 := by
  have zero : ∀ k, ofBytes (replicate k 0) = 0 := by
    intro k
    induction k with
    | zero => rfl
    | succ k ih => simp [replicate_succ, ofBytes, ih]
  have all : readBytes m p w = replicate w 0 := by
    apply eq_replicate_iff.mpr
    refine ⟨length_readBytes _ _ _, fun b mem => ?_⟩
    obtain ⟨i, small, rfl⟩ := mem_map.mp mem
    have := mem_range.mp small
    exact zeros (p + i) (by omega) (by omega)
  rw [load, all, zero]

end Writes

end E2fs.Memory
