import Mathlib.Tactic

/-! Byte buffers and the bits in them. Bit `n` is bit `n % 8` of byte `n / 8`. -/
namespace E2fs.Bytes
open List Nat

abbrev Buffer := List (BitVec 8)

def byteAt (bs : Buffer) (i : Nat) : BitVec 8 := bs.getD i 0

def bitAt (bs : Buffer) (n : Nat) : Bool := (byteAt bs (n / 8)).getLsbD (n % 8)

def setBit (bs : Buffer) (n : Nat) : Buffer :=
  bs.set (n / 8) (byteAt bs (n / 8) ||| 1#8 <<< (n % 8))

def clearBit (bs : Buffer) (n : Nat) : Buffer :=
  bs.set (n / 8) (byteAt bs (n / 8) &&& ~~~(1#8 <<< (n % 8)))

/- `memcpy(bs + at, src, src.length)`; `memset` copies a constant buffer. -/
def memcpy (bs : Buffer) (offset : Nat) (src : Buffer) : Buffer :=
  bs.take offset ++ src ++ bs.drop (offset + src.length)

def memset (bs : Buffer) (offset : Nat) (c : BitVec 8) (n : Nat) : Buffer :=
  memcpy bs offset (List.replicate n c)

/- The 64-bit word that starts at byte `i`. -/
def wordAt (bs : Buffer) (i : Nat) : Nat :=
  (byteAt bs i).toNat + 2 ^ 8 * (byteAt bs (i + 1)).toNat + 2 ^ 16 * (byteAt bs (i + 2)).toNat +
  2 ^ 24 * (byteAt bs (i + 3)).toNat + 2 ^ 32 * (byteAt bs (i + 4)).toNat +
  2 ^ 40 * (byteAt bs (i + 5)).toNat + 2 ^ 48 * (byteAt bs (i + 6)).toNat +
  2 ^ 56 * (byteAt bs (i + 7)).toNat

@[simp] theorem length_setBit (bs : Buffer) (n : Nat) : (setBit bs n).length = bs.length := by
  simp [setBit]

@[simp] theorem length_clearBit (bs : Buffer) (n : Nat) : (clearBit bs n).length = bs.length := by
  simp [clearBit]

variable {bs src : Buffer} {offset n : Nat}

theorem length_memcpy (fits : offset + src.length ≤ bs.length) :
    (memcpy bs offset src).length = bs.length := by
  simp only [memcpy, length_append, length_take, length_drop]
  omega

theorem byteAt_set {i : Nat} (j : Nat) (c : BitVec 8) (inside : i < bs.length) :
    byteAt (bs.set i c) j = if j = i then c else byteAt bs j := by
  unfold byteAt
  by_cases same : i = j
  · subst same
    simp [inside]
  · simp [same, Ne.symm same]

theorem byteAt_memcpy (fits : offset + src.length ≤ bs.length) (i : Nat) :
    byteAt (memcpy bs offset src) i =
      if offset ≤ i ∧ i < offset + src.length then byteAt src (i - offset) else byteAt bs i := by
  have front : (bs.take offset).length = offset := by
    rw [length_take]
    omega
  simp only [byteAt, memcpy, getD_eq_getElem?_getD, append_assoc]
  by_cases low : i < offset
  · rw [if_neg (by omega), getElem?_append_left (by omega), getElem?_take_of_lt low]
  rw [getElem?_append_right (by omega), front]
  by_cases mid : i < offset + src.length
  · rw [if_pos (by omega), getElem?_append_left (by omega)]
  · rw [if_neg (by omega), getElem?_append_right (by omega), getElem?_drop]
    congr 2
    omega

theorem getLsbD_one_shift (k j : Nat) (low : k < 8) : (1#8 <<< k).getLsbD j = decide (j = k) := by
  by_cases h : j = k
  · subst h
    simp [low]
  · by_cases h' : j < k
    · simp [h', h]
    · simp [h, h']
      omega

theorem bitAt_setBit (inside : n / 8 < bs.length) (m : Nat) :
    bitAt (setBit bs n) m = (decide (m = n) || bitAt bs m) := by
  unfold bitAt setBit
  rw [byteAt_set _ _ inside]
  by_cases same : m / 8 = n / 8
  · rw [if_pos same, BitVec.getLsbD_or, getLsbD_one_shift _ _ (mod_lt _ (by decide)), same,
      Bool.or_comm]
    congr 2
    simp only [eq_iff_iff]
    omega
  · have ne : m ≠ n := fun h => same (h ▸ rfl)
    simp [same, ne]

theorem bitAt_clearBit (inside : n / 8 < bs.length) (m : Nat) :
    bitAt (clearBit bs n) m = (!decide (m = n) && bitAt bs m) := by
  unfold bitAt clearBit
  rw [byteAt_set _ _ inside]
  by_cases same : m / 8 = n / 8
  · have width : m % 8 < 8 := mod_lt _ (by decide)
    rw [if_pos same, BitVec.getLsbD_and, BitVec.getLsbD_not,
      getLsbD_one_shift _ _ (mod_lt _ (by decide)), same, Bool.and_comm]
    have : (m % 8 = n % 8) ↔ m = n := by omega
    simp [width, this]
  · have ne : m ≠ n := fun h => same (h ▸ rfl)
    simp [same, ne]

theorem bitAt_memcpy (fits : offset + src.length ≤ bs.length) (m : Nat) :
    bitAt (memcpy bs offset src) m =
      if 8 * offset ≤ m ∧ m < 8 * (offset + src.length) then bitAt src (m - 8 * offset)
      else bitAt bs m := by
  unfold bitAt
  rw [byteAt_memcpy fits]
  by_cases inside : offset ≤ m / 8 ∧ m / 8 < offset + src.length
  · rw [if_pos inside, if_pos (by omega), show (m - 8 * offset) / 8 = m / 8 - offset by omega,
      show (m - 8 * offset) % 8 = m % 8 by omega]
  · rw [if_neg inside, if_neg (by omega)]

theorem byteAt_replicate {i : Nat} (c : BitVec 8) (h : i < n) : byteAt (replicate n c) i = c := by
  simp [byteAt, getD_eq_getElem?_getD, h]

theorem bitAt_memset (c : BitVec 8) (fits : offset + n ≤ bs.length) (m : Nat) :
    bitAt (memset bs offset c n) m =
      if 8 * offset ≤ m ∧ m < 8 * (offset + n) then c.getLsbD (m % 8) else bitAt bs m := by
  rw [memset, bitAt_memcpy (by simpa using fits), length_replicate]
  by_cases inside : 8 * offset ≤ m ∧ m < 8 * (offset + n)
  · rw [if_pos inside, if_pos inside, bitAt, byteAt_replicate c (by omega)]
    congr 1
    omega
  · rw [if_neg inside, if_neg inside]

theorem length_memset (c : BitVec 8) (fits : offset + n ≤ bs.length) :
    (memset bs offset c n).length = bs.length :=
  length_memcpy (by simpa using fits)

theorem byteAt_eq_iff (bs : Buffer) (i : Nat) (c : BitVec 8) :
    byteAt bs i = c ↔ ∀ j < 8, bitAt bs (8 * i + j) = c.getLsbD j := by
  constructor
  · intro h j hj
    unfold bitAt
    rw [show (8 * i + j) / 8 = i by omega, show (8 * i + j) % 8 = j by omega, h]
  · intro h
    apply BitVec.eq_of_getLsbD_eq
    intro j hj
    have := h j hj
    unfold bitAt at this
    rwa [show (8 * i + j) / 8 = i by omega, show (8 * i + j) % 8 = j by omega] at this

end E2fs.Bytes
