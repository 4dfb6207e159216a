import Mathlib.Tactic

/-! Machine words. A word of width `w` is a natural number below `2 ^ w`; sums
and differences wrap. Every lemma takes the range facts it needs explicitly, so
no proof can use unwrapped arithmetic by accident. -/
namespace E2fs.Word

@[irreducible] def add64 (a b : Nat) : Nat := (a + b) % 2 ^ 64
@[irreducible] def sub64 (a b : Nat) : Nat := (2 ^ 64 - b + a) % 2 ^ 64

theorem add64_eq {a b : Nat} (h : a + b < 2 ^ 64) : add64 a b = a + b := by
  unfold add64
  exact Nat.mod_eq_of_lt h

theorem sub64_eq {a b : Nat} (le : b ≤ a) (h : a < 2 ^ 64) : sub64 a b = a - b := by
  unfold sub64
  omega

theorem add64_lt (a b : Nat) : add64 a b < 2 ^ 64 := by
  unfold add64
  exact Nat.mod_lt _ (by decide)

/- The `int` that a wider unsigned value is stored into, and an `int` added to a
64-bit word or taken from a 32-bit one. -/
def toInt32 (a : Nat) : Int := (a : Int).bmod (2 ^ 32)

@[irreducible] def offset64 (a : Nat) (n : Int) : Nat := (((a : Int) + n) % 2 ^ 64).toNat

@[irreducible] def drop32 (a : Nat) (n : Int) : Nat := (((a : Int) - n) % 2 ^ 32).toNat

theorem toInt32_eq {a : Nat} (h : a < 2 ^ 31) : toInt32 a = a := by
  unfold toInt32
  rw [Int.bmod_def]
  omega

theorem bmod64_eq {a : Nat} (h : a < 2 ^ 63) : (a : Int).bmod (2 ^ 64) = a := by
  rw [Int.bmod_def]
  omega

theorem toNat_mod64 {a : Nat} (h : a < 2 ^ 64) : ((a : Int) % 2 ^ 64).toNat = a := by
  omega

theorem offset64_eq {a n : Nat} (h : a + n < 2 ^ 64) : offset64 a n = a + n := by
  unfold offset64
  omega

theorem drop32_eq {a n : Nat} (le : n ≤ a) (h : a < 2 ^ 32) : drop32 a n = a - n := by
  unfold drop32
  omega

end E2fs.Word
