import Mathlib.Tactic

/-! Searching an interval of positions for the first one with a property. -/
namespace E2fs.First
open Nat

variable {P Q : Nat → Prop} {lo mid hi : Nat} {found : Option Nat}

/-- `found` is the least position of `[lo, hi)` with the property, or there is none. -/
def IsFirst (P : Nat → Prop) (lo hi : Nat) : Option Nat → Prop
  | some p => lo ≤ p ∧ p < hi ∧ P p ∧ ∀ q, lo ≤ q → q < p → ¬ P q
  | none => ∀ q, lo ≤ q → q < hi → ¬ P q

theorem IsFirst.skip (order : lo ≤ mid) (dull : ∀ q, lo ≤ q → q < mid → ¬ P q)
    (rest : IsFirst P mid hi found) : IsFirst P lo hi found := by
  cases found with
  | none =>
    intro q low high
    by_cases h : q < mid
    · exact dull q low h
    · exact rest q (by omega) high
  | some p =>
    obtain ⟨low, high, hit, first⟩ := rest
    refine ⟨by omega, high, hit, fun q hq hp => ?_⟩
    by_cases h : q < mid
    · exact dull q hq h
    · exact first q (by omega) hp

theorem IsFirst.here (hit : P lo) (order : lo < hi) : IsFirst P lo hi (some lo) :=
  ⟨le_refl _, order, hit, fun q low high => by omega⟩

theorem IsFirst.congr (same : ∀ q, lo ≤ q → q < hi → (P q ↔ Q q)) (h : IsFirst P lo hi found) :
    IsFirst Q lo hi found := by
  rcases found with _ | p
  · exact fun q low high hq => h q low high ((same q low high).mpr hq)
  obtain ⟨low, high, hit, first⟩ := h
  exact ⟨low, high, (same p low high).mp hit, fun q hq hp hQ =>
    first q hq hp ((same q hq (by omega)).mpr hQ)⟩

theorem IsFirst.shift (d : Nat) (h : IsFirst (fun p => P (p + d)) lo hi found) :
    IsFirst P (lo + d) (hi + d) (found.map (· + d)) := by
  cases found with
  | none =>
    intro q low high hq
    refine h (q - d) (by omega) (by omega) ?_
    simpa only [Nat.sub_add_cancel (show d ≤ q by omega)] using hq
  | some p =>
    obtain ⟨low, high, hit, first⟩ := h
    refine ⟨Nat.add_le_add_right low d, Nat.add_lt_add_right high d, hit, fun q hq hp hQ => ?_⟩
    refine first (q - d) (by omega) (by dsimp only at hp; omega) ?_
    simpa only [Nat.sub_add_cancel (show d ≤ q by omega)] using hQ

/- Searching cell by cell: the cells are the blocks `p / w`, and the first position
is the start of the first cell, but not before the interval. -/
theorem IsFirst.cells (w : Nat) (pos : 0 < w) (order : lo < hi)
    (h : IsFirst P (lo / w) ((hi - 1) / w + 1) found) :
    IsFirst (fun p => P (p / w)) lo hi (found.map fun c => max (c * w) lo) := by
  cases found with
  | none =>
    intro q low high
    exact h (q / w) (Nat.div_le_div_right low) (lt_succ_of_le (Nat.div_le_div_right (by omega)))
  | some c =>
    obtain ⟨low, high, hit, first⟩ := h
    have cell : max (c * w) lo / w = c := by
      apply le_antisymm
      · rw [div_le_iff_le_mul_add_pred pos]
        have : lo < w * (c + 1) := by
          have := lt_mul_div_succ lo pos
          calc lo < w * (lo / w + 1) := this
            _ ≤ w * (c + 1) := Nat.mul_le_mul_left _ (by omega)
        have e : w * (c + 1) = c * w + w := by ring
        have e' : w * c = c * w := by ring
        omega
      · rw [Nat.le_div_iff_mul_le pos]
        exact le_max_left _ _
    refine ⟨le_max_right _ _, ?_, by simpa only [cell] using hit, fun q hq hp => ?_⟩
    · have : c * w ≤ hi - 1 := by
        rw [← Nat.le_div_iff_mul_le pos]
        omega
      exact max_lt (by omega) order
    · have early : q / w < c := by
        rw [Nat.div_lt_iff_lt_mul pos]
        rcases lt_max_iff.mp hp with h | h
        · exact h
        · omega
      exact first (q / w) (Nat.div_le_div_right hq) early

end E2fs.First
