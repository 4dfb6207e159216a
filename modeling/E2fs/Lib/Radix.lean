import Mathlib.Tactic

/-! Radix trees in blocks of `n` references, zero for none. A node is found by its depth and
the number that the digits on the way to it make. -/
namespace E2fs.Radix
open Nat

variable {n root : Nat} {ref ref' : Nat → Nat → Nat}

def node (n : Nat) (ref : Nat → Nat → Nat) (root : Nat) : Nat → Nat → Nat
  | 0, _ => root
  | d + 1, p => if node n ref root d (p / n) = 0 then 0 else ref (node n ref root d (p / n)) (p % n)

@[simp] theorem node_zero (p : Nat) : node n ref root 0 p = root := rfl

theorem node_succ (d p : Nat) : node n ref root (d + 1) p =
    if node n ref root d (p / n) = 0 then 0 else ref (node n ref root d (p / n)) (p % n) := rfl

theorem div_lt_pow {d p : Nat} (lt : p < n ^ (d + 1)) : p / n < n ^ d := by
  rw [Nat.div_lt_iff_lt_mul]
  · rwa [pow_succ] at lt
  · apply pos_of_ne_zero
    rintro rfl
    simp at lt

theorem digit_lt {d p : Nat} (lt : p < n ^ (d + 1)) : p % n < n := by
  apply mod_lt
  apply pos_of_ne_zero
  rintro rfl
  simp at lt

theorem node_congr {k : Nat} (same : ∀ d < k, ∀ p < n ^ d, node n ref root d p ≠ 0 → ∀ i < n,
      ref' (node n ref root d p) i = ref (node n ref root d p) i) :
    ∀ d ≤ k, ∀ p < n ^ d, node n ref' root d p = node n ref root d p := by
  intro d
  induction d with
  | zero => exact fun _ _ _ => rfl
  | succ d ih =>
    intro le p lt
    rw [node_succ, node_succ, ih (by omega) _ (div_lt_pow lt)]
    split_ifs with nonzero
    · rfl
    · exact same d le _ (div_lt_pow lt) nonzero _ (digit_lt lt)

/- A change along the path to one key: `path` has the new nodes. A node may come new on the
path, with no references but the one to the next, or go with all that is below it. -/
theorem node_path {pre path : Nat → Nat} {k : Nat} (prefixes : ∀ d < k, pre (d + 1) / n = pre d)
    (start : path 0 = root)
    (away : ∀ d < k, ∀ p < n ^ d, p ≠ pre d → node n ref root d p ≠ 0 → ∀ i < n,
      ref' (node n ref root d p) i = ref (node n ref root d p) i)
    (along : ∀ d < k, path d ≠ 0 → ∀ i < n, ref' (path d) i =
      if i = pre (d + 1) % n then path (d + 1)
      else if node n ref root d (pre d) = 0 then 0 else ref (node n ref root d (pre d)) i)
    (cut : ∀ d < k, path d = 0 → path (d + 1) = 0 ∧ ∀ i < n, i ≠ pre (d + 1) % n →
      node n ref root d (pre d) ≠ 0 → ref (node n ref root d (pre d)) i = 0) :
    ∀ d ≤ k, ∀ p < n ^ d, node n ref' root d p =
      if p = pre d then path d else node n ref root d p := by
  intro d
  induction d with
  | zero =>
    intro _ p _
    rw [node_zero, node_zero, start]
    split <;> rfl
  | succ d ih =>
    intro le p lt
    have up := prefixes d le
    rw [node_succ, ih (by omega) _ (div_lt_pow lt)]
    by_cases onPath : p / n = pre d
    · have same : p = pre (d + 1) ↔ p % n = pre (d + 1) % n := by
        constructor
        · exact fun eq => congrArg (· % n) eq
        · intro eq
          rw [← div_add_mod p n, ← div_add_mod (pre (d + 1)) n, onPath, up, eq]
      rw [if_pos onPath, node_succ, onPath]
      by_cases gone : path d = 0
      · obtain ⟨next, empty⟩ := cut d le gone
        rw [if_pos gone]
        split
        · exact next.symm
        · rename_i other
          split_ifs with there
          · rfl
          · exact (empty _ (digit_lt lt) (fun eq => other (same.mpr eq)) there).symm
      · rw [if_neg gone, along d le gone _ (digit_lt lt)]
        simp only [same]
    · have other : p ≠ pre (d + 1) := by
        rintro rfl
        exact onPath up
      rw [if_neg onPath, if_neg other, node_succ]
      split_ifs with there
      · rfl
      · exact away d le _ (div_lt_pow lt) onPath there _ (digit_lt lt)

end E2fs.Radix
