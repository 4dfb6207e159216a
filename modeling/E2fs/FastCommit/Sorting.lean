import E2fs.FastCommit.ExtentList
import E2fs.Lib.Comparator

/-! The comparisons of e2fsck/journal.c under any `qsort` that sorts by an order. -/
namespace E2fs.FastCommit
open Word Comparator List

variable {xs : List Extent} {qsort : Qsort}

def live (xs : List Extent) : List Extent := xs.filter fun e => decide (e.len ≠ 0)

/- The longer of two extents is the later one. -/
def Together (xs : List Extent) : Prop :=
  ∀ a ∈ xs, ∀ b ∈ xs, (a.len < b.len ↔ a.lblk < b.lblk)

/- Lengths of extents with one first block less than `2 ^ 31` apart. -/
def Close (xs : List Extent) : Prop :=
  ∀ a ∈ xs, ∀ b ∈ xs, a.lblk = b.lblk → a.len < b.len + 2 ^ 31

theorem Together.close (together : Together xs) : Close xs := by
  intro a ha b hb same
  have := together b hb a ha
  omega

theorem exLenCompar_le {a b : Extent} : exLenCompar a b ≤ 0 ↔ b.len ≤ a.len := by
  unfold exLenCompar
  split_ifs <;> omega

theorem orders_exLenCompar : Orders exLenCompar xs ↔ Together xs := by
  constructor
  · intro orders a ha b hb
    have one := orders.opposite a ha b hb
    have other := orders.opposite b hb a ha
    unfold exLenCompar at one other
    split_ifs at one other <;> omega
  · intro together
    refine ⟨fun a ha b hb => ?_, fun a _ b _ c _ => ?_⟩
    · have one := together a ha b hb
      have other := together b hb a ha
      unfold exLenCompar
      split_ifs <;> omega
    · rw [exLenCompar_le, exLenCompar_le, exLenCompar_le]
      omega

theorem compares_exCompar (close : Close xs) :
    Compares exCompar (fun e => toLex (e.lblk, e.len)) xs := by
  intro a ha b hb
  rw [Prod.Lex.toLex_lt_toLex, Prod.Lex.toLex_lt_toLex]
  have one := close a ha b hb
  have other := close b hb a ha
  unfold exCompar toInt32 drop32
  split_ifs
  · omega
  · omega
  · rw [Int.bmod_def]
    omega

theorem takeWhile_eq_live (sorted : xs.Pairwise fun a b => b.len ≤ a.len) :
    xs.takeWhile (fun e => decide (e.len ≠ 0)) = live xs := by
  induction xs with
  | nil => rfl
  | cons e rest ih =>
    obtain ⟨first, rest_sorted⟩ := pairwise_cons.mp sorted
    by_cases zero : e.len = 0
    · have none : live rest = [] := by
        rw [live, filter_eq_nil_iff]
        intro f hf
        have := first f hf
        simp
        omega
      have none' : live (e :: rest) = live rest := by simp [live, zero]
      rw [takeWhile_cons_of_neg (by simp [zero]), none', none]
    · rw [takeWhile_cons_of_pos (by simp [zero]), ih rest_sorted]
      simp [live, zero]

/- Sorting by length brings the empty extents to the end, where they are dropped. -/
theorem kept_perm (sorts : Sorts qsort) (together : Together xs) :
    (qsort exLenCompar xs).Pairwise (fun a b => b.len ≤ a.len) ∧
      ((qsort exLenCompar xs).takeWhile fun e => decide (e.len ≠ 0)).Perm (live xs) := by
  obtain ⟨perm, sorted⟩ := sorts _ _ (orders_exLenCompar.mpr together)
  have sorted := sorted.imp exLenCompar_le.mp
  refine ⟨sorted, ?_⟩
  rw [takeWhile_eq_live sorted]
  exact perm.filter _

/-- Both comparisons are orders, and every sort by the first one brings the empty extents to
the end, exactly if the longer extents are the later ones. -/
theorem sorted_by_length (xs : List Extent) : (Orders exLenCompar xs ∧ Orders exCompar xs ∧
    ∀ qsort, Sorts qsort → (qsort exLenCompar xs).Pairwise (fun a b => a.len = 0 → b.len = 0) ∧
      ((qsort exLenCompar xs).takeWhile fun e => decide (e.len ≠ 0)).Perm (live xs)) ↔
    Together xs := by
  refine ⟨fun sorted => orders_exLenCompar.mp sorted.1, fun together => ?_⟩
  refine ⟨orders_exLenCompar.mpr together, (compares_exCompar together.close).orders, ?_⟩
  intro qsort sorts
  obtain ⟨sorted, perm⟩ := kept_perm sorts together
  exact ⟨sorted.imp fun le zero => by omega, perm⟩

/-- An empty extent behind a longer one: a sort may leave it in front, and all is lost.
Lengths `2 ^ 31` apart are each less than the other. -/
theorem longer_extent_lost : (∃ xs : List Extent, ∃ sort, Sorts sort ∧ ¬ Orders exLenCompar xs ∧
      (sort exLenCompar xs).takeWhile (fun e => decide (e.len ≠ 0)) = [] ∧ live xs ≠ []) ∧
    exCompar ⟨0, 0, 2 ^ 31, 0⟩ ⟨0, 0, 0, 0⟩ < 0 ∧ exCompar ⟨0, 0, 0, 0⟩ ⟨0, 0, 2 ^ 31, 0⟩ < 0 := by
  have none : ¬ Orders exLenCompar [⟨0, 10, 0, 0⟩, ⟨0, 5, 1, 0⟩] := by
    simp [orders_exLenCompar, Together]
  obtain ⟨sort, sorts, left⟩ := exists_sorts exLenCompar [⟨0, 10, 0, 0⟩, ⟨0, 5, 1, 0⟩]
  refine ⟨⟨_, sort, sorts, none, ?_, by decide⟩, by decide +kernel, by decide +kernel⟩
  rw [left none]
  rfl

/- Two extents in either order. -/
def Apart (a b : Extent) : Prop := a.lblk + a.len ≤ b.lblk ∨ b.lblk + b.len ≤ a.lblk

instance : Std.Symm Apart := ⟨fun _ _ h => h.symm⟩

theorem qsort_exCompar (sorts : Sorts qsort) (filled : ∀ e ∈ xs, 0 < e.len)
    (apart : xs.Pairwise Apart) : (qsort exCompar xs).Perm xs ∧
      (qsort exCompar xs).Pairwise fun a b => a.lblk + a.len ≤ b.lblk := by
  -- equal first blocks: it is one and the same extent
  have close : Close xs := by
    intro a ha b hb same
    by_cases one : a = b
    · rw [one]
      omega
    · have := filled a ha
      have := filled b hb
      rcases apart.forall ha hb one with h | h <;> omega
  obtain ⟨perm, sorted⟩ := (compares_exCompar close).sorted sorts
  have apart' := (perm.pairwise_iff fun h => h.symm).mpr apart
  refine ⟨perm, (sorted.and apart').imp_of_mem ?_⟩
  rintro a b - hb ⟨first, h | h⟩
  · exact h
  · have := filled b (perm.mem_iff.mp hb)
    rw [Prod.Lex.toLex_le_toLex] at first
    omega

end E2fs.FastCommit
