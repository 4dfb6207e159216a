import E2fs.Bitmap.RbRefinement

/-! The searches of the tree backend. -/
namespace E2fs.Rb
open Word Rbtree Bitmap First List

variable {size : Nat}

theorem covered_inside {as bs : List BmapRbExtent} {x : BmapRbExtent} {p : Nat}
    (low : x.start ≤ p) (high : p < x.start + x.count) : Covered (as ++ x :: bs) p :=
  ⟨x, by simp, low, high⟩

/- No extent touches another: the position after an extent is clear. -/
theorem not_covered_after {as bs : List BmapRbExtent} {x : BmapRbExtent}
    (apart : Apart size (as ++ x :: bs)) : ¬ Covered (as ++ x :: bs) (x.start + x.count) := by
  have place := apart.between
  rw [covered_append, covered_cons]
  rintro (h | h | h)
  · have := place.covered_before h
    omega
  · omega
  · exact absurd (place.covered_after h) (lt_irrefl _)

theorem rbFindFirstZero_spec {b : Bounds} {bp : RbPrivate} (sound : Sound b.size bp)
    {start stop : Nat} (low : b.start ≤ start) (order : start ≤ stop) (high : stop ≤ b.realEnd)
    (filled : bp.root ≠ .nil) :
    FirstResult (fun p => p ∉ bits b bp) start stop (rbFindFirstZero b bp start stop) := by
  have word := b.realEnd_lt
  have relStart := sub64_eq low (by omega)
  have relStop : sub64 stop b.start = stop - b.start := sub64_eq (by omega) (by omega)
  have back : ∀ r, r ≤ stop - b.start → add64 r b.start = r + b.start := by
    intro r hr
    exact add64_eq (by omega)
  simp only [rbFindFirstZero, relStart, relStop]
  rw [if_neg (by omega), if_neg filled]
  rcases bit_search b.size_lt sound.apart (start - b.start) with
    ⟨c, l, x, r, up, stopped, first, last, here⟩ | ⟨up, stopped, -, here, before, after⟩
  · simp only [stopped]
    have apart : Apart b.size ((lefts up ++ l.inorder) ++ x :: (r.inorder ++ rights up)) :=
      here ▸ sound.apart
    have ends := stop_eq b.size_lt (apart.inside x (by simp))
    have covered : ∀ q, start ≤ q → q < x.start + x.count + b.start → q ∈ bits b bp := by
      intro q h1 h2
      refine ⟨by omega, ?_⟩
      rw [here]
      exact covered_inside (by omega) (by omega)
    rw [ends]
    by_cases free : x.start + x.count ≤ stop - b.start
    · rw [if_pos free, back _ free]
      refine ⟨by omega, by omega, ?_, fun q h1 h2 => not_not.mpr (covered q h1 h2)⟩
      rintro ⟨-, hit⟩
      rw [Nat.add_sub_cancel, here] at hit
      exact not_covered_after apart hit
    · rw [if_neg free]
      exact fun q h1 h2 => not_not.mpr (covered q h1 (by omega))
  · simp only [stopped]
    rw [back _ (by omega), Nat.sub_add_cancel low]
    have clear : start ∉ bits b bp := by
      rintro ⟨-, hit⟩
      rw [here] at hit
      exact not_covered_of_gap before after hit
    exact IsFirst.here (P := fun p => p ∉ bits b bp) clear (Nat.lt_succ_of_le order)

theorem setAfter_spec {root : RbTree BmapRbExtent} {start : Nat} {up : List (Frame BmapRbExtent)}
    (whole : plug .nil up = root) (apart : Apart size (lefts up ++ rights up))
    (before : ∀ a ∈ lefts up, a.start + a.count ≤ start)
    (after : ∀ e ∈ rights up, start < e.start) : setAfter root start up = (rights up).head? := by
  rcases up with _ | ⟨frame, up⟩
  · rfl
  cases frame with
  | left c x r =>
    have later := Nat.not_lt.mpr (after x (by simp [rights])).le
    exact (if_neg later).trans (by simp [rights, Frame.value])
  | right c l x =>
    have pos := apart.filled x (by simp [lefts])
    have earlier : x.start < start := by
      have := before x (by simp [lefts])
      omega
    have nodup : (root.inorder.map (·.addr)).Nodup := by
      rw [← whole, inorder_plug]
      simpa using apart.distinct
    have place : root.inorder = (lefts up ++ l.inorder) ++ x :: rights up := by
      rw [← whole, inorder_plug]
      simp [lefts, rights]
    exact (if_pos earlier).trans ((nextOf_at nodup place).trans (by simp [rights]))

theorem rbFindFirstSet_spec {b : Bounds} {bp : RbPrivate} (sound : Sound b.size bp)
    {start stop : Nat} (low : b.start ≤ start) (order : start ≤ stop) (high : stop ≤ b.realEnd) :
    FirstResult (fun p => p ∈ bits b bp) start stop (rbFindFirstSet b bp start stop) := by
  have word := b.realEnd_lt
  have relStart := sub64_eq low (by omega)
  have relStop : sub64 stop b.start = stop - b.start := sub64_eq (by omega) (by omega)
  simp only [rbFindFirstSet, relStart, relStop]
  rw [if_neg (by omega)]
  by_cases empty : bp.root = .nil
  · rw [if_pos empty]
    intro q _ _ hq
    simpa [bits, RbPrivate.extents, empty] using hq.2
  rw [if_neg empty]
  rcases bit_search b.size_lt sound.apart (start - b.start) with
    ⟨c, l, x, r, up, stopped, first, last, here⟩ | ⟨up, stopped, whole, here, left, right⟩
  · simp only [stopped]
    rw [add64_eq (by omega), Nat.sub_add_cancel low]
    exact IsFirst.here ⟨low, x, by simp [here], first, last⟩ (by omega)
  simp only [stopped]
  have apart : Apart b.size (lefts up ++ rights up) := here ▸ sound.apart
  -- nothing to the left reaches the range, so only the extents to the right count
  have only : ∀ q, start ≤ q → q ∈ bits b bp → Covered (rights up) (q - b.start) := by
    rintro q hq ⟨-, hit⟩
    rw [here, covered_append] at hit
    rcases hit with hit | hit
    · have := covered_lt left hit
      omega
    · exact hit
  rw [setAfter_spec whole apart left right]
  cases rest : rights up with
  | nil =>
    rw [rest] at only
    exact fun q h1 _ hq => by simpa using only q h1 hq
  | cons x xs =>
    simp only [List.head?_cons]
    have first : ∀ q, start ≤ q → q < x.start + b.start → q ∉ bits b bp := by
      intro q h1 h2 hq
      have hit := only q h1 hq
      rw [rest] at hit
      have := (rest ▸ apart.sublist (sublist_append_right _ _)).first_le hit
      omega
    have pos := apart.filled x (by simp [rest])
    have := right x (by simp [rest])
    by_cases near : x.start ≤ stop - b.start
    · rw [if_pos near, add64_eq (by omega)]
      refine ⟨by omega, by omega, ⟨by omega, ?_⟩, first⟩
      rw [Nat.add_sub_cancel, here, rest]
      exact covered_inside (le_refl _) (by omega)
    · rw [if_neg near]
      exact fun q h1 h2 => first q h1 (by omega)

end E2fs.Rb
