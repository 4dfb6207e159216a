import E2fs.Bitmap.Agreement
import E2fs.Lib.Loop

/-! lib/ext2fs/gen_bitmap64.c: `ext2fs_count_used_clusters`. It goes from run to run of
set bits and steps over the clear position after each; when that leaves only the last
position of the range, it is not looked at. -/
namespace E2fs.Generic
open Word Bitmap Loop First Nat

/- `retval` has no value before the first search; between rounds it is 0. -/
structure CountState where
  start : Nat
  totSet : Nat
  assigned : Bool

def numB2C (clusterBits blks : Nat) : Nat := add64 blks (2 ^ clusterBits - 1) >>> clusterBits

/- One round, on a bitmap of the granularity of the file system. The result is `none`
when the function tests a `retval` that nothing has set. -/
def countRound (bm : GenericBitmap64) (stop : Nat) (s : CountState) :
    Round CountState (Option (Except Errcode Nat)) :=
  if s.start < stop then
    match ext2fsFindFirstSetGenericBmap bm s.start stop with
    | .error .enoent => .done (some (.ok (numB2C bm.clusterBits s.totSet)))
    | .error code => .done (some (.error code))
    | .ok start =>
      match ext2fsFindFirstZeroGenericBmap bm start stop with
      | .ok next => .again ⟨add64 next 1, add64 s.totSet (sub64 next start), true⟩
      | .error .enoent =>
        .done (some (.ok (numB2C bm.clusterBits (add64 s.totSet (add64 (sub64 stop start) 1)))))
      | .error code => .done (some (.error code))
  else .done (if s.assigned then some (.ok (numB2C bm.clusterBits s.totSet)) else none)

def ext2fsCountUsedClusters (bm : GenericBitmap64) (start stop fuel : Nat) :
    Option (Option (Except Errcode Nat)) :=
  runLoop (countRound bm stop) fuel ⟨start, 0, false⟩

section Counting

open Classical

noncomputable def countIn (P : Nat → Prop) (first stop : Nat) : Nat :=
  Nat.count P stop - Nat.count P first

variable {P : Nat → Prop} {a b c : Nat} (low : a ≤ b)
include low

theorem countIn_split (high : b ≤ c) : countIn P a c = countIn P a b + countIn P b c := by
  have := count_monotone P low
  have := count_monotone P high
  unfold countIn
  omega

theorem countIn_const {q : Prop} (same : ∀ p, a ≤ p → p < b → (P p ↔ q)) :
    countIn P a b = if q then b - a else 0 := by
  induction b, low using le_induction with
  | base => simp [countIn]
  | succ b low ih =>
    rw [countIn_split low (le_succ b), ih fun p lo hi => same p lo (by omega)]
    simp only [countIn, count_succ, same b low (by omega)]
    split <;> omega

theorem countIn_cells (w : Nat) : countIn (fun p => P (p / w)) (w * a)
    (w * b) = w * countIn P a b := by
  induction b, low using le_induction with
  | base => simp [countIn]
  | succ b low ih =>
    have next := Nat.mul_le_mul_left w (le_succ b)
    rw [countIn_split (Nat.mul_le_mul_left w low) next, countIn_split low (le_succ b), ih,
      mul_add w (countIn P a b)]
    have cell : ∀ p, w * b ≤ p → p < w * (b + 1) → (P (p / w) ↔ P b) := fun p lo hi => by
      rw [Nat.div_eq_of_lt_le (by rwa [mul_comm]) (by rwa [mul_comm])]
    rw [countIn_const next cell]
    simp only [countIn, count_succ, mul_succ]
    split <;> simp

end Counting

def GenericBitmap64.Used (bm : GenericBitmap64) (block : Nat) : Prop :=
  block >>> bm.clusterBits ∈ bm.bits

/-- The last position of the range is set and not looked at: it stands alone, or behind
the one clear position after a run. -/
def Missed (P : Nat → Prop) (start stop : Nat) : Prop :=
  P stop ∧ (start = stop ∨ start + 2 ≤ stop ∧ P (stop - 2) ∧ ¬ P (stop - 1))

section Run

/- From `first` on the positions are clear, and set from `next` to `gap`. -/
variable {P : Nat → Prop} {first next gap stop : Nat} (dull : ∀ p, first ≤ p → p < next → ¬ P p)
include dull

theorem not_missed_of_full (before : first < stop) (full : ∀ p, next ≤ p → p < stop + 1 → P p) :
    ¬ Missed P first stop := by
  rintro ⟨-, same | ⟨room, set, clear⟩⟩
  · omega
  · have : stop - 1 < next := by
      by_contra le
      exact clear (full _ (by omega) (by omega))
    exact dull (stop - 2) (by omega) (by omega) set

variable (after : first ≤ next) (from_ : next ≤ gap) (upto : gap < stop + 1)
  (full : ∀ p, next ≤ p → p < gap → P p) (clear : ¬ P gap)
include after from_ upto full clear

omit dull in
theorem missed_behind_gap (hit : P next) (more : first < stop) :
    Missed P first stop ↔ Missed P (gap + 1) stop := by
  rcases lt_trichotomy (gap + 1) stop with below | rfl | past
  · simp only [Missed]
    grind
  · simp only [Missed]
    grind
  · obtain rfl : gap = stop := by omega
    exact ⟨fun missed => (clear missed.1).elim, fun missed => (clear missed.1).elim⟩

theorem countIn_run :
    countIn P first (stop + 1) = gap - next + countIn P (gap + 1) (stop + 1) := by
  rw [countIn_split after (from_.trans upto.le), countIn_split from_ upto.le,
    countIn_split (Nat.le_add_right gap 1) upto,
    countIn_const after fun p lo hi => iff_false_intro (dull p lo hi), if_neg id,
    countIn_const from_ fun p lo hi => iff_true_intro (full p lo hi), if_pos trivial,
    countIn_const (Nat.le_add_right gap 1) fun p lo hi => iff_false_intro (show ¬ P p by
      rwa [show p = gap by omega]), if_neg id, zero_add, zero_add]

end Run

section Count

variable {bm : GenericBitmap64} {start stop : Nat}

open Classical in
theorem count_from (sound : bm.Sound) (range : bm.HasRange start stop)
    (room : stop + 2 ^ bm.clusterBits < 2 ^ 64) (s : CountState) (low : start ≤ s.start)
    (high : s.start ≤ stop + 1) (small : s.totSet ≤ s.start) (ready : s.assigned ∨ s.start < stop) :
    ∃ fuel total,
    runLoop (countRound bm stop) fuel s = some (some (.ok (numB2C bm.clusterBits total))) ∧
      total + (if Missed bm.Used s.start stop then 1 else 0) =
        s.totSet + countIn bm.Used s.start (stop + 1) := by
  have pos : 0 < 2 ^ bm.clusterBits := Nat.two_pow_pos _
  have inside : ∀ p, start ≤ p → p ≤ stop → bm.HasRange p stop := fun p le order =>
    ⟨order, range.2.1, range.2.2.1.trans (shift_mono le), range.2.2.2⟩
  induction gap : stop + 1 - s.start using Nat.strong_induction_on generalizing s with
  | _ n ih =>
    obtain ⟨first, tot, assigned⟩ := s
    dsimp only at *
    by_cases more : first < stop
    · have set : FirstResult bm.Used first stop _ :=
        set_search_exact sound (inside first low more.le)
      cases found : ext2fsFindFirstSetGenericBmap bm first stop with
      | error code =>
        rw [found] at set
        cases code with
        | einval => exact set.elim
        | enoent =>
          refine ⟨1, tot, by simp [runLoop, countRound, more, found], ?_⟩
          rw [countIn_const high fun p lo hi => iff_false_intro (set p lo hi), if_neg id,
            if_neg fun missed => set stop more.le (lt_succ_self _) missed.1]
      | ok next =>
        rw [found] at set
        obtain ⟨after, before, hit, dull⟩ := set
        have filled : ¬ bm.EmptyTree :=
          fun empty => by simp [GenericBitmap64.Used, empty_tree_bits empty] at hit
        have zero : FirstResult (¬ bm.Used ·) next stop _ :=
          (searches_exactly_of_filled sound (inside next (by omega) (by omega)) filled).1
        cases ends : ext2fsFindFirstZeroGenericBmap bm next stop with
        | error code =>
          rw [ends] at zero
          cases code with
          | einval => exact zero.elim
          | enoent =>
            have full : ∀ p, next ≤ p → p < stop + 1 → bm.Used p :=
              fun p lo hi => not_not.mp (zero p lo hi)
            refine ⟨1, tot + (stop - next + 1), ?_, ?_⟩
            · simp only [runLoop, countRound, more, if_true, found, ends]
              rw [sub64_eq (by omega) (by omega), add64_eq (a := stop - next) (by omega),
                add64_eq (by omega)]
            · rw [countIn_split after before.le,
                countIn_const after fun p lo hi => iff_false_intro (dull p lo hi), if_neg id,
                countIn_const before.le fun p lo hi => iff_true_intro (full p lo hi),
                if_pos trivial, if_neg (not_missed_of_full dull more full)]
              omega
        | ok gap =>
          rw [ends] at zero
          obtain ⟨from_, upto, clear, full⟩ := zero
          obtain ⟨fuel, total, run, sum⟩ :=
            ih _ (by dsimp only; omega) ⟨gap + 1, tot + (gap - next), true⟩
            (by dsimp only; omega) (by dsimp only; omega) (by dsimp only; omega) (.inl rfl) rfl
          refine ⟨fuel + 1, total, ?_, ?_⟩
          · simp only [runLoop, countRound, more, if_true, found, ends]
            rw [sub64_eq (by omega) (by omega), add64_eq (a := gap) (by omega), add64_eq (by omega)]
            exact run
          · replace full := fun p lo hi => not_not.mp (full p lo hi)
            rw [countIn_run dull after from_ upto full clear]
            simp only [missed_behind_gap after from_ upto full clear hit more]
            dsimp only at sum
            omega
    · refine ⟨1, tot, by simp [runLoop, countRound, more, ready.resolve_right more], ?_⟩
      rcases lt_or_ge stop first with past | last
      · obtain rfl : first = stop + 1 := by omega
        rw [if_neg fun missed => by have := missed.2; omega]
        simp [countIn]
      · obtain rfl : first = stop := by omega
        simp [Missed, countIn, count_succ]

/-- The call returns 0 and the number of set clusters of the range. -/
def CountsExactly (bm : GenericBitmap64) (start stop : Nat) : Prop :=
  ∃ fuel, ext2fsCountUsedClusters bm start stop fuel = some (some (.ok
    (countIn (· ∈ bm.bits) (start >>> bm.clusterBits) (stop >>> bm.clusterBits + 1))))

/-- The count of whole clusters is exact unless the range is one block long or its last
block is missed. -/
theorem counts_exactly_iff (bm : GenericBitmap64) (start stop : Nat) (sound : bm.Sound)
    (range : bm.HasRange start stop) (room : stop + 2 ^ bm.clusterBits < 2 ^ 64)
    (first : 2 ^ bm.clusterBits ∣ start) (last : 2 ^ bm.clusterBits ∣ stop + 1) :
    CountsExactly bm start stop ↔ start < stop ∧ ¬ Missed bm.Used start stop := by
  have pos : 0 < 2 ^ bm.clusterBits := Nat.two_pow_pos _
  have used : countIn bm.Used start (stop + 1) =
      2 ^ bm.clusterBits * countIn (· ∈ bm.bits) (start >>> bm.clusterBits)
          (stop >>> bm.clusterBits + 1) := by
    have same : bm.Used = fun p => p / 2 ^ bm.clusterBits ∈ bm.bits := by
      simp only [funext_iff, GenericBitmap64.Used, shiftRight_eq_div_pow, implies_true]
    have order : start / 2 ^ bm.clusterBits ≤ stop / 2 ^ bm.clusterBits :=
      Nat.div_le_div_right range.1
    rw [shiftRight_eq_div_pow, shiftRight_eq_div_pow, ← countIn_cells (by omega), same,
      Nat.mul_div_cancel' first, ← succ_div_of_dvd last, Nat.mul_div_cancel' last]
  by_cases more : start < stop
  · obtain ⟨fuel, total, run, sum⟩ :=
      count_from sound range room ⟨start, 0, false⟩ (le_refl _) (by dsimp only; omega)
      (Nat.zero_le _) (.inr more)
    rw [zero_add] at sum
    have small : total ≤ stop + 1 := by
      have := @Nat.count_le bm.Used (Classical.decPred _) (stop + 1)
      simp only [countIn] at sum
      omega
    rw [used] at sum
    simp only [CountsExactly, more, true_and]
    generalize countIn (· ∈ bm.bits) (start >>> bm.clusterBits) (stop >>> bm.clusterBits + 1) =
      clusters at *
    have value :
        numB2C bm.clusterBits total = (total + (2 ^ bm.clusterBits - 1)) / 2 ^ bm.clusterBits := by
      rw [numB2C, add64_eq (by omega), shiftRight_eq_div_pow]
    constructor
    · rintro ⟨fuel', run'⟩ missed
      have exactly : numB2C bm.clusterBits total = clusters := by
        simpa using runLoop_unique run run'
      -- two neighbours that differ are not in one cluster
      have cut : 2 ^ bm.clusterBits ∣ stop := by
        obtain ⟨set, alone | ⟨-, -, clear⟩⟩ := missed
        · omega
        · by_contra inner
          obtain ⟨before, rfl⟩ : ∃ p, stop = p + 1 := ⟨stop - 1, by omega⟩
          simp only [GenericBitmap64.Used, shiftRight_eq_div_pow, succ_div_of_not_dvd inner]
            at set clear
          exact clear set
      have single : 2 ^ bm.clusterBits = 1 := dvd_one.mp ((Nat.dvd_add_right cut).mp last)
      rw [value, single] at exactly
      rw [if_pos missed, single] at sum
      omega
    · intro missed
      rw [if_neg missed] at sum
      refine ⟨fuel, run.trans ?_⟩
      rw [value, show total = 2 ^ bm.clusterBits * clusters by omega, mul_add_div pos,
        div_eq_of_lt (by omega), add_zero]
  · have none : ext2fsCountUsedClusters bm start stop 1 = some none := by
      simp [ext2fsCountUsedClusters, runLoop, countRound, more]
    refine ⟨?_, fun h => (more h.1).elim⟩
    rintro ⟨fuel, run⟩
    cases runLoop_unique none run

end Count

def fiveMap : GenericBitmap64 := ⟨Rb.smallBounds, 0, .bitarray ⟨[5, 0, 0, 0], 0⟩⟩

theorem fiveMap_used {p : Nat} (small : p < 4) : fiveMap.Used p ↔ p = 0 ∨ p = 2 := by
  interval_cases p <;>
    simp [GenericBitmap64.Used, GenericBitmap64.bits, fiveMap, Private.bits, Ba.bits, Bytes.bitAt,
      Bytes.byteAt, Rb.smallBounds]

theorem counts_exactly_on_fiveMap : CountsExactly fiveMap 0 3 := by
  refine (counts_exactly_iff fiveMap 0 3 ?_ ?_ (by decide) (by decide) (by decide)).mpr
    ⟨by decide, fun missed => ?_⟩
  · simp [GenericBitmap64.Sound, fiveMap, Private.Sound, Ba.Sized, Rb.smallBounds]
  · simp [GenericBitmap64.HasRange, fiveMap, Rb.smallBounds]
  · simpa using (fiveMap_used (by decide)).mp missed.1

/- The range of blocks 0 to 2 is counted as one used block; that of block 0 alone leaves
`retval` without a value. -/
theorem last_block_missed :
    ext2fsCountUsedClusters fiveMap 0 2 2 = some (some (.ok 1)) ∧ ¬ CountsExactly fiveMap 0 2 ∧
      ext2fsCountUsedClusters fiveMap 0 0 1 = some none := by
  have run : ext2fsCountUsedClusters fiveMap 0 2 2 = some (some (.ok 1)) := by decide +kernel
  refine ⟨run, fun ⟨fuel, result⟩ => ?_, by decide +kernel⟩
  have two : countIn (· ∈ fiveMap.bits) 0 (0 + 1 + 1 + 1) = 2 := by
    have used : ∀ p < 3, p ∈ fiveMap.bits ↔ p = 0 ∨ p = 2 := fun p small => fiveMap_used (by omega)
    simp [countIn, count_succ, used]
  have count := Except.ok.inj (Option.some.inj (runLoop_unique run result))
  exact absurd (count.trans two) (by decide)

end E2fs.Generic
