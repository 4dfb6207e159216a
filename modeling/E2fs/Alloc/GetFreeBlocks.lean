import E2fs.Alloc.NewRangeSound
import E2fs.Bitmap.Clusters

/-! lib/ext2fs/alloc.c: the search for a number of free blocks in a window, and when it
comes back. -/
namespace E2fs.Alloc
open Word Generic Loop

structure Window extends Super where
  start : Nat
  finish : Nat
  num : Nat

structure FreeScan where
  map : GenericBitmap64
  b : Nat

def freeRound (w : Window) (s : FreeScan) : Round FreeScan (Except RangeError Nat) :=
  let past := sub64 (add64 s.b w.num) 1 ≥ w.blocksCount
  if past ∧ w.finish > w.start then .done (.error .blockAllocFail)
  else
    let b := if past then w.firstDataBlock else s.b
    let out := ext2fsTestBlockBitmapRange2 s.map b w.num
    if out.2 ≠ 0 then .done (.ok b)
    else
      let b := add64 b (2 ^ s.map.clusterBits)
      if b = w.finish then .done (.error .blockAllocFail) else .again ⟨out.1, b⟩

/- `b &= ~(c_ratio - 1)`. -/
def clusterStart (map : GenericBitmap64) (b : Nat) : Nat :=
  b >>> map.clusterBits <<< map.clusterBits

def ext2fsGetFreeBlocks2 (fuel : Nat) (fs : Filsys) (start finish num : Nat)
    (map : Option GenericBitmap64) : Option (Except RangeError Nat) :=
  let map := map.getD fs.blockMap
  let b := if start = 0 then fs.super.firstDataBlock else start
  let finish := if finish = 0 then start else finish
  let num := if num = 0 then 1 else num
  runLoop (freeRound ⟨fs.super, start, clusterStart map finish, num⟩) fuel ⟨map, clusterStart map b⟩

structure BlockMap (sb : Super) (used : Set Nat) (map : GenericBitmap64) : Prop where
  sound : map.Sound
  cells : map.clusterBits = 0
  has : ∀ p, sb.Holds p → map.Has p
  bits : map.bits = used

section Rounds

variable (w : Window) (used : Set Nat)

/-- Free blocks from `p` on, as many as are asked for. -/
def Clear (p : Nat) : Prop :=
  w.firstDataBlock ≤ p ∧ p + w.num ≤ w.blocksCount ∧ ∀ q ∈ Set.Ico p (p + w.num), q ∉ used

/-- The free blocks found, or none in the window; when `finish` is not behind `start`, this
goes through the end of the file system. -/
def Answers : Except RangeError Nat → Prop
  | .ok p => Clear w used p
  | .error code => code = .blockAllocFail ∧ ∀ p, Clear w used p →
      ¬ if w.start < w.finish then w.start ≤ p ∧ p < w.finish else w.start ≤ p ∨ p < w.finish

/-- The search can come to an end: by free blocks, or by the end of the window. -/
def CanEnd : Prop :=
  w.start < w.finish ∨ (w.firstDataBlock < w.finish ∧ w.finish + w.num ≤ w.blocksCount + 1) ∨
    ∃ p, Clear w used p

/- What a search from `b` on gives that does not wrap. -/
def EndsFrom (b : Nat) : Except RangeError Nat → Prop
  | .ok p => Clear w used p
  | .error code => code = .blockAllocFail ∧ b < w.finish ∧ w.finish + w.num ≤ w.blocksCount + 1 ∧
      ∀ p, Clear w used p → b ≤ p → w.finish ≤ p

variable {w used} {m : GenericBitmap64} {b : Nat}

theorem EndsFrom.canEnd {r : Except RangeError Nat} (ends : EndsFrom w used b r)
    (low : w.firstDataBlock ≤ b) : CanEnd w used := by
  cases r with
  | ok p => exact .inr (.inr ⟨p, ends⟩)
  | error code => exact .inr (.inl ⟨low.trans_lt ends.2.1, ends.2.2.1⟩)

variable (asked : 1 ≤ w.num) (int : w.num < 2 ^ 31)
include asked

section

variable (map : BlockMap w.toSuper used m) (low : w.firstDataBlock ≤ b)
include int map low

theorem test_clear (room : b + w.num ≤ w.blocksCount) :
    BlockMap w.toSuper used (ext2fsTestBlockBitmapRange2 m b w.num).1 ∧
      ((ext2fsTestBlockBitmapRange2 m b w.num).2 ≠ 0 ↔ Clear w used b) := by
  have blocks := w.blocks_le
  have lies : Lies m b w.num := ⟨by omega, by omega, fun p inside =>
    map.has p ⟨low.trans inside.1, by have := inside.2; omega⟩⟩
  obtain ⟨-, -, answer⟩ :=
    range_exact_of_filled Rb.bumpAllocator map.sound lies asked (by rw [map.cells]; decide)
  constructor
  · by_cases one : w.num = 1
    · rw [one]
      obtain ⟨bounds, cells, sound, bits, -⟩ := test_reports m b map.sound
      refine ⟨sound, cells.trans map.cells, fun p holds => ?_, bits.trans map.bits⟩
      have has := map.has p holds
      rw [GenericBitmap64.Has] at has ⊢
      exact bounds ▸ cells ▸ has
    · rwa [(testRange2_reports m map.sound (by rw [map.cells]; omega) one).1]
  · rw [answer, map.bits, Clear]
    simp [clustersOf, map.cells, low, room]

theorem freeRound_inside (room : b + w.num ≤ w.blocksCount) :
    (∃ r, freeRound w ⟨m, b⟩ = .done r ∧ EndsFrom w used b r) ∨
    (¬ Clear w used b ∧ b + 1 ≠ w.finish ∧
      ∃ m', BlockMap w.toSuper used m' ∧ freeRound w ⟨m, b⟩ = .again ⟨m', b + 1⟩) := by
  have blocks := w.blocks_le
  obtain ⟨map', answer⟩ := test_clear asked int map low room
  have inside : ¬ b + w.num - 1 ≥ w.blocksCount := by omega
  simp only [freeRound, @add64_eq b w.num (by omega),
    sub64_eq (show 1 ≤ b + w.num by omega) (by omega), inside,
    false_and, if_false, map.cells, pow_zero, @add64_eq b 1 (by omega)]
  by_cases clear : Clear w used b
  · exact .inl ⟨_, if_pos (answer.mpr clear), clear⟩
  · rw [if_neg (mt answer.mp clear)]
    by_cases last : b + 1 = w.finish
    · refine .inl ⟨_, if_pos last, rfl, by omega, by omega, fun p clear' le => ?_⟩
      exact last ▸ lt_of_le_of_ne le fun is => clear (is ▸ clear')
    · exact .inr ⟨clear, last, _, map', if_neg last⟩

/- A search from a block on ends, or it comes to the end of the file system. -/
theorem scan_blocks (high : b ≤ w.blocksCount) :
    ∃ t, Reaches (freeRound w) ⟨m, b⟩ t ∧ ((∃ r, freeRound w t = .done r ∧ EndsFrom w used b r) ∨
      BlockMap w.toSuper used t.map ∧ w.blocksCount < t.b + w.num ∧ t.b ≤ w.blocksCount ∧
        ∀ p, b ≤ p → p + w.num ≤ w.blocksCount → ¬ Clear w used p ∧ p + 1 ≠ w.finish) := by
  induction left : w.blocksCount + 1 - w.num - b generalizing b m with
  | zero => exact ⟨_, .here _, .inr ⟨map, by dsimp only; omega, high, fun p le room => by omega⟩⟩
  | succ left ih =>
    rcases freeRound_inside asked int map low (by omega) with ends | ⟨clear, last, m', map', again⟩
    · exact ⟨_, .here _, .inl ends⟩
    obtain ⟨t, way, after⟩ := ih map' (Nat.le_succ_of_le low) (by omega) (by omega)
    refine ⟨t, .step again way,
        after.imp (fun ⟨r, done, ends⟩ => ⟨r, done, ?_⟩) fun ⟨map, past, top, rest⟩ =>
      ⟨map, past, top, fun p le room => ?_⟩⟩
    · cases r with
      | ok p => exact ends
      | error code =>
        obtain ⟨is, lt, le, behind⟩ := ends
        exact ⟨is, by omega, le,
          fun p clear' le' => behind p clear' (lt_of_le_of_ne le' fun is => clear (is ▸ clear'))⟩
    · rcases eq_or_lt_of_le le with rfl | more
      · exact ⟨clear, last⟩
      · exact rest p more room

end

theorem freeRound_past {s : FreeScan} (fits : w.firstDataBlock + w.num ≤ w.blocksCount)
    (past : w.blocksCount < s.b + w.num) (high : s.b ≤ w.blocksCount) :
    freeRound w s = if w.start < w.finish then .done (.error .blockAllocFail)
      else freeRound w ⟨s.map, w.firstDataBlock⟩ := by
  have blocks := w.blocks_le
  have sum : ∀ b ≤ w.blocksCount, sub64 (add64 b w.num) 1 = b + w.num - 1 := fun b le => by
    rw [add64_eq (by omega), sub64_eq (by omega) (by omega)]
  have here : s.b + w.num - 1 ≥ w.blocksCount := by omega
  have there : ¬ w.firstDataBlock + w.num - 1 ≥ w.blocksCount := by omega
  simp only [freeRound, sum _ high, sum _ w.first_lt.le, here, there, true_and, false_and, if_true,
    if_false]

include int in
theorem search_ends (map : BlockMap w.toSuper used m) (begins : w.start < w.blocksCount)
    (fits : w.firstDataBlock + w.num ≤ w.blocksCount)
    (is : b = if w.start = 0 then w.firstDataBlock else w.start) :
    (CanEnd w used ∧ ∃ t r, Reaches (freeRound w) ⟨m, b⟩ t ∧ freeRound w t = .done r ∧
      Answers w used r) ∨ ¬ CanEnd w used ∧ ∀ fuel, runLoop (freeRound w) fuel ⟨m, b⟩ = none := by
  have first := w.first_lt
  obtain ⟨low, high, part⟩ : w.firstDataBlock ≤ b ∧ b ≤ w.blocksCount ∧
      ∀ p, w.start ≤ p → w.firstDataBlock ≤ p → b ≤ p := by
    have := w.first_le
    split at is <;> exact ⟨by omega, by omega, fun p le le' => by omega⟩
  obtain ⟨t1, way1, ⟨r, done, ends⟩ | ⟨map1, past1, top1, none1⟩⟩ :=
    scan_blocks asked int map low high
  · refine .inl ⟨ends.canEnd low, t1, r, way1, done, ?_⟩
    cases r with
    | ok p => exact ends
    | error code =>
      obtain ⟨fail, lt, le, behind⟩ := ends
      refine ⟨fail, fun p clear => ?_⟩
      rw [if_pos (by split at is <;> omega)]
      exact fun ⟨le, lt⟩ => Nat.not_le.mpr lt (behind p clear (part p le clear.1))
  have behind : ∀ p, Clear w used p → ¬ w.start ≤ p := fun p clear le =>
    (none1 p (part p le clear.1) clear.2.1).1 clear
  have wrap := freeRound_past asked fits past1 top1
  by_cases up : w.start < w.finish
  · rw [if_pos up] at wrap
    refine .inl ⟨.inl up, t1, _, way1, wrap, rfl, fun p clear => ?_⟩
    rw [if_pos up]
    exact fun inside => behind p clear inside.1
  rw [if_neg up] at wrap
  obtain ⟨t2, way2, ⟨r, done, ends⟩ | ⟨-, -, -, none2⟩⟩ :=
    scan_blocks asked int map1 (le_refl _) first.le
  · obtain ⟨t, way, same⟩ := way2.of_same wrap
    refine .inl ⟨ends.canEnd (le_refl _), t, r, way1.trans way, same.trans done, ?_⟩
    cases r with
    | ok p => exact ends
    | error code =>
      obtain ⟨fail, lt, le, behind'⟩ := ends
      refine ⟨fail, fun p clear => ?_⟩
      rw [if_neg up]
      rintro (le | lt)
      · exact behind p clear le
      · exact Nat.not_le.mpr lt (behind' p clear clear.1)
  · have cannot : ¬ CanEnd w used := by
      rintro (lt | ⟨lt, le⟩ | ⟨p, clear⟩)
      · exact up lt
      · exact (none2 (w.finish - 1) (by omega) (by omega)).2 (by omega)
      · exact (none2 p clear.1 clear.2.1).1 clear
    -- it goes round and round: there is no block to stop at
    have goes : ∀ m b, BlockMap w.toSuper used m → w.firstDataBlock ≤ b →
      b + w.num ≤ w.blocksCount →
        ∃ t, freeRound w ⟨m, b⟩ = .again t ∧ BlockMap w.toSuper used t.map ∧
          w.firstDataBlock ≤ t.b ∧ t.b ≤ w.blocksCount := by
      intro m b map low room
      rcases freeRound_inside asked int map low room with ⟨r, -, ends⟩ | ⟨-, -, m', map', again⟩
      · exact absurd (ends.canEnd low) cannot
      · exact ⟨_, again, map', Nat.le_succ_of_le low, by dsimp only; omega⟩
    refine .inr ⟨cannot,
      endless_of_invariant (fun s => BlockMap w.toSuper used s.map ∧ w.firstDataBlock ≤ s.b ∧
      s.b ≤ w.blocksCount) (fun s ⟨map', low, high⟩ => ?_) ⟨map, low, high⟩⟩
    by_cases room : s.b + w.num ≤ w.blocksCount
    · exact goes s.map s.b map' low room
    · rw [freeRound_past asked fits (by omega) high, if_neg up]
      exact goes s.map _ map' (le_refl _) fits

end Rounds

section Search

variable (fs : Filsys) (start finish num : Nat) (map : Option GenericBitmap64)

def windowOf : Window := ⟨fs.super, start, if finish = 0 then start else finish, num⟩

def ExactSearch : Prop :=
  ∃ fuel r, ext2fsGetFreeBlocks2 fuel fs start finish num map = some r ∧
    Answers (windowOf fs start finish num) (map.getD fs.blockMap).bits r

/-- The search is exact unless nothing is free, the window goes through the end of the
file system, and it ends where the search does not come by. -/
theorem free_blocks_exact_iff {used : Set Nat}
    (covers : BlockMap fs.super used (map.getD fs.blockMap))
    (begins : start < fs.super.blocksCount) (asked : 1 ≤ num)
    (fits : num ≤ fs.super.blocksCount - fs.super.firstDataBlock) (int : num < 2 ^ 31) :
    ExactSearch fs start finish num map ↔ CanEnd (windowOf fs start finish num) used := by
  have cluster : ∀ b, clusterStart (map.getD fs.blockMap) b = b :=
    fun b => by rw [clusterStart, covers.cells]; rfl
  simp only [ExactSearch, ext2fsGetFreeBlocks2, cluster, if_neg (show num ≠ 0 by omega),
    covers.bits]
  rcases @search_ends (windowOf fs start finish num) used _ _ asked int covers begins
    (by simp only [windowOf]; omega) rfl with ⟨may, t, r, way, last, answers⟩ | ⟨cannot, endless⟩
  · obtain ⟨fuel, result⟩ := way.returns last
    exact iff_of_true ⟨fuel, r, result, answers⟩ may
  · refine iff_of_false (fun ⟨fuel, r, result, _⟩ => ?_) cannot
    cases (endless fuel).symm.trans result

end Search

theorem arrayMap_blocks {bytes : Bytes.Buffer} (size : bytes.length = 4) :
    BlockMap (twoGroups true) (arrayMap bytes).bits (arrayMap bytes) :=
  have covers := arrayMap_over size
  ⟨covers.sound, rfl, fun _ => covers.has, rfl⟩

/- Two blocks between 5 and 9, where 5 and 6 are in use. -/
theorem free_blocks_exact_on_used_array :
    ExactSearch (plainFilsys false [0x60, 0, 0, 0]) 5 9 2 none :=
  (free_blocks_exact_iff _ 5 9 2 none (arrayMap_blocks rfl) (by decide) (by decide) (by decide)
    (by decide)).mpr (.inl (by decide))

/- Block 5 is in use: the search for 32 blocks from block 0 on never comes back. -/
theorem search_for_all_endless :
    ¬ ∃ fuel r, ext2fsGetFreeBlocks2 fuel (plainFilsys false [0x20, 0, 0, 0]) 0 0 32 none =
      some r := by
  rintro ⟨fuel, r, result⟩
  rcases @search_ends (windowOf (plainFilsys false [0x20, 0, 0, 0]) 0 0 32) _ _ _ (by decide)
    (by decide) (@arrayMap_blocks [0x20, 0, 0, 0] rfl) (by decide) (by decide) rfl with
    ⟨can, -⟩ | ⟨-, endless⟩
  · rcases can with up | ⟨lt, -⟩ | ⟨p, -, high, free⟩
    · exact absurd up (by decide)
    · exact absurd lt (by decide)
    · have high : p + 32 ≤ 32 := high
      exact free 5 ⟨by omega, by change 5 < p + 32; omega⟩ ⟨by decide, by decide, by decide⟩
  · cases (endless fuel).symm.trans result

end E2fs.Alloc
