import E2fs.BaseFs.Allocator

/-! Where each cluster is while the allocator works: in use from the start, handed out, reserved
for one file or for several, or free. The three bitmaps say which. -/
namespace E2fs.BaseFs
open Word List Function

inductive Pool where
  | used
  | handed
  | exclusive
  | dedup
  | free
  deriving DecidableEq

section Bits

variable {geo : Geometry} {bits : Bits} {b c : Nat}

theorem cluster_inside (low : geo.firstDataBlock ≤ b) (high : b < geo.blocksCount) :
    Inside geo (cluster geo b) :=
  ⟨Nat.div_le_div_right low, Nat.div_le_div_right (by omega)⟩

theorem testBlockBitmap2_eq (inside : Inside geo (cluster geo b)) :
    testBlockBitmap2 geo bits b = bits (cluster geo b) := by
  rw [testBlockBitmap2, if_pos inside]

theorem inside_of_test (set : testBlockBitmap2 geo bits b = true) : Inside geo (cluster geo b) := by
  rw [testBlockBitmap2] at set
  split at set
  · assumption
  · cases set

theorem setBlockBitmap2_eq {value : Bool} (inside : Inside geo (cluster geo b)) :
    setBlockBitmap2 geo value bits b = update bits (cluster geo b) value := by
  rw [setBlockBitmap2, if_pos inside]

theorem exists_block (inside : Inside geo c) :
    ∃ b, geo.firstDataBlock ≤ b ∧ b < geo.blocksCount ∧ cluster geo b = c := by
  have pos : 0 < 2 ^ geo.clusterRatioBits := Nat.two_pow_pos _
  have lt := geo.first_lt
  refine ⟨_, ?_, ?_, Nat.mul_div_cancel _ pos⟩
  · rcases Nat.eq_zero_or_pos geo.clusterRatioBits with none | some_
    · have low := inside.1
      rw [cluster, none, Nat.pow_zero, Nat.div_one] at low
      rwa [none, Nat.pow_zero, Nat.mul_one]
    · rw [geo.first_eq some_]
      exact Nat.zero_le _
  · have high := (Nat.le_div_iff_mul_le pos).mp inside.2
    omega

variable {p : Nat → Bool} {start stop : Nat}

theorem findFirst_some (found : findFirst p start stop = some b) :
    start ≤ b ∧ b ≤ stop ∧ p b = true := by
  have mem := mem_range'_1.mp (mem_of_find?_eq_some found)
  exact ⟨mem.1, by omega, find?_some found⟩

theorem findFirst_before (found : findFirst p start stop = some b) {q : Nat} (low : start ≤ q)
    (lt : q < b) : p q = false := by
  simpa using (find?_range'_eq_some.mp found).2.2 q low lt

theorem findFirst_none : findFirst p start stop = none ↔ ∀ b, start ≤ b → b ≤ stop →
    p b = false := by
  rw [findFirst, find?_eq_none]
  constructor
  · intro none b low high
    simpa using none b (mem_range'_1.mpr ⟨low, by omega⟩)
  · intro none b mem
    rw [mem_range'_1] at mem
    simp [none b mem.1 (by omega)]

theorem goal_low (geo : Geometry) (goal : Nat) : geo.firstDataBlock ≤ startGoal geo goal := by
  have le := geo.first_le
  rcases eq_zero_or_pos geo.clusterRatioBits with none | some_
  · rw [startGoal, none, pow_zero, Nat.mod_one]
    split <;> omega
  · rw [geo.first_eq some_]
    exact Nat.zero_le _

theorem goal_high (geo : Geometry) (goal : Nat) : startGoal geo goal < geo.blocksCount := by
  have lt := geo.first_lt
  refine (Nat.sub_le _ _).trans_lt ?_
  split <;> omega

theorem newBlock2_some {goal : Nat} (found : newBlock2 geo goal bits = some b) :
    geo.firstDataBlock ≤ b ∧ b < geo.blocksCount ∧ testBlockBitmap2 geo bits b = false := by
  rw [newBlock2] at found
  have low := goal_low geo goal
  have high := goal_high geo goal
  generalize startGoal geo goal = start at *
  split at found
  · cases found
    obtain ⟨from_, upTo, free⟩ := findFirst_some ‹_›
    exact ⟨by omega, by omega, by simpa using free⟩
  · split at found
    · obtain ⟨from_, upTo, free⟩ := findFirst_some found
      exact ⟨from_, by omega, by simpa using free⟩
    · cases found

theorem newBlock2_none {goal : Nat} (none : newBlock2 geo goal bits = none)
    (low : geo.firstDataBlock ≤ b)
    (high : b < geo.blocksCount) : testBlockBitmap2 geo bits b = true := by
  rw [newBlock2] at none
  generalize startGoal geo goal = start at *
  split at none
  · cases none
  · rename_i above
    by_cases at_ : start ≤ b
    · simpa using findFirst_none.mp above b at_ (by omega)
    · rw [if_pos (by omega)] at none
      simpa using findFirst_none.mp none b low (by omega)

end Bits

section Ranges

def Bounded (list : List BlockRange) : Prop := ∀ r ∈ list, r.start < 2 ^ 63 ∧ r.end_ < 2 ^ 63

def BlockRange.blocks (r : BlockRange) : List Nat :=
  r.start :: List.range' (r.start + 1) (r.end_ - r.start)

def listed (list : List BlockRange) : List Nat := list.flatMap BlockRange.blocks

variable {list : List BlockRange}

theorem length_listed (list : List BlockRange) : (listed list).length = blocksLeft list := by
  simp [listed, blocksLeft, length_flatMap, BlockRange.blocks]

theorem consumeNextBlock_none : consumeNextBlock list = none ↔ list = [] := by
  cases list <;> simp [consumeNextBlock]

theorem consumeNextBlock_some (bounded : Bounded list) {b : Nat} {rest : List BlockRange}
    (took : consumeNextBlock list = some (b, rest)) :
    Bounded rest ∧ listed list = b :: listed rest := by
  rcases list with _ | ⟨head, next⟩
  · cases took
  obtain ⟨⟨start, end_⟩, after⟩ := forall_mem_cons.mp bounded
  rw [consumeNextBlock, add64_eq (by omega)] at took
  injection took with took
  injection took with first rest'
  subst first rest'
  split
  · refine ⟨after, ?_⟩
    rw [listed, flatMap_cons, BlockRange.blocks, show head.end_ - head.start = 0 by omega]
    rfl
  · refine ⟨forall_mem_cons.mpr ⟨⟨by dsimp only; omega, end_⟩, after⟩, ?_⟩
    rw [listed, listed, flatMap_cons, flatMap_cons, BlockRange.blocks, BlockRange.blocks,
      show head.end_ - head.start = (head.end_ - (head.start + 1)) + 1 by omega, range'_succ]
    rfl

theorem addBlocksToRange_bounded (bounded : Bounded list) {s e : Nat} (start : s < 2 ^ 63)
    (end_ : e < 2 ^ 63) : Bounded (addBlocksToRange list s e) := by
  rw [addBlocksToRange]
  rcases is : list.getLast? with _ | tail
  · exact fun r mem => by rw [mem_singleton.mp mem]; exact ⟨start, end_⟩
  have tailIn := bounded tail (mem_of_getLast? is)
  intro r mem
  dsimp only at mem
  split_ifs at mem with next
  · rw [mem_append, mem_singleton] at mem
    rcases mem with old | rfl
    · exact bounded r (mem_of_mem_dropLast old)
    · refine ⟨tailIn.1, ?_⟩
      dsimp only
      rw [add64_eq (by omega)] at next
      unfold add64 sub64
      omega
  · rw [mem_append, mem_singleton] at mem
    rcases mem with old | rfl
    · exact bounded r old
    · exact ⟨start, end_⟩

theorem basefsReadline_bounded (line : Line) : Bounded (basefsReadline line).blocks := by
  have all : ∀ (ranges : List (Nat × Nat)) (list : List BlockRange), Bounded list →
      Bounded (ranges.foldl
        (fun list r => addBlocksToRange list (atoll r.1) (atoll r.2)) list) := by
    intro ranges
    induction ranges with
    | nil => exact fun _ bounded => bounded
    | cons r ranges ih =>
      intro list bounded
      have small : ∀ n, atoll n < 2 ^ 63 := fun n => by rw [atoll]; omega
      exact ih _ (addBlocksToRange_bounded bounded (small _) (small _))
  exact all line.ranges [] (by simp [Bounded])

end Ranges

section Maps

variable {geo : Geometry} {maps : Maps} {pool : Nat → Pool} {b : Nat} {list : List BlockRange}

structure Shows (maps : Maps) (c : Nat) (p : Pool) : Prop where
  blockMap : maps.blockMap c = decide (p ≠ .free)
  exclusive : maps.exclusive c = decide (p = .exclusive)
  dedup : maps.dedup c = decide (p = .dedup)

def Show (geo : Geometry) (maps : Maps) (pool : Nat → Pool) : Prop :=
  ∀ c, Inside geo c → Shows maps c (pool c)

theorem Show.move {maps' : Maps} {p : Pool} (shows : Show geo maps pool) (c : Nat)
    (there : Shows maps' c p)
    (blockMap : ∀ c' ≠ c, maps'.blockMap c' = maps.blockMap c')
    (exclusive : ∀ c' ≠ c, maps'.exclusive c' = maps.exclusive c')
    (dedup : ∀ c' ≠ c, maps'.dedup c' = maps.dedup c') : Show geo maps' (update pool c p) := by
  intro c' inside
  rcases eq_or_ne c' c with rfl | other
  · rwa [update_self]
  · rw [update_of_ne other]
    have old := shows c' inside
    exact ⟨(blockMap c' other).trans old.1, (exclusive c' other).trans old.2,
      (dedup c' other).trans old.3⟩

section

variable (shows : Show geo maps pool) (inside : Inside geo (cluster geo b))
include shows inside

theorem Show.test_blockMap :
    testBlockBitmap2 geo maps.blockMap b = decide (pool (cluster geo b) ≠ .free) := by
  rw [testBlockBitmap2_eq inside, (shows _ inside).blockMap]

theorem Show.test_exclusive :
    testBlockBitmap2 geo maps.exclusive b = decide (pool (cluster geo b) = .exclusive) := by
  rw [testBlockBitmap2_eq inside, (shows _ inside).exclusive]

theorem Show.test_dedup :
    testBlockBitmap2 geo maps.dedup b = decide (pool (cluster geo b) = .dedup) := by
  rw [testBlockBitmap2_eq inside, (shows _ inside).dedup]

theorem Show.hand_exclusive (is : pool (cluster geo b) = .exclusive) :
    Show geo { maps with exclusive := unmarkBlockBitmap2 geo maps.exclusive b }
      (update pool (cluster geo b) .handed) := by
  have old := shows _ inside
  rw [unmarkBlockBitmap2, setBlockBitmap2_eq inside]
  refine shows.move _ ⟨?_, update_self .., ?_⟩ (fun _ _ => rfl)
    (fun c other => update_of_ne other ..) fun _ _ => rfl
  · simp [old.blockMap, is]
  · simp [old.dedup, is]

theorem Show.hand_dedup (is : pool (cluster geo b) = .dedup) :
    Show geo { maps with dedup := unmarkBlockBitmap2 geo maps.dedup b }
    (update pool (cluster geo b) .handed) := by
  have old := shows _ inside
  rw [unmarkBlockBitmap2, setBlockBitmap2_eq inside]
  refine shows.move _ ⟨?_, ?_, update_self ..⟩ (fun _ _ => rfl) (fun _ _ => rfl)
    fun c other => update_of_ne other ..
  · simp [old.blockMap, is]
  · simp [old.exclusive, is]

theorem Show.hand_free (is : pool (cluster geo b) = .free) :
    Show geo { maps with blockMap := markBlockBitmap2 geo maps.blockMap b }
    (update pool (cluster geo b) .handed) := by
  have old := shows _ inside
  rw [markBlockBitmap2, setBlockBitmap2_eq inside]
  refine shows.move _ ⟨update_self .., ?_, ?_⟩ (fun c other => update_of_ne other ..)
    (fun _ _ => rfl) fun _ _ => rfl
  · simp [old.exclusive, is]
  · simp [old.dedup, is]

end

def freed (geo : Geometry) (pool : Nat → Pool) (blocks : List Nat) (c : Nat) : Pool :=
  if pool c = .exclusive ∧ c ∈ blocks.map (cluster geo) then .free else pool c

theorem freed_freed (geo : Geometry) (pool : Nat → Pool) (first rest : List Nat) :
    freed geo (freed geo pool first) rest = freed geo pool (first ++ rest) := by
  funext c
  simp only [freed, map_append, mem_append]
  by_cases is : pool c = .exclusive
  · by_cases early : c ∈ first.map (cluster geo)
    · simp only [is, early, true_and, true_or, if_true, reduceCtorEq, false_and, if_false]
    · simp only [is, early, and_false, if_false, true_and, false_or]
  · simp only [is, false_and, if_false]

theorem Show.release (shows : Show geo maps pool) (b : Nat) :
    Show geo (releaseBlock geo maps b) (freed geo pool [b]) := by
  rw [releaseBlock]
  split_ifs with set
  · have inside := inside_of_test set
    rw [shows.test_exclusive inside, decide_eq_true_eq] at set
    have moved : freed geo pool [b] = update pool (cluster geo b) .free := by
      funext c
      rcases eq_or_ne c (cluster geo b) with rfl | other
      · simp [freed, set]
      · simp [freed, other]
    rw [moved, unmarkBlockBitmap2, setBlockBitmap2_eq inside, setBlockBitmap2_eq inside]
    have old := shows _ inside
    refine shows.move _ ⟨update_self .., update_self .., ?_⟩ ?_ ?_ fun _ _ => rfl
    · simp [old.dedup, set]
    all_goals exact fun c other => update_of_ne other ..
  · intro c inside
    have same : freed geo pool [b] c = pool c := by
      rw [freed, if_neg]
      rintro ⟨is, at_⟩
      obtain rfl : c = cluster geo b := by simpa using at_
      rw [shows.test_exclusive inside] at set
      exact set (by simpa using is)
    rw [same]
    exact shows c inside

theorem Show.free (shows : Show geo maps pool) (bounded : Bounded list) (fuel : Nat)
    (enough : blocksLeft list ≤ fuel) : Show geo (freeLoop geo fuel maps list)
    (freed geo pool (listed list)) := by
  induction fuel generalizing maps pool list with
  | zero =>
    have none : listed list = [] := eq_nil_of_length_eq_zero (by rw [length_listed]; omega)
    rw [none]
    intro c inside
    simpa [freed, freeLoop] using shows c inside
  | succ fuel ih =>
    rw [freeLoop]
    cases took : consumeNextBlock list with
    | none =>
      rw [consumeNextBlock_none.mp took]
      intro c inside
      simpa [freed, listed] using shows c inside
    | some next =>
      obtain ⟨b, rest⟩ := next
      obtain ⟨boundedRest, blocks⟩ := consumeNextBlock_some bounded took
      have left : blocksLeft list = blocksLeft rest + 1 := by
        rw [← length_listed, ← length_listed, blocks, length_cons]
      have after := ih (shows.release b) boundedRest (by omega)
      rw [freed_freed] at after
      rw [blocks]
      exact after

theorem Show.freeRange (shows : Show geo maps pool) (bounded : Bounded list) :
    Show geo (fsFreeBlocksRange geo maps list) (freed geo pool (listed list)) :=
  shows.free bounded _ (le_refl _)

end Maps

section FreeBitmap

variable {geo : Geometry} {bitmap blockMap : Bits}

theorem freeBitmapLoop_iff (fuel start : Nat) (enough : geo.blocksCount - start ≤ fuel) (c : Nat) :
    freeBitmapLoop geo bitmap fuel start blockMap c = true ↔ blockMap c = true ∧
      ∀ b, start ≤ b → b < geo.blocksCount → testBlockBitmap2 geo bitmap b = true →
      cluster geo b ≠ c := by
  have lt := geo.first_lt
  induction fuel generalizing start blockMap with
  | zero => exact (and_iff_left fun b low high => by omega).symm
  | succ fuel ih =>
    rw [freeBitmapLoop]
    cases found : findFirst (testBlockBitmap2 geo bitmap) start (geo.blocksCount - 1) with
    | none =>
      refine (and_iff_left fun b low high set => ?_).symm
      rw [findFirst_none.mp found b low (by omega)] at set
      cases set
    | some b =>
      obtain ⟨low, high, set⟩ := findFirst_some found
      have inside := inside_of_test set
      refine (ih (b + 1) (by omega)).trans ?_
      rw [unmarkBlockBitmap2, setBlockBitmap2_eq inside]
      rcases eq_or_ne c (cluster geo b) with rfl | other
      · rw [update_self]
        exact iff_of_false (fun both => by cases both.1) fun both => both.2 b low (by omega) set rfl
      rw [update_of_ne other]
      refine and_congr_right fun _ =>
        ⟨fun behind_ q from_ upTo is => ?_, fun all q from_ => all q (by omega)⟩
      -- Between `start` and `b` no bit is set.
      rcases lt_trichotomy q b with before | rfl | behind
      · rw [findFirst_before found from_ before] at is
        cases is
      · exact other.symm
      · exact behind_ q behind upTo is

theorem fsFreeBlocksBitmap_eq {c : Nat} (inside : Inside geo c) :
    fsFreeBlocksBitmap geo bitmap blockMap c = (blockMap c && !bitmap c) := by
  rw [Bool.eq_iff_iff, fsFreeBlocksBitmap, freeBitmapLoop_iff _ _ (le_refl _), Bool.and_eq_true,
    Bool.not_eq_true']
  obtain ⟨b, low, high, rfl⟩ := exists_block inside
  refine and_congr_right fun _ => ⟨fun all => ?_, fun clear q _ _ is same => ?_⟩
  · by_contra set
    exact all b low high (by rw [testBlockBitmap2_eq inside]; simpa using set) rfl
  · rw [testBlockBitmap2_eq (same ▸ inside), same, clear] at is
    cases is

end FreeBitmap

end E2fs.BaseFs
