import E2fs.Alloc.NewRangeSweep

/-! The answer of the search for free blocks: when it is the one the caller may rely on. -/
namespace E2fs.Alloc
open Word Generic Loop Option Nat

section Choice

variable {sb : Super} {map : GenericBitmap64} {flags : NewrangeFlags} {goal len : Nat}

theorem Chosen.unique {p q : Nat} (one : Chosen sb map flags goal len p)
    (two : Chosen sb map flags goal len q) : p = q := by
  have to_q := one.2 q two.1
  have to_p := two.2 p one.1
  rcases lt_or_ge p goal with h | h
  · rcases lt_or_ge q goal with h' | h'
    · omega
    · omega
  · omega

theorem exists_chosen {q : Nat} (suits : Suitable sb map flags goal len q) :
    ∃ p, Chosen sb map flags goal len p := by
  classical
  by_cases after : ∃ p, goal ≤ p ∧ Suitable sb map flags goal len p
  · obtain ⟨low, suits'⟩ := Nat.find_spec after
    exact ⟨Nat.find after, suits',
      fun r hr => ⟨fun h => ⟨low, Nat.find_min' after ⟨h, hr⟩⟩, fun _ => .inl low⟩⟩
  · have some : ∃ p, Suitable sb map flags goal len p := ⟨q, suits⟩
    exact ⟨Nat.find some, Nat.find_spec some, fun r hr => ⟨fun h => absurd ⟨r, h, hr⟩ after,
      fun _ => .inr (Nat.find_min' some hr)⟩⟩

theorem Takes.unique {p n m : Nat} (one : Takes sb map len p n) (two : Takes sb map len p m) :
    n = m := by
  have shorter : ∀ {n m : Nat}, Takes sb map len p n → Takes sb map len p m → n ≤ m := by
    intro n m one two
    by_contra longer
    rcases two.all with all | used
    · have := one.not_more
      omega
    · exact used (one.run (p + m) (by omega) (by omega))
  exact le_antisymm (shorter one two) (shorter two one)

end Choice

variable {fs : Filsys} {map : GenericBitmap64} {len : Nat} {r : Except RangeError (Nat × Nat)}

section Groups

def MeetsGroup (sb : Super) (p n g : Nat) : Prop :=
  ∃ b, p ≤ b ∧ b < p + n ∧ groupOfBlk2 sb b = g

/-- A group that contains the first block of the run, or one a whole number of groups
behind it. -/
def StepsInto (sb : Super) (p n g : Nat) : Prop :=
  ∃ k, k * sb.blocksPerGroup < n ∧ groupOfBlk2 sb (p + k * sb.blocksPerGroup) = g

theorem clearBlockUninit_flag {blk : Nat} (holds : fs.super.Holds blk) (g : Nat) :
    let out := ext2fsClearBlockUninit fs (groupOfBlk2 fs.super blk)
    out.super = fs.super ∧ ((out.group g).blockUninit = true ↔ (fs.group g).blockUninit = true ∧
      ¬ (fs.super.hasGroupDescCsum = true ∧ groupOfBlk2 fs.super blk = g)) := by
  have inside : groupOfBlk2 fs.super blk < fs.super.groupDescCount := by
    rw [groupOfBlk2_eq holds, Super.groupDescCount]
    have := holds.2
    exact lt_succ_of_le (Nat.div_le_div_right (by omega))
  generalize groupOfBlk2 fs.super blk = group at inside ⊢
  simp only [ext2fsClearBlockUninit]
  split_ifs with skip
  · refine ⟨rfl, iff_self_and.mpr fun set => ?_⟩
    rintro ⟨csum, rfl⟩
    rcases skip with h | h | h
    · omega
    · exact h csum
    · exact h set
  · simp only [not_or, not_not] at skip
    refine ⟨rfl, ?_⟩
    by_cases same : g = group
    · subst same
      simp [bgBlockUninitClear, skip.2.1]
    · simp [bgBlockUninitClear, Function.update_of_ne same, Ne.symm same]

theorem clearGroups_flag {rounds : Nat} (fs : Filsys) (b stop g : Nat) (enough : stop - b ≤ rounds)
    (low : fs.super.firstDataBlock ≤ b) (high : stop ≤ fs.super.blocksCount) :
    ((clearGroups rounds fs b stop).group g).blockUninit = true ↔
      (fs.group g).blockUninit = true ∧ ¬ (fs.super.hasGroupDescCsum = true ∧
        ∃ k, b + k * fs.super.blocksPerGroup < stop ∧
        groupOfBlk2 fs.super (b + k * fs.super.blocksPerGroup) = g) := by
  have past : ∀ {fs : Filsys} {b : Nat}, stop ≤ b → ¬ ∃ k, b + k * fs.super.blocksPerGroup < stop ∧
      groupOfBlk2 fs.super (b + k * fs.super.blocksPerGroup) = g := by
    rintro fs b done ⟨k, inside, -⟩
    omega
  induction rounds generalizing fs b with
  | zero => simp [clearGroups, past (show stop ≤ b by omega)]
  | succ rounds ih =>
    rw [clearGroups]
    split_ifs with left
    · have size := fs.super.blocks_le
      have group := fs.super.group_lt
      have pos := fs.super.group_pos
      obtain ⟨super, flag⟩ := clearBlockUninit_flag ⟨low, lt_of_lt_of_le left high⟩ g
      have rest := ih (ext2fsClearBlockUninit fs (groupOfBlk2 fs.super b))
        (b + fs.super.blocksPerGroup) (by omega) (by rw [super]; omega) (by rw [super]; exact high)
      rw [add64_eq (by omega)]
      refine rest.trans ?_
      rw [flag, super]
      -- the first block of the range, or one behind it
      have split : (∃ k, b + k * fs.super.blocksPerGroup < stop ∧
          groupOfBlk2 fs.super (b + k * fs.super.blocksPerGroup) = g) ↔ groupOfBlk2 fs.super b = g ∨
          ∃ k, b + fs.super.blocksPerGroup + k * fs.super.blocksPerGroup < stop ∧
            groupOfBlk2 fs.super (b + fs.super.blocksPerGroup + k * fs.super.blocksPerGroup) =
                g := by
        rw [← or_exists_add_one]
        simp only [zero_mul, add_zero, and_iff_right left, succ_mul, add_comm (_ * _), ← add_assoc]
      rw [split, and_or_left, not_or, and_assoc]
    · simp [past (Nat.not_lt.mp left)]

theorem clearGroups_run {p n : Nat} (g : Nat) (low : fs.super.firstDataBlock ≤ p)
    (high : p + n ≤ fs.super.blocksCount) :
    ((clearGroups (p + n - p) fs p (p + n)).group g).blockUninit = true ↔
    (fs.group g).blockUninit = true ∧
        ¬ (fs.super.hasGroupDescCsum = true ∧ StepsInto fs.super p n g) := by
  rw [clearGroups_flag fs p (p + n) g (le_refl _) low high]
  simp only [StepsInto, add_lt_add_iff_left]

end Groups

section Answer

variable (fs : Filsys) (flags : NewrangeFlags) (goal len : Nat) (map : GenericBitmap64)

/-- The answer the caller may rely on: a run exactly when there is a suitable one, of
free blocks, and no group of the run is marked uninitialised any more. -/
structure RangeAnswer (out : Except RangeError (Filsys × Nat × Nat)) : Prop where
  exact_ : (∃ fs' p n, out = .ok (fs', p, n)) ↔
    ∃ p, Suitable fs.super map flags (normalGoal fs.super goal) len p
  free : ∀ fs' p n, out = .ok (fs', p, n) → FreeRun fs.super map p n ∧ 1 ≤ n ∧ n ≤ len
  initialised : ∀ fs' p n, out = .ok (fs', p, n) → ∀ g, MeetsGroup fs.super p n g →
    (fs'.group g).blockUninit = false

/-- The groups of the chosen run that are marked uninitialised are reached by the loop
that clears the mark. -/
def GroupsReached : Prop :=
  ∀ p n, Chosen fs.super map flags (normalGoal fs.super goal) len p → Takes fs.super map len p n →
    ∀ g, MeetsGroup fs.super p n g → (fs.group g).blockUninit = true →
      fs.super.hasGroupDescCsum = true ∧ StepsInto fs.super p n g

variable {fs flags goal len map}

theorem normalGoal_holds (sb : Super) (goal : Nat) : sb.Holds (normalGoal sb goal) := by
  have first := sb.first_lt
  have small := sb.first_le
  rw [normalGoal]
  split
  · exact ⟨le_refl _, first⟩
  · exact ⟨by omega, by omega⟩

theorem Takes.inside {sb : Super} {p n : Nat}
    (takes : Takes sb map len p n) : sb.firstDataBlock ≤ p ∧ p + n ≤ sb.blocksCount := by
  have pos := takes.some_taken
  have first := takes.run p (le_refl _) (by omega)
  have last := takes.run (p + n - 1) (by omega) (by omega)
  exact ⟨first.1.1, by have := last.1.2; omega⟩

theorem failure_answers_iff (code : RangeError) : RangeAnswer fs flags goal len map (.error code) ↔
      ∀ p, ¬ Suitable fs.super map flags (normalGoal fs.super goal) len p := by
  constructor
  · intro answer p suits
    obtain ⟨_, _, _, h⟩ := answer.exact_.mpr ⟨p, suits⟩
    cases h
  · intro none
    exact ⟨iff_of_false (fun ⟨_, _, _, h⟩ => by cases h) fun ⟨p, suits⟩ => none p suits,
      fun _ _ _ h => (by cases h), fun _ _ _ h => (by cases h)⟩

theorem good_answers_iff (good : GoodEnd fs.super map flags (normalGoal fs.super goal) len r) :
    RangeAnswer fs flags goal len map (finishRange fs r) ↔
      (∀ p, Chosen fs.super map flags (normalGoal fs.super goal) len p → p + len ≤ 2 ^ 64) ∧
        GroupsReached fs flags goal len map := by
  have size := fs.super.blocks_le
  cases r with
  | error code =>
    rw [finishRange, failure_answers_iff]
    constructor
    · intro none
      exact ⟨fun p chosen => absurd chosen.1 (none p), fun p n chosen => absurd chosen.1 (none p)⟩
    · rintro ⟨words, -⟩ p suits
      obtain ⟨q, chosen⟩ := exists_chosen suits
      have := good q chosen
      have := words q chosen
      omega
  | ok run =>
    obtain ⟨p, stop⟩ := run
    obtain ⟨chosen, word, n, takes, rfl⟩ := good
    obtain ⟨low, high⟩ := takes.inside
    have length : sub64 (p + n) p = n := by
      rw [sub64_eq (by omega) (by omega)]
      omega
    simp only [finishRange, length]
    constructor
    · intro answer
      refine ⟨fun q chosen' => chosen.unique chosen' ▸ word,
        fun q m chosen' takes' g meets set => ?_⟩
      obtain rfl := chosen.unique chosen'
      obtain rfl := takes.unique takes'
      have clear := answer.initialised _ _ _ rfl g meets
      have flag := clearGroups_run g low high
      by_contra missed
      exact Bool.false_ne_true (clear.symm.trans (flag.mpr ⟨set, missed⟩))
    · rintro ⟨-, reached⟩
      refine ⟨⟨fun _ => ⟨p, chosen.1⟩, fun _ => ⟨_, _, _, rfl⟩⟩, ?_, ?_⟩
      · rintro _ _ _ ⟨⟩
        exact ⟨takes.run, takes.some_taken, takes.not_more⟩
      · rintro _ _ _ ⟨⟩ g meets
        rw [← Bool.not_eq_true]
        intro set
        obtain ⟨before, missed⟩ := (clearGroups_run g low high).mp set
        exact missed (reached p n chosen takes g meets before)

end Answer

theorem newRange_eq (plain : fs.ctx = none) (asked : 0 < len)
    (fuel : Nat) (flags : NewrangeFlags) (goal : Nat) (map : Option GenericBitmap64) :
    ext2fsNewRange fuel fs flags goal len map =
      searchRange fuel fs flags goal len (map.getD fs.blockMap) := by
  unfold ext2fsNewRange
  rw [if_neg (by omega), plain]
  cases map <;> rfl

theorem searchRange_result {flags : NewrangeFlags} {goal fuel : Nat}
    (ends : runLoop (scanRound fs.super map flags (normalGoal fs.super goal) len) fuel
      ⟨normalGoal fs.super goal, false⟩ = some r) (P :
      Except RangeError (Filsys × Nat × Nat) → Prop) :
    (∃ fuel out, searchRange fuel fs flags goal len map = some out ∧ P out) ↔
    P (finishRange fs r) := by
  constructor
  · rintro ⟨fuel', out, result, holds⟩
    obtain ⟨r', ends', rfl⟩ := map_eq_some_iff.mp result
    rwa [runLoop_unique ends ends']
  · intro holds
    exact ⟨fuel, _, congrArg (Option.map (finishRange fs)) ends, holds⟩

/-- The search ends and gives the right answer, exactly when it does not spin, the map
is not a tree without any bit (or there is nothing to find), and for the run that it
chooses `p + len` is a 64-bit number and all groups marked uninitialised are reached. -/
theorem new_range_answers_iff (fs : Filsys) (flags : NewrangeFlags) (goal len : Nat)
    (map : Option GenericBitmap64) (plain : fs.ctx = none)
    (covers : MapOver fs.super (map.getD fs.blockMap)) (asked : 0 < len) (word : len < 2 ^ 64) :
    (∃ fuel out, ext2fsNewRange fuel fs flags goal len map = some out ∧
      RangeAnswer fs flags goal len (map.getD fs.blockMap) out) ↔
    ¬ Spins fs.super (map.getD fs.blockMap) flags (normalGoal fs.super goal) len ∧
    ((map.getD fs.blockMap).EmptyTree →
      ∀ p, ¬ Suitable fs.super (map.getD fs.blockMap) flags (normalGoal fs.super goal) len p) ∧
    (∀ p, Chosen fs.super (map.getD fs.blockMap) flags (normalGoal fs.super goal) len p →
      p + len ≤ 2 ^ 64) ∧
    GroupsReached fs flags goal len (map.getD fs.blockMap) := by
  simp only [newRange_eq plain asked]
  generalize map.getD fs.blockMap = bm at covers ⊢
  have holds := normalGoal_holds fs.super goal
  by_cases empty : bm.EmptyTree
  · -- every block is free, and the search finds none
    have all_free : FreeBlock fs.super bm (fs.super.blocksCount - 1) := by
      have := fs.super.first_lt
      exact ⟨⟨by omega, by omega⟩, by simp [empty_tree_bits empty]⟩
    obtain ⟨t, way, last⟩ := empty_tree_fails covers empty holds
    obtain ⟨fuel, fails⟩ := way.returns last
    rw [searchRange_result fails, finishRange, failure_answers_iff]
    constructor
    · intro none
      exact ⟨fun spins => spins.last_used all_free, fun _ => none,
        fun p chosen => absurd chosen.1 (none p), fun p n chosen => absurd chosen.1 (none p)⟩
    · rintro ⟨-, none, -⟩
      exact none empty
  · have ready : Ready fs.super bm len := ⟨covers, empty, asked, word⟩
    by_cases spins : Spins fs.super bm flags (normalGoal fs.super goal) len
    · refine iff_of_false ?_ fun h => h.1 spins
      rintro ⟨fuel, out, result, -⟩
      obtain ⟨r, ends, -⟩ := map_eq_some_iff.mp result
      rw [spins_endless ready holds spins fuel] at ends
      cases ends
    · have ends : EndsWell fs.super bm flags (normalGoal fs.super goal) len
          ⟨normalGoal fs.super goal, false⟩ := by
        cases fixed : flags.fixedGoal with
        | true => exact fixed_ends ready fixed holds
        | false => exact (ends_or_spins ready fixed holds).resolve_right spins
      obtain ⟨t, r, way, last, good⟩ := ends
      obtain ⟨fuel, returns⟩ := way.returns last
      rw [searchRange_result returns, good_answers_iff good]
      exact ⟨fun h => ⟨spins, fun e => absurd e empty, h⟩, fun h => h.2.2⟩

def arrayMap (bytes : Bytes.Buffer) : GenericBitmap64 :=
  ⟨Rb.smallBounds, 0, .bitarray ⟨bytes, 0⟩⟩

def plainFilsys (uninit : Bool) (bytes : Bytes.Buffer) : Filsys where
  super := twoGroups true
  freeBlocksCount := 32
  group := fun _ => ⟨16, uninit⟩
  blockMap := arrayMap bytes
  ctx := none

theorem arrayMap_over {bytes : Bytes.Buffer} (size : bytes.length = 4) :
    MapOver (twoGroups true) (arrayMap bytes) := by
  refine ⟨?_, rfl, rfl, rfl⟩
  simpa [GenericBitmap64.Sound, arrayMap, Private.Sound, Ba.Sized, Rb.smallBounds] using size

/- Four blocks after the goal, where two are in use; no group is marked. -/
theorem new_range_answers_on_used_array : MapOver (twoGroups true) (arrayMap [0x60, 0, 0, 0]) ∧
      ∃ fuel out,
      ext2fsNewRange fuel (plainFilsys false [0x60, 0, 0, 0]) ⟨false, true⟩ 5 4 none = some out ∧
      RangeAnswer (plainFilsys false [0x60, 0, 0, 0]) ⟨false, true⟩ 5 4
        (arrayMap [0x60, 0, 0, 0]) out := by
  have covers : MapOver (twoGroups true) (arrayMap [0x60, 0, 0, 0]) := arrayMap_over rfl
  refine ⟨covers,
    (new_range_answers_iff (plainFilsys false [0x60, 0, 0, 0]) ⟨false, true⟩ 5 4 none rfl
    covers (by decide) (by decide)).mpr ⟨fun spins => spins.last_used ?_, ?_, ?_, ?_⟩⟩
  · refine ⟨by decide, ?_⟩
    rintro ⟨-, -, set⟩
    revert set
    decide
  · rintro ⟨bp, kind, -⟩
    cases kind
  · intro p chosen
    have := (chosen.1.free (by decide)).1.2
    have size : (plainFilsys false [0x60, 0, 0, 0]).super.blocksCount = 32 := rfl
    omega
  · intro p n _ _ g _ set
    cases set

/- One free block in the middle: the search for two never comes back. And a run over
the boundary of two groups leaves the second one marked. -/
theorem new_range_spins_and_misses_group :
    (∀ fuel, ext2fsNewRange fuel (plainFilsys false [0xDF, 0xFF, 0xFF, 0xFF]) ⟨false, true⟩
      0 2 none = none) ∧
    ∃ fs', ext2fsNewRange 1 (plainFilsys true [0, 0, 0, 0]) ⟨false, true⟩ 10 10 none =
        some (.ok (fs', 10, 10)) ∧ groupOfBlk2 (twoGroups true) 19 = 1 ∧
        (fs'.group 1).blockUninit = true := by
  constructor
  · intro fuel
    have first : scanRound (twoGroups true) (arrayMap [0xDF, 0xFF, 0xFF, 0xFF]) ⟨false, true⟩ 0 2
        ⟨0, false⟩ = .again ⟨6, false⟩ := by decide +kernel
    have second : scanRound (twoGroups true) (arrayMap [0xDF, 0xFF, 0xFF, 0xFF]) ⟨false, true⟩ 0 2
        ⟨6, false⟩ = .again ⟨0, false⟩ := by decide +kernel
    have back := Reaches.step first (.here _)
    exact congrArg (Option.map _) (endless_of_cycle back second back fuel)
  · have found : runLoop (scanRound (twoGroups true) (arrayMap [0, 0, 0, 0]) ⟨false, true⟩ 10 10) 1
        ⟨10, false⟩ = some (.ok (10, 20)) := by decide +kernel
    have length : sub64 20 10 = 10 := by decide +kernel
    refine ⟨clearGroups 10 (plainFilsys true [0, 0, 0, 0]) 10 20,
      ?_, by decide +kernel, by decide +kernel⟩
    refine (congrArg (Option.map (finishRange _)) found).trans ?_
    rw [map_some, finishRange, length]

end E2fs.Alloc
