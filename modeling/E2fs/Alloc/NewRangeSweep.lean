import E2fs.Alloc.NewRange
import E2fs.Bitmap.Agreement

/-! What the search for free blocks finds. The free runs of the map decide which block
it takes, and whether it comes back at all. -/
namespace E2fs.Alloc
open Word Generic Bitmap Loop First

section Spec

variable (sb : Super) (map : GenericBitmap64)

def FreeBlock (p : Nat) : Prop := sb.Holds p ∧ p >>> sb.clusterRatioBits ∉ map.bits

def FreeRun (p n : Nat) : Prop := ∀ q, p ≤ q → q < p + n → FreeBlock sb map q

variable (flags : NewrangeFlags) (goal len : Nat)

/- `goal` is the normalised one from here on. -/
def Suitable (p : Nat) : Prop :=
  FreeRun sb map p (if flags.minLength then len else 1) ∧ (flags.fixedGoal → p = goal)

/-- The first suitable block at or after the goal, else the first one. -/
def Chosen (p : Nat) : Prop :=
  Suitable sb map flags goal len p ∧ ∀ q, Suitable sb map flags goal len q →
    (goal ≤ q → goal ≤ p ∧ p ≤ q) ∧ (q < goal → goal ≤ p ∨ p ≤ q)

/-- `n` blocks are taken at `p`: all that are asked for, or as many as are free. -/
structure Takes (p n : Nat) : Prop where
  run : FreeRun sb map p n
  some_taken : 1 ≤ n
  not_more : n ≤ len
  all : n = len ∨ ¬ FreeBlock sb map (p + n)

/-- The search never comes back: a minimum length is asked for, no run is that long,
there are free blocks but the last block of the file system is in use. (And the sum of
a block that is looked at and `len` is a 64-bit number: otherwise the search stops
there.) -/
structure Spins : Prop where
  minimum : flags.minLength = true
  moves : flags.fixedGoal = false
  nothing : ∀ p, ¬ Suitable sb map flags goal len p
  some_free : ∃ p, FreeBlock sb map p
  last_used : ¬ FreeBlock sb map (sb.blocksCount - 1)
  words : ∀ p, FreeBlock sb map p →
    p = goal ∨ p = sb.firstDataBlock ∨ ¬ FreeBlock sb map (p - 1) → p + len ≤ 2 ^ 64

def GoodEnd : Except RangeError (Nat × Nat) → Prop
  | .ok (p, stop) => Chosen sb map flags goal len p ∧ p + len ≤ 2 ^ 64 ∧
      ∃ n, Takes sb map len p n ∧ stop = p + n
  | .error _ => ∀ p, Chosen sb map flags goal len p → 2 ^ 64 < p + len

end Spec

section Rounds

variable {sb : Super} {map : GenericBitmap64} {flags : NewrangeFlags} {goal len p : Nat}

theorem Suitable.free (suits : Suitable sb map flags goal len p) (asked : 0 < len) :
    FreeBlock sb map p := by
  apply suits.1 p (le_refl _)
  split <;> omega

/- A suitable run of the full length leaves no room for overflow. -/
theorem Suitable.short (suits : Suitable sb map flags goal len p) (asked : 0 < len)
    (minimum : flags.minLength = true) : p + len ≤ sb.blocksCount := by
  have last := suits.1 (p + len - 1) (by omega) (by rw [if_pos minimum]; omega)
  have := last.1.2
  omega

theorem Takes.suitable {n : Nat} (takes : Takes sb map len p n)
    (enough : ¬ flags.minLength ∨ len ≤ n) (fixed : flags.fixedGoal → p = goal) :
    Suitable sb map flags goal len p := by
  refine ⟨fun q low high => takes.run q low ?_, fixed⟩
  have pos := takes.some_taken
  split_ifs at high with minimum
  · have : len ≤ n := enough.resolve_left (not_not.mpr minimum)
    omega
  · omega

/- No run that begins in a run that is too short is long enough. -/
theorem Takes.none_inside {n q : Nat} (takes : Takes sb map len p n) (short : n < len)
    (minimum : flags.minLength = true) (low : p ≤ q) (high : q ≤ p + n) :
    ¬ Suitable sb map flags goal len q := by
  intro suits
  rcases takes.all with all | used
  · omega
  · exact used (suits.1 (p + n) high (by rw [if_pos minimum]; omega))

section

variable (covers : MapOver sb map) (filled : ¬ map.EmptyTree)
include covers filled

theorem searches_free {start stop : Nat}
    (low : sb.firstDataBlock ≤ start) (order : start ≤ stop) (high : stop < sb.blocksCount) :
    FirstResult (FreeBlock sb map) start stop (ext2fsFindFirstZeroGenericBmap map start stop) ∧
      FirstResult (fun p => ¬ FreeBlock sb map p) start stop
        (ext2fsFindFirstSetGenericBmap map start stop) := by
  have blocks := sb.blocks_le
  have range : map.HasRange start stop :=
    ⟨order, by omega, (covers.has ⟨low, by omega⟩).1, (covers.has ⟨by omega, high⟩).2⟩
  obtain ⟨zero, set⟩ := searches_exactly_of_filled covers.sound range filled
  have holds : ∀ q, start ≤ q → q ≤ stop → sb.Holds q := fun q hq hs => ⟨by omega, by omega⟩
  constructor
  · refine firstResult_congr zero fun q hq hs => ?_
    rw [FreeBlock, covers.cells]
    exact (and_iff_right (holds q hq hs)).symm
  · refine firstResult_congr set fun q hq hs => ?_
    rw [FreeBlock, covers.cells]
    tauto

theorem scanRound_exhausted {s : Scan} (low : sb.firstDataBlock ≤ s.start)
    (high : s.start < sb.blocksCount)
    (runs : s.looped = true → s.start ≤ goal) (used : ∀ q, s.start ≤ q → ¬ FreeBlock sb map q) :
    scanRound sb map flags goal len s =
      if flags.fixedGoal ∨ s.start = sb.firstDataBlock then .done (.error .blockAllocFail)
      else .again ⟨sb.firstDataBlock, s.looped⟩ := by
  rw [scanRound, if_neg (by tauto)]
  have found :=
    (searches_free covers filled low (show s.start ≤ sb.blocksCount - 1 by omega) (by omega)).1
  revert found
  cases ext2fsFindFirstZeroGenericBmap map s.start (sb.blocksCount - 1) with
  | ok z => exact fun found => absurd found.2.2.1 (used z found.1)
  | error code =>
    cases code with
    | enoent => exact fun _ => rfl
    | einval => exact fun found => found.elim

theorem scanRound_free {s : Scan} {z : Nat}
    (low : sb.firstDataBlock ≤ s.start) (runs : s.looped = true → s.start ≤ goal)
    (order : s.start ≤ z) (free : FreeBlock sb map z)
    (first : ∀ q, s.start ≤ q → q < z → ¬ FreeBlock sb map q) :
    scanRound sb map flags goal len s = tryRun sb map flags goal len z s.looped := by
  have inside := free.1.2
  rw [scanRound, if_neg (by tauto)]
  have found :=
    (searches_free covers filled low (show s.start ≤ sb.blocksCount - 1 by omega) (by omega)).1
  revert found
  cases ext2fsFindFirstZeroGenericBmap map s.start (sb.blocksCount - 1) with
  | ok z' =>
    rintro ⟨order', -, free', first'⟩
    obtain rfl : z' = z := by
      rcases lt_trichotomy z' z with h | h | h
      · exact absurd free' (first z' order' h)
      · exact h
      · exact absurd free (first' z order h)
    rfl
  | error code =>
    cases code with
    | enoent => exact fun found => absurd free (found z order (by omega))
    | einval => exact fun found => found.elim

end

/- `start + len - 1` wraps around and the search for its end is refused. -/
theorem tryRun_overflow {z : Nat} {looped : Bool} (free : FreeBlock sb map z)
    (word : len < 2 ^ 64) (wraps : 2 ^ 64 < z + len) (fixed : flags.fixedGoal → z = goal) :
    tryRun sb map flags goal len z looped = .done (.error .einval) := by
  have inside := free.1.2
  have blocks := sb.blocks_le
  have sum : sub64 (add64 z len) 1 = z + len - 1 - 2 ^ 64 := by
    unfold sub64 add64
    omega
  have refused : ext2fsFindFirstSetGenericBmap map z
      (min (sub64 (add64 z len) 1) (sb.blocksCount - 1)) = .error .einval := by
    rw [sum, ext2fsFindFirstSetGenericBmap, findFirstGeneric]
    rw [if_pos (.inr (.inr (by omega)))]
  rw [tryRun, if_neg (by tauto)]
  simp only [refused]

theorem tryRun_takes (covers : MapOver sb map) (filled : ¬ map.EmptyTree) {z : Nat} {looped : Bool}
    (free : FreeBlock sb map z) (asked : 0 < len) (word : z + len ≤ 2 ^ 64)
    (fixed : flags.fixedGoal → z = goal) :
    ∃ n, Takes sb map len z n ∧ tryRun sb map flags goal len z looped =
      if ¬ flags.minLength ∨ len ≤ n then .done (.ok (z, z + n))
      else tryNext sb flags (z + n) looped := by
  obtain ⟨low, high⟩ := free.1
  have blocks := sb.blocks_le
  have sum : sub64 (add64 z len) 1 = z + len - 1 := by
    unfold sub64 add64
    omega
  rw [tryRun, if_neg (by tauto)]
  simp only [sum]
  generalize last : min (z + len - 1) (sb.blocksCount - 1) = b
  have found := (searches_free covers filled low (show z ≤ b by omega) (by omega)).2
  revert found
  cases answer : ext2fsFindFirstSetGenericBmap map z b with
  | ok stop =>
    rintro ⟨order, inside, used, before⟩
    have later : z < stop := by
      rcases eq_or_lt_of_le order with h | h
      · exact absurd (h ▸ free) used
      · exact h
    refine ⟨stop - z, ⟨fun q hq hs => ?_, by omega, by omega, .inr ?_⟩, ?_⟩
    · exact not_not.mp (before q hq (by omega))
    · rwa [Nat.add_sub_cancel' order]
    · simp only [tryRun.measured, Nat.add_sub_cancel' order]
      rw [sub64_eq order (by omega)]
  | error code =>
    cases code with
    | einval => exact fun found => found.elim
    | enoent =>
      intro none
      have order : z ≤ b + 1 := by omega
      refine ⟨b + 1 - z, ⟨fun q hq hs => ?_, by omega, by omega, ?_⟩, ?_⟩
      · exact not_not.mp (none q hq (by omega))
      · rcases lt_or_ge (b + 1) sb.blocksCount with h | h
        · exact .inl (by omega)
        · exact .inr fun f => absurd f.1.2 (by omega)
      · simp only [tryRun.measured, Nat.add_sub_cancel' order]
        rw [sub64_eq order (by omega)]

end Rounds

section Sweeps

variable {sb : Super} {map : GenericBitmap64} {flags : NewrangeFlags} {goal len : Nat}

/- Either a block at or after `start` is free, and then there is a first one, or none is. -/
theorem first_free_or_none (start : Nat) :
    (∃ z, start ≤ z ∧ FreeBlock sb map z ∧ ∀ q, start ≤ q → q < z → ¬ FreeBlock sb map q) ∨
      ∀ q, start ≤ q → ¬ FreeBlock sb map q := by
  classical
  by_cases some : ∃ z, start ≤ z ∧ FreeBlock sb map z
  · refine .inl ⟨Nat.find some, (Nat.find_spec some).1, (Nat.find_spec some).2, ?_⟩
    exact fun q low early free => Nat.find_min some early ⟨low, free⟩
  · exact .inr fun q low free => some ⟨q, low, free⟩

variable (sb map flags goal len) in
/-- How a sweep from `from_` upwards ends that has not yet wrapped around at the end of
the file system. -/
inductive SweepEnd (from_ : Nat) (s : Scan) : Prop where
  | found {t : Scan} {p n : Nat} (way : Reaches (scanRound sb map flags goal len) s t)
    (last : scanRound sb map flags goal len t = .done (.ok (p, p + n)))
    (takes : Takes sb map len p n) (suits : Suitable sb map flags goal len p)
    (word : p + len ≤ 2 ^ 64) (low : from_ ≤ p)
    (first : ∀ q, from_ ≤ q → q < p → ¬ Suitable sb map flags goal len q)
  | overflow {t : Scan} {z : Nat} (way : Reaches (scanRound sb map flags goal len) s t)
    (last : scanRound sb map flags goal len t = .done (.error .einval))
    (free : FreeBlock sb map z) (start : z = from_ ∨ ¬ FreeBlock sb map (z - 1))
    (wraps : 2 ^ 64 < z + len) (low : from_ ≤ z)
    (first : ∀ q, from_ ≤ q → q < z → ¬ Suitable sb map flags goal len q)
  | wrapped (way : Reaches (scanRound sb map flags goal len) s ⟨sb.firstDataBlock, true⟩)
    (last_free : FreeBlock sb map (sb.blocksCount - 1))
    (nothing : ∀ q, from_ ≤ q → ¬ Suitable sb map flags goal len q)
  | exhausted {t : Nat} (way : Reaches (scanRound sb map flags goal len) s ⟨t, false⟩)
    (low : sb.firstDataBlock ≤ t) (high : t < sb.blocksCount)
    (used : ∀ q, t ≤ q → ¬ FreeBlock sb map q)
    (nothing : ∀ q, from_ ≤ q → ¬ Suitable sb map flags goal len q)
    (words : ∀ z, from_ ≤ z → FreeBlock sb map z → z = from_ ∨ ¬ FreeBlock sb map (z - 1) →
      z + len ≤ 2 ^ 64)

theorem SweepEnd.after {from_ : Nat} {s t : Scan}
    (step : scanRound sb map flags goal len s = .again t)
    (rest : SweepEnd sb map flags goal len from_ t) : SweepEnd sb map flags goal len from_ s := by
  cases rest with
  | found way last takes suits word low first =>
    exact .found (.step step way) last takes suits word low first
  | overflow way last free start wraps low first =>
    exact .overflow (.step step way) last free start wraps low first
  | wrapped way last_free nothing => exact .wrapped (.step step way) last_free nothing
  | exhausted way low high used nothing words =>
    exact .exhausted (.step step way) low high used nothing words

variable (sb map flags goal len) in
/-- What a round does that finds the free block `z`. -/
inductive Looked (z : Nat) (looped : Bool) (round : ScanRound) : Prop where
  | overflow (wraps : 2 ^ 64 < z + len) (is : round = .done (.error .einval))
  | taken {n : Nat} (word : z + len ≤ 2 ^ 64) (takes : Takes sb map len z n)
    (suits : Suitable sb map flags goal len z) (is : round = .done (.ok (z, z + n)))
  | short {n : Nat} (word : z + len ≤ 2 ^ 64) (takes : Takes sb map len z n) (few : n < len)
    (minimum : flags.minLength = true) (is : round = tryNext sb flags (z + n) looped)

structure Ready (sb : Super) (map : GenericBitmap64) (len : Nat) : Prop where
  covers : MapOver sb map
  filled : ¬ map.EmptyTree
  asked : 0 < len
  word : len < 2 ^ 64

theorem Takes.short_cases {z n : Nat} (takes : Takes sb map len z n) (few : n < len) :
    (z + n = sb.blocksCount ∧ FreeBlock sb map (sb.blocksCount - 1)) ∨
      (z + n < sb.blocksCount ∧ ¬ FreeBlock sb map (z + n)) := by
  have pos := takes.some_taken
  have inside := takes.run (z + n - 1) (by omega) (by omega)
  have below := inside.1.2
  rcases lt_or_ge (z + n) sb.blocksCount with more | edge
  · exact .inr ⟨more, takes.all.resolve_left (by omega)⟩
  · have size : z + n = sb.blocksCount := by omega
    exact .inl ⟨size, size ▸ inside⟩

variable (sb map flags goal len) in
/-- The loop returns from `s`, with a result it may return. -/
def EndsWell (s : Scan) : Prop :=
  ∃ t r, Reaches (scanRound sb map flags goal len) s t ∧
    scanRound sb map flags goal len t = .done r ∧ GoodEnd sb map flags goal len r

theorem EndsWell.after {s t : Scan} (way : Reaches (scanRound sb map flags goal len) s t)
    (ends : EndsWell sb map flags goal len t) : EndsWell sb map flags goal len s := by
  obtain ⟨u, r, rest, last, good⟩ := ends
  exact ⟨u, r, way.trans rest, last, good⟩

theorem suitable_of_free {z : Nat} (free : FreeBlock sb map z) (any : ¬ flags.minLength = true)
    (moves : flags.fixedGoal = false) : Suitable sb map flags goal len z := by
  refine ⟨fun q low high => ?_, by simp [moves]⟩
  rw [if_neg any] at high
  obtain rfl : q = z := by omega
  exact free

section

variable (ready : Ready sb map len)
include ready

theorem look {s : Scan} {z : Nat} (low : sb.firstDataBlock ≤ s.start)
    (runs : s.looped = true → s.start ≤ goal) (above : s.start ≤ z) (free : FreeBlock sb map z)
    (first : ∀ q, s.start ≤ q → q < z → ¬ FreeBlock sb map q) (fixed : flags.fixedGoal → z = goal) :
    Looked sb map flags goal len z s.looped (scanRound sb map flags goal len s) := by
  rw [scanRound_free ready.covers ready.filled low runs above free first]
  rcases lt_or_ge (2 ^ 64) (z + len) with wraps | fits
  · exact .overflow wraps (tryRun_overflow free ready.word wraps fixed)
  obtain ⟨n, takes, tried⟩ := tryRun_takes ready.covers ready.filled free ready.asked fits fixed
  rw [tried]
  split_ifs with enough
  · exact .taken fits takes (takes.suitable enough fixed) rfl
  · simp only [not_or, not_not, not_le] at enough
    exact .short fits takes enough.2 enough.1 rfl

theorem exhausted_fails (used : ∀ q, sb.firstDataBlock ≤ q → ¬ FreeBlock sb map q) :
    EndsWell sb map flags goal len ⟨sb.firstDataBlock, false⟩ := by
  refine ⟨_, .error .blockAllocFail, .here _, ?_, fun p chosen => ?_⟩
  · rw [scanRound_exhausted ready.covers ready.filled (le_refl _) sb.first_lt
      (by simp) used, if_pos (.inr rfl)]
  · have free := chosen.1.free ready.asked
    exact absurd free (used p free.1.1)

section

variable (moves : flags.fixedGoal = false)
include moves

/- A sweep goes from one free run to the next, as long as they are too short. -/
theorem sweep (from_ start : Nat)
    (order : from_ ≤ start) (low : sb.firstDataBlock ≤ start) (high : start < sb.blocksCount)
    (fresh : start = from_ ∨ ¬ FreeBlock sb map start)
    (passed : ∀ q, from_ ≤ q → q < start → ¬ Suitable sb map flags goal len q)
    (words : ∀ z, from_ ≤ z → z < start → FreeBlock sb map z →
      z = from_ ∨ ¬ FreeBlock sb map (z - 1) → z + len ≤ 2 ^ 64) :
    SweepEnd sb map flags goal len from_ ⟨start, false⟩ := by
  rcases first_free_or_none start with ⟨z, above, free, first⟩ | none
  · have early : ∀ q, from_ ≤ q → q < z → ¬ Suitable sb map flags goal len q := by
      intro q hq hz
      rcases lt_or_ge q start with h | h
      · exact passed q hq h
      · exact fun suits => first q h hz (suits.free ready.asked)
    have begins : z = from_ ∨ ¬ FreeBlock sb map (z - 1) := by
      rcases eq_or_lt_of_le above with rfl | later
      · exact .inl (fresh.resolve_right (not_not.mpr free))
      · exact .inr (first (z - 1) (by omega) (by omega))
    cases @look sb map flags goal len ready ⟨start, false⟩ z low (by simp) above
      free first (by simp [moves]) with
    | overflow wraps is => exact .overflow (.here _) is free begins wraps (by omega) early
    | taken fits takes suits is => exact .found (.here _) is takes suits fits (by omega) early
    | @short n fits takes few minimum is =>
      have beyond : ∀ q, from_ ≤ q → q ≤ z + n → ¬ Suitable sb map flags goal len q := by
        intro q hq hn
        rcases lt_or_ge q z with h | h
        · exact early q hq h
        · exact takes.none_inside few minimum h hn
      rw [tryNext, moves, if_neg (by decide)] at is
      rcases takes.short_cases few with ⟨size, last_free⟩ | ⟨more, used⟩
      · rw [if_pos (by omega), if_neg Bool.false_ne_true] at is
        refine .wrapped (.step is (.here _)) last_free fun q hq suits => ?_
        have inside := (suits.free ready.asked).1.2
        exact beyond q hq (by omega) suits
      · rw [if_neg (by omega)] at is
        refine .after is (sweep from_ (z + n) (by omega) (by omega)
          more (.inr used) (fun q hq hn => beyond q hq (by omega)) fun y hy hn free' begins' => ?_)
        rcases lt_trichotomy y z with h | rfl | h
        · rcases lt_or_ge y start with h' | h'
          · exact words y hy h' free' begins'
          · exact absurd free' (first y h' h)
        · exact fits
        · -- inside the run the block before is free as well
          rcases begins' with rfl | used'
          · omega
          · exact absurd (takes.run (y - 1) (by omega) (by omega)) used'
  · refine .exhausted (.here _) low high none (fun q hq => ?_) fun z hz free begins => ?_
    · rcases lt_or_ge q start with h | h
      · exact passed q hq h
      · exact fun suits => none q h (suits.free ready.asked)
    · rcases lt_or_ge z start with h | h
      · exact words z hz h free begins
      · exact absurd free (none z h)
termination_by sb.blocksCount - start
decreasing_by
  have := takes.some_taken
  omega

theorem second_sweep (last_free : FreeBlock sb map (sb.blocksCount - 1))
    (nothing : ∀ q, goal ≤ q → ¬ Suitable sb map flags goal len q) {start : Nat}
    (low : sb.firstDataBlock ≤ start) (high : start < sb.blocksCount)
    (passed : ∀ q, q < start → ¬ Suitable sb map flags goal len q) :
    EndsWell sb map flags goal len ⟨start, true⟩ := by
  rcases lt_or_ge goal start with beyond | within
  · refine ⟨_, _, .here _, by rw [scanRound, if_pos ⟨rfl, Nat.not_le.mpr beyond⟩], ?_⟩
    intro p chosen
    rcases lt_or_ge p goal with h | h
    · exact absurd chosen.1 (passed p (by omega))
    · exact absurd chosen.1 (nothing p h)
  rcases first_free_or_none start with ⟨z, above, free, first⟩ | none
  · have early : ∀ q, q < z → ¬ Suitable sb map flags goal len q := by
      intro q hz
      rcases lt_or_ge q start with h | h
      · exact passed q h
      · exact fun suits => first q h hz (suits.free ready.asked)
    cases @look sb map flags goal len ready ⟨start, true⟩ z low
      (fun _ => within) above free first (by simp [moves]) with
    | overflow wraps is =>
      refine ⟨_, _, .here _, is, fun p chosen => ?_⟩
      have : z ≤ p := Nat.not_lt.mp fun h => early p h chosen.1
      omega
    | @taken n fits takes suits is =>
      refine ⟨_, _, .here _, is, ⟨suits, fun q suits' => ⟨fun h => ?_, fun _ => .inr ?_⟩⟩, fits,
        n, takes, rfl⟩
      · exact absurd suits' (nothing q h)
      · exact Nat.not_lt.mp fun h => early q h suits'
    | @short n fits takes few minimum is =>
      have beyond : ∀ q, q ≤ z + n → ¬ Suitable sb map flags goal len q := by
        intro q hn
        rcases lt_or_ge q z with h | h
        · exact early q h
        · exact takes.none_inside few minimum h hn
      rw [tryNext, moves, if_neg (by decide)] at is
      rcases takes.short_cases few with ⟨size, -⟩ | ⟨more, used⟩
      · rw [if_pos (by omega), if_pos rfl] at is
        refine ⟨_, _, .here _, is, fun p chosen => ?_⟩
        have inside := (chosen.1.free ready.asked).1.2
        exact absurd chosen.1 (beyond p (by omega))
      · rw [if_neg (by omega)] at is
        obtain ⟨t, r, way, last, good⟩ := second_sweep last_free nothing (by omega) more fun q hn =>
          beyond q (by omega)
        exact ⟨t, r, .step is way, last, good⟩
  · exact absurd last_free (none _ (by omega))
termination_by sb.blocksCount - start
decreasing_by
  have := takes.some_taken
  omega

theorem sweep_from {start : Nat} (holds : sb.Holds start) :
    SweepEnd sb map flags goal len start ⟨start, false⟩ :=
  sweep ready moves _ _ (le_refl _) holds.1 holds.2 (.inl rfl)
    (fun _ hq h => absurd h (Nat.not_lt.mpr hq)) fun _ hq h => absurd h (Nat.not_lt.mpr hq)

theorem exhausted_restarts {t : Nat} (low : sb.firstDataBlock ≤ t)
    (high : t < sb.blocksCount) (used : ∀ q, t ≤ q → ¬ FreeBlock sb map q)
    (further : t ≠ sb.firstDataBlock) :
    scanRound sb map flags goal len ⟨t, false⟩ = .again ⟨sb.firstDataBlock, false⟩ := by
  rw [scanRound_exhausted ready.covers ready.filled low high (by simp) used,
    if_neg (by simp [moves, further])]

theorem ends_or_spins (holds : sb.Holds goal) :
    EndsWell sb map flags goal len ⟨goal, false⟩ ∨ Spins sb map flags goal len := by
  have size := sb.blocks_le
  cases sweep_from ready moves holds with
  | @found t p n way last takes suits fits low first =>
    refine .inl ⟨t, _, way, last, ⟨suits, fun q suits' => ⟨fun h => ⟨low, ?_⟩, fun _ => .inl low⟩⟩,
      fits, n, takes, rfl⟩
    exact Nat.not_lt.mp fun h' => first q h h' suits'
  | @overflow t z way last free start wraps low first =>
    refine .inl ⟨t, _, way, last, fun p chosen => ?_⟩
    have taken : Suitable sb map flags goal len z := by
      by_cases minimum : flags.minLength = true
      · have := chosen.1.short ready.asked minimum
        have := free.1.2
        omega
      · exact suitable_of_free free minimum moves
    have above := ((chosen.2 z taken).1 low).1
    have : z ≤ p := Nat.not_lt.mp fun h => first p above h chosen.1
    omega
  | wrapped way last_free nothing =>
    exact .inl (.after way
        (second_sweep ready moves last_free nothing (le_refl _) sb.first_lt fun q hq suits =>
        absurd (suits.free ready.asked).1.1 (Nat.not_le.mpr hq)))
  | @exhausted t way low high used nothing words =>
    by_cases at_first : t = sb.firstDataBlock
    · subst at_first
      exact .inl (.after way (exhausted_fails ready used))
    have restart := way.then (exhausted_restarts ready moves low high used at_first)
    rcases first_free_or_none sb.firstDataBlock with ⟨y, -, some_free, -⟩ | none
    swap
    · exact .inl (.after restart (exhausted_fails ready none))
    cases sweep_from ready moves ⟨le_refl _, sb.first_lt⟩ with
    | @found u p n way' last takes suits fits low' first =>
      refine .inl (.after restart ⟨u, _, way', last, ⟨suits, fun q suits' => ⟨fun h => ?_,
        fun _ => .inr ?_⟩⟩, fits, n, takes, rfl⟩)
      · exact absurd suits' (nothing q h)
      · exact Nat.not_lt.mp fun h => first q (suits'.free ready.asked).1.1 h suits'
    | @overflow u z way' last free start wraps low' first =>
      refine .inl (.after restart ⟨u, _, way', last, fun p chosen => ?_⟩)
      have : z ≤ p := Nat.not_lt.mp fun h => first p (chosen.1.free ready.asked).1.1 h chosen.1
      omega
    | wrapped way' last_free nothing' => exact absurd last_free (used _ (by omega))
    | @exhausted t' way' low' high' used' nothing' words' =>
      by_cases again_first : t' = sb.firstDataBlock
      · subst again_first
        exact .inl (.after (restart.trans way') (exhausted_fails ready used'))
      refine .inr
        ⟨?_, moves, fun p suits => ?_, ⟨y, some_free⟩, used _ (by omega), fun p free begins => ?_⟩
      · by_contra any
        exact nothing' y some_free.1.1 (suitable_of_free some_free any moves)
      · exact nothing' p (suits.free ready.asked).1.1 suits
      · rcases begins with rfl | rfl | edge
        · exact words p (le_refl _) free (.inl rfl)
        · exact words' _ (le_refl _) free (.inl rfl)
        · exact words' p free.1.1 free (.inr edge)

end

theorem spins_endless (holds : sb.Holds goal) (spins : Spins sb map flags goal len)
    (fuel : Nat) : runLoop (scanRound sb map flags goal len) fuel ⟨goal, false⟩ = none := by
  obtain ⟨minimum, moves, nothing, ⟨y, some_free⟩, last_used, words⟩ := spins
  -- each of the two sweeps can only run out of free blocks, and not at the first block
  have only : ∀ from_, from_ = goal ∨ from_ = sb.firstDataBlock →
      SweepEnd sb map flags goal len from_ ⟨from_, false⟩ →
      ∃ t, Reaches (scanRound sb map flags goal len) ⟨from_, false⟩ ⟨t, false⟩ ∧
        scanRound sb map flags goal len ⟨t, false⟩ = .again ⟨sb.firstDataBlock, false⟩ := by
    intro from_ is ends
    cases ends with
    | found way last takes suits fits low first => exact absurd suits (nothing _)
    | @overflow t z way last free start wraps low first =>
      have := words z free (by rcases start with rfl | h <;> tauto)
      omega
    | wrapped way last_free nothing' => exact absurd last_free last_used
    | @exhausted t way low high used nothing' words' =>
      refine ⟨t, way, exhausted_restarts ready moves low high used ?_⟩
      rintro rfl
      exact used y some_free.1.1 some_free
  obtain ⟨t, way, next⟩ := only goal (.inl rfl) (sweep_from ready moves holds)
  obtain ⟨t', way', next'⟩ := only sb.firstDataBlock (.inr rfl)
    (sweep_from ready moves ⟨le_refl _, sb.first_lt⟩)
  exact endless_of_cycle ((way.then next).trans way') next' way' fuel

theorem fixed_ends (fixed : flags.fixedGoal = true) (holds : sb.Holds goal) :
    EndsWell sb map flags goal len ⟨goal, false⟩ := by
  rcases @first_free_or_none sb map goal with ⟨z, above, free, first⟩ | none
  · by_cases here : z = goal
    · subst here
      cases @look sb map flags z len ready ⟨z,
          false⟩ z holds.1 (by simp) above free first (fun _ => rfl) with
      | overflow wraps is =>
        refine ⟨_, _, .here _, is, fun p chosen => ?_⟩
        rw [chosen.1.2 fixed]
        exact wraps
      | @taken n fits takes suits is =>
        refine ⟨_, _, .here _, is, ⟨suits, fun q suits' => ?_⟩, fits, n, takes, rfl⟩
        rw [suits'.2 fixed]
        exact ⟨fun _ => ⟨le_refl _, le_refl _⟩, fun _ => .inl (le_refl _)⟩
      | short fits takes few minimum is =>
        rw [tryNext, if_pos fixed] at is
        refine ⟨_, _, .here _, is, fun p chosen => ?_⟩
        have at_goal := chosen.1.2 fixed
        exact absurd chosen.1 (takes.none_inside few minimum (by omega) (by omega))
    · refine ⟨_, .error .blockAllocFail, .here _, ?_, fun p chosen => ?_⟩
      · rw [scanRound_free ready.covers ready.filled holds.1 (by simp)
          above free first, tryRun, if_pos ⟨fixed, here⟩]
      · have at_goal := chosen.1.2 fixed
        have free' := chosen.1.free ready.asked
        subst at_goal
        exact absurd free' (first p (le_refl _) (by omega))
  · refine ⟨_, .error .blockAllocFail, .here _, ?_, fun p chosen => ?_⟩
    · rw [scanRound_exhausted ready.covers ready.filled holds.1 holds.2
        (by simp) none, if_pos (.inl fixed)]
    · have at_goal := chosen.1.2 fixed
      exact absurd (chosen.1.free ready.asked) (none p (by omega))

end

/- A tree without any bit: the search for a free block finds none. -/
theorem empty_tree_fails (covers : MapOver sb map) (empty : map.EmptyTree) (holds : sb.Holds goal) :
    ∃ t, Reaches (scanRound sb map flags goal len) ⟨goal, false⟩ t ∧
      scanRound sb map flags goal len t = .done (.error .blockAllocFail) := by
  have blocks := sb.blocks_le
  have none : ∀ start, sb.Holds start →
      ext2fsFindFirstZeroGenericBmap map start (sb.blocksCount - 1) = .error .enoent := by
    intro start inside
    have range : map.HasRange start (sb.blocksCount - 1) :=
      ⟨by have := inside.2; omega, by omega, (covers.has inside).1,
        (covers.has ⟨by have := sb.first_lt; omega, by have := sb.first_lt; omega⟩).2⟩
    exact empty_tree_finds_no_zero range empty
  have round : ∀ start, sb.Holds start → scanRound sb map flags goal len ⟨start, false⟩ =
      if flags.fixedGoal ∨ start = sb.firstDataBlock then .done (.error .blockAllocFail)
      else .again ⟨sb.firstDataBlock, false⟩ := by
    intro start inside
    simp [scanRound, none start inside]
  by_cases stays : flags.fixedGoal = true ∨ goal = sb.firstDataBlock
  · exact ⟨_, .here _, by rw [round goal holds, if_pos stays]⟩
  · refine ⟨⟨sb.firstDataBlock, false⟩, .step ?_ (.here _), ?_⟩
    · rw [round goal holds, if_neg stays]
    · rw [round _ ⟨le_refl _, sb.first_lt⟩, if_pos (.inr rfl)]

end Sweeps

end E2fs.Alloc
