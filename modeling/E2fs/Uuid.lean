import Mathlib.Tactic

/-! lib/uuid/gen_uuid.c, `get_clock`: the reading of the clock, an adjustment below it and a
sequence number keep the times apart. -/
namespace E2fs.Uuid
open List

@[ext] structure Timeval where
  sec : Int
  usec : Int
deriving DecidableEq

def Timeval.micros (tv : Timeval) : Int := 1000000 * tv.sec + tv.usec

/- The comparison that `get_clock` makes. -/
def Timeval.Before (tv last : Timeval) : Prop :=
  tv.sec < last.sec ∨ tv.sec = last.sec ∧ tv.usec < last.usec

instance (tv last : Timeval) : Decidable (tv.Before last) := inferInstanceAs (Decidable (_ ∨ _))

structure Clock where
  clockSeq : BitVec 14
  last : Timeval
  adjustment : Int

/- The static variables and the state file, with the numbers that can be read from it. -/
structure State where
  clock : Clock
  stateFd : Option Nat
  file : Option Clock

def State.load (s : State) : Clock :=
  match s.stateFd, s.file with
  | some _, some saved => saved
  | _, _ => s.clock

def first (random : BitVec 14) (c : Clock) (readings : List Timeval) :
    Option (Clock × List Timeval) :=
  if c.last = ⟨0, 0⟩ then
    match readings with
    | [] => none
    | tv :: readings => some (⟨random, { tv with sec := tv.sec - 1 }, c.adjustment⟩, readings)
  else some (c, readings)

/- When it ends, `last` is the reading. -/
def tryAgain (c : Clock) : List Timeval → Option (Clock × List Timeval)
  | [] => none
  | tv :: readings =>
    if tv.Before c.last then some (⟨c.clockSeq + 1, tv, 0⟩, readings)
    else if tv = c.last then
      if 10 ≤ c.adjustment then tryAgain c readings
      else some ({ c with adjustment := c.adjustment + 1 }, readings)
    else some ({ c with last := tv, adjustment := 0 }, readings)

def clockReg (c : Clock) : Nat :=
  ((c.last.usec * 10 + c.adjustment + c.last.sec * 10000000 + 0x01B21DD213814000) % 2 ^ 64).toNat

def reserve (num : Nat) (c : Clock) : Clock :=
  if 1 < num then
    let adjustment := c.adjustment + (num - 1)
    let usec := c.last.usec + adjustment.tdiv 10
    { c with
      last := ⟨c.last.sec + usec.tdiv 1000000, usec.tmod 1000000⟩
      adjustment := adjustment.tmod 10 }
  else c

structure Call where
  num : Nat
  random : BitVec 14

/- What a call returns: the times from `clockReg` on. -/
structure Answer where
  clock : Clock
  num : Nat

/-- `none`: the readings are used up. -/
def getClock (s : State) (call : Call) (readings : List Timeval) :
    Option (State × Answer × List Timeval) :=
  (first call.random s.load readings).bind fun (c, readings) =>
    (tryAgain c readings).map fun (c, readings) =>
      let c' := reserve call.num c
      (⟨c', s.stateFd, if s.stateFd.any (0 < ·) then some c' else s.file⟩, ⟨c, call.num⟩, readings)

/- The clock that a call finds, and its answer. -/
structure Turn where
  found : Clock
  answer : Answer

def run (s : State) (readings : List Timeval) : List Call → List Turn
  | [] => []
  | call :: calls =>
    match getClock s call readings with
    | none => []
    | some (s', answer, readings) => ⟨s.load, answer⟩ :: run s' readings calls

def Answer.pairs (a : Answer) : List (Nat × BitVec 14) :=
  (range a.num).map fun i => (clockReg a.clock + i, a.clock.clockSeq)

/- The reading that a call ends with is before the last one. -/
def Turn.Back (t : Turn) : Prop := t.answer.clock.last.Before t.found.last

instance (t : Turn) : Decidable t.Back := inferInstanceAs (Decidable (Timeval.Before _ _))

/- Eleven times were taken from a microsecond, and the reading is the next one. -/
def Turn.Carries (t : Turn) : Prop :=
  t.found.adjustment = 10 ∧ t.answer.clock.last.micros = t.found.last.micros + 1

instance (t : Turn) : Decidable t.Carries := inferInstanceAs (Decidable (_ ∧ _))

structure Timeval.Fits (tv : Timeval) : Prop where
  nonneg : 0 ≤ tv.usec
  usec : tv.usec < 1000000
  low : 2 ^ 31 < tv.micros
  high : tv.sec < 2 ^ 40

def Clock.ticks (c : Clock) : Int := 10 * c.last.micros + c.adjustment

section

variable {s s' : State} {c c' : Clock} {a b : Answer} {t u : Turn} {call : Call}
  {calls : List Call} {readings rest : List Timeval} {turns : List Turn}

theorem clockReg_eq (fits : c.last.Fits) (int : -2 ^ 31 ≤ c.adjustment) (few : c.adjustment ≤ 10) :
    (clockReg c : Int) = c.ticks + 0x01B21DD213814000 := by
  obtain ⟨nonneg, usec, low, high⟩ := fits
  unfold Timeval.micros at low
  rw [clockReg, Clock.ticks, Timeval.micros]
  omega

variable {tv last : Timeval}

theorem micros_lt (fits : tv.Fits) (low : -1000000 < last.usec) (high : last.usec < 1000000)
    (on : ¬ tv.Before last) (other : tv ≠ last) : last.micros < tv.micros := by
  obtain ⟨nonneg, -, -, -⟩ := fits
  rw [ne_eq, Timeval.ext_iff] at other
  unfold Timeval.Before at on
  unfold Timeval.micros
  omega

theorem micros_lt_of_before (fits : tv.Fits) (fits' : last.Fits) (back : tv.Before last) :
    tv.micros < last.micros := by
  obtain ⟨-, high, -, -⟩ := fits
  obtain ⟨low, -, -, -⟩ := fits'
  unfold Timeval.Before at back
  unfold Timeval.micros
  omega

/- The division of C. -/
theorem tdiv_spec (x m : Int) (pos : 0 < m) :
    m * x.tdiv m + x.tmod m = x ∧ -m < x.tmod m ∧ x.tmod m < m :=
  ⟨Int.mul_tdiv_add_tmod x m, Int.lt_tmod_of_pos x pos, Int.tmod_lt_of_pos x pos⟩

theorem reserve_spec {num : Nat} (pos : 0 < num) (fits : c.last.Fits)
    (int : -2 ^ 31 ≤ c.adjustment) (few : c.adjustment ≤ 10) :
    let c' := reserve num c
    c'.clockSeq = c.clockSeq ∧ c'.ticks = c.ticks + (num - 1) ∧
      (-1000000 < c'.last.usec ∧ c'.last.usec < 1000000) ∧
      (-2 ^ 31 ≤ c'.adjustment ∧ c'.adjustment ≤ 10) ∧ c'.last ≠ ⟨0, 0⟩ ∧
      (c'.adjustment = 10 → c' = c ∧ num = 1) := by
  obtain ⟨nonneg, usec, low, high⟩ := fits
  unfold reserve Clock.ticks Timeval.micros at *
  simp only [ne_eq, Timeval.ext_iff]
  split
  · have parts := tdiv_spec (c.adjustment + (num - 1)) 10 (by decide)
    have carry := tdiv_spec
      (c.last.usec + (c.adjustment + ((num : Int) - 1)).tdiv 10) 1000000 (by decide)
    refine ⟨rfl, ?_, ?_, ?_, ?_, fun ten => ?_⟩
    all_goals
      simp only at *
      omega
  · exact ⟨rfl, by omega, by omega, by omega, by omega, fun _ => ⟨rfl, by omega⟩⟩

theorem tryAgain_spec (is : tryAgain c readings = some (c', rest)) :
    c'.last ∈ readings ∧ rest ⊆ readings ∧
      (-2 ^ 31 ≤ c.adjustment → -2 ^ 31 ≤ c'.adjustment ∧ c'.adjustment ≤ 10) ∧
      (c'.last.Before c.last ∧ c'.clockSeq = c.clockSeq + 1 ∨
        ¬ c'.last.Before c.last ∧ c'.clockSeq = c.clockSeq ∧
          (c'.last = c.last ∧ c.adjustment < 10 ∧ c'.adjustment = c.adjustment + 1 ∨
            c'.last ≠ c.last ∧ c'.adjustment = 0)) := by
  induction readings with
  | nil => cases is
  | cons tv readings ih =>
    rw [tryAgain] at is
    split_ifs at is with back same full
    · cases is
      exact ⟨mem_cons_self .., subset_cons_self ..,
        fun _ => ⟨(by decide : (_ : Int) ≤ 0), (by decide : (0 : Int) ≤ 10)⟩, .inl ⟨back, rfl⟩⟩
    · obtain ⟨mem, sub, rest⟩ := ih is
      exact ⟨mem_cons_of_mem _ mem, subset_cons_of_subset _ sub, rest⟩
    · cases is
      refine ⟨same ▸ mem_cons_self .., subset_cons_self .., fun int => ⟨?_, ?_⟩,
        .inr ⟨same ▸ back, rfl, .inl ⟨rfl, not_le.mp full, rfl⟩⟩⟩
      · simp only
        omega
      · simp only
        omega
    · cases is
      exact ⟨mem_cons_self .., subset_cons_self ..,
        fun _ => ⟨(by decide : (_ : Int) ≤ 0), (by decide : (0 : Int) ≤ 10)⟩,
        .inr ⟨back, rfl, .inr ⟨same, rfl⟩⟩⟩

/-- A turn that the next one can build on. -/
structure Turn.Sound (t : Turn) : Prop where
  fits : t.answer.clock.last.Fits
  int : -2 ^ 31 ≤ t.answer.clock.adjustment
  few : t.answer.clock.adjustment ≤ 10
  pos : 0 < t.answer.num

/-- `u` has the sequence number of `t` and later times, or a number that is `k` further. -/
def Later (k : Nat) (t u : Turn) : Prop :=
  u.answer.clock.clockSeq = t.answer.clock.clockSeq + BitVec.ofNat 14 k ∧
    (k = 0 → t.answer.clock.ticks + t.answer.num ≤ u.answer.clock.ticks)

/-- The turn after `t`. If it carries, it starts with the last time of `t` once more. -/
structure Next (t u : Turn) : Prop where
  later : ¬ u.Carries → Later (if u.Back then 1 else 0) t u
  again : u.Carries → u.answer.clock.clockSeq = t.answer.clock.clockSeq ∧
    u.answer.clock.ticks = t.answer.clock.ticks

theorem first_spec {random : BitVec 14} (is : first random c readings = some (c', rest)) :
    rest ⊆ readings ∧ c'.adjustment = c.adjustment ∧ (c.last ≠ ⟨0, 0⟩ → c' = c) := by
  unfold first at is
  split_ifs at is with zero
  · rcases readings with _ | ⟨tv, readings⟩
    · cases is
    cases is
    exact ⟨subset_cons_self .., rfl, (absurd zero ·)⟩
  · cases is
    exact ⟨Subset.refl _, rfl, fun _ => rfl⟩

section Step

variable (fd : s.stateFd ≠ some 0) (is : getClock s call readings = some (s', b, rest))
include fd is

theorem getClock_inv : ∃ c left, first call.random s.load readings = some (c, left) ∧
    tryAgain c left = some (b.clock, rest) ∧ b.num = call.num ∧ s'.load = reserve b.num b.clock ∧
    s'.stateFd = s.stateFd := by
  obtain ⟨⟨c, left⟩, init, again⟩ := Option.bind_eq_some_iff.mp is
  obtain ⟨⟨c', left'⟩, tried, same⟩ := Option.map_eq_some_iff.mp again
  cases same
  refine ⟨c, left, init, tried, rfl, ?_, rfl⟩
  match known : s.stateFd with
  | none => rfl
  | some 0 => exact absurd known fd
  | some (fd + 1) => rfl

theorem Turn.Sound.next (sound : t.Sound) (load : s.load = reserve t.answer.num t.answer.clock)
    (fits : b.clock.last.Fits) : Next t ⟨s.load, b⟩ := by
  obtain ⟨c, left, init, tried, -⟩ := getClock_inv fd is
  obtain ⟨seq, ticks, usec, adj, nonzero, ten⟩ :=
    reserve_spec sound.pos sound.fits sound.int sound.few
  rw [← load] at seq ticks usec adj nonzero ten
  obtain rfl := (first_spec init).2.2 nonzero
  obtain ⟨-, -, -, went⟩ := tryAgain_spec tried
  constructor
  · intro plain
    rcases went with ⟨back, new⟩ | ⟨on, same, went⟩
    · rw [if_pos (show Turn.Back ⟨s.load, b⟩ from back)]
      exact ⟨new.trans (by rw [seq]; rfl), nofun⟩
    · rw [if_neg (show ¬ Turn.Back ⟨s.load, b⟩ from on)]
      refine ⟨by simp [same, seq], fun _ => ?_⟩
      rcases went with ⟨equal, -, more⟩ | ⟨other, zero⟩
      · simp only [Clock.ticks, equal, more] at ticks ⊢
        omega
      · have above := micros_lt fits usec.1 usec.2 on other
        have far : s.load.adjustment = 10 → b.clock.last.micros ≠ s.load.last.micros + 1 :=
          fun full next => plain ⟨full, next⟩
        simp only [Clock.ticks, zero] at ticks ⊢
        omega
  · rintro ⟨full, next⟩
    dsimp only at full next
    obtain ⟨kept, -⟩ := ten full
    rcases went with ⟨back, -⟩ | ⟨-, same, ⟨equal, -⟩ | ⟨-, zero⟩⟩
    · have below := micros_lt_of_before fits (kept ▸ sound.fits) back
      omega
    · rw [equal] at next
      omega
    · refine ⟨same.trans seq, ?_⟩
      simp only [Clock.ticks, zero, ← kept, full]
      omega

end Step

theorem run_spec (fits : ∀ tv ∈ readings, tv.Fits) (fd : s.stateFd ≠ some 0)
    (pos : ∀ call ∈ calls, 0 < call.num) (int : -2 ^ 31 ≤ s.load.adjustment) :
    IsChain Next (run s readings calls) ∧ (∀ t ∈ run s readings calls, t.Sound) ∧
      ∀ t, t.Sound → s.load = reserve t.answer.num t.answer.clock →
        ∀ u ∈ (run s readings calls).head?, Next t u := by
  induction calls generalizing s readings with
  | nil => simp [run]
  | cons call calls ih =>
    rw [run]
    rcases is : getClock s call readings with _ | ⟨s', b, rest⟩
    · simp
    obtain ⟨pos, posRest⟩ := forall_mem_cons.mp pos
    obtain ⟨c, left, init, tried, num, load, fd'⟩ := getClock_inv fd is
    obtain ⟨left, adjustment, -⟩ := first_spec init
    obtain ⟨mem, sub, bounds, -⟩ := tryAgain_spec tried
    obtain ⟨low, few⟩ := bounds (adjustment ▸ int)
    have here : Turn.Sound ⟨s.load, b⟩ := ⟨fits _ (left mem), low, few, num ▸ pos⟩
    have next := (reserve_spec here.pos here.fits here.int here.few).2.2.2.1.1
    obtain ⟨chain, all, head⟩ := ih (fun tv mem => fits tv (left (sub mem))) (fd' ▸ fd) posRest
      (load ▸ next)
    refine ⟨isChain_cons.mpr ⟨head _ here load, chain⟩, forall_mem_cons.mpr ⟨here, all⟩, ?_⟩
    rintro t sound load u ⟨⟩
    exact sound.next fd is load here.fits

theorem later_of_chain (chain : IsChain Next (t :: turns)) (plain : ∀ u ∈ turns, ¬ u.Carries)
    (mem : u ∈ turns) : ∃ k ≤ turns.countP (decide ·.Back), Later k t u := by
  induction turns generalizing t with
  | nil => cases mem
  | cons x turns ih =>
    obtain ⟨next, chain⟩ := isChain_cons_cons.mp chain
    obtain ⟨here, plain⟩ := forall_mem_cons.mp plain
    have step := next.later here
    rw [countP_cons]
    rcases mem_cons.mp mem with rfl | mem
    · exact ⟨_, by simp, step⟩
    · obtain ⟨k, le, seq, times⟩ := ih chain plain mem
      refine ⟨(if x.Back then 1 else 0) + k, by simp; omega, ?_, fun zero => ?_⟩
      · rw [seq, step.1, BitVec.ofNat_add, BitVec.add_assoc]
      · have := step.2 (by omega)
        have := times (by omega)
        omega

theorem pairs_disjoint (chain : IsChain Next turns) (plain : ∀ u ∈ turns.tail, ¬ u.Carries)
    (few : turns.tail.countP (decide ·.Back) < 2 ^ 14) (sound : ∀ t ∈ turns, t.Sound) :
    turns.Pairwise fun t u => t.answer.pairs.Disjoint u.answer.pairs := by
  induction turns with
  | nil => exact .nil
  | cons t turns ih =>
    obtain ⟨here, rest⟩ := forall_mem_cons.mp sound
    refine pairwise_cons.mpr ⟨fun u mem => ?_, ih chain.tail
      (fun u mem => plain u (mem_of_mem_tail mem))
      (lt_of_le_of_lt (Sublist.countP_le (tail_sublist turns)) few) rest⟩
    obtain ⟨k, le, seq, times⟩ := later_of_chain chain plain mem
    have le : k < 2 ^ 14 := lt_of_le_of_lt le few
    have own := clockReg_eq here.fits here.int here.few
    have there := clockReg_eq (rest u mem).fits (rest u mem).int (rest u mem).few
    intro pair first second
    obtain ⟨i, lt, rfl⟩ := mem_map.mp first
    obtain ⟨j, -, same⟩ := mem_map.mp second
    obtain ⟨time, same⟩ := Prod.mk.inj same
    rw [mem_range] at lt
    by_cases zero : k = 0
    · have := times zero
      omega
    · bv_omega

/- A turn that carries repeats the time before it. -/
theorem not_disjoint_of_carries (next : Next t u) (carries : u.Carries) (sound : t.Sound)
    (sound' : u.Sound) : ¬ t.answer.pairs.Disjoint u.answer.pairs := by
  obtain ⟨seq, ticks⟩ := next.again carries
  have own := clockReg_eq sound.fits sound.int sound.few
  have there := clockReg_eq sound'.fits sound'.int sound'.few
  have first : ∀ a : Answer, 0 < a.num → (clockReg a.clock, a.clock.clockSeq) ∈ a.pairs :=
    fun a pos => mem_map.mpr ⟨0, mem_range.mpr pos, rfl⟩
  refine fun apart => apart (first _ sound.pos) ?_
  rw [show clockReg t.answer.clock = clockReg u.answer.clock by omega, ← seq]
  exact first _ sound'.pos

theorem plain_of_disjoint (chain : IsChain Next turns) (sound : ∀ t ∈ turns, t.Sound)
    (apart : turns.Pairwise fun t u => t.answer.pairs.Disjoint u.answer.pairs) :
    ∀ u ∈ turns.tail, ¬ u.Carries := by
  induction turns with
  | nil => simp
  | cons t turns ih =>
    obtain ⟨here, rest⟩ := forall_mem_cons.mp sound
    obtain ⟨first, apart⟩ := pairwise_cons.mp apart
    cases turns with
    | nil => simp
    | cons u turns =>
      have next := (isChain_cons_cons.mp chain).1
      refine forall_mem_cons.mpr ⟨fun carries => ?_, ih chain.tail rest apart⟩
      exact not_disjoint_of_carries next carries here (rest u mem_cons_self) (first u mem_cons_self)

end

/-- The times are not repeated if and only if no call finds eleven times of a microsecond taken and
reads the next one, as long as fewer than 2^14 readings are before the last one. (They are also
when a call finds the clock before what was reserved.) -/
theorem times_unique (s : State) (readings : List Timeval) (calls : List Call)
    (fits : ∀ tv ∈ readings, tv.Fits) (fd : s.stateFd ≠ some 0)
    (int : -2 ^ 31 ≤ s.load.adjustment)
    (nums : ∀ call ∈ calls, 0 < call.num ∧ call.num < 2 ^ 31 - 9)
    (around : (run s readings calls).tail.countP (decide ·.Back) < 2 ^ 14) :
    ((run s readings calls).flatMap (·.answer.pairs)).Nodup ↔
      ∀ t ∈ (run s readings calls).tail, ¬ t.Carries := by
  obtain ⟨chain, sound, -⟩ := run_spec fits fd (fun call mem => (nums call mem).1) int
  generalize run s readings calls = turns at *
  rw [nodup_flatMap]
  constructor
  · exact fun apart => plain_of_disjoint chain sound apart.2
  · intro plain
    refine ⟨fun t mem => ?_, pairs_disjoint chain plain around sound⟩
    exact nodup_range.map fun i j same => Nat.add_left_cancel (Prod.mk.inj same).1

def freshState : State := ⟨⟨0, ⟨0, 0⟩, 0⟩, none, none⟩

theorem three_times_unique : ((run freshState [⟨5000, 0⟩, ⟨5000, 1⟩, ⟨5000, 1⟩, ⟨5000, 2⟩]
    [⟨1, 7⟩, ⟨30, 0⟩, ⟨1, 0⟩]).flatMap (·.answer.pairs)).Nodup := by
  refine (times_unique freshState _ _ (fun tv mem => ?_) nofun
    (by decide) (by decide) (by decide)).mpr (by decide)
  simp only [mem_cons, not_mem_nil, or_false] at mem
  rcases mem with rfl | rfl | rfl | rfl <;> exact ⟨by decide, by decide, by decide, by decide⟩

/- The eleventh time of a microsecond is the first one of the next. -/
theorem eleventh_time_repeated :
    ¬ ((run freshState (replicate 12 ⟨5, 0⟩ ++ [⟨5, 1⟩]) (replicate 12 ⟨1, 0⟩)).flatMap
      (·.answer.pairs)).Nodup := by
  decide

end E2fs.Uuid
