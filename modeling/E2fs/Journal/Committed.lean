import E2fs.Journal.RecoverySound

/-! The three passes together: recovery leaves the committed state. -/
namespace E2fs.Jbd2
open Word BigEndian Option Prod

section recovery
variable {crc : Crc} {j : Journal}

theorem recover_passes {fuel : Nat} {fs fs' : Nat → Block} (started : j.start ≠ 0)
    (run : jbd2JournalRecover crc j fuel fs = some (none, fs')) :
    ∃ s1 s2 s3, doOnePass crc j .scan fuel (freshState fs) = some (none, s1) ∧
      doOnePass crc j .revoke fuel s1 = some (none, s2) ∧
      doOnePass crc j .replay fuel s2 = some (none, s3) ∧ s3.fs = fs' := by
  rw [jbd2JournalRecover, if_neg started] at run
  rcases scan : doOnePass crc j .scan fuel (freshState fs) with _ | out1
  · simp [scan] at run
  obtain ⟨err1, s1⟩ := out1
  simp only [scan, bind_eq_bind, bind_some] at run
  split_ifs at run with ok1
  · simp_all
  rcases revoke : doOnePass crc j .revoke fuel s1 with _ | out2
  · simp [revoke] at run
  obtain ⟨err2, s2⟩ := out2
  simp only [revoke, bind_some] at run
  split_ifs at run with ok2
  · simp_all
  rcases replay : doOnePass crc j .replay fuel s2 with _ | out3
  · simp [replay] at run
  obtain ⟨err3, s3⟩ := out3
  simp only [replay, bind_some, some.injEq, mk.injEq] at run
  simp only [ne_eq, not_not] at ok1 ok2
  subst ok1 ok2
  exact ⟨s1, s2, s3, rfl, revoke, run.1 ▸ replay, run.2⟩

theorem tid_diff {last : Nat} (lt : last < 2 ^ 32) :
    tid j ((2 ^ 32 - j.sequence + last) % 2 ^ 32) = last := by
  have := j.sequence_lt
  unfold tid
  omega

theorem tid_zero : tid j 0 = j.sequence := by
  unfold tid
  exact Nat.mod_eq_of_lt j.sequence_lt

/- A later pass over more than half of all ids is over before it starts, and fails. -/
theorem passLoop_past {pass : PassType} {fuel n : Nat} {s s' : PassState} (later : pass ≠ .scan)
    (past : 2 ^ 31 < n) (lt : n < 2 ^ 32) (id : s.nextCommitId = tid j 0)
    (last : s.endTransaction = tid j n) : passLoop crc j pass fuel s ≠ some (none, s') := by
  intro run
  rcases fuel with _ | fuel
  · simp [passLoop] at run
  have at_once : passStep crc j pass s = .done s := by
    rw [passStep, if_pos ⟨later, by rw [id, last]; exact tidGeq_past j past lt⟩]
  rcases passLoop_cases run with ⟨s1, eq, _⟩ | ⟨s1, eq, ok, _⟩
  · rw [at_once] at eq
    cases eq
  rw [at_once] at eq
  cases eq
  have same := (finishPass_ok later ok).2.2
  rw [id, last] at same
  have := tid_inj (by omega) lt same.symm
  omega

/-- Recovery that returns no error leaves the state of the transactions found by the scan. -/
theorem recovery_computes_committed (fuel : Nat) (fs fs' : Nat → Block)
    (run : jbd2JournalRecover crc j fuel fs = some (none, fs')) :
    ∃ n, committed crc j fuel fs = some n ∧
      (TagsAvoidJournal j fs n → JumpsFit j fs n → Recovered j fs fs' n) := by
  by_cases started : j.start = 0
  · rw [jbd2JournalRecover, if_pos started] at run
    refine ⟨0, if_pos started, fun _ _ => ⟨j.start, [], .stop _ _, fun b => ?_⟩⟩
    simp only [some.injEq, mk.injEq, true_and] at run
    rw [run]
    rfl
  obtain ⟨s1, s2, s3, scan, revoke, replay, rfl⟩ := recover_passes started run
  have kept : ScanKeeps fs emptyTable s1 :=
    scan_run fuel _ s1 ⟨rfl, rfl, j.sequence_lt, by simp [startPass, freshState]⟩ scan
  generalize count : (2 ^ 32 - j.sequence + s1.endTransaction) % 2 ^ 32 = n
  have lt : n < 2 ^ 32 := count ▸ Nat.mod_lt _ (by decide)
  have last : s1.endTransaction = tid j n := by rw [← count, tid_diff kept.end_lt]
  refine ⟨n, by rw [committed, if_neg started, scan, map_some, count], fun avoid room => ?_⟩
  by_cases past : 2 ^ 31 < n
  · exact absurd revoke (passLoop_past (by decide) past lt tid_zero.symm last)
  have half : n ≤ 2 ^ 31 := by omega
  have kept2 := revoke_keeps fuel _ s2 revoke
  have fs2 : s2.fs = fs := kept2.fs_eq.trans kept.fs_eq
  have last2 : s2.endTransaction = tid j n := kept2.end_eq.trans last
  obtain ⟨pos, entries, walk, result⟩ := replay_run half avoid fuel (startPass j s2) s3 replay 0 []
    (.stop _ _) j.start_lt (by omega) tid_zero.symm last2 rfl (fun pos _ => by rw [← fs2]; rfl)
  have below : ∀ m b, Entry.revoke m b ∈ entries → m < n := fun m b mem => walk.trans_lt _ mem
  have table := revoke_run half room walk rfl fuel (startPass j s1) s2 revoke [] (.stop _ _) rfl
    tid_zero.symm last rfl kept.fs_eq
    (by rw [show (startPass j s1).table = _ from kept.table_eq]; exact tableHolds_empty j)
  have result : s3.fs = entries.foldl (applyEntry j s2.table) s2.fs := result
  refine ⟨pos, entries, walk, fun b => ?_⟩
  rw [result, fs2]
  exact foldl_applyEntry b entries fs fun k data mem =>
    table.test half (walk.trans_lt _ mem) below b

theorem LogBlock.type_unique {fs : Nat → Block} {pos k type type' : Nat}
    (head : LogBlock j fs pos k type) (head' : LogBlock j fs pos k type') : type = type' :=
  head.blocktype.symm.trans head'.blocktype

/- The log says how to go on at each position, so it has one list of entries. -/
theorem Walk.unique {fs : Nat → Block} {n pos k pos1 k1 pos2 k2 : Nat} {es1 es2 : List Entry}
    (walk1 : Walk j fs n pos k pos1 k1 es1) (whole1 : k1 = n)
    (walk2 : Walk j fs n pos k pos2 k2 es2) (whole2 : k2 = n) : es1 = es2 := by
  induction walk1 generalizing es2 with
  | stop pos k =>
    cases walk2 with
    | stop => rfl
    | descriptor more => omega
    | commit more => omega
    | revoke more => omega
  | descriptor more head readable rest ih =>
    cases walk2 with
    | stop => omega
    | descriptor _ _ _ rest2 => rw [ih whole1 rest2]
    | commit _ head2 | revoke _ head2 => exact absurd (head.type_unique head2) (by decide)
  | commit more head rest ih =>
    cases walk2 with
    | stop => omega
    | descriptor _ head2 | revoke _ head2 => exact absurd (head.type_unique head2) (by decide)
    | commit _ _ rest2 => exact ih whole1 rest2
  | revoke more head rest ih =>
    cases walk2 with
    | stop => omega
    | descriptor _ head2 | commit _ head2 => exact absurd (head.type_unique head2) (by decide)
    | revoke _ _ rest2 => rw [ih whole1 rest2]

end recovery

section samples

def bytes (bs : List UInt8) : Block := fun i => bs.getD i 0

def header (type seq : UInt8) : List UInt8 := [0xc0, 0x3b, 0x39, 0x98, 0, 0, 0, type, 0, 0, 0, seq]

def sampleTag (b : UInt8) (last : Bool) : List UInt8 :=
  [0, 0, 0, b, 0, 0, 0, if last then 10 else 2]

def noCrc : Crc :=
  ⟨fun _ _ _ => 0, fun _ _ _ => 0, fun _ _ _ => Nat.two_pow_pos 32, fun _ _ _ => Nat.two_pow_pos 32⟩

def sampleJournal (first last start sequence : UInt32) (dev : Nat → Block) : Journal :=
  { blocksize := 1024, first := first.toNat, last := last.toNat, totalLen := last.toNat
    sequence := sequence.toNat, start := start.toNat
    features := ⟨false, false, false, false, false, by decide, by decide⟩
    csumSeed := 0, bmap := id, external := some dev, total_eq := rfl, blocksize_ge := le_rfl
    first_lt := first.toNat_lt, last_lt := last.toNat_lt, start_lt := start.toNat_lt
    sequence_lt := sequence.toNat_lt }

def blank : Nat → Block := fun _ => zeroBlock

def smallLog : Nat → Block
  | 1 => bytes (header 1 1 ++ sampleTag 10 false ++ sampleTag 11 true)
  | 2 => bytes [7]
  | 3 => bytes [8]
  | 4 => bytes (header 2 1)
  | 5 => bytes (header 5 2 ++ [0, 0, 0, 20, 0, 0, 0, 10])
  | 6 => bytes (header 2 2)
  | _ => zeroBlock

def smallJournal : Journal := sampleJournal 1 16 1 1 smallLog

theorem small_recovery_computes_committed :
    ∃ fs', jbd2JournalRecover noCrc smallJournal 9 blank = some (none, fs') ∧
      Recovered smallJournal blank fs' 2 := by
  have ran : (jbd2JournalRecover noCrc smallJournal 9 blank).map fst = some none := by
    decide +kernel
  obtain ⟨⟨err, fs'⟩, run, rfl⟩ := map_eq_some_iff.mp ran
  obtain ⟨n, count, recovered⟩ := recovery_computes_committed 9 blank fs' run
  cases count
  have fits : ∀ pos < 16, nextBlock smallJournal pos +
      countTags smallJournal (journalBlock smallJournal blank pos) + 1 < 2 ^ 32 + 16 := by
    decide +kernel
  exact ⟨fs', run, recovered (fun _ _ _ _ _ _ _ _ alone => by cases alone)
    fun pos _ _ _ _ head => fits pos head.inside⟩

/- The circle has four blocks at the very end of what 32 bits can address. The descriptor
block has more tags than that. -/
def wideLog (pos : Nat) : Block :=
  if pos = 2 ^ 32 - 2 then
    bytes (header 1 1 ++ (List.replicate 15 (sampleTag 100 false)).flatten ++ sampleTag 100 true)
  else if pos = 2 ^ 32 - 5 then bytes (header 2 1)
  else if pos = 7 then bytes (header 5 1 ++ [0, 0, 0, 20, 0, 0, 0, 100])
  else if pos = 4 then bytes (header 2 1)
  else zeroBlock

def wideJournal : Journal := sampleJournal 0xFFFFFFFB 0xFFFFFFFF 0xFFFFFFFE 1 wideLog

def wideEntries : List Entry :=
  tagEntries wideJournal blank (journalBlock wideJournal blank wideJournal.start) 0
    (nextBlock wideJournal wideJournal.start)
    (blockTags wideJournal (journalBlock wideJournal blank wideJournal.start)) ++ []

theorem wide_walk : ∃ pos, Walk wideJournal blank 1 wideJournal.start 0 pos 1 wideEntries := by
  have head : LogBlock wideJournal blank wideJournal.start 0 descriptorType :=
    ⟨by decide +kernel, by decide +kernel, by decide +kernel, by decide +kernel⟩
  have readable : ∀ i < countTags wideJournal (journalBlock wideJournal blank wideJournal.start),
      advance wideJournal (nextBlock wideJournal wideJournal.start) i < wideJournal.totalLen := by
    decide +kernel
  have landing : advance wideJournal (nextBlock wideJournal wideJournal.start)
      (countTags wideJournal (journalBlock wideJournal blank wideJournal.start)) = 2 ^ 32 - 5 := by
    decide +kernel
  have commit : LogBlock wideJournal blank (2 ^ 32 - 5) 0 commitType :=
    ⟨by decide +kernel, by decide +kernel, by decide +kernel, by decide +kernel⟩
  have rest :
    Walk wideJournal blank 1 (advance wideJournal (nextBlock wideJournal wideJournal.start)
      (countTags wideJournal (journalBlock wideJournal blank wideJournal.start))) 0
      (nextBlock wideJournal (2 ^ 32 - 5)) 1 [] := by
    rw [landing]
    exact Walk.commit (by decide) commit (.stop _ _)
  exact ⟨_, Walk.descriptor (by decide) head readable rest⟩

/- The jump over the data blocks ends at `2 ^ 32 + 7`, which is read as block 7. The revoke
block there is not part of the log, yet block 100 is not written. -/
theorem wide_recovery_not_committed :
    ∃ fs', jbd2JournalRecover noCrc wideJournal 9 blank = some (none, fs') ∧
      committed noCrc wideJournal 9 blank = some 1 ∧
      TagsAvoidJournal wideJournal blank 1 ∧ ¬ Recovered wideJournal blank fs' 1 := by
  have ran : (jbd2JournalRecover noCrc wideJournal 9 blank).map
      (fun out => (out.1, out.2 100 0)) = some (none, 0) := by
    decide +kernel
  have last : (lastTag wideEntries 100).map (fun data => data 0) = some 0xc0 := by
    decide +kernel
  obtain ⟨⟨err, fs'⟩, run, out⟩ := map_eq_some_iff.mp ran
  obtain ⟨rfl, kept⟩ := mk.inj out
  refine ⟨fs', run, by decide +kernel, fun _ _ _ _ _ _ _ _ alone => (by cases alone), ?_⟩
  rintro ⟨_, entries, walk, recovered⟩
  obtain ⟨_, whole⟩ := wide_walk
  obtain ⟨data, tag, byte⟩ := map_eq_some_iff.mp last
  have written := recovered 100
  rw [walk.unique rfl whole rfl, tag, getD_some] at written
  have clash : (0xc0 : UInt8) = 0 := by rw [← byte, ← written]; exact kept
  cases clash

end samples

end E2fs.Jbd2
