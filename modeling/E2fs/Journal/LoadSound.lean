import E2fs.Journal.Load
import E2fs.Lib.Loop

/-! The log cursor over a loaded journal: it is circular exactly without fast commits. -/
namespace E2fs.Jbd2
open Word Loop

def circularNext (j : JournalT) (p : Nat) : Nat := if p + 1 = j.last then j.first else p + 1

/-- Recovery's cursor goes round the log area, and the cursor of `journal_find_head` with it. -/
structure CircularCursor (j : JournalT) : Prop where
  next : ∀ p, j.first ≤ p → p < j.last → recoveryWrap j (p + 1) = circularNext j p
  inside : ∀ p, j.first ≤ p → p < j.last →
    j.first ≤ recoveryWrap j (p + 1) ∧ recoveryWrap j (p + 1) < j.last
  same : ∀ p count, j.first ≤ p → p < j.last →
    recoveryWrap j (p + count) = findHeadWrap j (p + count)

theorem wrapAt_end {last first : Nat} (first_lt : first < 2 ^ 64) :
    wrapAt last first last = first := by
  rw [wrapAt, if_pos le_rfl]
  unfold sub64
  omega

/- At the end of the log area the cursor comes to its start only if both ends are one. -/
theorem wrapAt_end_iff {wrapEnd last first : Nat} (wrap_lt : wrapEnd < 2 ^ 64) (lt : last < 2 ^ 64)
    (order : first < last) : wrapAt wrapEnd first last = first ↔ wrapEnd = last := by
  constructor
  · intro eq
    unfold wrapAt at eq
    split at eq
    · unfold sub64 at eq
      omega
    · omega
  · rintro rfl
    exact wrapAt_end (by omega)

theorem circularCursor_iff {j : JournalT} (wrap_lt : wrapLast j < 2 ^ 64) (lt : j.last < 2 ^ 64) :
    CircularCursor j ↔ wrapLast j = j.last ∨ j.last ≤ j.first := by
  constructor
  · intro cursor
    by_cases order : j.first < j.last
    · have back := cursor.next (j.last - 1) (by omega) (by omega)
      rw [circularNext, if_pos (by omega), Nat.sub_add_cancel (by omega)] at back
      exact .inl ((wrapAt_end_iff wrap_lt lt order).mp back)
    · exact .inr (by omega)
  · rintro (eq | empty)
    · have next : ∀ p, j.first ≤ p → p < j.last → recoveryWrap j (p + 1) = circularNext j p := by
        intro p _ below
        rw [recoveryWrap, eq, circularNext]
        by_cases stop : p + 1 = j.last
        · rw [stop, if_pos rfl, wrapAt_end (by omega)]
        · rw [if_neg stop, wrapAt, if_neg (by omega)]
      refine ⟨next, ?_, ?_⟩
      · intro p above below
        rw [next p above below, circularNext]
        split <;> omega
      · intro p count _ _
        rw [recoveryWrap, findHeadWrap, eq]
    · exact ⟨fun p _ _ => by omega, fun p _ _ => by omega, fun p _ _ _ => by omega⟩

section loaders
variable {j j' : JournalT} {csum : SuperblockCsum} {fs : Owner}

theorem journalVersion_keeps {clears uuidNull : Bool}
    (ok : journalVersion clears uuidNull j = .ok j') :
    j'.fcLast = j.fcLast ∧ j'.blocksize = j.blocksize := by
  unfold journalVersion at ok
  dsimp only at ok
  generalize (if 1 < j.superblock.nrUsers ∧ uuidNull = true ∧ clears = true then
    clearV2JournalFields j.superblock else j.superblock) = jsb at ok
  repeat' split at ok
  all_goals cases ok
  all_goals exact ⟨rfl, rfl⟩

/- The checks leave a journal of the length that the superblock gives. -/
theorem journalChecks_keeps (ok : journalChecks csum j = .ok j') :
    j'.fcLast = j.fcLast ∧ j'.blocksize = j.blocksize ∧ j'.totalLen = j'.superblock.maxlen := by
  simp only [journalChecks] at ok
  repeat' split at ok
  all_goals cases ok
  all_goals refine ⟨rfl, rfl, ?_⟩
  all_goals dsimp only <;> omega

theorem e2fsckJournalFixBadInode_same (ok : e2fsckJournalFixBadInode fs j = .ok j') : j' = j := by
  unfold e2fsckJournalFixBadInode at ok
  repeat' split at ok
  all_goals cases ok
  all_goals rfl

/- The two ends of the log are one without fast commits, and apart with them. -/
structure EndsKnown (j : JournalT) : Prop where
  wrap_lt : wrapLast j < 2 ^ 64
  last_lt : j.last < 2 ^ 64
  plain : hasFeatureFastCommit j = false → wrapLast j = j.last
  fast : hasFeatureFastCommit j = true → wrapLast j ≠ j.last ∨ j.last ≤ j.first

theorem endsKnown_fast (fast : hasFeatureFastCommit j = true) (wrap_lt : j.fcLast < 2 ^ 64)
    (last_lt : j.last < 2 ^ 64) (apart : j.fcLast ≠ j.last ∨ j.last ≤ j.first) : EndsKnown j := by
  have ends : wrapLast j = j.fcLast := if_pos fast
  refine ⟨ends ▸ wrap_lt, last_lt, fun plain => ?_, fun _ => ends ▸ apart⟩
  rw [fast] at plain
  cases plain

theorem endsKnown_plain (plain : hasFeatureFastCommit j = false) (last_lt : j.last < 2 ^ 64) :
    EndsKnown j := by
  have ends : wrapLast j = j.last := if_neg (by simp [plain])
  refine ⟨ends ▸ last_lt, last_lt, fun _ => ends, fun fast => ?_⟩
  rw [fast] at plain
  cases plain

theorem e2fsckJournalEnds_known (ok : e2fsckJournalEnds j = .ok j') : EndsKnown j' := by
  have maxlen := j.superblock.maxlen_lt
  simp only [e2fsckJournalEnds] at ok
  split at ok
  · rename_i fast
    split at ok
    · cases ok
    cases ok
    have count :
      jbd2JournalGetNumFcBlks j.superblock ≠ 0 ∧ -2 ^ 31 ≤ jbd2JournalGetNumFcBlks j.superblock ∧
        jbd2JournalGetNumFcBlks j.superblock < 2 ^ 31 := by
      have lt := j.superblock.numFcBlks_lt
      unfold jbd2JournalGetNumFcBlks toInt32
      split
      · omega
      · rw [Int.bmod_def]
        omega
    refine endsKnown_fast fast ?_ ?_ (.inl ?_)
    · show j.superblock.maxlen < 2 ^ 64
      omega
    · show (((j.superblock.maxlen : Int) - jbd2JournalGetNumFcBlks j.superblock) % 2 ^ 64).toNat <
        2 ^ 64
      omega
    · show j.superblock.maxlen ≠
        (((j.superblock.maxlen : Int) - jbd2JournalGetNumFcBlks j.superblock) % 2 ^ 64).toNat
      omega
  · rename_i plain
    cases ok
    refine endsKnown_plain (Bool.eq_false_iff.mpr plain) ?_
    show j.superblock.maxlen < 2 ^ 64
    omega

theorem getJournal_known (jsb : Superblock) (blocksize totalLen : Nat) :
    EndsKnown (getJournal jsb blocksize totalLen) := endsKnown_plain rfl (show 0 < 2 ^ 64 by decide)

theorem e2fsckJournalLoad_known {jsb : Superblock} {blocksize totalLen : Nat}
    (ok : e2fsckJournalLoad fs csum (getJournal jsb blocksize totalLen) = .ok j) : EndsKnown j := by
  rw [e2fsckJournalLoad] at ok
  split at ok
  · rw [e2fsckJournalFixBadInode_same ok]
    exact getJournal_known jsb blocksize totalLen
  · obtain ⟨_, -, ok⟩ := bind_ok ok
    obtain ⟨_, -, ok⟩ := bind_ok ok
    exact e2fsckJournalEnds_known ok

theorem ext2fsJournalLoad_known {jsb : Superblock} {blocksize totalLen : Nat}
    (ok : ext2fsJournalLoad fs csum (getJournal jsb blocksize totalLen) = .ok j) : EndsKnown j := by
  rw [ext2fsJournalLoad] at ok
  split at ok
  · have same : j = getJournal jsb blocksize totalLen := by
      unfold ext2fsJournalFixBadInode at ok
      repeat' split at ok
      all_goals cases ok
      all_goals rfl
    rw [same]
    exact getJournal_known jsb blocksize totalLen
  obtain ⟨j1, version, ok⟩ := bind_ok ok
  obtain ⟨j2, checks, ⟨⟩⟩ := bind_ok ok
  -- the end of the fast commit area is still that of the new `journal_t`
  have none : j2.fcLast = 0 := (journalChecks_keeps checks).1.trans (journalVersion_keeps version).1
  have maxlen := j2.superblock.maxlen_lt
  cases fast : hasFeatureFastCommit j2 with
  | false =>
    refine endsKnown_plain fast ?_
    show j2.superblock.maxlen < 2 ^ 64
    omega
  | true =>
    refine endsKnown_fast fast ?_ ?_ ?_
    · show j2.fcLast < 2 ^ 64
      omega
    · show j2.superblock.maxlen < 2 ^ 64
      omega
    · show j2.fcLast ≠ j2.superblock.maxlen ∨ j2.superblock.maxlen ≤ j2.superblock.first
      omega

end loaders

/-- Recovery's cursor is circular in the log area exactly if the journal has no fast commits
(or no log area at all). -/
theorem cursor_circular_iff (fs : Owner) (csum : SuperblockCsum) (jsb : Superblock)
    (blocksize totalLen : Nat) (j : JournalT)
    (loaded : e2fsckJournalLoad fs csum (getJournal jsb blocksize totalLen) = .ok j ∨
      ext2fsJournalLoad fs csum (getJournal jsb blocksize totalLen) = .ok j) :
    CircularCursor j ↔ hasFeatureFastCommit j = false ∨ j.last ≤ j.first := by
  have known : EndsKnown j := by
    rcases loaded with ok | ok
    · exact e2fsckJournalLoad_known ok
    · exact ext2fsJournalLoad_known ok
  rw [circularCursor_iff known.wrap_lt known.last_lt]
  cases fast : hasFeatureFastCommit j with
  | false => simp [known.plain fast]
  | true =>
    have apart := known.fast fast
    simp only [reduceCtorEq, false_or]
    omega

/- A journal of `maxlen` blocks of 1 KiB, with or without fast commits. -/
def superblockOf (maxlen first numFcBlks : UInt32) (fast : Bool) : Superblock :=
  { magic := jbd2Magic, blocktype := 4, blocksize := 1024, maxlen := maxlen.toNat
    first := first.toNat, sequence := 1, start := 0, featureCompat := 0
    featureIncompat := if fast then 0x20 else 0, featureRoCompat := 0, uuid := 0, nrUsers := 1
    checksumType := 0, numFcBlks := numFcBlks.toNat, checksum := 0, maxlen_lt := maxlen.toNat_lt
    first_lt := first.toNat_lt, numFcBlks_lt := numFcBlks.toNat_lt }

def sampleSuperblock : Bool → Superblock := superblockOf 4096 1 0

def sampleOwner : Owner := ⟨true, 8, false, true, false, false, false⟩

def sampleCsum : SuperblockCsum := ⟨fun _ => 0, fun _ => 0⟩

theorem plain_cursor_circular :
    ∃ j, e2fsckJournalLoad sampleOwner sampleCsum (getJournal (sampleSuperblock false) 1024 4096) =
      .ok j ∧ j.first < j.last ∧ CircularCursor j := by
  refine ⟨_, rfl, by decide, ?_⟩
  refine (cursor_circular_iff sampleOwner sampleCsum (sampleSuperblock false) 1024 4096 _
    (.inl rfl)).mpr (.inl ?_)
  decide

/- The last block of the log area, 3839, is followed by the first one of the fast commit area
and not by block 1. -/
theorem fast_cursor_leaves_log :
    ∃ j, e2fsckJournalLoad sampleOwner sampleCsum (getJournal (sampleSuperblock true) 1024 4096) =
      .ok j ∧ j.first ≤ 3839 ∧ 3839 < j.last ∧ j.last ≤ 3840 ∧ recoveryWrap j (3839 + 1) = 3840 ∧
      findHeadWrap j (3839 + 1) = 1 ∧ ¬ CircularCursor j := by
  refine ⟨_, rfl, by decide, by decide, by decide, by decide +kernel, by decide +kernel, ?_⟩
  intro cursor
  have next := cursor.next 3839 (by decide) (by decide)
  revert next
  decide +kernel

end E2fs.Jbd2
