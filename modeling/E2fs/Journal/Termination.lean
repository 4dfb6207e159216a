import E2fs.Journal.Committed
import Mathlib.Order.OrderIsoNat

/-! When the passes of recovery end. A pass without an end comes to a block from which on all
blocks leave it in one transaction. -/
namespace E2fs.Jbd2
open Word BigEndian Finset

def PassEnds (crc : Crc) (j : Journal) (pass : PassType) (s : PassState) : Prop :=
  ∃ fuel, passLoop crc j pass fuel s ≠ none

/-- The rounds of a pass from one state to another one, with the positions of the blocks that
are read as blocks of the log. -/
inductive Visits (crc : Crc) (j : Journal) (pass : PassType) :
    PassState → List Nat → PassState → Prop where
  | stop (s : PassState) : Visits crc j pass s [] s
  | round {s s1 s' : PassState} {ps : List Nat} (step : passStep crc j pass s = .round s1)
      (rest : Visits crc j pass s1 ps s') : Visits crc j pass s (s.nextLogBlock :: ps) s'

section visits
variable {crc : Crc} {j : Journal} {pass : PassType} {s s1 s' : PassState} {ps ps' : List Nat}

theorem Visits.trans (front : Visits crc j pass s ps s1) (back : Visits crc j pass s1 ps' s') :
    Visits crc j pass s (ps ++ ps') s' := by
  induction front with
  | stop => exact back
  | round step _ ih => exact .round step (ih back)

theorem Visits.snoc (front : Visits crc j pass s ps s1)
    (step : passStep crc j pass s1 = .round s') :
    Visits crc j pass s (ps ++ [s1.nextLogBlock]) s' := front.trans (.round step (.stop s'))

theorem Visits.ends (visits : Visits crc j pass s ps s') (ends : PassEnds crc j pass s) :
    PassEnds crc j pass s' := by
  induction visits with
  | stop => exact ends
  | round step _ ih =>
    obtain ⟨fuel, ends⟩ := ends
    cases fuel with
    | zero => exact absurd rfl ends
    | succ fuel => exact ih ⟨fuel, by rwa [passLoop, step] at ends⟩

end visits

/- Where reading data blocks ends. A failing read stops it. -/
def readOver (j : Journal) : Nat → Nat → Nat
  | 0, pos => pos
  | n + 1, pos => if jreadFails j pos then nextBlock j pos else readOver j n (nextBlock j pos)

/- Where a pass goes from a block that leaves it in its transaction. The scan reads the data
blocks as long as it looks for a wrong checksum of the first version. -/
def hop (j : Journal) (pass : PassType) (t : PassState) (pos : Nat) : Nat :=
  let bh := jread j t.fs pos
  if hBlocktype bh ≠ descriptorType then nextBlock j pos
  else if pass = .replay then advance j (nextBlock j pos) (countTags j bh)
  else if pass = .scan ∧ j.features.checksum ∧ !t.needCheckCommitTime ∧ t.endTransaction = 0 then
    readOver j (countTags j bh) (nextBlock j pos)
  else wrap j (nextBlock j pos + countTags j bh)

/-- A block of the transaction that the pass is in, which leaves the pass in it. A commit block
does so in the scan only: behind the end that was found with checksums of the first version,
or with a wrong one of its own. -/
structure Keeps (crc : Crc) (j : Journal) (pass : PassType) (t : PassState) (pos : Nat) :
    Prop where
  before : pass = .scan ∨ tidGeq t.nextCommitId t.endTransaction = false
  log : LogAt j t.fs t.nextCommitId pos
  type : hBlocktype (jread j t.fs pos) = descriptorType ∨
    hBlocktype (jread j t.fs pos) = revokeType ∨ hBlocktype (jread j t.fs pos) = commitType
  checked : hBlocktype (jread j t.fs pos) = descriptorType ∨
      hBlocktype (jread j t.fs pos) = revokeType ∧ pass = .scan →
    descriptorBlockCsumVerify crc j (jread j t.fs pos) = true ∨
      pass = .scan ∧ t.needCheckCommitTime = true
  sane : hBlocktype (jread j t.fs pos) = revokeType → pass = .revoke →
    be32 (jread j t.fs pos) 12 ≤ j.blocksize - tailSize j
  commit : hBlocktype (jread j t.fs pos) = commitType → pass = .scan ∧
    t.needCheckCommitTime = false ∧ if j.features.checksum then t.endTransaction ≠ 0
      else j.features.asyncCommit = false ∧ commitBlockCsumVerify crc j (jread j t.fs pos) = false ∧
        t.lastTransCommitTime ≤ hCommitSec (jread j t.fs pos)

/- The replay of the block that is looked at does not write to the log. -/
def TagsOutside (j : Journal) (s : PassState) : Prop :=
  hBlocktype (s.block j) = descriptorType →
    ∀ tag ∈ blockTags j (s.block j), AvoidsJournal j (readTagBlock j (s.block j) tag)

section rounds
variable {crc : Crc} {j : Journal} {pass : PassType} {s s' : PassState} {bh : Block}
  {fs fs' : Nat → Block} {pos id : Nat}

theorem SameLog.symm (same : SameLog j fs fs') : SameLog j fs' fs :=
  fun pos inside => (same pos inside).symm

theorem SameLog.jread (same : SameLog j fs fs') (readable : ¬ jreadFails j pos) :
    jread j fs pos = jread j fs' pos := same _ (Nat.not_le.mp readable)

theorem LogAt.congr (same : SameLog j fs fs') (log : LogAt j fs id pos) : LogAt j fs' id pos := by
  have block := same.jread log.readable
  exact ⟨log.readable, block ▸ log.magic, block ▸ log.sequence⟩

theorem chksumBlocks_frame (num : Nat) (s : PassState) :
    let out := chksumBlocks crc j num s
    out.nextCommitId = s.nextCommitId ∧ out.fs = s.fs ∧
      out.needCheckCommitTime = s.needCheckCommitTime ∧ out.endTransaction = s.endTransaction ∧
      out.lastTransCommitTime = s.lastTransCommitTime ∧
      out.nextLogBlock = readOver j num s.nextLogBlock := by
  induction num generalizing s with
  | zero => exact ⟨rfl, rfl, rfl, rfl, rfl, rfl⟩
  | succ num ih =>
    rw [chksumBlocks, readOver]
    split_ifs with lost
    · exact ⟨rfl, rfl, rfl, rfl, rfl, rfl⟩
    · exact ih _

structure Turned (crc : Crc) (j : Journal) (pass : PassType) (s s' : PassState) : Prop where
  log : LogAt j s.fs s.nextCommitId s.nextLogBlock
  type : hBlocktype (s.block j) = descriptorType ∨ hBlocktype (s.block j) = revokeType ∨
    hBlocktype (s.block j) = commitType
  fs : hBlocktype (s.block j) ≠ descriptorType ∨ pass ≠ .replay → s'.fs = s.fs
  pos : hBlocktype (s.block j) ≠ descriptorType → s'.nextLogBlock = nextBlock j s.nextLogBlock
  last : pass ≠ .scan → s'.endTransaction = s.endTransaction
  other : hBlocktype (s.block j) ≠ commitType → s'.nextCommitId = s.nextCommitId ∧
    s'.endTransaction = s.endTransaction ∧
    (pass ≠ .replay → s'.lastTransCommitTime = s.lastTransCommitTime)
  -- a wrong checksum is remembered, and no commit block is passed after it
  checked : hBlocktype (s.block j) = descriptorType ∨
    hBlocktype (s.block j) = revokeType ∧ pass = .scan →
    Checked crc j pass (s.block j) s s'.needCheckCommitTime
  calm : pass ≠ .scan → s'.needCheckCommitTime = s.needCheckCommitTime
  sane : hBlocktype (s.block j) = revokeType → pass = .revoke →
    be32 (s.block j) 12 ≤ j.blocksize - tailSize j
  commit : hBlocktype (s.block j) = commitType → s.needCheckCommitTime = false ∧
    s'.needCheckCommitTime = false ∧
    (s'.endTransaction = s.endTransaction ∨ s'.endTransaction = s.nextCommitId) ∧
    (s'.nextCommitId = (s.nextCommitId + 1) % 2 ^ 32 ∨
      pass = .scan ∧ s'.nextCommitId = s.nextCommitId ∧
      s'.lastTransCommitTime = s.lastTransCommitTime ∧ if j.features.checksum then
        s'.endTransaction = if s.endTransaction = 0 then s.nextCommitId else s.endTransaction
      else j.features.asyncCommit = false ∧ commitBlockCsumVerify crc j (s.block j) = false ∧
        s.lastTransCommitTime ≤ hCommitSec (s.block j))

theorem descriptorBlock_turned (log : LogAt j s.fs s.nextCommitId s.nextLogBlock)
    (type : hBlocktype (s.block j) = descriptorType)
    (step : descriptorBlock crc j pass (s.block j) (s.past j) = .round s') :
    Turned crc j pass s s' := by
  have other : hBlocktype (s.block j) ≠ commitType := by rw [type]; decide
  have revoke : hBlocktype (s.block j) ≠ revokeType := by rw [type]; decide
  have built : ∀ s2 : PassState, s2.nextCommitId = s.nextCommitId →
      s2.endTransaction = s.endTransaction →
      (pass ≠ .replay → s2.fs = s.fs ∧ s2.lastTransCommitTime = s.lastTransCommitTime) →
      Checked crc j pass (s.block j) s s2.needCheckCommitTime → Turned crc j pass s s2 :=
    fun s2 id last early check => {
      log
      type := .inl type
      fs := fun is => (early (is.resolve_left (absurd type))).1
      pos := absurd type
      last := fun _ => last
      other := fun _ => ⟨id, last, fun is => (early is).2⟩
      checked := fun _ => check
      calm := fun later => (check.resolve_right fun scan => later scan.2.1).1
      sane := fun is => absurd is revoke
      commit := fun is => absurd is other }
  revert step
  refine descriptorBlock_rule nofun (fun check checked _ => ?_) (fun check checked _ _ => ?_)
    (fun replay verify => ?_) <;> rintro ⟨⟩
  · obtain ⟨id, fs, same, last, time, _⟩ := @chksumBlocks_frame crc j (countTags j (s.block j)) _
    exact built _ id last (fun _ => ⟨fs, time⟩) (same.symm ▸ checked)
  · exact built _ rfl rfl (fun _ => ⟨rfl, rfl⟩) checked
  · obtain ⟨_, _, id, last, same⟩ := @replayTags_frame crc j (s.block j) _ _
    exact built _ id last (fun other => absurd replay other) (.inl ⟨same, verify⟩)

theorem revokeBlock_turned (log : LogAt j s.fs s.nextCommitId s.nextLogBlock)
    (type : hBlocktype (s.block j) = revokeType)
    (step : revokeBlock crc j pass (s.block j) (s.past j) = .round s') :
    Turned crc j pass s s' := by
  have other : hBlocktype (s.block j) ≠ commitType := by rw [type]; decide
  have built : ∀ check table, (pass = .scan → Checked crc j pass (s.block j) s check) →
      (pass ≠ .scan → check = s.needCheckCommitTime) →
      (pass = .revoke → be32 (s.block j) 12 ≤ j.blocksize - tailSize j) →
      Turned crc j pass s { s.past j with needCheckCommitTime := check, table := table } :=
    fun check table checked calm sane => {
      log, calm
      type := .inr (.inl type)
      fs := fun _ => rfl
      pos := fun _ => rfl
      last := fun _ => rfl
      other := fun _ => ⟨rfl, rfl, fun _ => rfl⟩
      checked := fun is => checked (is.resolve_left (by rw [type]; decide)).2
      sane := fun _ => sane
      commit := fun is => absurd is other }
  unfold revokeBlock at step
  split at step
  · rename_i wrong
    cases step
    exact built true _ (fun scan => .inr ⟨rfl, scan, by simpa using wrong.2⟩) (absurd wrong.1)
      (fun revoke => by simp [revoke] at wrong)
  rename_i valid
  have checked : pass = .scan → Checked crc j pass (s.block j) s s.needCheckCommitTime :=
    fun scan => .inl ⟨rfl, by simpa [scan] using valid⟩
  split at step
  · rename_i early
    cases step
    exact built _ _ checked (fun _ => rfl) (absurd · early)
  · unfold scanRevokeRecords at step
    split at step
    · cases step
    · rename_i sane
      cases step
      exact built _ _ checked (fun _ => rfl) (fun _ => Nat.not_lt.mp sane)

theorem commitBlock_turned (log : LogAt j s.fs s.nextCommitId s.nextLogBlock)
    (type : hBlocktype (s.block j) = commitType)
    (step : commitBlock crc j pass (s.block j) (s.past j) = .round s') :
    Turned crc j pass s s' := by
  have revoke : hBlocktype (s.block j) ≠ revokeType := by rw [type]; decide
  have other : hBlocktype (s.block j) ≠ descriptorType := by rw [type]; decide
  unfold commitBlock at step
  split at step
  · split at step <;> cases step
  rename_i calm
  have built :
    ∀ s2 : PassState, s2.fs = s.fs → (pass ≠ .scan → s2.endTransaction = s.endTransaction) →
      s2.needCheckCommitTime = s.needCheckCommitTime →
        s2.nextLogBlock = nextBlock j s.nextLogBlock →
      (s2.endTransaction = s.endTransaction ∨ s2.endTransaction = s.nextCommitId) → _ →
      Turned crc j pass s s2 := fun s2 fs last same pos set went => {
    log, last
    type := .inr (.inr type)
    fs := fun _ => fs
    pos := fun _ => pos
    other := fun is => absurd type is
    checked := fun is => is.elim (absurd · other) (absurd ·.1 revoke)
    calm := fun _ => same
    sane := fun is => absurd is revoke
    commit := fun _ => ⟨by simpa using calm, same.trans (by simpa using calm), set, went⟩ }
  split_ifs at step with scan
  · revert step
    refine scanCommit_rule (fun checksum set => ?_) (fun _ => nofun)
      (fun _ unset sync fails time => ?_)
      (fun _ unset async => ?_) (fun _ unset right => ?_) <;> rintro ⟨⟩
    · refine built _ rfl (absurd scan) rfl rfl (.inl rfl) (.inr ⟨scan, rfl, rfl, ?_⟩)
      rw [if_pos checksum, if_neg set]
    · refine built _ rfl (absurd scan) rfl rfl (.inr rfl) (.inr ⟨scan, rfl, rfl, ?_⟩)
      by_cases checksum : j.features.checksum = true
      · rw [if_pos checksum, if_pos (unset checksum)]
      · rw [if_neg checksum]
        exact ⟨sync, fails.resolve_left checksum, time⟩
    · exact built _ rfl (absurd scan) rfl rfl (.inr rfl) (.inl rfl)
    · exact built _ rfl (absurd scan) rfl rfl (.inl rfl) (.inl rfl)
  · cases step
    exact built _ rfl (fun _ => rfl) rfl rfl (.inl rfl) (.inl rfl)

theorem passStep_turned (step : passStep crc j pass s = .round s') : Turned crc j pass s s' := by
  revert step
  exact passStep_rule nofun nofun nofun descriptorBlock_turned commitBlock_turned
    revokeBlock_turned

theorem before_of_round (step : passStep crc j pass s = .round s') :
    pass = .scan ∨ tidGeq s.nextCommitId s.endTransaction = false := by
  by_contra past
  rw [not_or, Bool.not_eq_false] at past
  rw [passStep, if_pos past] at step
  cases step

theorem replayTags_sameLog (tags : List Nat) (s : PassState)
    (outside : ∀ tag ∈ tags, AvoidsJournal j (readTagBlock j bh tag)) (same : SameLog j s.fs fs) :
    SameLog j (tags.foldl (replayTag crc j bh) s).fs fs := by
  induction tags generalizing s with
  | nil => exact same
  | cons tag tags ih =>
    refine ih _ (fun t mem => outside t (List.mem_cons_of_mem _ mem)) ?_
    have avoids := outside tag List.mem_cons_self
    unfold replayTag
    dsimp only
    split
    · exact same
    · split
      · exact same
      · split
        · exact same
        · exact same.write avoids _

theorem passStep_sameLog (outside : pass = .replay → TagsOutside j s)
    (same : SameLog j s.fs fs) (step : passStep crc j pass s = .round s') : SameLog j s'.fs fs := by
  by_cases wrote : hBlocktype (s.block j) ≠ descriptorType ∨ pass ≠ .replay
  · rwa [(passStep_turned step).fs wrote]
  obtain ⟨type, rfl⟩ := (not_or.mp wrote).imp not_not.mp not_not.mp
  rw [passStep_of_log (before_of_round step) rfl (passStep_turned step).log, if_pos type] at step
  revert step
  refine descriptorBlock_rule nofun nofun (fun _ _ early => absurd rfl early) fun _ _ => ?_
  rintro ⟨⟩
  exact replayTags_sameLog _ _ (outside rfl type) same

end rounds

section endless
variable {crc : Crc} {j : Journal} {pass : PassType} {s s' t : PassState}

/-- The variables that say what a block does to the pass, and the log, are as in the state `t`. -/
structure Steady (j : Journal) (pass : PassType) (t s : PassState) : Prop where
  id : s.nextCommitId = t.nextCommitId
  calm : s.needCheckCommitTime = t.needCheckCommitTime
  time : pass = .scan → s.lastTransCommitTime = t.lastTransCommitTime
  unset : j.features.checksum = true → (s.endTransaction = 0 ↔ t.endTransaction = 0)
  last : pass ≠ .scan → s.endTransaction = t.endTransaction
  log : SameLog j s.fs t.fs

theorem Steady.refl (s : PassState) : Steady j pass s s :=
  ⟨rfl, rfl, fun _ => rfl, fun _ => Iff.rfl, fun _ => rfl, fun _ _ => rfl⟩

theorem Steady.trans (first : Steady j pass t s) (second : Steady j pass s s') :
    Steady j pass t s' where
  id := second.id.trans first.id
  calm := second.calm.trans first.calm
  time scan := (second.time scan).trans (first.time scan)
  unset checksum := (second.unset checksum).trans (first.unset checksum)
  last later := (second.last later).trans (first.last later)
  log pos inside := (second.log pos inside).trans (first.log pos inside)

theorem descriptorBlock_eq {bh : Block} (checked : descriptorBlockCsumVerify crc j bh = true ∨
      pass = .scan ∧ s.needCheckCommitTime = true) : descriptorBlock crc j pass bh s =
    .round (if pass = .replay then (blockTags j bh).foldl (replayTag crc j bh) s
      else if pass = .scan ∧ j.features.checksum ∧ !s.needCheckCommitTime ∧
        s.endTransaction = 0 then calcChksums crc j bh s
      else { s with nextLogBlock := wrap j (s.nextLogBlock + countTags j bh) }) := by
  have same : (if (!descriptorBlockCsumVerify crc j bh) = true then
      { s with needCheckCommitTime := true } else s) = s := by
    rcases checked with verify | ⟨_, set⟩
    · simp [verify]
    · split_ifs
      · rw [← set]
      · rfl
  have valid : ¬ ((!descriptorBlockCsumVerify crc j bh) = true ∧ pass ≠ .scan) := by
    rintro ⟨wrong, later⟩
    exact checked.elim (fun verify => by simp [verify] at wrong) fun scan => later scan.1
  rw [descriptorBlock]
  dsimp only
  rw [if_neg valid, same]
  split_ifs <;> first | rfl | contradiction

theorem scanCommit_wrong {bh : Block} (plain : ¬ j.features.checksum = true)
    (sync : j.features.asyncCommit = false) (wrong : commitBlockCsumVerify crc j bh = false)
    (early : s.lastTransCommitTime ≤ hCommitSec bh) : scanCommit crc j bh s =
      .round { s with endTransaction := s.nextCommitId, failedCommit := s.nextCommitId } := by
  rw [scanCommit, if_neg fun both => plain both.1, if_neg fun both => plain both.1]
  rw [if_pos (by simp [wrong]), if_neg plain, chksumError, if_neg (Nat.not_lt.mpr early)]
  rw [if_pos (by simp [sync])]

/- A block that leaves the pass in its transaction changes none of these variables. -/
theorem Keeps.round (keeps : Keeps crc j pass t s.nextLogBlock) (steady : Steady j pass t s)
    (outside : pass = .replay → TagsOutside j s) : ∃ s', passStep crc j pass s = .round s' ∧
      Steady j pass t s' ∧ s'.nextLogBlock = hop j pass t s.nextLogBlock := by
  have block : s.block j = jread j t.fs s.nextLogBlock := steady.log.jread keeps.log.readable
  have before : pass = .scan ∨ tidGeq s.nextCommitId s.endTransaction = false := by
    by_cases scan : pass = .scan
    · exact .inl scan
    · exact .inr (by rw [steady.id, steady.last scan]; exact keeps.before.resolve_left scan)
  have step := @passStep_of_log crc j pass s before _ rfl
    (steady.id ▸ keeps.log.congr steady.log.symm)
  obtain ⟨-, -, type, checked, sane, commit⟩ := keeps
  rw [← block] at type checked sane commit
  have summing : (pass = .scan ∧ j.features.checksum = true ∧ (!s.needCheckCommitTime) = true ∧
      s.endTransaction = 0) ↔ (pass = .scan ∧ j.features.checksum = true ∧
      (!t.needCheckCommitTime) = true ∧ t.endTransaction = 0) := by
    rw [steady.calm]
    exact and_congr_right fun _ => and_congr_right fun checksum =>
      and_congr_right fun _ => steady.unset checksum
  -- behind a descriptor or revoke block
  have stays : ∀ s', passStep crc j pass s = .round s' → hBlocktype (s.block j) ≠ commitType →
      (hBlocktype (s.block j) = descriptorType ∨
        hBlocktype (s.block j) = revokeType ∧ pass = .scan) ∨ pass ≠ .scan →
      Steady j pass t s' := by
    intro s' round other either
    have turned := passStep_turned round
    obtain ⟨id, last, time⟩ := turned.other other
    refine steady.trans ⟨id, ?_, fun scan => time (by rw [scan]; decide), fun _ => by rw [last],
      fun _ => last, passStep_sameLog outside (fun _ _ => rfl) round⟩
    rcases either with check | later
    · rcases turned.checked check with ⟨same, -⟩ | ⟨set, scan, wrong⟩
      · exact same
      · rw [set, steady.calm]
        exact ((checked check).resolve_left (by simp [wrong])).2.symm
    · exact turned.calm later
  rw [hop, ← block]
  rcases type with type | type | type
  · rw [if_pos type, descriptorBlock_eq (steady.calm ▸ checked (.inl type))] at step
    refine ⟨_, step, stays _ step (by rw [type]; decide) (.inl (.inl type)), ?_⟩
    rw [if_neg (not_not.mpr type)]
    by_cases replay : pass = .replay
    · rw [if_pos replay, if_pos replay]
      exact (replayTags_frame _ _ _).1
    · rw [if_neg replay, if_neg replay]
      by_cases sums : pass = .scan ∧ j.features.checksum = true ∧
        (!s.needCheckCommitTime) = true ∧ s.endTransaction = 0
      · rw [if_pos sums, if_pos (summing.mp sums)]
        exact (@chksumBlocks_frame crc j _ _).2.2.2.2.2
      · rw [if_neg sums, if_neg (sums ∘ summing.mpr)]
  · have other : hBlocktype (s.block j) ≠ descriptorType := by rw [type]; decide
    rw [if_neg other, if_neg (by rw [type]; decide), if_pos type, revokeBlock] at step
    obtain ⟨s', round⟩ : ∃ s', passStep crc j pass s = .round s' := by
      rw [step]
      split_ifs with wrong early
      · exact ⟨_, rfl⟩
      · exact ⟨_, rfl⟩
      · exact ⟨_, if_neg (Nat.not_lt.mpr (sane type (not_not.mp early)))⟩
    rw [if_pos other]
    refine ⟨s', round, stays s' round (by rw [type]; decide) ?_, (passStep_turned round).pos other⟩
    by_cases scan : pass = .scan
    · exact .inl (.inr ⟨type, scan⟩)
    · exact .inr scan
  · obtain ⟨rfl, calm, wrong⟩ := commit type
    have other : hBlocktype (s.block j) ≠ descriptorType := by rw [type]; decide
    rw [if_neg other, if_pos type, commitBlock, if_neg (by simp [calm, steady.calm]), if_pos rfl]
      at step
    rw [if_pos other]
    split_ifs at wrong with checksum
    · rw [scanCommit, if_pos ⟨checksum, fun zero => wrong ((steady.unset checksum).mp zero)⟩]
        at step
      exact ⟨_, step, { steady with }, rfl⟩
    · obtain ⟨sync, wrong, early⟩ := wrong
      rw [scanCommit_wrong checksum sync wrong (steady.time rfl ▸ early)] at step
      exact ⟨_, step,
        { steady with unset := fun is => absurd is checksum, last := absurd rfl }, rfl⟩

/- The converse. With checksums of the first version, an id 0 would pass for "no end was found". -/
theorem Turned.keeps (turned : Turned crc j pass s s') (steady : Steady j pass t s)
    (onward : Steady j pass t s')
    (before : pass = .scan ∨ tidGeq s.nextCommitId s.endTransaction = false)
    (nonzero : pass = .scan → j.features.checksum = true → t.nextCommitId = 0 →
      hBlocktype (s.block j) ≠ commitType) : Keeps crc j pass t s.nextLogBlock := by
  have block : jread j t.fs s.nextLogBlock = s.block j :=
    (steady.log.jread turned.log.readable).symm
  refine ⟨?_, steady.id ▸ turned.log.congr steady.log, block ▸ turned.type, ?_,
    block ▸ turned.sane, ?_⟩
  · by_cases scan : pass = .scan
    · exact .inl scan
    · rw [← steady.id, ← steady.last scan]
      exact before
  · rw [block]
    intro check
    rcases turned.checked check with ⟨-, valid⟩ | ⟨set, scan, -⟩
    · exact .inl valid
    · exact .inr ⟨scan, onward.calm ▸ set⟩
  · rw [block]
    intro type
    obtain ⟨calm, -, -, went⟩ := turned.commit type
    rcases went with next | ⟨scan, -, time, went⟩
    · have := onward.id.trans steady.id.symm
      omega
    refine ⟨scan, steady.calm ▸ calm, ?_⟩
    split_ifs at went ⊢ with checksum unset
    · intro zero
      have back := (onward.unset checksum).mpr zero
      rw [went, steady.id] at back
      exact nonzero scan checksum back type
    · exact (steady.unset checksum).not.mp unset
    · exact ⟨went.1, went.2.1, steady.time scan ▸ went.2.2⟩

end endless

end E2fs.Jbd2
