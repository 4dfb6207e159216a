import E2fs.Journal.RevokeSound

/-! The passes of recovery over a log. -/
namespace E2fs.Jbd2
open Word BigEndian List Option Nat

@[reducible]
def PassState.block (j : Journal) (s : PassState) : Block := jread j s.fs s.nextLogBlock

@[reducible] def PassState.past (j : Journal) (s : PassState) : PassState :=
  { s with nextLogBlock := nextBlock j s.nextLogBlock }

section tags
variable (j : Journal) (bh : Block)

theorem tagBytes_bounds : 8 ≤ journalTagBytes j ∧ journalTagBytes j ≤ 16 := by
  unfold journalTagBytes
  split
  · omega
  · dsimp only
    split <;> split <;> omega

theorem tailSize_le : tailSize j ≤ 4 := by
  unfold tailSize
  split <;> omega

theorem countTags_pos : 0 < countTags j bh := by
  have size := j.blocksize_ge
  have bytes := tagBytes_bounds j
  have tail := tailSize_le j
  unfold countTags blockTags
  obtain ⟨fuel, eq⟩ : ∃ fuel, j.blocksize = fuel + 1 := ⟨j.blocksize - 1, by omega⟩
  rw [eq, tagOffsets, if_pos (by omega)]
  simp

end tags

section positions
variable (j : Journal)

theorem advance_succ (pos n : Nat) : advance j pos (n + 1) = nextBlock j (advance j pos n) := by
  induction n generalizing pos with
  | zero => rfl
  | succ n ih => exact ih (nextBlock j pos)

theorem wrap_of_lt {var : Nat} (lt : var < j.last) : wrap j var = var := if_neg (by omega)

theorem wrap_of_ge {var : Nat} (ge : j.last ≤ var) (small : var < 2 ^ 63) :
    wrap j var = var + j.first - j.last := by
  have first := j.first_lt
  rw [wrap, if_pos ge]
  unfold sub64
  omega

theorem advance_of_lt {pos n : Nat} (lt : pos + n < j.last) : advance j pos n = pos + n := by
  induction n with
  | zero => rfl
  | succ n ih =>
    rw [advance_succ, ih (by omega), nextBlock, wrap_of_lt j (by omega)]
    omega

theorem advance_of_ge (pos n : Nat) (inside : pos < j.last) (ge : j.last ≤ pos + n)
    (once : pos + n + j.first - j.last < j.last) :
    advance j pos n = pos + n + j.first - j.last := by
  have last := j.last_lt
  obtain ⟨m, eq⟩ : ∃ m, pos + n = j.last + m := ⟨pos + n - j.last, by omega⟩
  induction m generalizing n with
  | zero =>
    obtain ⟨n', rfl⟩ : ∃ n', n = n' + 1 := ⟨n - 1, by omega⟩
    rw [advance_succ, advance_of_lt j (by omega), nextBlock, wrap_of_ge j (by omega) (by omega)]
    omega
  | succ m ih =>
    obtain ⟨n', rfl⟩ : ∃ n', n = n' + 1 := ⟨n - 1, by omega⟩
    rw [advance_succ, ih n' (by omega) (by omega) (by omega), nextBlock, wrap_of_lt j (by omega)]
    omega

variable {pos : Nat}

theorem not_jreadFails (inside : pos < j.totalLen) : ¬ jreadFails j pos := by
  unfold jreadFails jreadOffset
  omega

theorem jread_eq (fs : Nat → Block) (inside : pos < j.totalLen) :
    jread j fs pos = journalBlock j fs pos := by
  have last := j.last_lt
  have total := j.total_eq
  rw [jread, jreadOffset, mod_eq_of_lt (by omega)]

theorem inside_of_jread (small : pos < 2 ^ 32) (ok : ¬ jreadFails j pos) : pos < j.totalLen := by
  unfold jreadFails jreadOffset at ok
  omega

theorem nextBlock_lt (inside : pos < j.totalLen) : nextBlock j pos < 2 ^ 32 := by
  have last := j.last_lt
  have first := j.first_lt
  have total := j.total_eq
  unfold nextBlock
  by_cases lt : pos + 1 < j.last
  · rw [wrap_of_lt j lt]
    omega
  · rw [wrap_of_ge j (by omega) (by omega)]
    omega

/- Jumping over the data blocks of a descriptor block ends where reading them one by one
does, or at a place that cannot be read. -/
theorem jump_eq (pos count : Nat) (inside : pos < j.totalLen) (some : 0 < count)
    (fits : nextBlock j pos + count + j.first < 2 ^ 32 + j.last)
    (readable : ∀ i < count, advance j (nextBlock j pos) i < j.totalLen) :
    wrap j (nextBlock j pos + count) = advance j (nextBlock j pos) count ∨
      jreadFails j (wrap j (nextBlock j pos + count)) := by
  have total := j.total_eq
  have last := j.last_lt
  have start : nextBlock j pos < j.last := by
    have := readable 0 some
    rw [advance] at this
    omega
  generalize nextBlock j pos = m at *
  by_cases short : m + count < j.last
  · exact .inl (by rw [wrap_of_lt j short, advance_of_lt j short])
  by_cases circle : j.first < j.last
  · rw [wrap_of_ge j (by omega) (by omega)]
    by_cases once : m + count + j.first - j.last < j.last
    · exact .inl (advance_of_ge j m count start (by omega) once).symm
    · refine .inr ?_
      unfold jreadFails jreadOffset
      omega
  · -- nothing behind the end of such a log can be read, so the end is just met
    obtain ⟨c, rfl⟩ : ∃ c, count = c + 1 := ⟨count - 1, by omega⟩
    have reach : advance j m (j.last - m) = j.first := by
      obtain ⟨i, hi⟩ : ∃ i, j.last - m = i + 1 := ⟨j.last - m - 1, by omega⟩
      rw [hi, advance_succ, advance_of_lt j (by omega), nextBlock,
        wrap_of_ge j (by omega) (by omega)]
      omega
    have met : m + (c + 1) = j.last := by
      by_contra ne
      have := readable (j.last - m) (by omega)
      omega
    refine .inl ?_
    rw [wrap_of_ge j (by omega) (by omega), show c + 1 = j.last - m by omega, reach]
    omega

end positions

section runs
variable {crc : Crc} {j : Journal}

variable {pass : PassType} {fuel b pos pos' k' : Nat} {s s' s1 : PassState} {fs fs' : Nat → Block}
  {es : List Entry} {t : RevokeTable} {P : PassState → Prop}

theorem passLoop_cases (run : passLoop crc j pass (fuel + 1) s = some (none, s')) :
    (∃ s1, passStep crc j pass s = .round s1 ∧ passLoop crc j pass fuel s1 = some (none, s')) ∨
      ∃ s1, passStep crc j pass s = .done s1 ∧ (finishPass pass s1).success = none ∧
      s' = finishPass pass s1 := by
  rw [passLoop] at run
  cases step : passStep crc j pass s with
  | round s1 =>
    rw [step] at run
    exact .inl ⟨s1, rfl, run⟩
  | done s1 =>
    rw [step] at run
    simp only [some.injEq, Prod.mk.injEq] at run
    exact .inr ⟨s1, rfl, run.1, run.2.symm⟩
  | failed err s1 =>
    rw [step] at run
    simp at run

theorem passLoop_round (step : passStep crc j pass s = .round s1)
    (run : passLoop crc j pass fuel s = some (none, s')) :
    ∃ fuel', fuel = fuel' + 1 ∧ passLoop crc j pass fuel' s1 = some (none, s') := by
  rcases fuel with _ | fuel
  · simp [passLoop] at run
  rw [passLoop, step] at run
  exact ⟨fuel, rfl, run⟩

theorem passLoop_done (step : passStep crc j pass s = .done s1)
    (run : passLoop crc j pass fuel s = some (none, s')) :
    (finishPass pass s1).success = none ∧ s' = finishPass pass s1 := by
  rcases fuel with _ | fuel
  · simp [passLoop] at run
  rw [passLoop, step, some.injEq, Prod.mk.injEq] at run
  exact ⟨run.1, run.2.symm⟩

theorem passLoop_failed {err : Errno}
    (step : passStep crc j pass s = .failed err s1) :
    passLoop crc j pass fuel s ≠ some (none, s') := by
  cases fuel with
  | zero => simp [passLoop]
  | succ fuel => simp [passLoop, step]

theorem finishPass_ok (later : pass ≠ .scan) (ok : (finishPass pass s).success = none) :
    finishPass pass s = s ∧ s.success = none ∧ s.endTransaction = s.nextCommitId := by
  unfold finishPass at ok ⊢
  simp only [later, if_false] at ok ⊢
  by_cases differ : s.endTransaction ≠ s.nextCommitId ∧ s.success = none
  · simp [differ] at ok
  · simp only [differ, if_false] at ok ⊢
    by_cases bad : s.blockError = true ∧ s.success = none
    · simp [bad] at ok
    · simp only [bad, if_false] at ok ⊢
      exact ⟨trivial, ok, by tauto⟩

theorem tid_inj {k n : Nat} (le : k ≤ n) (lt : n < 2 ^ 32) (eq : tid j k = tid j n) : k = n := by
  unfold tid at eq
  omega

theorem tid_succ (k : Nat) : (tid j k + 1) % 2 ^ 32 = tid j (k + 1) := by
  unfold tid
  omega

theorem nextTransaction_id {k : Nat} (id : s.nextCommitId = tid j k) :
    (nextTransaction s).nextCommitId = tid j (k + 1) := by
  rw [nextTransaction, id]
  exact tid_succ k

structure LogAt (j : Journal) (fs : Nat → Block) (id pos : Nat) : Prop where
  readable : ¬ jreadFails j pos
  magic : hMagic (jread j fs pos) = jbd2Magic
  sequence : hSequence (jread j fs pos) = id

theorem LogAt.block {k id type : Nat} (log : LogAt j fs id pos) (small : pos < 2 ^ 32)
    (own : id = tid j k) (is : hBlocktype (jread j fs pos) = type) : LogBlock j fs pos k type := by
  have inside := inside_of_jread j small log.readable
  have same := jread_eq j fs inside
  exact ⟨inside, same ▸ log.magic, same ▸ log.sequence.trans own, same ▸ is⟩

section

variable (open_ : pass = .scan ∨ tidGeq s.nextCommitId s.endTransaction = false)
include open_

theorem passStep_of_log {bh : Block} (block : jread j s.fs s.nextLogBlock = bh)
    (log : LogAt j s.fs s.nextCommitId s.nextLogBlock) : passStep crc j pass s =
      let s := s.past j
      if hBlocktype bh = descriptorType then descriptorBlock crc j pass bh s
      else if hBlocktype bh = commitType then commitBlock crc j pass bh s
      else if hBlocktype bh = revokeType then revokeBlock crc j pass bh s
      else .done s := by
  rw [passStep, if_neg fun past => open_.elim past.1 (by simp [past.2]), if_neg log.readable, block]
  rw [if_neg fun other => other (block ▸ log.magic),
    if_neg fun other => other (block ▸ log.sequence)]
  rfl

theorem passLoop_stuck (lost : jreadFails j s.nextLogBlock) :
    passLoop crc j pass fuel s ≠ some (none, s') :=
  passLoop_failed
    (by rw [passStep, if_neg fun past => open_.elim past.1 (by simp [past.2]), if_pos lost])

end

theorem open_below {k n : Nat} (half : n ≤ 2 ^ 31) (below : k < n) (id : s.nextCommitId = tid j k)
    (last : s.endTransaction = tid j n) : tidGeq s.nextCommitId s.endTransaction = false := by
  rw [id, last, Bool.eq_false_iff, ne_eq, tidGeq_iff j half (by omega)]
  omega

theorem passStep_end {n : Nat} (later : pass ≠ .scan)
    (half : n ≤ 2 ^ 31) (id : s.nextCommitId = tid j n) (last : s.endTransaction = tid j n) :
    passStep crc j pass s = .done s := by
  rw [passStep, if_pos]
  exact ⟨later, by rw [id, last, tidGeq_iff j half (by omega)]⟩

theorem passStep_logBlock {k n type : Nat} (half : n ≤ 2 ^ 31)
    (below : k < n) (id : s.nextCommitId = tid j k) (last : s.endTransaction = tid j n)
    (head : LogBlock j s.fs s.nextLogBlock k type) : passStep crc j pass s =
      let bh := journalBlock j s.fs s.nextLogBlock
      let s := s.past j
      if type = descriptorType then descriptorBlock crc j pass bh s
      else if type = commitType then commitBlock crc j pass bh s
      else if type = revokeType then revokeBlock crc j pass bh s
      else .done s := by
  have same := jread_eq j s.fs head.inside
  rw [passStep_of_log (.inr (open_below half below id last)) same
    ⟨not_jreadFails j head.inside, same ▸ head.magic,
    same ▸ head.sequence.trans id.symm⟩, head.blocktype]

section
variable {pass : PassType} {s : PassState} {k n : Nat} (later : pass ≠ .scan) (half : n ≤ 2 ^ 31)
  (below : k < n) (id : s.nextCommitId = tid j k) (last : s.endTransaction = tid j n)
include later half below id last

theorem passStep_descriptor (head : LogBlock j s.fs s.nextLogBlock k descriptorType) :
    passStep crc j pass s =
      let bh := journalBlock j s.fs s.nextLogBlock
      let s := s.past j
      if descriptorBlockCsumVerify crc j bh = true then
        if pass = .replay then .round ((blockTags j bh).foldl (replayTag crc j bh) s)
        else .round { s with nextLogBlock := wrap j (s.nextLogBlock + countTags j bh) }
      else .failed .efsbadcrc s := by
  rw [passStep_logBlock half below id last head]
  simp only [if_true, descriptorBlock]
  by_cases valid : descriptorBlockCsumVerify crc j (journalBlock j s.fs s.nextLogBlock) = true
  · by_cases replay : pass = .replay
    · simp [valid, replay]
    · simp [valid, replay, later]
  · simp [valid, later]

theorem passStep_commit (head : LogBlock j s.fs s.nextLogBlock k commitType)
    (calm : s.needCheckCommitTime = false) :
    passStep crc j pass s = .round (nextTransaction (s.past j)) := by
  rw [passStep_logBlock half below id last head]
  simp [commitType, descriptorType, commitBlock, calm, later]

theorem passStep_revoke (head : LogBlock j s.fs s.nextLogBlock k revokeType) :
    passStep crc j pass s =
      let s' := s.past j
      if pass = .revoke then scanRevokeRecords j (journalBlock j s.fs s.nextLogBlock) s'
          else .round s' := by
  rw [passStep_logBlock half below id last head]
  simp [commitType, descriptorType, revokeType, revokeBlock, later]

end

theorem Walk.append {n a ka kb c kc : Nat} {es' : List Entry}
    (front : Walk j fs n a ka b kb es) (back : Walk j fs n b kb c kc es') :
    Walk j fs n a ka c kc (es ++ es') := by
  induction front with
  | stop pos k => exact back
  | descriptor more head readable rest ih =>
    rw [append_assoc]
    exact .descriptor more head readable (ih back)
  | commit more head rest ih => exact .commit more head (ih back)
  | revoke more head rest ih =>
    rw [append_assoc]
    exact .revoke more head (ih back)

def Entry.trans : Entry → Nat
  | .tag k _ _ => k
  | .revoke k _ => k

theorem mem_tagEntries {bh : Block} {k pos : Nat} {tags : List Nat} {e : Entry}
    (mem : e ∈ tagEntries j fs bh k pos tags) : ∃ b data, e = .tag k b data := by
  induction tags generalizing pos with
  | nil => cases mem
  | cons tag tags ih =>
    rcases mem_cons.mp mem with rfl | mem
    · exact ⟨_, _, rfl⟩
    · exact ih mem

theorem mem_revokeEntries {bh : Block} {k : Nat} {e : Entry} (mem : e ∈ revokeEntries j bh k) :
    ∃ b, e = .revoke k b := by
  obtain ⟨b, -, rfl⟩ := mem_map.mp mem
  exact ⟨b, rfl⟩

theorem Walk.trans_lt {n k : Nat} (walk : Walk j fs n pos k pos' k' es) (e : Entry) (mem : e ∈ es) :
    e.trans < n := by
  induction walk with
  | stop => cases mem
  | descriptor more head readable rest ih =>
    rcases mem_append.mp mem with own | mem
    · obtain ⟨b, data, rfl⟩ := mem_tagEntries own
      exact more
    · exact ih mem
  | commit more head rest ih => exact ih mem
  | revoke more head rest ih =>
    rcases mem_append.mp mem with own | mem
    · obtain ⟨b, rfl⟩ := mem_revokeEntries own
      exact more
    · exact ih mem

theorem revoke_run {n k : Nat} (half : n ≤ 2 ^ 31) (room : JumpsFit j fs n)
    (walk : Walk j fs n pos k pos' k' es) (whole : k' = n) (fuel : Nat) (s s' : PassState)
    (run : passLoop crc j .revoke fuel s = some (none, s'))
    (before : List Entry) (so_far : Walk j fs n j.start 0 pos k before)
    (at_pos : s.nextLogBlock = pos) (id : s.nextCommitId = tid j k)
    (last : s.endTransaction = tid j n) (calm : s.needCheckCommitTime = false) (same : s.fs = fs)
    (holds : TableHolds j s.table before) : TableHolds j s'.table (before ++ es) := by
  induction walk generalizing fuel s before with
  | stop pos k =>
    subst whole
    obtain ⟨ok, rfl⟩ := passLoop_done (@passStep_end crc j .revoke s k (by decide) half id last) run
    rw [(finishPass_ok (by decide) ok).1, append_nil]
    exact holds
  | @descriptor pos k _ _ es more head readable rest ih =>
    subst same at_pos
    have step := @passStep_descriptor crc j .revoke s k n (by decide) half more id last head
    dsimp only at step
    split at step
    · obtain ⟨fuel, rfl, onward⟩ := passLoop_round step run
      -- the pass goes on behind the data blocks, or it fails there
      rcases jump_eq j s.nextLogBlock _ head.inside (countTags_pos j _)
        (room _ k before so_far more head) readable with land | lost
      · have none : ∀ m b bh pos tags, Entry.revoke m b ∉ tagEntries j s.fs bh k pos tags :=
          fun _ _ _ _ _ mem => by
            obtain ⟨_, _, is⟩ := mem_tagEntries mem
            cases is
        have walked := so_far.append (.descriptor more head readable (.stop _ _))
        rw [← append_assoc]
        refine ih whole fuel _ onward _ (by simpa using walked) land id last calm rfl ?_
        exact holds.congr fun m b => by simp only [mem_append, none, or_false]
      · exact absurd onward (passLoop_stuck (.inr (open_below half more id last)) lost)
    · exact absurd run (passLoop_failed step)
  | @commit pos k _ _ es more head rest ih =>
    subst same at_pos
    have step := @passStep_commit crc j .revoke s k n (by decide) half more id last head calm
    obtain ⟨fuel, rfl, onward⟩ := passLoop_round step run
    have walked := so_far.append (.commit more head (.stop _ _))
    exact ih whole fuel _ onward before (by simpa using walked) rfl (nextTransaction_id id) last
      calm rfl holds
  | @revoke pos k _ _ es more head rest ih =>
    subst same at_pos
    have step := @passStep_revoke crc j .revoke s k n (by decide) half more id last head
    rw [if_pos rfl, scanRevokeRecords] at step
    split at step
    · exact absurd run (passLoop_failed step)
    obtain ⟨fuel, rfl, onward⟩ := passLoop_round step run
    rw [← append_assoc]
    have walked := so_far.append (.revoke more head (.stop _ _))
    refine ih whole fuel _ onward _ (by simpa using walked) rfl id last calm rfl ?_
    rw [id]
    exact holds.set_all half more (fun m b mem => so_far.trans_lt _ mem) _

def applyEntry (j : Journal) (t : RevokeTable) (fs : Nat → Block) : Entry → Nat → Block
  | .tag k b data =>
    if jbd2JournalTestRevoke t b (tid j k) then fs else fun x => if x = b then data else fs x
  | .revoke _ _ => fs

def SameLog (j : Journal) (fs fs' : Nat → Block) : Prop :=
  ∀ pos < j.totalLen, journalBlock j fs pos = journalBlock j fs' pos

theorem SameLog.write (same : SameLog j fs fs') (avoids : AvoidsJournal j b) (data : Block) :
    SameLog j (fun x => if x = b then data else fs x) fs' := by
  intro pos inside
  rw [← same pos inside]
  unfold journalBlock
  cases place : j.external with
  | some dev => rfl
  | none =>
    simp only [getD_none]
    rw [if_neg]
    exact fun eq => avoids place pos inside eq.symm

theorem SameLog.apply_tag (same : SameLog j fs fs')
    (avoids : AvoidsJournal j b) (t : RevokeTable) (k : Nat) (data : Block) :
    SameLog j (applyEntry j t fs (.tag k b data)) fs' := by
  rw [applyEntry]
  split
  · exact same
  · exact same.write avoids data

section
variable (bh : Block)

theorem replayTag_frame (s : PassState) (tag : Nat) :
    let out := replayTag crc j bh s tag
    out.nextLogBlock = nextBlock j s.nextLogBlock ∧ out.table = s.table ∧
      out.nextCommitId = s.nextCommitId ∧
      out.endTransaction = s.endTransaction ∧ out.needCheckCommitTime = s.needCheckCommitTime := by
  unfold replayTag nextBlock
  dsimp only
  split
  · simp
  · split
    · simp
    · split <;> simp

theorem replayTag_ok {s : PassState} {tag k : Nat} (id : s.nextCommitId = tid j k)
    (ok : (replayTag crc j bh s tag).success = none) :
    (replayTag crc j bh s tag).fs = applyEntry j s.table s.fs
      (.tag k (readTagBlock j bh tag) (restored bh tag (jread j s.fs s.nextLogBlock))) := by
  unfold replayTag at ok ⊢
  by_cases lost : jreadFails j s.nextLogBlock
  · simp [lost] at ok
  simp only [lost, if_false, id] at ok ⊢
  by_cases revoked : jbd2JournalTestRevoke s.table (readTagBlock j bh tag) (tid j k) = true
  · simp only [revoked, if_true, applyEntry]
  · simp only [revoked, applyEntry, Bool.false_eq_true, if_false] at ok ⊢
    split at ok
    · simp at ok
    · rename_i valid
      rw [if_neg valid]

theorem replayTags_success (tags : List Nat) (s : PassState)
    (ok : (tags.foldl (replayTag crc j bh) s).success = none) : s.success = none := by
  induction tags generalizing s with
  | nil => exact ok
  | cons tag tags ih =>
    have before := ih _ ok
    unfold replayTag at before
    dsimp only at before
    split at before
    · simp at before
    · split at before
      · exact before
      · split at before
        · simp at before
        · exact before

theorem replayTags_positions (tags : List Nat) (s : PassState) (small : s.nextLogBlock < 2 ^ 32)
    (ok : (tags.foldl (replayTag crc j bh) s).success = none) :
    (∀ i < tags.length, advance j s.nextLogBlock i < j.totalLen) ∧
    advance j s.nextLogBlock tags.length < 2 ^ 32 := by
  induction tags generalizing s with
  | nil => exact ⟨by simp, small⟩
  | cons tag tags ih =>
    have pos := (@replayTag_frame crc j bh s tag).1
    by_cases lost : jreadFails j s.nextLogBlock
    · have before := replayTags_success bh tags _ ok
      simp [replayTag, lost] at before
    have inside := inside_of_jread j small lost
    have rest := @ih (replayTag crc j bh s tag) (pos ▸ nextBlock_lt j inside) ok
    refine ⟨fun i hi => ?_, ?_⟩
    · rcases i with _ | i
      · exact inside
      have := rest.1 i (by simpa using hi)
      rwa [pos] at this
    · have := rest.2
      rwa [pos] at this

theorem replayTags_frame (tags : List Nat) (s : PassState) :
    let out := tags.foldl (replayTag crc j bh) s
    out.nextLogBlock = advance j s.nextLogBlock tags.length ∧ out.table = s.table ∧
      out.nextCommitId = s.nextCommitId ∧ out.endTransaction = s.endTransaction ∧
      out.needCheckCommitTime = s.needCheckCommitTime := by
  dsimp only
  induction tags generalizing s with
  | nil => simp [advance]
  | cons tag tags ih =>
    obtain ⟨pos, table, id, last, calm⟩ := @replayTag_frame crc j bh s tag
    obtain ⟨pos', table', id', last', calm'⟩ := ih (replayTag crc j bh s tag)
    rw [foldl_cons, pos', table', id', last', calm', pos, table, id, last, calm]
    simp [advance]

/- What replaying the tags of a block writes, read off the log as it was at first. -/
theorem replayTags_fs {fs : Nat → Block} {k : Nat} (tags : List Nat) (s : PassState)
    (id : s.nextCommitId = tid j k)
    (readable : ∀ i < tags.length, advance j s.nextLogBlock i < j.totalLen)
    (same : SameLog j s.fs fs)
    (avoid : ∀ k' b data, Entry.tag k' b data ∈ tagEntries j fs bh k s.nextLogBlock tags →
      AvoidsJournal j b) (ok : (tags.foldl (replayTag crc j bh) s).success = none) :
    (tags.foldl (replayTag crc j bh) s).fs =
        (tagEntries j fs bh k s.nextLogBlock tags).foldl (applyEntry j s.table) s.fs ∧
      SameLog j (tags.foldl (replayTag crc j bh) s).fs fs := by
  induction tags generalizing s with
  | nil => exact ⟨rfl, same⟩
  | cons tag tags ih =>
    obtain ⟨pos, table, id', _⟩ := @replayTag_frame crc j bh s tag
    have inside : s.nextLogBlock < j.totalLen := readable 0 (by simp)
    have written := replayTag_ok bh id (replayTags_success bh tags _ ok)
    rw [jread_eq j s.fs inside, same _ inside] at written
    have avoids := avoid k _ _ mem_cons_self
    have rest := @ih (replayTag crc j bh s tag) (id'.trans id) ?_ ?_ ?_ ok
    · rw [pos, table] at rest
      refine ⟨?_, rest.2⟩
      rw [foldl_cons, rest.1, written]
      rfl
    · intro i hi
      rw [pos]
      exact readable (i + 1) (by simpa using hi)
    · rw [written]
      exact same.apply_tag avoids _ _ _
    · intro k' b data mem
      rw [pos] at mem
      exact avoid k' b data (mem_cons_of_mem _ mem)

end

theorem foldl_revokes (t : RevokeTable) (fs : Nat → Block) (bh : Block) (k : Nat) :
    (revokeEntries j bh k).foldl (applyEntry j t) fs = fs := by
  unfold revokeEntries
  induction blockRevokes j bh with
  | nil => rfl
  | cons b bs ih => exact ih

theorem LogBlock.congr {k type : Nat} (same : SameLog j fs fs')
    (head : LogBlock j fs pos k type) : LogBlock j fs' pos k type := by
  have eq := same pos head.inside
  exact ⟨head.inside, eq ▸ head.magic, eq ▸ head.sequence, eq ▸ head.blocktype⟩

/- A round that does not fail ends in a state with the property. -/
def Next.All (P : PassState → Prop) : Next → Prop
  | .round s => P s
  | .done s => P s
  | .failed _ _ => True

@[elab_as_elim]
theorem passStep_rule {motive : Next → Prop} (past : motive (.done s))
    (lost : motive (.failed .efscorrupted s)) (other : motive (.done (s.past j)))
    (descriptor : LogAt j s.fs s.nextCommitId s.nextLogBlock →
      hBlocktype (s.block j) = descriptorType →
      motive (descriptorBlock crc j pass (s.block j) (s.past j)))
    (commit : LogAt j s.fs s.nextCommitId s.nextLogBlock → hBlocktype (s.block j) = commitType →
      motive (commitBlock crc j pass (s.block j) (s.past j)))
    (revoke : LogAt j s.fs s.nextCommitId s.nextLogBlock → hBlocktype (s.block j) = revokeType →
      motive (revokeBlock crc j pass (s.block j) (s.past j))) : motive (passStep crc j pass s) := by
  unfold passStep
  split
  · exact past
  split_ifs with readable
  · exact lost
  dsimp only
  split
  · exact other
  rename_i magic
  split
  · exact other
  rename_i sequence
  have log : LogAt j s.fs s.nextCommitId s.nextLogBlock :=
    ⟨readable, not_not.mp magic, not_not.mp sequence⟩
  split
  · exact descriptor log ‹_›
  · split
    · exact commit log ‹_›
    · split
      · exact revoke log ‹_›
      · exact other

theorem passStep_found {k n : Nat} (id : s.nextCommitId = tid j k)
    (last : s.endTransaction = tid j n) (small : s.nextLogBlock < 2 ^ 32) :
    LogBlock j s.fs s.nextLogBlock k descriptorType ∨ LogBlock j s.fs s.nextLogBlock k commitType ∨
      LogBlock j s.fs s.nextLogBlock k revokeType ∨
      (∃ err s1, passStep crc j pass s = .failed err s1) ∨
      ∃ s1, passStep crc j pass s = .done s1 ∧ s1.nextCommitId = tid j k ∧
      s1.endTransaction = tid j n := by
  refine passStep_rule ?_ ?_ ?_ (fun log type => .inl (log.block small id type))
    (fun log type => .inr (.inl (log.block small id type)))
      (fun log type => .inr (.inr (.inl (log.block small id type))))
  · exact .inr (.inr (.inr (.inr ⟨_, rfl, id, last⟩)))
  · exact .inr (.inr (.inr (.inl ⟨_, _, rfl⟩)))
  · exact .inr (.inr (.inr (.inr ⟨_, rfl, id, last⟩)))

theorem commitBlock_all {bh : Block} (stays : P s)
    (scan : pass = .scan → (scanCommit crc j bh s).All P)
    (later : pass ≠ .scan → P (nextTransaction s)) : (commitBlock crc j pass bh s).All P := by
  unfold commitBlock
  split
  · split
    · trivial
    · exact stays
  · split
    · exact scan ‹_›
    · exact later ‹_›

/- What the scan can do at a commit block. -/
@[elab_as_elim]
theorem scanCommit_rule {motive : Next → Prop} {bh : Block}
    (known : j.features.checksum = true → s.endTransaction ≠ 0 →
      motive (.round { s with failedCommit := s.endTransaction }))
    (late : ∀ sum, motive (.done { s with crc32Sum := sum }))
    (stay : ∀ sum, (j.features.checksum = true → s.endTransaction = 0) →
      j.features.asyncCommit = false →
      j.features.checksum = true ∨ commitBlockCsumVerify crc j bh = false →
      s.lastTransCommitTime ≤ hCommitSec bh →
      motive (.round { s with
        crc32Sum := sum, endTransaction := s.nextCommitId, failedCommit := s.nextCommitId }))
    (async : ∀ sum, (j.features.checksum = true → s.endTransaction = 0) →
      j.features.asyncCommit = true → motive (.round (nextTransaction { s with
        crc32Sum := sum, endTransaction := s.nextCommitId
        lastTransCommitTime := hCommitSec bh })))
    (right : ∀ sum, (j.features.checksum = true → s.endTransaction = 0) →
      commitBlockCsumVerify crc j bh = true →
      motive (.round
        (nextTransaction { s with crc32Sum := sum, lastTransCommitTime := hCommitSec bh }))) :
    motive (scanCommit crc j bh s) := by
  have wrong : ∀ sum, (j.features.checksum = true → s.endTransaction = 0) →
      j.features.checksum = true ∨ commitBlockCsumVerify crc j bh = false →
      motive (chksumError j bh { s with crc32Sum := sum }) := by
    intro sum unset fails
    rw [chksumError]
    split
    · exact late sum
    rename_i early
    split_ifs with sync
    · exact stay sum unset (by simpa using sync) fails (Nat.not_lt.mp early)
    · exact async sum unset (by simpa using sync)
  have unset : ¬ (j.features.checksum = true ∧ s.endTransaction ≠ 0) → j.features.checksum = true →
      s.endTransaction = 0 :=
    fun open_ checksum => not_not.mp fun other => open_ ⟨checksum, other⟩
  rw [scanCommit]
  split_ifs with set sum checksum valid valid
  · exact known set.1 set.2
  · exact wrong s.crc32Sum (unset set) (.inl sum.1)
  · exact wrong _ (unset set) (.inl checksum)
  · exact right _ (unset set) (by simpa using valid)
  · exact wrong s.crc32Sum (unset set) (.inr (by simpa using valid))
  · exact right s.crc32Sum (unset set) (by simpa using valid)

/- Whether a wrong checksum is remembered behind a descriptor or revoke block. -/
def Checked (crc : Crc) (j : Journal) (pass : PassType) (bh : Block) (s : PassState)
    (check : Bool) : Prop :=
  check = s.needCheckCommitTime ∧ descriptorBlockCsumVerify crc j bh = true ∨
    check = true ∧ pass = .scan ∧ descriptorBlockCsumVerify crc j bh = false

@[elab_as_elim]
theorem descriptorBlock_rule {motive : Next → Prop} {bh : Block}
    (bad : pass ≠ .scan → motive (.failed .efsbadcrc s))
    (sums : ∀ check, Checked crc j pass bh s check → pass = .scan ∧ j.features.checksum = true ∧
        check = false ∧ s.endTransaction = 0 →
      motive (.round (calcChksums crc j bh { s with needCheckCommitTime := check })))
    (skip : ∀ check, Checked crc j pass bh s check → pass ≠ .replay →
      ¬ (pass = .scan ∧ j.features.checksum = true ∧ check = false ∧ s.endTransaction = 0) →
      motive (.round { s with
        needCheckCommitTime := check, nextLogBlock := wrap j (s.nextLogBlock + countTags j bh) }))
    (replay : pass = .replay → descriptorBlockCsumVerify crc j bh = true →
      motive (.round ((blockTags j bh).foldl (replayTag crc j bh) s))) :
    motive (descriptorBlock crc j pass bh s) := by
  rw [descriptorBlock]
  split
  · rename_i invalid
    exact bad invalid.2
  rename_i valid
  by_cases verify : descriptorBlockCsumVerify crc j bh = true
  · simp only [verify, Bool.not_true, Bool.false_eq_true, if_false, Bool.not_eq_true']
    split_ifs with early sum
    · exact sums s.needCheckCommitTime (.inl ⟨rfl, verify⟩) sum
    · exact skip s.needCheckCommitTime (.inl ⟨rfl, verify⟩) early sum
    · exact replay (not_not.mp early) verify
  · have scan : pass = .scan := not_not.mp fun other => valid ⟨by simpa using verify, other⟩
    simp only [verify, Bool.not_false, if_true, scan]
    rw [if_pos (by decide), if_neg (by simp)]
    exact skip true (.inr ⟨rfl, scan, by simpa using verify⟩) (by rw [scan]; decide) (by simp)

theorem passStep_success (s : PassState) :
    (passStep crc j .replay s).All fun s1 => s1.success = none → s.success = none := by
  exact passStep_rule id trivial id
    (fun _ _ => descriptorBlock_rule (fun _ => trivial) nofun (fun _ _ later => absurd rfl later)
        fun _ _ =>
      replayTags_success _ _ _) (fun _ _ => commitBlock_all id nofun fun _ => id) (fun _ _ => id)

theorem passLoop_success (run : passLoop crc j .replay fuel s = some (none, s')) :
    s.success = none := by
  induction fuel generalizing s with
  | zero => simp [passLoop] at run
  | succ fuel ih =>
    have kept := @passStep_success crc j s
    rcases passLoop_cases run with ⟨s1, step, run⟩ | ⟨s1, step, ok, _⟩
    · rw [step] at kept
      exact kept (ih run)
    · rw [step] at kept
      exact kept (finishPass_ok (by decide) ok).2.1

theorem replay_run {n : Nat} (half : n ≤ 2 ^ 31) (avoid : TagsAvoidJournal j fs n)
    (fuel : Nat) (s s' : PassState) (run : passLoop crc j .replay fuel s = some (none, s'))
    (k : Nat)
    (before : List Entry) (so_far : Walk j fs n j.start 0 s.nextLogBlock k before)
    (small : s.nextLogBlock < 2 ^ 32)
    (le : k ≤ n) (id : s.nextCommitId = tid j k) (last : s.endTransaction = tid j n)
    (calm : s.needCheckCommitTime = false) (same : SameLog j s.fs fs) :
    ∃ pos es, Walk j fs n s.nextLogBlock k pos n es ∧
    s'.fs = es.foldl (applyEntry j s.table) s.fs := by
  induction fuel generalizing s k before with
  | zero => simp [passLoop] at run
  | succ fuel ih =>
    by_cases finished : k = n
    · subst finished
      obtain ⟨ok, rfl⟩ :=
        passLoop_done (@passStep_end crc j .replay s k (by decide) half id last) run
      rw [(finishPass_ok (by decide) ok).1]
      exact ⟨_, [], .stop _ _, rfl⟩
    have more : k < n := by omega
    rcases @passStep_found crc j .replay s k n id last small with
      head | head | head | ⟨err, s1, step⟩ | ⟨s1, step, id1, last1⟩
    · have step := @passStep_descriptor crc j .replay s k n (by decide) half more id last head
      have log := head.congr same
      rw [same _ head.inside] at step
      dsimp only at step
      split at step
      · obtain ⟨_, ⟨⟩, run⟩ := passLoop_round step run
        have ok := passLoop_success run
        have frame := @replayTags_frame crc j (journalBlock j fs s.nextLogBlock)
          (blockTags j (journalBlock j fs s.nextLogBlock)) (s.past j)
        obtain ⟨readable, small1⟩ := @replayTags_positions crc j
          (journalBlock j fs s.nextLogBlock) _ (s.past j) (nextBlock_lt j head.inside) ok
        have here : Walk j fs n s.nextLogBlock k _ k _ := .descriptor more log readable (.stop _ k)
        have walked := so_far.append here
        have fsEq := @replayTags_fs crc j (journalBlock j fs s.nextLogBlock) fs k _
          (s.past j) id readable same
            (fun k' b data mem => avoid _ _ _ walked k' b data (by simp [mem])) ok
        generalize (blockTags j (journalBlock j fs s.nextLogBlock)).foldl _ _ = s1 at run frame fsEq
        obtain ⟨pos1, table1, id1, last1, calm1⟩ := frame
        have walked1 : Walk j fs n j.start 0 s1.nextLogBlock k _ := pos1.symm ▸ walked
        obtain ⟨pos, es, rest, final⟩ := ih s1 run k _ walked1 (pos1 ▸ small1) le (id1.trans id)
          (last1.trans last) (calm1.trans calm) fsEq.2
        rw [pos1] at rest
        refine ⟨pos, _, .descriptor more log readable rest, ?_⟩
        rw [final, foldl_append, table1, fsEq.1]
      · exact absurd run (passLoop_failed step)
    · have step := @passStep_commit crc j .replay s k n (by decide) half more id last head calm
      have log := head.congr same
      obtain ⟨_, ⟨⟩, run⟩ := passLoop_round step run
      have walked := so_far.append (.commit more log (.stop _ _))
      obtain ⟨pos, es, rest, final⟩ := ih _ run (k + 1) _ walked (nextBlock_lt j head.inside) more
        (nextTransaction_id id) last calm same
      exact ⟨pos, es, .commit more log rest, final⟩
    · have step := @passStep_revoke crc j .replay s k n (by decide) half more id last head
      have log := head.congr same
      obtain ⟨_, ⟨⟩, run⟩ := passLoop_round step run
      have walked := so_far.append (.revoke more log (.stop _ _))
      obtain ⟨pos, es, rest, final⟩ :=
        ih _ run k _ walked (nextBlock_lt j head.inside) le id last calm same
      refine ⟨pos, _, .revoke more log rest, ?_⟩
      rw [final, foldl_append, foldl_revokes]
    · exact absurd run (passLoop_failed step)
    · obtain ⟨ok, -⟩ := passLoop_done step run
      have meet := (finishPass_ok (by decide) ok).2.2
      rw [id1, last1] at meet
      exact absurd (tid_inj le (by omega) meet.symm) finished

/- A property that every round and the end of the pass keep holds after the pass. -/
theorem passLoop_keeps (round : ∀ s, P s → (passStep crc j pass s).All P)
    (finish : ∀ s, P s → P (finishPass pass s))
    (s : PassState) (start : P s) (run : passLoop crc j pass fuel s = some (none, s')) : P s' := by
  induction fuel generalizing s with
  | zero => simp [passLoop] at run
  | succ fuel ih =>
    have step := round s start
    rcases passLoop_cases run with ⟨s1, eq, run⟩ | ⟨s1, eq, _, rfl⟩
    · rw [eq] at step
      exact ih s1 step run
    · rw [eq] at step
      exact finish s1 step

structure ScanKeeps (fs : Nat → Block) (t : RevokeTable) (s : PassState) : Prop where
  fs_eq : s.fs = fs
  table_eq : s.table = t
  id_lt : s.nextCommitId < 2 ^ 32
  end_lt : s.endTransaction < 2 ^ 32

theorem ScanKeeps.chksumBlocks (num : Nat) (s : PassState)
    (keeps : ScanKeeps fs t s) : ScanKeeps fs t (chksumBlocks crc j num s) := by
  induction num generalizing s with
  | zero => exact keeps
  | succ num ih =>
    rw [Jbd2.chksumBlocks]
    split
    · exact { keeps with }
    · exact ih _ { keeps with }

section

variable (keeps : ScanKeeps fs t s)
include keeps

theorem ScanKeeps.next : ScanKeeps fs t (nextTransaction s) :=
  ⟨keeps.fs_eq, keeps.table_eq, mod_lt _ (by decide), keeps.end_lt⟩

theorem scanCommit_keeps (bh : Block) : (scanCommit crc j bh s).All (ScanKeeps fs t) :=
  scanCommit_rule (fun _ _ => { keeps with }) (fun _ => { keeps with })
    (fun _ _ _ _ _ => { keeps with end_lt := keeps.id_lt })
    (fun _ _ _ => ScanKeeps.next { keeps with end_lt := keeps.id_lt }) fun _ _ _ =>
      ScanKeeps.next { keeps with }

theorem descriptorBlock_scan_keeps (bh : Block) :
    (descriptorBlock crc j .scan bh s).All (ScanKeeps fs t) :=
  descriptorBlock_rule (fun later => absurd rfl later)
    (fun _ _ _ => ScanKeeps.chksumBlocks _ _ { keeps with }) (fun _ _ _ _ => { keeps with }) nofun

theorem passStep_scan_keeps : (passStep crc j .scan s).All (ScanKeeps fs t) := by
  have moved : ScanKeeps fs t (s.past j) := { keeps with }
  refine passStep_rule keeps trivial moved (fun _ _ => descriptorBlock_scan_keeps moved _)
    (fun _ _ => commitBlock_all moved (fun _ => scanCommit_keeps moved _) fun later =>
      absurd rfl later) fun _ _ => ?_
  unfold revokeBlock
  split
  · exact { keeps with }
  · exact moved

end

theorem scan_run (fuel : Nat) (s s' : PassState)
    (keeps : ScanKeeps fs t s) (run : passLoop crc j .scan fuel s = some (none, s')) :
    ScanKeeps fs t s' := by
  refine passLoop_keeps (fun s keeps => passStep_scan_keeps keeps) (fun s keeps => ?_) s keeps run
  unfold finishPass
  dsimp only
  split
  · split
    · split <;> exact ⟨keeps.fs_eq, keeps.table_eq, keeps.id_lt, keeps.id_lt⟩
    · split <;> exact { keeps with }
  · contradiction

structure RevokeKeeps (fs : Nat → Block) (last : Nat) (s : PassState) : Prop where
  fs_eq : s.fs = fs
  end_eq : s.endTransaction = last

theorem passStep_revoke_keeps {last : Nat}
    (keeps : RevokeKeeps fs last s) : (passStep crc j .revoke s).All (RevokeKeeps fs last) := by
  have moved : RevokeKeeps fs last (s.past j) := { keeps with }
  refine passStep_rule keeps trivial moved
    (fun _ _ => descriptorBlock_rule (fun _ => trivial) nofun (fun _ _ _ _ => { keeps with }) nofun)
    (fun _ _ => commitBlock_all moved nofun fun _ => { keeps with }) fun _ _ => ?_
  unfold revokeBlock scanRevokeRecords
  rw [if_neg (by simp), if_neg (by simp)]
  split
  · trivial
  · exact { keeps with }

theorem revoke_keeps (fuel : Nat) (s s' : PassState)
    (run : passLoop crc j .revoke fuel s = some (none, s')) :
    RevokeKeeps s.fs s.endTransaction s' := by
  refine passLoop_keeps (fun s keeps => passStep_revoke_keeps keeps) (fun s keeps => ?_) s
    ⟨rfl, rfl⟩ run
  unfold finishPass
  dsimp only
  split
  · contradiction
  · split <;> split <;> exact { keeps with }

/- Writing the entries of the log one after the other, without those that the table has as
revoked, leaves the last data of each block. -/
theorem foldl_applyEntry {all : List Entry} (b : Nat) (es : List Entry) (fs : Nat → Block)
    (agree : ∀ k data, Entry.tag k b data ∈ es →
      jbd2JournalTestRevoke t b (tid j k) = revokedFrom all k b) :
    es.foldl (applyEntry j t) fs b = ((es.filterMap (liveData all b)).getLast?).getD (fs b) := by
  induction es generalizing fs with
  | nil => rfl
  | cons e es ih =>
    have rest := ih (applyEntry j t fs e) (fun k data mem => agree k data (mem_cons_of_mem _ mem))
    rw [foldl_cons, rest]
    cases e with
    | revoke k b' => rfl
    | tag k b' data =>
      by_cases hit : b' = b ∧ revokedFrom all k b = false
      · have live : liveData all b (.tag k b' data) = some data := if_pos hit
        obtain ⟨rfl, clear⟩ := hit
        have written : applyEntry j t fs (.tag k b' data) b' = data := by
          rw [applyEntry, agree k data mem_cons_self, clear]
          simp
        rw [written, filterMap_cons_some live, List.getLast?_cons, getD_some]
      · have dead : liveData all b (.tag k b' data) = none := if_neg hit
        have kept : applyEntry j t fs (.tag k b' data) b = fs b := by
          rw [applyEntry]
          split_ifs with clear
          · rfl
          · refine if_neg ?_
            rintro rfl
            rw [agree k data mem_cons_self] at clear
            exact hit ⟨rfl, by simpa using clear⟩
        rw [kept, filterMap_cons_none dead]

end runs

end E2fs.Jbd2
