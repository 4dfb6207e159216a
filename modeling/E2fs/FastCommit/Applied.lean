import E2fs.FastCommit.PassesSound

/-! What recovery applies of the fast-commit area: the records in front of the last TAIL
that the scan accepted, unless one of the passes ends with an error before. -/
namespace E2fs.FastCommit
open Word BigEndian LittleEndian Jbd2 Loop List Nat

def handlerOf : FcTag → Option Handler
  | .creat | .link => some .linkAndCreate
  | .unlink => some .unlink
  | .addRange => some .addExtent
  | .delRange => some .delRange
  | .inode => some .inode
  | .tail | .pad | .head | .unknown => none

def handedTags (tls : List FcTl) : List (Handler × FcTl) :=
  tls.filterMap fun tl => (handlerOf tl.tag).map (·, tl)

section Replay

variable {crc : Crc} {tid : Nat} {σ : Type} (h : FcHandlers σ)

/-- No call that the records ask for fails, except perhaps the last one. -/
def Serves (fs : σ) : List FcTl → Prop
  | [] => True
  | tl :: rest =>
    match handlerOf tl.tag with
    | some handler =>
      match h.call handler fs tl with
      | (fs', none) => Serves fs' rest
      | (_, some _) => handedTags rest = []
    | none => Serves (if tl.tag = .tail then h.flushExtents fs else fs) rest

variable {h} {j : JournalT} {blocks : Nat → Block}

variable {tls : List FcTl}

theorem serves_of_none {fs : σ} (none : handedTags tls = []) : Serves h fs tls := by
  induction tls generalizing fs with
  | nil => trivial
  | cons tl tls ih =>
    unfold Serves
    cases asks : handlerOf tl.tag with
    | some handler => simp [handedTags, asks] at none
    | none => exact ih (by simpa [handedTags, asks] using none)

theorem replayTl_handler {run : FcReplayRun σ} {tl : FcTl} {handler : Handler}
    (asks : handlerOf tl.tag = some handler) :
    replayTl h run tl = callHandler h handler run tl := by
  revert asks
  unfold replayTl
  cases tl.tag <;> intro asks <;> cases asks <;> rfl

theorem replayTl_other {run : FcReplayRun σ} {tl : FcTl} (asks : handlerOf tl.tag = none)
    (known : tl.tag ≠ .unknown) : replayTl h run tl =
      ({ run with fs := if tl.tag = .tail then h.flushExtents run.fs else run.fs }, none) := by
  revert asks known
  unfold replayTl
  cases tl.tag <;> intro asks known
  case tail | pad | head => rfl
  case unknown => exact absurd rfl known
  all_goals cases asks

theorem replayTls_handed {run : FcReplayRun σ}
    (known : ∀ tl ∈ tls, tl.tag ≠ .unknown) (enough : tls.length ≤ run.state.replayNumTags) :
    ∃ added, (replayTls h .replay tls run).1.handed = run.handed ++ added ∧
      (added = handedTags tls ↔ Serves h run.fs tls) ∧ ((replayTls h .replay tls run).2 = .more →
        (replayTls h .replay tls run).1.state.replayNumTags =
          run.state.replayNumTags - tls.length) := by
  induction tls generalizing run with
  | nil => exact ⟨[], by simp [replayTls], by simp [handedTags, Serves], fun _ => rfl⟩
  | cons tl tls ih =>
    rw [length_cons] at enough
    have known' : ∀ tl ∈ tls, tl.tag ≠ .unknown := fun r mem => known r (mem_cons_of_mem _ mem)
    have counted : run.state.replayNumTags ≠ 0 := by omega
    simp only [replayTls, if_neg counted, length_cons, Serves]
    cases asks : handlerOf tl.tag with
    | some handler =>
      have tags : handedTags (tl :: tls) = (handler, tl) :: handedTags tls := by
        simp [handedTags, asks]
      rw [replayTl_handler asks, callHandler, tags]
      dsimp only
      obtain ⟨fs', code, called⟩ : ∃ fs' code, h.call handler run.fs tl = (fs', code) := ⟨_, _, rfl⟩
      rw [called]
      cases code with
      | none =>
        obtain ⟨added, handed, exact_, num⟩ := @ih ⟨{ run.state with
          replayNumTags := run.state.replayNumTags - 1 }, fs', run.handed ++ [(handler, tl)]⟩
          known' (by dsimp only; omega)
        refine ⟨_, by simpa using handed, ?_, fun more => ?_⟩
        · rw [cons.injEq, and_iff_right rfl]
          exact exact_
        · rw [num more]
          dsimp only
          omega
      | some code =>
        refine ⟨_, rfl, ?_, fun more => by cases more⟩
        rw [cons.injEq, and_iff_right rfl]
        exact eq_comm
    | none =>
      have tags : handedTags (tl :: tls) = handedTags tls := by simp [handedTags, asks]
      rw [replayTl_other asks (known tl mem_cons_self), tags]
      obtain ⟨added, handed, exact_, num⟩ := @ih ⟨{ run.state with
        replayNumTags := run.state.replayNumTags - 1 },
        if tl.tag = .tail then h.flushExtents run.fs else run.fs, run.handed⟩
        known' (by dsimp only; omega)
      refine ⟨added, handed, exact_, fun more => ?_⟩
      rw [num more]
      dsimp only
      omega

theorem replayTls_append (a b : List FcTl) (run : FcReplayRun σ) :
      replayTls h .replay (a ++ b) run = if (replayTls h .replay a run).2 = .more then
        replayTls h .replay b (replayTls h .replay a run).1
      else replayTls h .replay a run := by
  induction a generalizing run with
  | nil => rfl
  | cons tl a ih =>
    simp only [cons_append, replayTls]
    by_cases zero : run.state.replayNumTags = 0
    · simp only [zero, if_true, replayDone]
      split <;> rfl
    simp only [zero, if_false]
    generalize replayTl h _ tl = out
    obtain ⟨run', code⟩ := out
    cases code with
    | none => exact ih run'
    | some code => rfl

theorem replayTls_done {run : FcReplayRun σ} (zero : run.state.replayNumTags = 0) :
    (replayTls h .replay tls run).1.handed = run.handed := by
  rcases tls with _ | ⟨tl, tls⟩
  · rfl
  rw [replayTls, if_pos zero, replayDone]
  split <;> rfl

theorem replayTls_counted {run : FcReplayRun σ} {n : Nat}
    (known : ∀ tl ∈ tls.take n, tl.tag ≠ .unknown) (num : run.state.replayNumTags = n)
    (inside : n ≤ tls.length) (fresh : run.handed = []) :
    (replayTls h .replay tls run).1.handed = handedTags (tls.take n) ↔
    Serves h run.fs (tls.take n) := by
  have length : (tls.take n).length = n := by simp [inside]
  obtain ⟨added, handed, exact_, left⟩ := @replayTls_handed _ h _ run known (by omega)
  rw [fresh, nil_append] at handed
  rw [← exact_, ← handed]
  nth_rewrite 1 [← take_append_drop n tls]
  rw [replayTls_append]
  split_ifs with more
  · rw [replayTls_done (by rw [left more]; omega)]
  · rfl

theorem replayTl_state (run : FcReplayRun σ) (tl : FcTl) :
    (replayTl h run tl).1.state = run.state := by
  unfold replayTl callHandler
  cases tl.tag <;> rfl

theorem replayTls_pass (tls : List FcTl) (run : FcReplayRun σ) :
    (replayTls h .replay tls run).1.state.currentPass = run.state.currentPass := by
  induction tls generalizing run with
  | nil => rfl
  | cons tl tls ih =>
    rw [replayTls]
    split
    · rw [replayDone]
      split <;> rfl
    have kept : (replayTl h { run with state := { run.state with
        replayNumTags := run.state.replayNumTags - 1 } } tl).1.state.currentPass =
        run.state.currentPass := by rw [replayTl_state]
    dsimp only
    generalize replayTl h _ tl = out at kept ⊢
    obtain ⟨run', code⟩ := out
    cases code with
    | none => exact (ih run').trans kept
    | some code => exact kept

theorem replay_loop (area : AreaKnown j) (n : Nat) (run : FcReplayRun σ)
    (high : n ≤ j.fcLast) (replaying : run.state.currentPass = .replay) :
    (fcLoop h crc j blocks .replay tid (j.fcLast + 1 - n) n run).1 =
      (replayTls h .replay (tlsAfter j blocks n) run).1 := by
  obtain ⟨k, left⟩ : ∃ k, j.fcLast = n + k := ⟨j.fcLast - n, by omega⟩
  induction k generalizing n run with
  | zero =>
    obtain rfl : n = j.fcLast := by omega
    rw [fcLoop_end area, tlsAfter_end]
    rfl
  | succ k ih =>
    obtain ⟨rest, first⟩ := blockTls_cons area.large (blocks n)
    have callback : ext4FcReplay h crc j.blocksize .replay run (blocks n) (n - j.fcFirst) tid =
        replayTls h .replay (blockTls j.blocksize (blocks n)) run := by
      rw [ext4FcReplay, if_neg (by decide), if_neg (not_not.mpr replaying)]
      split_ifs with zero
      · rw [first, replayTls, if_pos zero]
      · rfl
    rw [fcLoop_step area _ _ (by omega), callback, tlsAfter_step (by omega), replayTls_append]
    have pass := @replayTls_pass _ h (blockTls j.blocksize (blocks n)) run
    generalize replayTls h .replay (blockTls j.blocksize (blocks n)) run = out at pass ⊢
    obtain ⟨run', ret⟩ := out
    cases ret with
    | more => exact ih (n + 1) run' (by omega) (pass.trans replaying) (by omega)
    | stop => rfl
    | error code => rfl

theorem replay_pass_empty (area : AreaKnown j) {run : FcReplayRun σ}
    (zero : run.state.replayNumTags = 0) :
    (fcDoOnePass h crc j blocks tid .replay run).1.handed = run.handed := by
  rw [fcDoOnePass]
  rcases lt_trichotomy j.fcFirst j.fcLast with inside | edge | beyond
  · rw [fcLoop_step area _ _ inside, ext4FcReplay, if_neg (by decide), if_pos zero, replayDone]
    by_cases other : run.state.currentPass ≠ .replay
    · rw [if_pos other]
    · rw [if_neg other]
  · rw [edge, fcLoop_end area]
  · rw [show j.fcLast + 1 - j.fcFirst = 0 by omega, fcLoop]

/- With some, it prepares the file system and replays the records of the area. -/
theorem replay_pass (area : AreaKnown j) {run : FcReplayRun σ} (inside : j.fcFirst < j.fcLast)
    (some_ : run.state.replayNumTags ≠ 0) (scanned : run.state.currentPass = .scan) :
    (fcDoOnePass h crc j blocks tid .replay run).1 =
      match h.prepare run.fs with
      | (fs, some _) => { run with fs := fs, state := { run.state with currentPass := .replay } }
      | (fs, none) => (replayTls h .replay (areaTls j blocks)
          { run with fs := fs, state := { run.state with currentPass := .replay } }).1 := by
  obtain ⟨fs, code, prepared⟩ : ∃ fs code, h.prepare run.fs = (fs, code) := ⟨_, _, rfl⟩
  rw [fcDoOnePass, fcLoop_step area _ _ inside, ext4FcReplay, if_neg (by decide), if_neg some_,
    if_pos (by rw [scanned]; decide), prepared]
  cases code with
  | some code => rfl
  | none =>
    -- from here on it is the loop on a run that replays already
    have loop := @replay_loop crc tid _ h j blocks area j.fcFirst
      { run with fs := fs, state := { run.state with currentPass := .replay } } inside.le rfl
    rwa [fcLoop_step area _ _ inside, ext4FcReplay, if_neg (by decide), if_neg some_,
      if_neg (not_not.mpr rfl)] at loop

theorem fine_known {sum : Nat} (fine : Fine crc tid sum tls) : ∀ tl ∈ tls, tl.tag ≠ .unknown := by
  induction tls generalizing sum with
  | nil => intro tl mem; cases mem
  | cons first tls ih =>
    intro tl mem
    rcases mem_cons.mp mem with rfl | mem
    · intro unknown
      apply fine.1
      rw [Refused, unknown]
      trivial
    · exact ih fine.2 tl mem

end Replay

theorem e2fsckJournalLoad_area {fs : Owner} {csum : SuperblockCsum} {jsb : Superblock}
    {blocksize totalLen : Nat} {j : JournalT}
    (loaded : e2fsckJournalLoad fs csum (getJournal jsb blocksize totalLen) = .ok j)
    (fast : hasFeatureFastCommit j = true) (large : 2 ≤ blocksize) : AreaKnown j := by
  rw [e2fsckJournalLoad] at loaded
  split at loaded
  · rw [e2fsckJournalFixBadInode_same loaded] at fast
    simp [hasFeatureFastCommit, hasIncompat, getJournal] at fast
  obtain ⟨j1, version, loaded⟩ := bind_ok loaded
  obtain ⟨j2, checks, loaded⟩ := bind_ok loaded
  obtain ⟨-, size, total⟩ := journalChecks_keeps checks
  have size' : j2.blocksize = blocksize := size.trans (journalVersion_keeps version).2
  rw [e2fsckJournalEnds] at loaded
  split at loaded
  · obtain ⟨-, ⟨⟩⟩ := check_ok.mp loaded
    exact ⟨total, j2.superblock.maxlen_lt, size'.symm ▸ large⟩
  · rename_i plain
    cases loaded
    exact absurd fast plain

section Applied

variable {σ : Type} (h : FcHandlers σ) (crc : Crc) (tid : Nat)

/-- The first record that the scan refuses is there and is no HEAD: the scan ends quietly
when it has accepted a TAIL before. -/
def EndsQuietly (tls : List FcTl) : Prop :=
  ∃ fine r rest, tls = fine ++ r :: rest ∧ Fine crc tid 0 fine ∧
    Refused crc tid (runningSum crc 0 fine) r ∧ r.tag ≠ .head

/-- What recovery has called is what the first `n` records ask for, and an area that is full
of accepted records is no error. -/
structure AppliesPrefix (tls : List FcTl) (n : Nat) (out : FcReplayRun σ × Option FcError) :
    Prop where
  handed : out.1.handed = handedTags (tls.take n)
  full : 0 < n → Fine crc tid 0 tls → out.2 = none

variable {h crc tid}

theorem nothing_applied {j : JournalT} {blocks : Nat → Block} {init : σ} (area : AreaKnown j)
    (valid : ValidPrefix crc tid (areaTls j blocks) 0) :
    (fcRecover h crc j blocks tid init).1.handed = [] := by
  obtain ⟨st, code, scan, -, result⟩ := @scan_pass crc tid σ h j blocks area init
  have zero : st.replayNumTags = 0 := by
    rcases result with ⟨-, zero⟩ | ⟨starts, -, -, num⟩
    · exact zero
    · exact num.trans (scanTls_result starts valid).1
  rw [fcRecover, scan]
  cases code with
  | some code => rfl
  | none => exact @replay_pass_empty crc tid _ h j blocks area ⟨st, init, []⟩ zero

theorem not_fine_of_refused {a b : List FcTl} {r : FcTl}
    (refused : Refused crc tid (runningSum crc 0 a) r) : ¬ Fine crc tid 0 (a ++ r :: b) := by
  intro fine
  rw [fine_append] at fine
  exact fine.2.1 refused

theorem first_refused {sum : Nat} {a b a' b' : List FcTl} {r r' : FcTl}
    (fine : Fine crc tid sum a) (refused : Refused crc tid (runningSum crc sum a) r)
    (fine' : Fine crc tid sum a') (refused' : Refused crc tid (runningSum crc sum a') r')
    (same : a ++ r :: b = a' ++ r' :: b') : r = r' := by
  induction a generalizing sum a' with
  | nil =>
    rcases a' with _ | ⟨first, a'⟩
    · exact (cons.inj same).1
    obtain rfl := (cons.inj same).1
    exact absurd refused fine'.1
  | cons first a ih =>
    cases a' with
    | nil =>
      obtain rfl := (cons.inj same).1
      exact absurd refused' fine.1
    | cons first' a' =>
      obtain ⟨rfl, rest⟩ := cons.inj same
      exact ih fine.2 refused fine'.2 refused' rest

theorem FcRet.is_error {ret : FcRet} (more : ret ≠ .more) (stop : ret ≠ .stop) :
    ∃ code, ret = .error code := by
  cases ret with
  | more => exact absurd rfl more
  | stop => exact absurd rfl stop
  | error code => exact ⟨code, rfl⟩

theorem appliesPrefix_iff {tls : List FcTl} {n : Nat} {out : FcReplayRun σ × Option FcError}
    (unfine : ¬ Fine crc tid 0 tls) : AppliesPrefix crc tid tls n out ↔
    out.1.handed = handedTags (tls.take n) :=
  ⟨fun applies => applies.handed, fun handed => ⟨handed, fun _ fine => absurd fine unfine⟩⟩

variable (h crc tid)

/-- Recovery applies the valid part of the fast-commit area exactly if there is nothing to
apply and no full area, or the scan ends at a refused record other than a HEAD and the
preparation and the handlers do their work. -/
theorem applies_prefix_iff (fs : Owner) (csum : SuperblockCsum) (jsb : Superblock)
    (blocksize totalLen : Nat) (j : JournalT)
    (loaded : e2fsckJournalLoad fs csum (getJournal jsb blocksize totalLen) = .ok j)
    (fast : hasFeatureFastCommit j = true) (large : 2 ≤ blocksize) (blocks : Nat → Block) (init : σ)
    (n : Nat) (valid : ValidPrefix crc tid (areaTls j blocks) n) :
    AppliesPrefix crc tid (areaTls j blocks) n (fcRecover h crc j blocks tid init) ↔ n = 0 ∨
      (handedTags ((areaTls j blocks).take n) = [] ∧ ¬ Fine crc tid 0 (areaTls j blocks)) ∨
      (EndsQuietly crc tid (areaTls j blocks) ∧ (h.prepare init).2 = none ∧
        Serves h (h.prepare init).1 ((areaTls j blocks).take n)) := by
  have area := e2fsckJournalLoad_area loaded fast large
  rcases Nat.eq_zero_or_pos n with rfl | pos
  · exact ⟨fun _ => .inl rfl,
      fun _ => ⟨nothing_applied area valid, fun pos => absurd pos (by decide)⟩⟩
  have accepted : AcceptedAt crc tid (areaTls j blocks) n := by
    rcases valid with ⟨accepted, -⟩ | ⟨rfl, -⟩
    · exact accepted
    · exact absurd pos (by decide)
  obtain ⟨st, code, scan, scanned, ⟨none, -⟩ | ⟨starts, inside, rfl, num⟩⟩ :=
    @scan_pass crc tid σ h j blocks area init
  · exact absurd accepted.starts none
  obtain ⟨counted, ⟨fine, more⟩ | ⟨a, r, b, parts, fine, refused, inside', stops, quiet⟩⟩ :=
    scanTls_result starts valid
  · -- the scan runs into the end of the journal
    rw [fcRecover, scan, more]
    refine ⟨fun ⟨_, full⟩ => absurd (full pos fine) (by simp [passError]), fun when => ?_⟩
    rcases when with zero | ⟨-, unfine⟩ | ⟨⟨a, r, b, parts, -, refused, -⟩, -⟩
    · omega
    · exact absurd fine unfine
    · rw [parts] at fine
      exact absurd fine (not_fine_of_refused refused)
  have unfine : ¬ Fine crc tid 0 (areaTls j blocks) := parts ▸ not_fine_of_refused refused
  have known : ∀ tl ∈ (areaTls j blocks).take n, tl.tag ≠ .unknown := fine_known accepted.fine
  rw [appliesPrefix_iff unfine]
  by_cases head : r.tag = .head
  · -- the scan ends with an error
    obtain ⟨code, error⟩ : ∃ code, (scanTls crc tid (areaTls j blocks) zeroState).2 = .error code :=
      FcRet.is_error stops fun stop => (quiet.mp stop).2 head
    have loud : ¬ EndsQuietly crc tid (areaTls j blocks) := by
      rintro ⟨a', r', b', parts', fine', refused', other⟩
      obtain rfl := first_refused fine refused fine' refused' (parts.symm.trans parts')
      exact other head
    rw [fcRecover, scan, error]
    refine ⟨fun handed => .inr (.inl ⟨handed.symm, unfine⟩), fun when => ?_⟩
    rcases when with zero | ⟨handed, -⟩ | ⟨ends, -⟩
    · omega
    · exact handed.symm
    · exact absurd ends loud
  · -- the second pass runs over the accepted records
    have stop := quiet.mpr ⟨by omega, head⟩
    have ends : EndsQuietly crc tid (areaTls j blocks) := ⟨a, r, b, parts, fine, refused, head⟩
    rw [fcRecover, scan, stop]
    show (fcDoOnePass h crc j blocks tid .replay ⟨st, init, []⟩).1.handed = _ ↔ _
    have tags : st.replayNumTags = n := num.trans counted
    rw [@replay_pass crc tid _ h j blocks area ⟨st, init, []⟩ inside (by dsimp only; omega) scanned]
    obtain ⟨fs', code, prepared⟩ : ∃ fs' code, h.prepare init = (fs', code) := ⟨_, _, rfl⟩
    simp only [prepared]
    cases code with
    | some code =>
      simp only [reduceCtorEq, false_and, and_false, or_false]
      exact ⟨fun handed => .inr ⟨handed.symm, unfine⟩, fun when => by
        rcases when with zero | ⟨handed, -⟩
        · omega
        · exact handed.symm⟩
    | none =>
      refine (replayTls_counted known tags accepted.inside rfl).trans ⟨fun serves =>
        .inr (.inr ⟨ends, rfl, serves⟩), fun when => ?_⟩
      rcases when with zero | ⟨handed, -⟩ | ⟨-, -, serves⟩
      · omega
      · exact serves_of_none handed
      · exact serves

end Applied

/- `ext2fs_crc32c_le`, a bit at a time. -/
def crc32cBit (crc : Nat) : Nat := (crc >>> 1) ^^^ if crc % 2 = 1 then 0x82F63B78 else 0

def crc32cByte (crc : Nat) (byte : UInt8) : Nat :=
  (List.range 8).foldl (fun crc _ => crc32cBit crc) (crc ^^^ byte.toNat)

def ext2fsCrc32cLe (crc len : Nat) (p : Block) : Nat :=
  (List.range len).foldl (fun crc i => crc32cByte crc (p i)) (crc % 2 ^ 32)

theorem crc32cBit_lt {crc : Nat} (lt : crc < 2 ^ 32) : crc32cBit crc < 2 ^ 32 := by
  apply xor_lt_two_pow
  · omega
  · split <;> decide

theorem foldl_lt {α : Type} {f : Nat → α → Nat} {bound : Nat}
    (step : ∀ crc a, crc < bound → f crc a < bound) (l : List α) {crc : Nat} (lt : crc < bound) :
    l.foldl f crc < bound := by
  induction l generalizing crc with
  | nil => exact lt
  | cons a l ih => exact ih (step crc a lt)

theorem ext2fsCrc32cLe_lt (crc len : Nat) (p : Block) : ext2fsCrc32cLe crc len p < 2 ^ 32 := by
  refine foldl_lt (fun crc i lt => ?_) _ (mod_lt _ (by decide))
  refine foldl_lt (fun crc _ lt => crc32cBit_lt lt) _ (xor_lt_two_pow lt ?_)
  have := (p i).toNat_lt
  omega

def crc32cOnly : Crc := ⟨ext2fsCrc32cLe, ext2fsCrc32cLe, ext2fsCrc32cLe_lt, ext2fsCrc32cLe_lt⟩

/- A journal of 1100 blocks of 1 KiB whose fast-commit area is one block. -/
def fastSuperblock : Superblock := superblockOf 1100 1 2 true

def commitHead : List UInt8 :=
  [9, 0, 8, 0, 0, 0, 0, 0, 7, 0, 0, 0, 5, 0, 9, 0, 2, 0, 0, 0, 12, 0, 0, 0, 97]

def shortCommit : Block := fun i =>
  (commitHead ++ [8, 0, 8, 0, 7, 0, 0, 0, 41, 254, 28, 209, 0, 0, 0xd7, 3]).getD i 0

def fullCommit : Block := fun i =>
  if i < 1012 then (commitHead ++ [7, 0, 0xd7, 3]).getD i 0
  else [8, 0, 8, 0, 7, 0, 0, 0, 44, 193, 205, 52].getD (i - 1012) 0

def quietHandlers : FcHandlers Unit := ⟨fun _ => ((), none), fun _ _ _ => ((), none), id, id⟩

def fastJournal : JournalT := ⟨fastSuperblock, 1024, 1100, 2, 0, 1, 1, 0, 1, 1098, 1099, 1100⟩

theorem fastJournal_loaded :
    e2fsckJournalLoad sampleOwner sampleCsum (getJournal fastSuperblock 1024 1100) =
      .ok fastJournal := by
  have first : add64 1098 1 = 1099 := by decide +kernel
  show Except.ok ({ fastJournal with fcFirst := add64 1098 1 } : JournalT) = .ok fastJournal
  rw [first]
  rfl

def shortTls : List FcTl := [0, 12, 25, 37].map (FcTl.mk shortCommit)
def fullTls : List FcTl := [0, 12, 25, 1012].map (FcTl.mk fullCommit)

theorem short_area : areaTls fastJournal (fun _ => shortCommit) = shortTls := by rfl

theorem full_area : areaTls fastJournal (fun _ => fullCommit) = fullTls := by rfl

/- In the short commit the UNLINK is in front of the accepted TAIL. -/
theorem short_commit_valid : ValidPrefix crc32cOnly 7 shortTls 3 := by
  have count : acceptedCount 0 0 (shortTls.take 3) = 3 := by decide +kernel
  have refused :
      Refused crc32cOnly 7 (runningSum crc32cOnly 0 (shortTls.take 3)) ⟨shortCommit, 37⟩ := by
    decide +kernel
  have valid := @validPrefix_of_fine crc32cOnly 7 (shortTls.take 3) [⟨shortCommit, 37⟩]
    (by decide +kernel) (by decide +kernel) (.inr ⟨_, _, rfl, refused⟩)
  rwa [count] at valid

theorem full_commit_fine : Fine crc32cOnly 7 0 fullTls := by decide +kernel

theorem full_commit_valid : ValidPrefix crc32cOnly 7 fullTls 4 := by
  have count : acceptedCount 0 0 fullTls = 4 := by decide +kernel
  have valid :=
    @validPrefix_of_fine crc32cOnly 7 fullTls [] (by decide +kernel) full_commit_fine (.inl rfl)
  rwa [count, append_nil] at valid

theorem short_commit_applied :
    (handedTags (shortTls.take 3)).map (fun call => (call.1, call.2.pos)) = [(.unlink, 12)] ∧
      AppliesPrefix crc32cOnly 7 (areaTls fastJournal fun _ => shortCommit) 3
        (fcRecover quietHandlers crc32cOnly fastJournal (fun _ => shortCommit) 7 ()) := by
  have serves : ∀ tls, Serves quietHandlers () tls := by
    intro tls
    induction tls with
    | nil => trivial
    | cons tl tls ih =>
      unfold Serves
      cases handlerOf tl.tag with
      | some handler => exact ih
      | none => exact ih
  refine ⟨by decide +kernel, (applies_prefix_iff quietHandlers crc32cOnly 7 sampleOwner sampleCsum
    fastSuperblock 1024 1100 fastJournal fastJournal_loaded (by decide) (by decide)
    (fun _ => shortCommit) () 3 (short_area ▸ short_commit_valid)).mpr (.inr
      (.inr ⟨?_, rfl, serves _⟩))⟩
  rw [short_area]
  exact ⟨shortTls.take 3, ⟨shortCommit, 37⟩, [],
    rfl, by decide +kernel, by decide +kernel, by decide +kernel⟩

/- The commit that fills the area ends recovery with an error, and the UNLINK is not applied. -/
theorem full_area_not_applied :
    e2fsckJournalLoad sampleOwner sampleCsum (getJournal fastSuperblock 1024 1100) =
      .ok fastJournal ∧
      areaTls fastJournal (fun _ => fullCommit) = fullTls ∧ Fine crc32cOnly 7 0 fullTls ∧
      ValidPrefix crc32cOnly 7 fullTls 4 ∧
      (handedTags (fullTls.take 4)).map (fun call => (call.1, call.2.pos)) = [(.unlink, 12)] ∧
      (fcRecover quietHandlers crc32cOnly fastJournal (fun _ => fullCommit) 7 ()).1.handed = [] ∧
      (fcRecover quietHandlers crc32cOnly fastJournal (fun _ => fullCommit) 7 ()).2 =
        some .efscorrupted :=
  ⟨fastJournal_loaded, full_area, full_commit_fine, full_commit_valid, by decide +kernel,
    by decide +kernel, by decide +kernel⟩

end E2fs.FastCommit
