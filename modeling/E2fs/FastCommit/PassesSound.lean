import E2fs.FastCommit.Passes
import E2fs.Journal.LoadSound

/-! What the scan of the fast-commit area comes to: it counts the records up to the last TAIL
that it accepts, and goes quietly only over a record that it refuses. -/
namespace E2fs.FastCommit
open Word BigEndian LittleEndian Jbd2 List

section Spec

variable (crc : Crc) (tid : Nat)

def nextSum (sum : Nat) (tl : FcTl) : Nat :=
  if tl.tag = .tail then 0 else chksum crc sum tl (4 + tl.len)

def runningSum (sum : Nat) (tls : List FcTl) : Nat := tls.foldl (nextSum crc) sum

/-- A record that is not accepted behind records with the given checksum. -/
def Refused (sum : Nat) (tl : FcTl) : Prop :=
  match tl.tag with
  | .unknown => True
  | .head => tl.field 0 ≠ 0 ∨ tl.field 4 ≠ tid
  | .tail => ¬ (tl.field 0 = tid ∧ tl.field 4 = chksum crc sum tl 8)
  | _ => False

def Fine : Nat → List FcTl → Prop
  | _, [] => True
  | sum, tl :: rest => ¬ Refused crc tid sum tl ∧ Fine (nextSum crc sum tl) rest

def StartsWithHead (tls : List FcTl) : Prop := tls.head?.map (·.tag) = some .head

instance (tls : List FcTl) : Decidable (StartsWithHead tls) := inferInstanceAs (Decidable (_ = _))

/-- The first `n` records end with a TAIL that was accepted: all of them are fine. -/
structure AcceptedAt (tls : List FcTl) (n : Nat) : Prop where
  starts : StartsWithHead tls
  inside : n ≤ tls.length
  tail : (tls.take n).getLast?.map (·.tag) = some .tail
  fine : Fine crc tid 0 (tls.take n)

/-- The length of the valid part: up to the last accepted TAIL, or nothing. -/
def ValidPrefix (tls : List FcTl) (n : Nat) : Prop :=
  (AcceptedAt crc tid tls n ∧ ∀ m, AcceptedAt crc tid tls m → m ≤ n) ∨
    (n = 0 ∧ ∀ m, ¬ AcceptedAt crc tid tls m)

instance decidableRefused (crc : Crc) (tid sum : Nat) (tl : FcTl) :
    Decidable (Refused crc tid sum tl) := by
  unfold Refused
  exact match tl.tag with
    | .unknown => inferInstanceAs (Decidable True)
    | .head => inferInstanceAs (Decidable (_ ∨ _))
    | .tail => inferInstanceAs (Decidable (¬ _))
    | .addRange | .delRange | .creat | .link | .unlink | .inode | .pad =>
      inferInstanceAs (Decidable False)

instance decidableFine (crc : Crc) (tid : Nat) :
    (sum : Nat) → (tls : List FcTl) → Decidable (Fine crc tid sum tls)
  | _, [] => inferInstanceAs (Decidable True)
  | sum, tl :: rest =>
    have := decidableFine crc tid (nextSum crc sum tl) rest
    inferInstanceAs (Decidable (¬ Refused crc tid sum tl ∧ Fine crc tid (nextSum crc sum tl) rest))

end Spec

def areaTls (j : JournalT) (blocks : Nat → Block) : List FcTl :=
  (List.range' j.fcFirst (j.fcLast - j.fcFirst)).flatMap fun n => blockTls j.blocksize (blocks n)

variable {n : Nat}

section Lists

variable {crc : Crc} {tid : Nat}

theorem fine_append (sum : Nat) (a b : List FcTl) :
    Fine crc tid sum (a ++ b) ↔ Fine crc tid sum a ∧ Fine crc tid (runningSum crc sum a) b := by
  induction a generalizing sum with
  | nil => simp [Fine, runningSum]
  | cons tl a ih =>
    rw [cons_append, Fine, Fine, ih, and_assoc]
    rfl

theorem fine_or_refused (sum : Nat) (tls : List FcTl) :
    Fine crc tid sum tls ∨ ∃ a r b, tls = a ++ r :: b ∧ Fine crc tid sum a ∧
      Refused crc tid (runningSum crc sum a) r := by
  induction tls generalizing sum with
  | nil => exact .inl trivial
  | cons tl tls ih =>
    by_cases refused : Refused crc tid sum tl
    · exact .inr ⟨[], tl, tls, rfl, trivial, refused⟩
    · rcases ih (nextSum crc sum tl) with fine | ⟨a, r, b, rfl, fine, last⟩
      · exact .inl ⟨refused, fine⟩
      · exact .inr ⟨tl :: a, r, b, rfl, ⟨refused, fine⟩, last⟩

/- The counter of accepted tags after a list of fine records. -/
def acceptedCount : Nat → Nat → List FcTl → Nat
  | _, num, [] => num
  | cur, num, tl :: rest => acceptedCount (cur + 1) (if tl.tag = .tail then cur + 1 else num) rest

theorem acceptedCount_append (cur num : Nat) (a b : List FcTl) :
    acceptedCount cur num (a ++ b) = acceptedCount (cur + a.length)
    (acceptedCount cur num a) b := by
  induction a generalizing cur num with
  | nil => rfl
  | cons tl a ih =>
    simp only [cons_append, acceptedCount, length_cons, ih]
    congr 1
    omega

theorem acceptedCount_spec (tls : List FcTl) :
    let n := acceptedCount 0 0 tls
    n ≤ tls.length ∧ (0 < n → (tls.take n).getLast?.map (·.tag) = some .tail) ∧
      ∀ m ≤ tls.length, (tls.take m).getLast?.map (·.tag) = some .tail → m ≤ n := by
  induction tls using List.reverseRec with
  | nil =>
    refine ⟨le_refl _, fun pos => absurd pos (by decide), fun m le _ => le⟩
  | append_singleton tls tl ih =>
    obtain ⟨inside, tail, last⟩ := ih
    simp only [acceptedCount_append, zero_add, acceptedCount]
    by_cases is : tl.tag = .tail
    · rw [if_pos is]
      refine ⟨by simp, fun _ => ?_, fun m le _ => by simpa using le⟩
      rw [take_of_length_le (by simp)]
      simp [is]
    · rw [if_neg is]
      refine ⟨by simp; omega, fun pos => ?_, fun m le ends => ?_⟩
      · rw [take_append_of_le_length inside]
        exact tail pos
      · rcases lt_or_ge tls.length m with whole | part
        · rw [take_of_length_le (by simp; omega)] at ends
          simp [is] at ends
        · rw [take_append_of_le_length part] at ends
          exact last m part ends

theorem getLast_take_pos {tls : List FcTl} {tag : FcTag}
    (ends : (tls.take n).getLast?.map (·.tag) = some tag) : 0 < n := by
  rcases eq_zero_or_pos n with rfl | pos
  · simp at ends
  · exact pos

theorem ValidPrefix.unique {tls : List FcTl} {m : Nat} (one : ValidPrefix crc tid tls n)
    (two : ValidPrefix crc tid tls m) : n = m := by
  rcases one with ⟨accepted, last⟩ | ⟨rfl, none⟩ <;>
    rcases two with ⟨accepted', last'⟩ | ⟨rfl, none'⟩
  · exact le_antisymm (last' n accepted) (last m accepted')
  · exact absurd accepted (none' n)
  · exact absurd accepted' (none m)
  · rfl

/- The valid part of a list that begins with fine records and goes on with a refused
one, or ends there. -/
theorem validPrefix_of_fine {a b : List FcTl} (starts : StartsWithHead (a ++ b))
    (fine : Fine crc tid 0 a)
    (ends : b = [] ∨ ∃ r rest, b = r :: rest ∧ Refused crc tid (runningSum crc 0 a) r) :
    ValidPrefix crc tid (a ++ b) (acceptedCount 0 0 a) := by
  obtain ⟨inside, tail, last⟩ := acceptedCount_spec a
  -- an accepted TAIL lies in the fine part
  have accepted : ∀ m, AcceptedAt crc tid (a ++ b) m → m ≤ a.length := by
    intro m ⟨_, le, _, fine'⟩
    by_contra beyond
    rcases ends with rfl | ⟨r, rest, rfl, refused⟩
    · simp at le
      omega
    · rw [take_append, take_of_length_le (by omega), fine_append,
        show m - a.length = (m - a.length - 1) + 1 by omega, take_succ_cons] at fine'
      exact fine'.2.1 refused
  have cut : ∀ m, m ≤ a.length → (a ++ b).take m = a.take m := fun m le =>
    take_append_of_le_length le
  have part : ∀ m, Fine crc tid 0 (a.take m) := by
    intro m
    have h := fine
    rw [← take_append_drop m a, fine_append] at h
    exact h.1
  rcases eq_zero_or_pos (acceptedCount 0 0 a) with zero | pos
  · refine .inr ⟨zero, fun m accepted' => ?_⟩
    have le := accepted m accepted'
    have ends' := accepted'.tail
    rw [cut m le] at ends'
    have := last m le ends'
    have := getLast_take_pos ends'
    omega
  · refine .inl ⟨⟨starts, by simp; omega, ?_, ?_⟩, fun m accepted' => ?_⟩
    · rw [cut _ inside]
      exact tail pos
    · rw [cut _ inside]
      exact part _
    · have le := accepted m accepted'
      have ends' := accepted'.tail
      rw [cut m le] at ends'
      exact last m le ends'

end Lists

section Scan

variable {crc : Crc} {tid : Nat}

theorem scanTl_fine {st : FcReplayState} {tl : FcTl} (fine : ¬ Refused crc tid st.crc tl) :
    scanTl crc tid st tl = ({ st with
      curTag := st.curTag + 1
      crc := nextSum crc st.crc tl
      replayNumTags := if tl.tag = .tail then st.curTag + 1 else st.replayNumTags }, .more) := by
  revert fine
  unfold Refused scanTl nextSum
  cases tl.tag <;> intro fine <;> simp_all

/- A refused record leaves the counter alone. It ends the scan quietly when a TAIL has
been accepted before, unless it is a HEAD. -/
theorem scanTl_refused {st : FcReplayState} {tl : FcTl} (refused : Refused crc tid st.crc tl) :
    (scanTl crc tid st tl).1.replayNumTags = st.replayNumTags ∧
      (scanTl crc tid st tl).1.currentPass = st.currentPass ∧ (scanTl crc tid st tl).2 ≠ .more ∧
      ((scanTl crc tid st tl).2 = .stop ↔ st.replayNumTags ≠ 0 ∧ tl.tag ≠ .head) := by
  revert refused
  unfold Refused scanTl
  cases tl.tag <;> intro refused
  case head =>
    by_cases features : tl.field 0 = 0
    · simp_all
    · simp [features]
  case tail =>
    simp only [refused, if_false]
    by_cases some : st.replayNumTags = 0 <;> simp [some]
  case unknown => by_cases some : st.replayNumTags = 0 <;> simp [some]
  all_goals exact refused.elim

theorem scanTls_append (a b : List FcTl) (st : FcReplayState) : scanTls crc tid (a ++ b) st =
      if (scanTls crc tid a st).2 = .more then scanTls crc tid b (scanTls crc tid a st).1
      else scanTls crc tid a st := by
  induction a generalizing st with
  | nil => rfl
  | cons tl a ih =>
    obtain ⟨st', ret, first⟩ : ∃ st' ret, scanTl crc tid st tl = (st', ret) := ⟨_, _, rfl⟩
    simp only [cons_append, scanTls, first]
    cases ret with
    | more => exact ih st'
    | stop => rfl
    | error code => rfl

theorem scanTls_fine {tls : List FcTl} {st : FcReplayState} (fine : Fine crc tid st.crc tls) :
    scanTls crc tid tls st = ({ st with
      curTag := st.curTag + tls.length
      crc := runningSum crc st.crc tls
      replayNumTags := acceptedCount st.curTag st.replayNumTags tls }, .more) := by
  induction tls generalizing st with
  | nil => rfl
  | cons tl tls ih =>
    obtain ⟨first, rest⟩ := fine
    rw [scanTls, scanTl_fine first]
    dsimp only
    rw [ih rest, length_cons, acceptedCount]
    simp only [Prod.mk.injEq, and_true, FcReplayState.mk.injEq, true_and]
    exact ⟨by omega, rfl⟩

/- The scan does not look at the number of the block, and does not change it. -/
theorem scanTls_off (tls : List FcTl) (st : FcReplayState) (off : Nat) :
    scanTls crc tid tls { st with replayExpectedOff := off } =
      ({ (scanTls crc tid tls st).1 with replayExpectedOff := off }, (scanTls crc tid tls st).2) ∧
    (scanTls crc tid tls st).1.currentPass = st.currentPass := by
  induction tls generalizing st with
  | nil => exact ⟨rfl, rfl⟩
  | cons tl tls ih =>
    have one : scanTl crc tid { st with replayExpectedOff := off } tl =
        ({ (scanTl crc tid st tl).1 with replayExpectedOff := off }, (scanTl crc tid st tl).2) ∧
        (scanTl crc tid st tl).1.currentPass = st.currentPass := by
      by_cases refused : Refused crc tid st.crc tl
      · refine ⟨?_, (scanTl_refused refused).2.1⟩
        unfold scanTl
        cases tl.tag <;> simp only
        case tail => split <;> rfl
        case head =>
          split
          · rfl
          · split <;> rfl
      · rw [scanTl_fine refused]
        exact ⟨@scanTl_fine crc tid { st with replayExpectedOff := off } tl refused, rfl⟩
    rw [scanTls, scanTls, one.1]
    cases h : scanTl crc tid st tl with
    | mk st' ret =>
      have same : st'.currentPass = st.currentPass := by simpa [h] using one.2
      cases ret with
      | more => exact ⟨(ih st').1, (ih st').2.trans same⟩
      | stop => exact ⟨rfl, same⟩
      | error code => exact ⟨rfl, same⟩

theorem scanTls_result {tls : List FcTl} (starts : StartsWithHead tls)
    (valid : ValidPrefix crc tid tls n) :
    let out := scanTls crc tid tls zeroState
    out.1.replayNumTags = n ∧ ((Fine crc tid 0 tls ∧ out.2 = .more) ∨
        ∃ a r b, tls = a ++ r :: b ∧ Fine crc tid 0 a ∧ Refused crc tid (runningSum crc 0 a) r ∧
          n ≤ a.length ∧ out.2 ≠ .more ∧ (out.2 = .stop ↔ n ≠ 0 ∧ r.tag ≠ .head)) := by
  rcases @fine_or_refused crc tid 0 tls with fine | ⟨a, r, b, rfl, fine, refused⟩
  · have whole := @validPrefix_of_fine crc tid tls [] (by simpa using starts) fine (.inl rfl)
    rw [append_nil] at whole
    rw [@scanTls_fine crc tid tls zeroState fine]
    exact ⟨whole.unique valid, .inl ⟨fine, rfl⟩⟩
  have part := @validPrefix_of_fine crc tid a (r :: b) starts fine (.inr ⟨r, b, rfl, refused⟩)
  obtain rfl := part.unique valid
  obtain ⟨st, first, num, sum⟩ : ∃ st, scanTls crc tid a zeroState = (st, .more) ∧
      st.replayNumTags = acceptedCount 0 0 a ∧ st.crc = runningSum crc 0 a :=
    ⟨_, @scanTls_fine crc tid a zeroState fine, rfl, rfl⟩
  obtain ⟨kept, -, stops, quiet⟩ := @scanTl_refused crc tid st r (sum ▸ refused)
  have inside := (acceptedCount_spec a).1
  have last : scanTls crc tid (a ++ r :: b) zeroState = scanTl crc tid st r := by
    rw [scanTls_append, first, if_pos rfl, scanTls]
    generalize scanTl crc tid st r = out at stops ⊢
    obtain ⟨st', ret⟩ := out
    cases ret with
    | more => exact absurd rfl stops
    | stop => rfl
    | error code => rfl
  rw [last, ← num]
  exact ⟨kept, .inr ⟨a, r, b, rfl, fine, refused, num ▸ inside, stops, quiet⟩⟩

end Scan

section Passes

variable {crc : Crc} {tid : Nat} {σ : Type} {h : FcHandlers σ} {j : JournalT} {blocks : Nat → Block}

def tlsAfter (j : JournalT) (blocks : Nat → Block) (n : Nat) : List FcTl :=
  (List.range' n (j.fcLast - n)).flatMap fun k => blockTls j.blocksize (blocks k)

theorem tlsAfter_step (more : n < j.fcLast) :
    tlsAfter j blocks n = blockTls j.blocksize (blocks n) ++ tlsAfter j blocks (n + 1) := by
  rw [tlsAfter, tlsAfter, show j.fcLast - n = (j.fcLast - (n + 1)) + 1 by omega, range'_succ,
    flatMap_cons]

theorem tlsAfter_end : tlsAfter j blocks j.fcLast = [] := by
  simp [tlsAfter]

theorem blockTls_cons {blocksize : Nat} (large : 2 ≤ blocksize) (b : Block) :
    ∃ rest, blockTls blocksize b = ⟨b, 0⟩ :: rest := by
  obtain ⟨k, rfl⟩ : ∃ k, blocksize = k + 1 := ⟨blocksize - 1, by omega⟩
  exact ⟨_, by rw [blockTls, tlsFrom, if_pos (by omega)]⟩

/-- The area of a loaded journal: its end is the end of the journal. -/
structure AreaKnown (j : JournalT) : Prop where
  total : j.totalLen = j.fcLast
  small : j.fcLast < 2 ^ 32
  large : 2 ≤ j.blocksize

/- How a pass reports the result of the last block that it looked at. Behind the last
block of the area the read fails. -/
def passError : FcRet → Option FcError
  | .more => some .efscorrupted
  | .stop => none
  | .error code => some code

theorem fcLoop_step (area : AreaKnown j) (pass : PassType) (run : FcReplayRun σ)
    (more : n < j.fcLast) : fcLoop h crc j blocks pass tid (j.fcLast + 1 - n) n run =
      match ext4FcReplay h crc j.blocksize pass run (blocks n) (n - j.fcFirst) tid with
      | (run, .error code) => (run, some code)
      | (run, .stop) => (run, none)
      | (run, .more) => fcLoop h crc j blocks pass tid (j.fcLast + 1 - (n + 1)) (n + 1) run := by
  have small := area.small
  have total := area.total
  rw [show j.fcLast + 1 - n = (j.fcLast + 1 - (n + 1)) + 1 by omega, fcLoop, if_pos more.le,
    Nat.mod_eq_of_lt (by omega)]
  exact if_neg (by omega)

theorem fcLoop_end (area : AreaKnown j) (pass : PassType) (run : FcReplayRun σ) :
    fcLoop h crc j blocks pass tid (j.fcLast + 1 - j.fcLast) j.fcLast run =
      (run, some .efscorrupted) := by
  have small := area.small
  have total := area.total
  rw [Nat.add_sub_cancel_left, fcLoop, if_pos (le_refl _), Nat.mod_eq_of_lt (by omega),
    if_pos (by omega)]

/- The scan of the blocks from one on is the scan of their records, if the area starts with
a HEAD. -/
theorem scan_loop (area : AreaKnown j) (n : Nat) (run : FcReplayRun σ) (low : j.fcFirst ≤ n)
    (high : n ≤ j.fcLast) (off : run.state.replayExpectedOff = n - j.fcFirst)
    (first : n = j.fcFirst → run.state = zeroState ∧ fcTag (le16 (blocks n) 0) = .head)
    (scanning : run.state.currentPass = .scan) :
    ∃ st, fcLoop h crc j blocks .scan tid (j.fcLast + 1 - n) n run = ({ run with state := st },
          passError (scanTls crc tid (tlsAfter j blocks n) run.state).2) ∧ st.currentPass = .scan ∧
      st.replayNumTags = (scanTls crc tid (tlsAfter j blocks n) run.state).1.replayNumTags := by
  obtain ⟨k, left⟩ : ∃ k, j.fcLast = n + k := ⟨j.fcLast - n, by omega⟩
  induction k generalizing n run with
  | zero =>
    obtain rfl : n = j.fcLast := by omega
    rw [fcLoop_end area, tlsAfter_end]
    exact ⟨run.state, rfl, scanning, rfl⟩
  | succ k ih =>
    rw [fcLoop_step area _ _ (by omega), tlsAfter_step (by omega), scanTls_append]
    obtain ⟨moved, pass⟩ := @scanTls_off crc tid (blockTls j.blocksize (blocks n)) run.state
      (run.state.replayExpectedOff + 1)
    have scan : ext4FcReplayScan crc tid j.blocksize run.state (blocks n) (n - j.fcFirst) =
        scanBlock crc tid j.blocksize run.state (blocks n) (n - j.fcFirst) := by
      rw [ext4FcReplayScan]
      split_ifs with zero other
      · exact absurd (first (by omega)).2 other
      · rw [(first (by omega)).1]
      · rfl
    have callback : ext4FcReplay h crc j.blocksize .scan run (blocks n) (n - j.fcFirst) tid =
        ({ run with state := { (scanTls crc tid (blockTls j.blocksize (blocks n)) run.state).1 with
            replayExpectedOff := run.state.replayExpectedOff + 1 } },
          (scanTls crc tid (blockTls j.blocksize (blocks n)) run.state).2) := by
      rw [ext4FcReplay, if_pos rfl, ← scanning, scan, scanBlock, if_neg (not_not.mpr off.symm),
        moved]
    rw [callback]
    generalize scanTls crc tid (blockTls j.blocksize (blocks n)) run.state = out at pass ⊢
    obtain ⟨st', ret⟩ := out
    cases ret with
    | more =>
      obtain ⟨st, loop, scanning', num⟩ := ih (n + 1)
        { run with state := { st' with replayExpectedOff := run.state.replayExpectedOff + 1 } }
        (by omega) (by omega) (by dsimp only; omega) (by omega) (pass.trans scanning) (by omega)
      obtain ⟨moved', -⟩ := @scanTls_off crc tid (tlsAfter j blocks (n + 1)) st'
        (run.state.replayExpectedOff + 1)
      rw [moved'] at loop num
      exact ⟨st, loop, scanning', num⟩
    | stop | error code =>
      exact ⟨_, rfl, pass.trans scanning, rfl⟩

theorem scan_pass (area : AreaKnown j) (fs : σ) :
    ∃ st code, fcDoOnePass h crc j blocks tid .scan ⟨zeroState, fs, []⟩ = (⟨st, fs, []⟩, code) ∧
      st.currentPass = .scan ∧ ((¬ StartsWithHead (areaTls j blocks) ∧ st.replayNumTags = 0) ∨
        (StartsWithHead (areaTls j blocks) ∧ j.fcFirst < j.fcLast ∧
          code = passError (scanTls crc tid (areaTls j blocks) zeroState).2 ∧ st.replayNumTags =
            (scanTls crc tid (areaTls j blocks) zeroState).1.replayNumTags)) := by
  rcases lt_or_ge j.fcFirst j.fcLast with some | none
  · have whole : areaTls j blocks = tlsAfter j blocks j.fcFirst := rfl
    obtain ⟨rest, first⟩ := blockTls_cons area.large (blocks j.fcFirst)
    have head : StartsWithHead (areaTls j blocks) ↔ fcTag (le16 (blocks j.fcFirst) 0) = .head := by
      rw [whole, tlsAfter_step some, first]
      simp [StartsWithHead, FcTl.tag]
    rw [fcDoOnePass]
    by_cases starts : fcTag (le16 (blocks j.fcFirst) 0) = .head
    · obtain ⟨st, loop, scanning, num⟩ :=
        @scan_loop crc tid σ h j blocks area j.fcFirst ⟨zeroState, fs, []⟩
        (le_refl _) some.le (Nat.sub_self _).symm (fun _ => ⟨rfl, starts⟩) rfl
      exact ⟨st, _, loop, scanning, .inr ⟨head.mpr starts, some, rfl, num⟩⟩
    · have callback : ext4FcReplay h crc j.blocksize .scan ⟨zeroState, fs, []⟩ (blocks j.fcFirst)
          (j.fcFirst - j.fcFirst) tid = (⟨zeroState, fs, []⟩, .stop) := by
        simp only [ext4FcReplay, if_true, ext4FcReplayScan]
        rw [if_pos (show zeroState.replayExpectedOff = 0 from rfl), if_pos starts]
      rw [fcLoop_step area _ _ some, callback]
      exact ⟨_, _, rfl, rfl, .inl ⟨fun h => starts (head.mp h), rfl⟩⟩
  · have empty : areaTls j blocks = [] := by
      rw [areaTls, show j.fcLast - j.fcFirst = 0 by omega]
      rfl
    have none' : ¬ StartsWithHead (areaTls j blocks) := by simp [empty, StartsWithHead]
    rw [fcDoOnePass]
    rcases eq_or_lt_of_le none with edge | beyond
    · rw [← edge, fcLoop_end area]
      exact ⟨_, _, rfl, rfl, .inl ⟨none', rfl⟩⟩
    · rw [show j.fcLast + 1 - j.fcFirst = 0 by omega, fcLoop]
      exact ⟨_, _, rfl, rfl, .inl ⟨none', rfl⟩⟩

end Passes

end E2fs.FastCommit
