import E2fs.Journal.Format

/-! e2fsck/recovery.c with the revoke table of e2fsck/revoke.c: three passes over the
log. Both users of the file read and write blocks without a cache. -/
namespace E2fs.Jbd2
open Word BigEndian

structure RevokeRecord where
  blocknr : Nat
  sequence : Nat

/-- The hash table: a list of records for each hash value. -/
abbrev RevokeTable := Nat → List RevokeRecord

def emptyTable : RevokeTable := fun _ => []

/- `hash_64` with a table of 1024 lists. -/
@[irreducible] def hash (blocknr : Nat) : Nat := 0x61C8864680B583EB * blocknr % 2 ^ 64 / 2 ^ 54

def findRevokeRecord (t : RevokeTable) (blocknr : Nat) : Option RevokeRecord :=
  (t (hash blocknr)).find? fun r => r.blocknr == blocknr

def insertRevokeHash (t : RevokeTable) (blocknr seq : Nat) : RevokeTable :=
  fun h => if h = hash blocknr then ⟨blocknr, seq⟩ :: t h else t h

def setSequence (blocknr seq : Nat) : List RevokeRecord → List RevokeRecord
  | [] => []
  | r :: rs =>
    if r.blocknr = blocknr then { r with sequence := seq } :: rs
      else r :: setSequence blocknr seq rs

def updateRevokeHash (t : RevokeTable) (blocknr seq : Nat) : RevokeTable :=
  fun h => if h = hash blocknr then setSequence blocknr seq (t h) else t h

def jbd2JournalSetRevoke (t : RevokeTable) (blocknr sequence : Nat) : RevokeTable :=
  (findRevokeRecord t blocknr).elim (insertRevokeHash t blocknr sequence) fun record =>
    if tidGt sequence record.sequence then updateRevokeHash t blocknr sequence else t

def jbd2JournalTestRevoke (t : RevokeTable) (blocknr sequence : Nat) : Bool :=
  (findRevokeRecord t blocknr).elim false fun record => !tidGt sequence record.sequence

inductive Errno where
  | efscorrupted
  | efsbadcrc
  | eio
  | einval
  deriving DecidableEq, Repr

inductive PassType where
  | scan
  | revoke
  | replay
  deriving DecidableEq, Repr

/-- The variables of `do_one_pass`, with the revoke table, the file system, and what
`info` and the journal keep from one pass to the next. -/
structure PassState where
  nextCommitId : Nat
  nextLogBlock : Nat
  crc32Sum : Nat
  needCheckCommitTime : Bool
  lastTransCommitTime : Nat
  success : Option Errno
  blockError : Bool
  endTransaction : Nat
  failedCommit : Nat
  table : RevokeTable
  fs : Nat → Block

/-- How a round of the loop ends: with another one, at `done`, or at `failed`. -/
inductive Next where
  | round (s : PassState)
  | done (s : PassState)
  | failed (err : Errno) (s : PassState)

def wrap (j : Journal) (var : Nat) : Nat :=
  if var ≥ j.last then sub64 var (sub64 j.last j.first) else var

def journalBlock (j : Journal) (fs : Nat → Block) (offset : Nat) : Block :=
  (j.external.getD fs) (j.bmap offset)

def jreadOffset (nextLogBlock : Nat) : Nat := nextLogBlock % 2 ^ 32

def jreadFails (j : Journal) (nextLogBlock : Nat) : Prop := jreadOffset nextLogBlock ≥ j.totalLen

instance (j : Journal) (n : Nat) : Decidable (jreadFails j n) :=
  inferInstanceAs (Decidable (_ ≥ _))

def jread (j : Journal) (fs : Nat → Block) (nextLogBlock : Nat) : Block :=
  journalBlock j fs (jreadOffset nextLogBlock)

/- The loop of `calc_chksums` over the data blocks; a failing read ends it. -/
def chksumBlocks (crc : Crc) (j : Journal) : Nat → PassState → PassState
  | 0, s => s
  | numBlks + 1, s =>
    let ioBlock := s.nextLogBlock
    let s := { s with nextLogBlock := wrap j (s.nextLogBlock + 1) }
    if jreadFails j ioBlock then s
    else chksumBlocks crc j numBlks
      { s with crc32Sum := crc.crc32Be s.crc32Sum j.blocksize (jread j s.fs ioBlock) }

def calcChksums (crc : Crc) (j : Journal) (bh : Block) (s : PassState) : PassState :=
  chksumBlocks crc j (countTags j bh)
    { s with crc32Sum := crc.crc32Be s.crc32Sum j.blocksize bh }

/- The data block of a tag, with the magic number put back. -/
def restored (bh : Block) (tag : Nat) (data : Block) : Block :=
  if tagFlags bh tag &&& flagEscape ≠ 0 then putBe32 data 0 jbd2Magic else data

def replayTag (crc : Crc) (j : Journal) (bh : Block) (s : PassState) (tag : Nat) : PassState :=
  let ioBlock := s.nextLogBlock
  let s := { s with nextLogBlock := wrap j (s.nextLogBlock + 1) }
  let blocknr := readTagBlock j bh tag
  let data := jread j s.fs ioBlock
  if jreadFails j ioBlock then { s with success := some .efscorrupted }
  else if jbd2JournalTestRevoke s.table blocknr s.nextCommitId then s
  else if !blockTagCsumVerify crc j bh tag data (hSequence bh) then
    { s with success := some .efsbadcrc, blockError := true }
  else { s with fs := fun b => if b = blocknr then restored bh tag data else s.fs b }

def descriptorBlock (crc : Crc) (j : Journal) (pass : PassType) (bh : Block) (s : PassState) :
    Next :=
  let invalid := !descriptorBlockCsumVerify crc j bh
  if invalid ∧ pass ≠ .scan then .failed .efsbadcrc s
  else
    let s := if invalid then { s with needCheckCommitTime := true } else s
    if pass ≠ .replay then
      if pass = .scan ∧ j.features.checksum ∧ !s.needCheckCommitTime ∧ s.endTransaction = 0 then
        .round (calcChksums crc j bh s)
      else .round { s with nextLogBlock := wrap j (s.nextLogBlock + countTags j bh) }
    else .round ((blockTags j bh).foldl (replayTag crc j bh) s)

/- `h_chksum[0]`, `h_chksum_type`, `h_chksum_size` and `h_commit_sec`. -/
def hChksum (bh : Block) : Nat := be32 bh 16
def hChksumType (bh : Block) : Nat := (bh 12).toNat
def hChksumSize (bh : Block) : Nat := (bh 13).toNat
def hCommitSec (bh : Block) : Nat := be64 bh 48

def nextTransaction (s : PassState) : PassState :=
  { s with nextCommitId := (s.nextCommitId + 1) % 2 ^ 32 }

def chksumError (j : Journal) (bh : Block) (s : PassState) : Next :=
  if hCommitSec bh < s.lastTransCommitTime then .done s
  else
    let s := { s with endTransaction := s.nextCommitId }
    if !j.features.asyncCommit then .round { s with failedCommit := s.nextCommitId }
    else .round (nextTransaction { s with lastTransCommitTime := hCommitSec bh })

def scanCommit (crc : Crc) (j : Journal) (bh : Block) (s : PassState) : Next :=
  if j.features.checksum ∧ s.endTransaction ≠ 0 then
    .round { s with failedCommit := s.endTransaction }
  else if j.features.checksum ∧
      ¬ ((s.crc32Sum = hChksum bh ∧ hChksumType bh = 1 ∧ hChksumSize bh = 4) ∨
        (hChksumType bh = 0 ∧ hChksumSize bh = 0 ∧ hChksum bh = 0)) then
    chksumError j bh s
  else
    let s := if j.features.checksum then { s with crc32Sum := 2 ^ 32 - 1 } else s
    if !commitBlockCsumVerify crc j bh then chksumError j bh s
    else .round (nextTransaction { s with lastTransCommitTime := hCommitSec bh })

def commitBlock (crc : Crc) (j : Journal) (pass : PassType) (bh : Block) (s : PassState) : Next :=
  if s.needCheckCommitTime then
    if hCommitSec bh ≥ s.lastTransCommitTime then .failed .efsbadcrc s else .done s
  else if pass = .scan then scanCommit crc j bh s
  else .round (nextTransaction s)

def recordLen (j : Journal) : Nat := if j.features.bit64 then 8 else 4

/- The block numbers in a revoke block, from `offset` on; `r_count` bytes are in use. -/
def revokeRecords (j : Journal) (bh : Block) : Nat → Nat → List Nat
  | 0, _ => []
  | fuel + 1, offset =>
    if offset + recordLen j ≤ be32 bh 12 then
      (if j.features.bit64 then be64 bh offset else be32 bh offset) ::
        revokeRecords j bh fuel (offset + recordLen j)
    else []

def blockRevokes (j : Journal) (bh : Block) : List Nat := revokeRecords j bh j.blocksize 16

def scanRevokeRecords (j : Journal) (bh : Block) (s : PassState) : Next :=
  if be32 bh 12 > j.blocksize - tailSize j then .failed .einval s
  else .round { s with
    table :=
      (blockRevokes j bh).foldl (fun t b => jbd2JournalSetRevoke t b s.nextCommitId) s.table }

def revokeBlock (crc : Crc) (j : Journal) (pass : PassType) (bh : Block) (s : PassState) : Next :=
  if pass = .scan ∧ !descriptorBlockCsumVerify crc j bh then
    .round { s with needCheckCommitTime := true }
  else if pass ≠ .revoke then .round s
  else scanRevokeRecords j bh s

def passStep (crc : Crc) (j : Journal) (pass : PassType) (s : PassState) : Next :=
  if pass ≠ .scan ∧ tidGeq s.nextCommitId s.endTransaction then .done s
  else if jreadFails j s.nextLogBlock then .failed .efscorrupted s
  else
    let bh := jread j s.fs s.nextLogBlock
    let s := { s with nextLogBlock := wrap j (s.nextLogBlock + 1) }
    if hMagic bh ≠ jbd2Magic then .done s
    else if hSequence bh ≠ s.nextCommitId then .done s
    else if hBlocktype bh = descriptorType then descriptorBlock crc j pass bh s
    else if hBlocktype bh = commitType then commitBlock crc j pass bh s
    else if hBlocktype bh = revokeType then revokeBlock crc j pass bh s
    else .done s

def finishPass (pass : PassType) (s : PassState) : PassState :=
  let s :=
    if pass = .scan then
      if s.endTransaction = 0 then { s with endTransaction := s.nextCommitId } else s
    else if s.endTransaction ≠ s.nextCommitId ∧ s.success = none then
      { s with success := some .eio }
    else s
  if s.blockError ∧ s.success = none then { s with success := some .eio } else s

/- The loop. The log may be a circle without an end, so the number of rounds is
bounded; `none` means that the bound was too small. -/
def passLoop (crc : Crc) (j : Journal) (pass : PassType) : Nat → PassState →
    Option (Option Errno × PassState)
  | 0, _ => none
  | fuel + 1, s =>
    match passStep crc j pass s with
    | .round s => passLoop crc j pass fuel s
    | .done s => some ((finishPass pass s).success, finishPass pass s)
    | .failed err s => some (some err, s)

def startPass (j : Journal) (s : PassState) : PassState :=
  { s with
    nextCommitId := j.sequence, nextLogBlock := j.start, crc32Sum := 2 ^ 32 - 1,
    needCheckCommitTime := false, lastTransCommitTime := 0, success := none, blockError := false }

def doOnePass (crc : Crc) (j : Journal) (pass : PassType) (fuel : Nat) (s : PassState) :
    Option (Option Errno × PassState) :=
  passLoop crc j pass fuel (startPass j s)

def freshState (fs : Nat → Block) : PassState :=
  ⟨0, 0, 0, false, 0, none, false, 0, 0, emptyTable, fs⟩

/- `jbd2_journal_recover`: the error and the file system. The table is empty at first
and emptied in the end; flushing is taken to succeed. -/
def jbd2JournalRecover (crc : Crc) (j : Journal) (fuel : Nat) (fs : Nat → Block) :
    Option (Option Errno × (Nat → Block)) :=
  if j.start = 0 then some (none, fs)
  else do
    let (err, s) ← doOnePass crc j .scan fuel (freshState fs)
    if err ≠ none then some (err, s.fs)
    else
      let (err, s) ← doOnePass crc j .revoke fuel s
      if err ≠ none then some (err, s.fs)
      else
        let (err, s) ← doOnePass crc j .replay fuel s
        some (err, s.fs)

end E2fs.Jbd2
