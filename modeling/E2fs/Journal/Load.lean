import E2fs.Journal.Recovery

/-! Loading a journal: `e2fsck_journal_load` of e2fsck/journal.c and `ext2fs_journal_load` of
debugfs/journal.c, with the wrap macros of recovery.c and do_journal.c over what they load. -/
namespace E2fs.Jbd2
open Word

/-- The fields of the journal superblock that the loaders read. -/
structure Superblock where
  magic : Nat
  blocktype : Nat
  blocksize : Nat
  maxlen : Nat
  first : Nat
  sequence : Nat
  start : Nat
  featureCompat : Nat
  featureIncompat : Nat
  featureRoCompat : Nat
  uuid : Nat
  nrUsers : Nat
  checksumType : Nat
  numFcBlks : Nat
  checksum : Nat
  maxlen_lt : maxlen < 2 ^ 32
  first_lt : first < 2 ^ 32
  numFcBlks_lt : numFcBlks < 2 ^ 32

inductive Errcode where
  | corruptJournalSb
  | journalUnsuppVersion
  | unsuppFeature
  | roUnsuppFeature
  | badInodeNum
deriving DecidableEq

/-- `journal_t` as far as it is loaded. `ext2fs_get_journal` and `e2fsck_get_journal` leave
every field but the length zero. -/
structure JournalT where
  superblock : Superblock
  blocksize : Nat
  totalLen : Nat
  formatVersion : Nat
  csumSeed : Nat
  tailSequence : Nat
  transactionSequence : Nat
  tail : Nat
  first : Nat
  last : Nat
  fcFirst : Nat
  fcLast : Nat

def getJournal (jsb : Superblock) (blocksize totalLen : Nat) : JournalT :=
  ⟨jsb, blocksize, totalLen, 0, 0, 0, 0, 0, 0, 0, 0, 0⟩

def hasCompat (j : JournalT) (mask : Nat) : Bool :=
  decide (2 ≤ j.formatVersion) && j.superblock.featureCompat &&& mask != 0

def hasIncompat (j : JournalT) (mask : Nat) : Bool :=
  decide (2 ≤ j.formatVersion) && j.superblock.featureIncompat &&& mask != 0

def hasFeatureChecksum (j : JournalT) : Bool := hasCompat j 0x1
def hasFeatureCsum2 (j : JournalT) : Bool := hasIncompat j 0x8
def hasFeatureCsum3 (j : JournalT) : Bool := hasIncompat j 0x10
def hasFeatureFastCommit (j : JournalT) : Bool := hasIncompat j 0x20

def hasCsum (j : JournalT) : Bool := hasFeatureCsum2 j || hasFeatureCsum3 j

/- The bits outside `JBD2_KNOWN_INCOMPAT_FEATURES`; no read-only feature is known. -/
def unknownIncompat (j : JournalT) : Bool :=
  decide (2 ≤ j.formatVersion) && j.superblock.featureIncompat >>> 6 != 0

def unknownRoCompat (j : JournalT) : Bool :=
  decide (2 ≤ j.formatVersion) && j.superblock.featureRoCompat != 0

/- `clear_v2_journal_fields` zeroes the superblock from the feature words on. -/
def clearV2JournalFields (jsb : Superblock) : Superblock :=
  { jsb with
    featureCompat := 0, featureIncompat := 0, featureRoCompat := 0, uuid := 0, nrUsers := 0
    checksumType := 0, numFcBlks := 0, checksum := 0, numFcBlks_lt := jsb.numFcBlks_lt.pos }

/- The two values of the checksum code that are not modelled further: the checksum of the
superblock and the seed from its uuid. -/
structure SuperblockCsum where
  sum : Superblock → Nat
  seed : Superblock → Nat

/- The number of fast commit blocks is an `int`. -/
def jbd2JournalGetNumFcBlks (jsb : Superblock) : Int :=
  if jsb.numFcBlks = 0 then 256 else toInt32 jsb.numFcBlks

def journalVersion (clears uuidNull : Bool) (j : JournalT) : Except Errcode JournalT :=
  let jsb := j.superblock
  if jsb.blocktype = 3 then
    let old := jsb.featureCompat ≠ 0 ∨ jsb.featureIncompat ≠ 0 ∨ jsb.featureRoCompat ≠ 0 ∨
      jsb.nrUsers ≠ 0
    .ok { j with
      formatVersion := 1
      superblock := if old ∧ clears then clearV2JournalFields jsb else jsb }
  else if jsb.blocktype = 4 then
    let jsb := if 1 < jsb.nrUsers ∧ uuidNull ∧ clears then clearV2JournalFields jsb else jsb
    if 1 < jsb.nrUsers then .error .journalUnsuppVersion
    else .ok { j with formatVersion := 2, superblock := jsb }
  else if jsb.blocktype = 1 ∨ jsb.blocktype = 2 ∨ jsb.blocktype = 5 then .error .corruptJournalSb
  else .error .journalUnsuppVersion

/- The checks of the features, of the superblock's own checksum and of the sizes. -/
def journalChecks (csum : SuperblockCsum) (j : JournalT) : Except Errcode JournalT :=
  let jsb := j.superblock
  if unknownIncompat j then .error .unsuppFeature
  else if unknownRoCompat j then .error .roUnsuppFeature
  else if hasFeatureCsum2 j && hasFeatureCsum3 j then .error .corruptJournalSb
  else if hasCsum j && hasFeatureChecksum j then .error .corruptJournalSb
  else if hasCsum j ∧ (jsb.checksumType ≠ 4 ∨ jsb.checksum ≠ csum.sum jsb) then
    .error .corruptJournalSb
  else
    let j := { j with csumSeed := if hasCsum j then csum.seed jsb else j.csumSeed }
    if jsb.blocksize ≠ j.blocksize then .error .corruptJournalSb
    else if jsb.maxlen < j.totalLen then .ok { j with totalLen := jsb.maxlen }
    else if j.totalLen < jsb.maxlen then .error .corruptJournalSb
    else .ok j

def journalTakes (j : JournalT) : JournalT :=
  { j with
    tailSequence := j.superblock.sequence, transactionSequence := j.superblock.sequence
    tail := j.superblock.start, first := j.superblock.first }

/-- The file system that the journal belongs to, with the answers of its user. -/
structure Owner where
  hasJournal : Bool
  journalInum : Nat
  needsRecovery : Bool
  journalUuidNull : Bool
  fixesBadInode : Bool
  fixesRecoverSet : Bool
  fixesV2Fields : Bool

/- `e2fsck_journal_fix_bad_inode`; nothing of the journal is loaded then. -/
def e2fsckJournalFixBadInode (fs : Owner) (j : JournalT) : Except Errcode JournalT :=
  if fs.hasJournal ∨ fs.journalInum ≠ 0 then
    if fs.fixesBadInode then .ok j else .error .corruptJournalSb
  else if fs.needsRecovery then
    if fs.fixesRecoverSet then .ok j else .error .unsuppFeature
  else .ok j

def ext2fsJournalFixBadInode (fs : Owner) (j : JournalT) : Except Errcode JournalT :=
  if fs.hasJournal ∨ fs.journalInum ≠ 0 then .error .badInodeNum
  else if fs.needsRecovery then .error .unsuppFeature
  else .ok j

/- The end of the log in `e2fsck_journal_load`. The number of fast commit blocks is
subtracted once from a 32-bit and once from a 64-bit number. -/
def e2fsckJournalEnds (j : JournalT) : Except Errcode JournalT :=
  let jsb := j.superblock
  if hasFeatureFastCommit j then
    if ((jsb.maxlen : Int) - jbd2JournalGetNumFcBlks jsb) % 2 ^ 32 < 1024 then
      .error .corruptJournalSb
    else
      let last := (((jsb.maxlen : Int) - jbd2JournalGetNumFcBlks jsb) % 2 ^ 64).toNat
      .ok { j with fcLast := jsb.maxlen, last := last, fcFirst := add64 last 1 }
  else .ok { j with last := jsb.maxlen }

def e2fsckJournalLoad (fs : Owner) (csum : SuperblockCsum) (j : JournalT) :
    Except Errcode JournalT :=
  if j.superblock.magic ≠ jbd2Magic then e2fsckJournalFixBadInode fs j
  else do
    let j ← journalVersion fs.fixesV2Fields fs.journalUuidNull j
    let j ← journalChecks csum j
    e2fsckJournalEnds (journalTakes j)

def ext2fsJournalLoad (fs : Owner) (csum : SuperblockCsum) (j : JournalT) :
    Except Errcode JournalT :=
  if j.superblock.magic ≠ jbd2Magic then ext2fsJournalFixBadInode fs j
  else do
    let j ← journalVersion true fs.journalUuidNull j
    let j ← journalChecks csum j
    let j := journalTakes j
    .ok { j with last := j.superblock.maxlen }

def wrapLast (j : JournalT) : Nat := if hasFeatureFastCommit j then j.fcLast else j.last

def wrapAt (last first var : Nat) : Nat := if last ≤ var then sub64 var (sub64 last first) else var

def recoveryWrap (j : JournalT) (var : Nat) : Nat := wrapAt (wrapLast j) j.first var
def findHeadWrap (j : JournalT) (var : Nat) : Nat := wrapAt j.last j.first var

end E2fs.Jbd2
