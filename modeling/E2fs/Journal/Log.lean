import E2fs.Journal.Recovery

/-! What recovery is for. The log is read block by block around the circle; it holds
transactions, numbered from zero, each with tags, revoke records and a commit block. A
file system block ends up with the last tag for it that is not revoked. -/
namespace E2fs.Jbd2
open Word BigEndian

@[irreducible] def tid (j : Journal) (k : Nat) : Nat := (j.sequence + k) % 2 ^ 32

def nextBlock (j : Journal) (pos : Nat) : Nat := wrap j (pos + 1)

def advance (j : Journal) (pos : Nat) : Nat → Nat
  | 0 => pos
  | n + 1 => advance j (nextBlock j pos) n

/-- What a transaction says about a file system block. -/
inductive Entry where
  | tag (trans blocknr : Nat) (data : Block)
  | revoke (trans blocknr : Nat)

/- The entries of a descriptor block in transaction `k`; `pos` is the position of the
first data block. -/
def tagEntries (j : Journal) (fs : Nat → Block) (bh : Block) (k : Nat) : Nat → List Nat → List Entry
  | _, [] => []
  | pos, tag :: tags =>
    .tag k (readTagBlock j bh tag) (restored bh tag (journalBlock j fs pos)) ::
      tagEntries j fs bh k (nextBlock j pos) tags

def revokeEntries (j : Journal) (bh : Block) (k : Nat) : List Entry :=
  (blockRevokes j bh).map (.revoke k)

structure LogBlock (j : Journal) (fs : Nat → Block) (pos k type : Nat) : Prop where
  inside : pos < j.totalLen
  magic : hMagic (journalBlock j fs pos) = jbd2Magic
  sequence : hSequence (journalBlock j fs pos) = tid j k
  blocktype : hBlocktype (journalBlock j fs pos) = type

/-- The log from one position to another one, through transactions below `n`. -/
inductive Walk (j : Journal) (fs : Nat → Block) (n : Nat) :
    Nat → Nat → Nat → Nat → List Entry → Prop where
  | stop (pos k : Nat) : Walk j fs n pos k pos k []
  | descriptor {pos k pos' k' : Nat} {entries : List Entry} (more : k < n)
      (head : LogBlock j fs pos k descriptorType)
      (readable : ∀ i < countTags j (journalBlock j fs pos),
        advance j (nextBlock j pos) i < j.totalLen)
      (rest : Walk j fs n (advance j (nextBlock j pos) (countTags j (journalBlock j fs pos))) k
        pos' k' entries) :
      Walk j fs n pos k pos' k'
        (tagEntries j fs (journalBlock j fs pos) k (nextBlock j pos)
          (blockTags j (journalBlock j fs pos)) ++ entries)
  | commit {pos k pos' k' : Nat} {entries : List Entry} (more : k < n)
      (head : LogBlock j fs pos k commitType)
      (rest : Walk j fs n (nextBlock j pos) (k + 1) pos' k' entries) :
      Walk j fs n pos k pos' k' entries
  | revoke {pos k pos' k' : Nat} {entries : List Entry} (more : k < n)
      (head : LogBlock j fs pos k revokeType)
      (rest : Walk j fs n (nextBlock j pos) k pos' k' entries) :
      Walk j fs n pos k pos' k' (revokeEntries j (journalBlock j fs pos) k ++ entries)

/- Positions are read as 32-bit numbers: the jump over the data blocks of a descriptor block,
which wraps only once, does not end beyond. -/
def JumpsFit (j : Journal) (fs : Nat → Block) (n : Nat) : Prop :=
  ∀ pos k entries, Walk j fs n j.start 0 pos k entries → k < n →
    LogBlock j fs pos k descriptorType →
    nextBlock j pos + countTags j (journalBlock j fs pos) + j.first < 2 ^ 32 + j.last

def revokedFrom (entries : List Entry) (k b : Nat) : Bool :=
  entries.any fun
    | .revoke k' b' => decide (k ≤ k') && b' == b
    | .tag _ _ _ => false

def liveData (entries : List Entry) (b : Nat) : Entry → Option Block
  | .tag k b' data => if b' = b ∧ revokedFrom entries k b = false then some data else none
  | .revoke _ _ => none

/- The data of the last tag for the block that is not revoked. -/
def lastTag (entries : List Entry) (b : Nat) : Option Block :=
  (entries.filterMap (liveData entries b)).getLast?

def AvoidsJournal (j : Journal) (b : Nat) : Prop :=
  j.external = none → ∀ offset < j.totalLen, b ≠ j.bmap offset

/- No tag of the transactions below `n` addresses a block of the journal. -/
def TagsAvoidJournal (j : Journal) (fs : Nat → Block) (n : Nat) : Prop :=
  ∀ pos k entries, Walk j fs n j.start 0 pos k entries →
    ∀ k' b data, Entry.tag k' b data ∈ entries → AvoidsJournal j b

def committed (crc : Crc) (j : Journal) (fuel : Nat) (fs : Nat → Block) : Option Nat :=
  if j.start = 0 then some 0
  else (doOnePass crc j .scan fuel (freshState fs)).map fun out =>
    (2 ^ 32 - j.sequence + out.2.endTransaction) % 2 ^ 32

/-- The file system after the first `n` transactions of the log. -/
def Recovered (j : Journal) (fs fs' : Nat → Block) (n : Nat) : Prop :=
  ∃ pos entries, Walk j fs n j.start 0 pos n entries ∧
    ∀ b, fs' b = (lastTag entries b).getD (fs b)

end E2fs.Jbd2
