import E2fs.Lib.Endian
import E2fs.Lib.Word

/-! kernel-jbd.h and jfs_user.h: the format of the journal, transaction ids, and the
checksums that its blocks carry. -/
namespace E2fs.Jbd2
open Word BigEndian

/-- The features of a journal that its readers and writers look at. The checksum
versions exclude each other. -/
structure Features where
  checksum : Bool
  csum2 : Bool
  csum3 : Bool
  bit64 : Bool
  asyncCommit : Bool
  one_csum : ¬ (csum2 = true ∧ csum3 = true)
  no_checksum : (csum2 || csum3) = true → checksum = false

/-- `crc32_be` and the CRC32c of `jbd2_chksum`: a starting value and the first bytes of
a block give a 32-bit number. -/
structure Crc where
  crc32Be : Nat → Nat → Block → Nat
  crc32c : Nat → Nat → Block → Nat
  crc32Be_lt : ∀ crc len b, crc32Be crc len b < 2 ^ 32
  crc32c_lt : ∀ crc len b, crc32c crc len b < 2 ^ 32

/-- A loaded journal without fast commits. An internal journal lies on the file system's
own device, `bmap` says where. -/
structure Journal where
  blocksize : Nat
  first : Nat
  last : Nat
  totalLen : Nat
  sequence : Nat
  start : Nat
  features : Features
  csumSeed : Nat
  bmap : Nat → Nat
  external : Option (Nat → Block)
  total_eq : totalLen = last
  blocksize_ge : 1024 ≤ blocksize
  first_lt : first < 2 ^ 32
  last_lt : last < 2 ^ 32
  start_lt : start < 2 ^ 32
  sequence_lt : sequence < 2 ^ 32

def jbd2Magic : Nat := 0xc03b3998

def descriptorType : Nat := 1
def commitType : Nat := 2
def revokeType : Nat := 5

def flagEscape : Nat := 1
def flagSameUuid : Nat := 2
def flagLastTag : Nat := 8

def hMagic (b : Block) : Nat := be32 b 0
def hBlocktype (b : Block) : Nat := be32 b 4
def hSequence (b : Block) : Nat := be32 b 8

def hasCsumV2or3 (j : Journal) : Bool := j.features.csum2 || j.features.csum3

def journalTagBytes (j : Journal) : Nat :=
  if j.features.csum3 then 16
  else
    let sz := if j.features.csum2 then 12 + 2 else 12
    if j.features.bit64 then sz else sz - 4

/- The bytes of a descriptor or revoke block without its checksum tail. -/
def tailSize (j : Journal) : Nat := if hasCsumV2or3 j then 4 else 0

/- The difference of two ids as an `int`. -/
@[irreducible] def tidGt (x y : Nat) : Bool := decide (toInt32 ((2 ^ 32 - y + x) % 2 ^ 32) > 0)

@[irreducible] def tidGeq (x y : Nat) : Bool := decide (toInt32 ((2 ^ 32 - y + x) % 2 ^ 32) ≥ 0)

/- `tag->t_flags`, at the same place in both tag formats. -/
def tagFlags (b : Block) (tag : Nat) : Nat := be16 b (tag + 6)

def readTagBlock (j : Journal) (b : Block) (tag : Nat) : Nat :=
  if j.features.bit64 then be32 b (tag + 8) * 2 ^ 32 + be32 b tag else be32 b tag

def tagOffsets (j : Journal) (b : Block) : Nat → Nat → List Nat
  | 0, _ => []
  | fuel + 1, tag =>
    if tag + journalTagBytes j ≤ j.blocksize - tailSize j then
      tag ::
        if tagFlags b tag &&& flagLastTag ≠ 0 then []
        else tagOffsets j b fuel
          (tag + journalTagBytes j + if tagFlags b tag &&& flagSameUuid = 0 then 16 else 0)
    else []

/- A block has fewer tags than bytes, so the fuel is never used up. -/
def blockTags (j : Journal) (b : Block) : List Nat := tagOffsets j b j.blocksize 12

def countTags (j : Journal) (b : Block) : Nat := (blockTags j b).length

def descriptorBlockCsumVerify (crc : Crc) (j : Journal) (b : Block) : Bool :=
  !hasCsumV2or3 j ||
    be32 b (j.blocksize - 4) ==
      crc.crc32c j.csumSeed j.blocksize (putBe32 b (j.blocksize - 4) 0)

def commitBlockCsumVerify (crc : Crc) (j : Journal) (b : Block) : Bool :=
  !hasCsumV2or3 j || be32 b 16 == crc.crc32c j.csumSeed j.blocksize (putBe32 b 16 0)

/- The checksum of a data block, that of the sequence number put in front. -/
def blockTagCsum (crc : Crc) (j : Journal) (data : Block) (sequence : Nat) : Nat :=
  crc.crc32c (crc.crc32c j.csumSeed 4 (putBe32 zeroBlock 0 sequence)) j.blocksize data

def blockTagCsumVerify (crc : Crc) (j : Journal) (b : Block) (tag : Nat) (data : Block)
    (sequence : Nat) : Bool :=
  !hasCsumV2or3 j ||
    if j.features.csum3 then be32 b (tag + 12) == blockTagCsum crc j data sequence
    else be16 b (tag + 4) == blockTagCsum crc j data sequence % 2 ^ 16

end E2fs.Jbd2
