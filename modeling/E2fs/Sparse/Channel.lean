import E2fs.Lib.Device
import E2fs.Lib.Run
import E2fs.Lib.Word

/-! The I/O channel over an Android sparse image, `sparse_io.c`. The image is kept in blocks of
its own size; requests come in blocks of the channel. -/
namespace E2fs.Sparse
open Memory Device Word

/- `struct sparse_map`: a block that is not there is one of zeros. -/
structure SparseMap where
  blockSize : Nat
  blocksCount : Nat
  blocks : Nat → Option Content

structure Channel where
  sm : SparseMap
  blockSize : Nat

inductive Err where
  | unexpectedBlockSize
  deriving DecidableEq, Repr

def sparseSetBlksize (ch : Channel) (blksize : Nat) : Channel := { ch with blockSize := blksize }

def blockToSparseBlock (block : Nat) (ch : Channel) : Nat × Nat :=
  let ratio := ch.sm.blockSize / ch.blockSize
  (block / ratio, block % ratio * ch.blockSize)

def checkBlockSize (ch : Channel) : Option Err :=
  if ch.blockSize ≤ ch.sm.blockSize then none else some .unexpectedBlockSize

def readPiece (ch : Channel) (block : Nat) (out : Mem) (at_ : Int) (n : Nat) : Mem :=
  let (curBlock, offset) := blockToSparseBlock block ch
  match ch.sm.blocks curBlock with
  | some buf => copyTo out at_ n fun j => buf (offset + j)
  | none => copyTo out at_ n zeros

/- The place of a piece in the buffer of the caller is computed in an `int`. -/
def sparseReadBlk64 (ch : Channel) (block : Nat) (count : Int) (out : Mem) : Except Err Mem :=
  match checkBlockSize ch with
  | some e => .error e
  | none =>
    if count < 0 then .ok (readPiece ch block out 0 count.natAbs)
    else .ok ((List.range count.toNat).foldl
      (fun out i => readPiece ch (block + i) out (toInt32 (i * ch.blockSize)) ch.blockSize) out)

def setBlock (sm : SparseMap) (curBlock : Nat) (buf : Option Content) : SparseMap :=
  { sm with blocks := Function.update sm.blocks curBlock buf }

def writePiece (ch : Channel) (block : Nat) (sm : SparseMap) (n : Nat) (src : Nat → UInt8) :
    SparseMap :=
  let (curBlock, offset) := blockToSparseBlock block ch
  setBlock sm curBlock (some (patch ((sm.blocks curBlock).getD zeros) offset n src))

/- The number of the block is compared with the number of image blocks. -/
def writeLoop (ch : Channel) (block : Nat) (buf : Mem) : Nat → Nat → SparseMap → SparseMap
  | 0, _, sm => sm
  | left + 1, i, sm =>
    if sm.blocksCount ≤ block + i then sm
    else writeLoop ch block buf left (i + 1)
      (writePiece ch (block + i) sm ch.blockSize fun j => buf (toInt32 (i * ch.blockSize) + j))

def sparseWriteBlk64 (ch : Channel) (block : Nat) (count : Int) (buf : Mem) : Except Err Channel :=
  match checkBlockSize ch with
  | some e => .error e
  | none =>
    if count < 0 then .ok { ch with sm := writePiece ch block ch.sm count.natAbs fun j => buf j }
    else .ok { ch with sm := writeLoop ch block buf count.toNat 0 ch.sm }

def discardLoop (ch : Channel) (blk : Nat) : Nat → Nat → SparseMap → SparseMap
  | 0, _, sm => sm
  | left + 1, i, sm =>
    if sm.blocksCount ≤ blk + i then sm
    else discardLoop ch blk left (i + 1) (setBlock sm (blockToSparseBlock (blk + i) ch).1 none)

def sparseDiscard (ch : Channel) (blk count : Nat) : Except Err Channel :=
  match checkBlockSize ch with
  | some e => .error e
  | none => .ok { ch with sm := discardLoop ch blk count 0 ch.sm }

def sparseZeroout (ch : Channel) (blk count : Nat) : Except Err Channel :=
  sparseDiscard ch blk count

/- A new image, as `io_manager_configure` sets it up. -/
def newChannel (blockSize blocksCount : Nat) : Channel :=
  ⟨⟨blockSize, blocksCount, fun _ => none⟩, blockSize⟩

inductive Op where
  | setBlksize (blksize : Nat)
  | read (block : Nat) (count : Int)
  | write (block : Nat) (count : Int) (buf : Mem)
  | zeroout (blk count : Nat)
  | discard (blk count : Nat)

/- A call that fails leaves the channel as it is. -/
def step (ch : Channel) : Op → Channel
  | .setBlksize blksize => sparseSetBlksize ch blksize
  | .read _ _ => ch
  | .write block count buf => (sparseWriteBlk64 ch block count buf).toOption.getD ch
  | .zeroout blk count => (sparseZeroout ch blk count).toOption.getD ch
  | .discard blk count => (sparseDiscard ch blk count).toOption.getD ch

def runOps (ch : Channel) (ops : List Op) : Channel := ops.foldl step ch

section Content

def content (sm : SparseMap) : Content := fun q =>
  if q < sm.blocksCount * sm.blockSize then
    ((sm.blocks (q / sm.blockSize)).getD zeros) (q % sm.blockSize) else 0

/-- Channel blocks divide image blocks. -/
structure Fits (ch : Channel) : Prop where
  pos : 0 < ch.blockSize
  dvd : ch.blockSize ∣ ch.sm.blockSize
  image : 0 < ch.sm.blockSize

variable {ch : Channel} {sm : SparseMap} {block n q : Nat} {src : Nat → UInt8}

theorem Fits.check (fits : Fits ch) : checkBlockSize ch = none :=
  if_pos (Nat.le_of_dvd fits.image fits.dvd)

/- A block of the channel is where its number says, inside one image block. -/
theorem Fits.place (fits : Fits ch) (block : Nat) :
    (blockToSparseBlock block ch).1 * ch.sm.blockSize + (blockToSparseBlock block ch).2 =
      block * ch.blockSize ∧ (blockToSparseBlock block ch).2 + ch.blockSize ≤ ch.sm.blockSize := by
  obtain ⟨pos, ⟨ratio, is⟩, image⟩ := fits
  have ratioPos : 0 < ratio := by
    rcases eq_zero_or_pos ratio with zero | pos
    · rw [is, zero, Nat.mul_zero] at image
      exact absurd image (lt_irrefl 0)
    · exact pos
  have quotient : ch.sm.blockSize / ch.blockSize = ratio := by
    rw [is, Nat.mul_div_cancel_left _ pos]
  have split := Nat.div_add_mod block ratio
  have small := Nat.mod_lt block ratioPos
  simp only [blockToSparseBlock, quotient]
  constructor
  · calc block / ratio * ch.sm.blockSize + block % ratio * ch.blockSize
        = (ratio * (block / ratio) + block % ratio) * ch.blockSize := by rw [is]; ring
      _ = block * ch.blockSize := by rw [split]
  · calc block % ratio * ch.blockSize + ch.blockSize = (block % ratio + 1) * ch.blockSize := by ring
      _ ≤ ratio * ch.blockSize := Nat.mul_le_mul_right _ small
      _ = ch.sm.blockSize := by rw [is, mul_comm]

end Content

end E2fs.Sparse
