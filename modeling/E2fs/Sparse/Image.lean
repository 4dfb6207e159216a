import E2fs.Sparse.Channel

/-! Android sparse files: the parts of `libsparse` that read and write them, and how
`sparse_io.c` opens and closes an image. -/
namespace E2fs.Sparse
open Memory Device Word

section Backed

/- Where the bytes of a backed block are: in memory, in the file that was imported, or one
32-bit value over and over. -/
inductive Backing where
  | data (bytes : Content)
  | fd (offset : Nat)
  | fill (val : Nat)

structure BackedBlock where
  block : Nat
  len : Nat
  backing : Backing

/- `struct sparse_file` with its list of backed blocks; `lastUsed` is the place in the list of
the block that was added last. -/
structure SparseFile where
  blockSize : Nat
  len : Nat
  blocks : List BackedBlock
  lastUsed : Option Nat

def sparseFileNew (blockSize len : Nat) : SparseFile := ⟨blockSize, len, [], none⟩

def mergeable (a b : BackedBlock) : Bool :=
  match a.backing, b.backing with
  | .fill val, .fill val' => val == val'
  | .fd offset, .fd offset' => offset + a.len == offset'
  | _, _ => false

/- Bytes in memory are never merged. -/
def mergeBb (blockSize : Nat) (a b : BackedBlock) : Option BackedBlock :=
  if (a.block + a.len / blockSize) % 2 ^ 32 = b.block ∧
    mergeable a b then some { a with len := a.len + b.len }
  else none

/- The block at a place and the next one; whether they were merged. The assertion that the first
one starts earlier is not compiled in. -/
def mergeAt (blockSize : Nat) (l : List BackedBlock) (i : Nat) : List BackedBlock × Bool :=
  match l[i]?, l[i + 1]? with
  | some a, some b =>
    match mergeBb blockSize a b with
    | some m => (l.take i ++ m :: l.drop (i + 2), true)
    | none => (l, false)
  | _, _ => (l, false)

/- The search for the place starts at the block that was added last, if that is before. -/
def searchFrom (s : SparseFile) (block : Nat) : Nat :=
  match s.lastUsed with
  | some p =>
    match s.blocks[p]? with
    | some last => if last.block < block then p else 0
    | none => 0
  | none => 0

def queueBb (s : SparseFile) (new : BackedBlock) : SparseFile :=
  match s.blocks with
  | [] => { s with blocks := [new] }
  | head :: _ =>
    if new.block < head.block then
      { s with blocks := new :: s.blocks, lastUsed := s.lastUsed.map (· + 1) }
    else
      let start := searchFrom s new.block
      let p := start + ((s.blocks.drop (start + 1)).takeWhile fun bb => bb.block < new.block).length
      let l := s.blocks.take (p + 1) ++ new :: s.blocks.drop (p + 1)
      let result := mergeAt s.blockSize (mergeAt s.blockSize l (p + 1)).1 p
      { s with blocks := result.1, lastUsed := some (if result.2 then p else p + 1) }

/- `backed_block_split` for each block in turn, the rest of a block being the next one. With
`maxLen = 0` there is no end; the fuel is enough otherwise. -/
def splitAll (blockSize maxLen : Nat) : Nat → List BackedBlock → Option (List BackedBlock)
  | 0, _ => none
  | _ + 1, [] => some []
  | fuel + 1, bb :: rest =>
    if bb.len ≤ maxLen then (splitAll blockSize maxLen fuel rest).map (bb :: ·)
    else
      let backing : Backing := match bb.backing with
        | .data bytes => .data fun j => bytes (maxLen + j)
        | .fd offset => .fd (offset + maxLen)
        | .fill val => .fill val
      (splitAll blockSize maxLen fuel
        (⟨bb.block + maxLen / blockSize, bb.len - maxLen, backing⟩ :: rest)).map
          ({ bb with len := maxLen } :: ·)

end Backed

section Output

def divRoundUp (x y : Nat) : Nat := (x + y - 1) / y

def align (x y : Nat) : Nat := y * divRoundUp x y

structure Span where
  len : Nat
  bytes : Nat → UInt8

def ofList (l : List UInt8) : Span := ⟨l.length, fun j => l.getD j 0⟩

def Span.toList (span : Span) : List UInt8 := (List.range span.len).map span.bytes

def chunkRaw : Nat := 0xCAC1
def chunkFill : Nat := 0xCAC2
def chunkDontCare : Nat := 0xCAC3
def chunkCrc32 : Nat := 0xCAC4

def chunkHeader (chunkType chunkSz totalSz : Nat) : List UInt8 :=
  toBytes 2 chunkType ++ toBytes 2 0 ++ toBytes 4 chunkSz ++ toBytes 4 totalSz

def sparseHeaderMagic : Nat := 0xed26ff3a

def sparseHeader (blkSz totalBlks totalChunks : Nat) : List UInt8 :=
  toBytes 4 sparseHeaderMagic ++ toBytes 2 1 ++ toBytes 2 0 ++ toBytes 2 28 ++ toBytes 2 12 ++
    toBytes 4 blkSz ++ toBytes 4 totalBlks ++ toBytes 4 totalChunks ++ toBytes 4 0

def zeroSpans (len : Nat) : List Span :=
  List.replicate (len / 2 ^ 21) ⟨2 ^ 21, zeros⟩ ++ if len % 2 ^ 21 = 0 then []
    else [⟨len % 2 ^ 21, zeros⟩]

def writeSparseDataChunk (blockSize len : Nat) (data : Content) : List Span :=
  let rndUpLen := align len blockSize
  ofList (chunkHeader chunkRaw (rndUpLen / blockSize) (12 + rndUpLen)) :: ⟨len, data⟩ :: zeroSpans
    (rndUpLen - len)

def writeSparseFillChunk (blockSize len val : Nat) : List Span :=
  [ofList (chunkHeader chunkFill (align len blockSize / blockSize) 16), ofList (toBytes 4 val)]

def writeSparseSkipChunk (blockSize skipLen : Nat) : List Span :=
  if skipLen % blockSize = 0 then [ofList (chunkHeader chunkDontCare (skipLen / blockSize) 12)]
    else []

/- The bytes of a part of the imported file are mapped; behind its end there are none. -/
def sparseFileWriteBlock (file : List UInt8) (blockSize : Nat) (bb : BackedBlock) :
    Option (List Span) :=
  match bb.backing with
  | .data bytes => some (writeSparseDataChunk blockSize bb.len bytes)
  | .fd offset =>
    if offset + bb.len ≤ file.length then
      some (writeSparseDataChunk blockSize bb.len fun j => file.getD (offset + j) 0)
    else none
  | .fill val => some (writeSparseFillChunk blockSize bb.len val)

def endBlock (blockSize : Nat) (bb : BackedBlock) : Nat :=
  (bb.block + divRoundUp bb.len blockSize) % 2 ^ 32

/- `write_all_blocks` for the blocks behind `lastBlock`, and where it ends. -/
def writeBlocks (file : List UInt8) (blockSize : Nat) :
    Nat → List BackedBlock → Option (List Span × Nat)
  | lastBlock, [] => some ([], lastBlock)
  | lastBlock, bb :: rest =>
    let skip := if lastBlock <
      bb.block then writeSparseSkipChunk blockSize ((bb.block - lastBlock) * blockSize) else []
    match sparseFileWriteBlock file blockSize bb with
    | none => none
    | some spans =>
      match writeBlocks file blockSize (endBlock blockSize bb) rest with
      | none => none
      | some (more, last) => some (skip ++ spans ++ more, last)

def sparseCountChunks (s : SparseFile) : Nat :=
  let counted := s.blocks.foldl (fun (chunks, lastBlock) bb =>
    (chunks + (if lastBlock < bb.block then 2 else 1), endBlock s.blockSize bb)) (0, 0)
  if counted.2 < divRoundUp s.len s.blockSize then counted.1 + 1 else counted.1

def maxBackedBlockSize : Nat := 2 ^ 26

def splitFuel (l : List BackedBlock) : Nat := (l.map (·.len)).sum + l.length + 1

/- `sparse_file_write` without gzip and checksum, for blocks in memory: the bytes of the file. -/
def sparseFileWrite (s : SparseFile) : Option (List UInt8) :=
  match splitAll s.blockSize (maxBackedBlockSize / s.blockSize * s.blockSize) (splitFuel s.blocks)
      s.blocks with
  | none => none
  | some blocks =>
    match writeBlocks [] s.blockSize 0 blocks with
    | none => none
    | some (spans, lastBlock) =>
      if s.len < lastBlock * s.blockSize then none
      else
        let pad := s.len - lastBlock * s.blockSize
        let last := if 0 < pad then writeSparseSkipChunk s.blockSize pad else []
        some (sparseHeader s.blockSize (divRoundUp s.len s.blockSize)
          (sparseCountChunks { s with blocks := blocks }) ++ (spans ++ last).flatMap Span.toList)

/- What the chunk of a block adds to the length of an image that is not in the sparse format. -/
def normalLen (blockSize : Nat) (bb : BackedBlock) : Nat :=
  match bb.backing with
  | .fill _ => bb.len
  | _ => align bb.len blockSize

def lenBlocks (blockSize : Nat) : Nat → List BackedBlock → Nat × Nat
  | lastBlock, [] => (0, lastBlock)
  | lastBlock, bb :: rest =>
    let skip := (bb.block - lastBlock) * blockSize
    let more := lenBlocks blockSize (endBlock blockSize bb) rest
    (skip + normalLen blockSize bb + more.1, more.2)

def sparseFileLen (s : SparseFile) : Option Nat :=
  let counted := lenBlocks s.blockSize 0 s.blocks
  if s.len < counted.2 * s.blockSize then none
    else some (counted.1 + (s.len - counted.2 * s.blockSize))

end Output

section Input

def readValue (file : List UInt8) (pos n : Nat) : Option (List UInt8) :=
  if pos + n ≤ file.length then some ((file.drop pos).take n) else none

def field (b : List UInt8) (offset width : Nat) : Nat := ofBytes ((b.drop offset).take width)

/- A chunk is added to the file and the cursor goes behind it; with it the number of blocks. -/
def processChunk (s : SparseFile) (file : List UInt8) (chunkHdrSz : Nat) (hdr : List UInt8)
    (pos curBlock : Nat) : Option (SparseFile × Nat × Nat) :=
  let chunkSz := field hdr 4 4
  let dataSize := (field hdr 8 4 + 2 ^ 32 - chunkHdrSz) % 2 ^ 32
  let len := chunkSz * s.blockSize
  if field hdr 0 2 = chunkRaw then
    if dataSize % s.blockSize = 0 ∧ dataSize / s.blockSize = chunkSz then
      some (queueBb s ⟨curBlock, len, .fd pos⟩, pos + len, chunkSz)
    else none
  else if field hdr 0 2 = chunkFill then
    if dataSize = 4 then
      (readValue file pos 4).map fun val =>
        (queueBb s ⟨curBlock, len, .fill (ofBytes val)⟩, pos + 4, chunkSz)
    else none
  else if field hdr 0 2 = chunkDontCare then
    if dataSize = 0 then some (s, pos, chunkSz) else none
  else if field hdr 0 2 = chunkCrc32 then
    if dataSize = 4 then (readValue file pos 4).map fun _ => (s, pos + 4, 0) else none
  else some (s, pos, 0)

/- The number of blocks comes back as an `int`: a negative one is an error. -/
def readChunks (file : List UInt8) (chunkHdrSz : Nat) :
    Nat → SparseFile → Nat → Nat → Option (SparseFile × Nat)
  | 0, s, _, curBlock => some (s, curBlock)
  | left + 1, s, pos, curBlock =>
    match readValue file pos 12 with
    | none => none
    | some hdr =>
      match processChunk s file chunkHdrSz hdr (pos + chunkHdrSz) curBlock with
      | none => none
      | some (s', pos', blocks) =>
        if blocks < 2 ^ 31 then readChunks file chunkHdrSz left s' pos'
          ((curBlock + blocks) % 2 ^ 32) else none

def sparseFileImport (file : List UInt8) : Option SparseFile :=
  match readValue file 0 28 with
  | none => none
  | some hdr =>
    let fileHdrSz := field hdr 8 2
    let chunkHdrSz := field hdr 10 2
    let blkSz := field hdr 12 4
    let totalBlks := field hdr 16 4
    if field hdr 0 4 = sparseHeaderMagic ∧ field hdr 4 2 = 1 ∧ 28 ≤ fileHdrSz ∧ 12 ≤ chunkHdrSz ∧
        blkSz ≠ 0 ∧ blkSz % 4 = 0 ∧ totalBlks ≠ 0 then
      match readChunks file chunkHdrSz (field hdr 20 4) (sparseFileNew blkSz (totalBlks * blkSz))
          fileHdrSz 0 with
      | none => none
      | some (s, curBlock) => if totalBlks = curBlock then some s else none
    else none

end Input

section Open

/- What is not a multiple of the block size is taken for a header. -/
def sparseImportSegment (ch : Channel) (span : Span) (block nrBlocks : Nat) : Channel :=
  if nrBlocks = 0 ∨ span.len % ch.sm.blockSize ≠ 0 then ch
  else (sparseWriteBlk64 ch block (toInt32 nrBlocks) fun q => span.bytes q.toNat).toOption.getD ch

/- Errors of the callback are positive numbers, which nobody looks at. -/
def foreachChunk (file : List UInt8) (blockSize : Nat) : List BackedBlock → Channel → Option Channel
  | [], ch => some ch
  | bb :: rest, ch =>
    let nrBlocks := ((bb.len + 2 ^ 64 - 1) % 2 ^ 64 / blockSize + 1) % 2 ^ 32
    match sparseFileWriteBlock file blockSize bb with
    | none => none
    | some spans =>
      foreachChunk file blockSize rest
        (spans.foldl (fun ch span => sparseImportSegment ch span bb.block nrBlocks) ch)

/- `io_manager_import_sparse`, for block sizes that fit into an `int`. -/
def ioManagerImportSparse (file : List UInt8) : Option Channel :=
  match sparseFileImport file with
  | none => none
  | some s =>
    match sparseFileLen s with
    | none => none
    | some len =>
      foreachChunk file s.blockSize s.blocks (newChannel s.blockSize ((len - 1) / s.blockSize + 1))

/- A channel for writing, and whether its file is still open: a descriptor that was given is
closed after the import. -/
structure Writer where
  ch : Channel
  fdOpen : Bool

/- `io_manager_configure` with `IO_FLAG_RW`; what the file held before counts if it is an image. -/
def openForWriting (byFd : Bool) (old : List UInt8) (blockSize blocksCount : Nat) : Option Writer :=
  match ioManagerImportSparse old with
  | some ch => some ⟨ch, !byFd⟩
  | none =>
    if blockSize = 0 ∨ blocksCount = 0 then none else some ⟨newChannel blockSize blocksCount, !byFd⟩

def sparseMergeBlocks (sm : SparseMap) (s : SparseFile) (start num : Nat) : SparseFile :=
  queueBb s ⟨start % 2 ^ 32, sm.blockSize * num,
    .data fun j => ((sm.blocks (start + j / sm.blockSize)).getD zeros) (j % sm.blockSize)⟩

def closeRound (sm : SparseMap) (st : Option Nat × SparseFile) (i : Nat) :
    Option Nat × SparseFile :=
  match sm.blocks i, st.1 with
  | none, some chunkStart => (none, sparseMergeBlocks sm st.2 chunkStart (i - chunkStart))
  | some _, none => (some i, st.2)
  | _, _ => st

def sparseCloseChannel (sm : SparseMap) : SparseFile :=
  let start := if (sm.blocks 0).isNone then none else some 0
  match (List.range sm.blocksCount).foldl (closeRound sm)
    (start, sparseFileNew sm.blockSize (sm.blockSize * sm.blocksCount)) with
  | (none, s) => s
  | (some chunkStart, s) => sparseMergeBlocks sm s chunkStart (sm.blocksCount - chunkStart)

def sparseClose (w : Writer) : Option (List UInt8) :=
  if w.fdOpen then sparseFileWrite (sparseCloseChannel w.ch.sm) else none

end Open

end E2fs.Sparse
