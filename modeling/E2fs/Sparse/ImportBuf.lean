import E2fs.Sparse.Queue

/-! An image in memory, `sparse_file_import_buf`: the chunks of an image that is accepted tile its
blocks, unless their sizes add up to 2^32 or a chunk of no blocks shares its place. -/
namespace E2fs.Sparse
open Memory Device Word List Option

section Source

/- The file so far, the offset in the buffer, `cur_block` and what `crc_ptr` points to. -/
structure Reader where
  s : SparseFile
  pos : Nat
  curBlock : Nat
  crc : Option Nat

variable (sum : Nat → List UInt8 → Nat) (buf : List UInt8)

abbrev AccessOkay (pos len : Nat) : Prop := 0 < len ∧ pos < buf.length ∧ len ≤ buf.length - pos

/- `copybuf` is summed again and again. -/
def sumCopies (bytes : Content) (len crc : Nat) : Nat :=
  (replicate (len / 2 ^ 20) (2 ^ 20) ++ if len % 2 ^ 20 = 0 then [] else [len % 2 ^ 20]).foldl
    (fun crc chunk => sum crc (bytesAt bytes 0 chunk)) crc

def processChunkBuf (chunkHdrSz : Nat) (hdr : List UInt8) (r : Reader) : Option Reader :=
  let dataSize := (field hdr 8 4 + 2 ^ 32 - chunkHdrSz) % 2 ^ 32
  let len := field hdr 4 4 * r.s.blockSize
  let value := ofBytes ((buf.drop r.pos).take 4)
  if field hdr 0 2 = chunkRaw then
    if dataSize % r.s.blockSize = 0 ∧ dataSize / r.s.blockSize = field hdr 4 4 ∧
        AccessOkay buf r.pos len then
      some { r with
        s := queueBb r.s ⟨r.curBlock, len, .data fun j => buf.getD (r.pos + j) 0⟩
        pos := r.pos + len
        crc := r.crc.map (sum · ((buf.drop r.pos).take len)) }
    else none
  else if field hdr 0 2 = chunkFill then
    if dataSize = 4 ∧ AccessOkay buf r.pos 4 then
      some { r with
        s := queueBb r.s ⟨r.curBlock, len, .fill value⟩
        pos := r.pos + 4
        crc := r.crc.map (sumCopies sum (fun j => (toBytes 4 value).getD (j % 4) 0) len) }
    else none
  else if field hdr 0 2 = chunkDontCare then
    if dataSize = 0 then some { r with crc := r.crc.map (sumCopies sum zeros len) } else none
  else if field hdr 0 2 = chunkCrc32 then
    if dataSize = 4 ∧ AccessOkay buf r.pos 4 ∧ ∀ crc ∈ r.crc, value = crc then
      some { r with pos := r.pos + 4 }
    else none
  else some r

def chunkBlocks (hdr : List UInt8) : Nat :=
  if field hdr 0 2 = chunkRaw ∨ field hdr 0 2 = chunkFill ∨
    field hdr 0 2 = chunkDontCare then field hdr 4 4 else 0

def readChunk (chunkHdrSz : Nat) (r : Reader) : Option Reader :=
  let hdr := (buf.drop r.pos).take 12
  if AccessOkay buf r.pos 12 ∧
      (12 < chunkHdrSz → AccessOkay buf (r.pos + 12) (chunkHdrSz - 12)) then
    (processChunkBuf sum buf chunkHdrSz hdr { r with pos := r.pos + chunkHdrSz }).bind fun r =>
      if chunkBlocks hdr < 2 ^ 31 then
        some { r with curBlock := (r.curBlock + chunkBlocks hdr) % 2 ^ 32 }
      else none
  else none

def readChunksBuf (chunkHdrSz : Nat) : Nat → Reader → Option Reader
  | 0, r => some r
  | left + 1, r => (readChunk sum buf chunkHdrSz r).bind (readChunksBuf chunkHdrSz left)

def chunksRead (chunkHdrSz : Nat) : Nat → Reader → List (Nat × List UInt8)
  | 0, _ => []
  | left + 1, r => (r.curBlock, (buf.drop r.pos).take 12) ::
    (readChunk sum buf chunkHdrSz r).elim [] (chunksRead chunkHdrSz left)

end Source

section Tiles

def blocksSum (chunks : List (Nat × List UInt8)) : Nat := (chunks.map fun c => chunkBlocks c.2).sum

abbrev Recorded (hdr : List UInt8) : Prop := field hdr 0 2 = chunkRaw ∨ field hdr 0 2 = chunkFill

/- No two of them start at one block; the first of two would have no blocks. -/
def Distinct (chunks : List (Nat × List UInt8)) : Prop :=
  chunks.Pairwise fun c c' => Recorded c.2 → Recorded c'.2 → c.1 ≠ c'.1

/- How many chunks have a block: those in the list and those that are skipped. -/
def coverage (s : SparseFile) (chunks : List (Nat × List UInt8)) (b : Nat) : Nat :=
  s.blocks.countP (Covers s.blockSize b) +
    chunks.countP fun c => field c.2 0 2 = chunkDontCare ∧ c.1 ≤ b ∧ b < c.1 + field c.2 4 4

/- The bytes of a block are bytes of the image. -/
def BackedBlock.Within (bb : BackedBlock) (buf : List UInt8) : Prop :=
  ∀ bytes, bb.backing = .data bytes →
    ∃ p, p + bb.len ≤ buf.length ∧ bytes = fun j => buf.getD (p + j) 0

/-- Every block below `n` is in exactly one chunk, and the others in none; the chunks in the list
are apart, and all chunks are in the order of the image, those in the list at increasing places. -/
structure Tiles (buf : List UInt8) (s : SparseFile) (chunks : List (Nat × List UInt8)) (n : Nat) :
    Prop where
  once : ∀ b, coverage s chunks b = if b < n then 1 else 0
  queued : Queued True s n 0
  inside : ∀ c ∈ chunks, c.1 + chunkBlocks c.2 ≤ n
  order : chunks.Pairwise fun c c' => c.1 + chunkBlocks c.2 ≤ c'.1
  increasing : chunks.Pairwise fun c c' => Recorded c.2 → Recorded c'.2 → c.1 < c'.1
  origin : ∀ bb ∈ s.blocks, (∃ hdr, (bb.block, hdr) ∈ chunks ∧ Recorded hdr) ∧ bb.Within buf

variable {sum : Nat → List UInt8 → Nat} {buf : List UInt8} {chunkHdrSz left : Nat}
  {hdr : List UInt8} {r r' : Reader} {s s' : SparseFile} {chunks : List (Nat × List UInt8)}
    {n : Nat}

theorem processChunkBuf_cases (read : processChunkBuf sum buf chunkHdrSz hdr r = some r') :
    r'.curBlock = r.curBlock ∧ ((Recorded hdr ∧ ∃ new : BackedBlock, r'.s = queueBb r.s new ∧
          new.block = r.curBlock ∧ new.len = chunkBlocks hdr * r.s.blockSize ∧
          (∀ offset, new.backing ≠ .fd offset) ∧ new.Within buf) ∨
        ¬ Recorded hdr ∧ r'.s = r.s ∧
          chunkBlocks hdr = if field hdr 0 2 = chunkDontCare then field hdr 4 4 else 0) := by
  rw [processChunkBuf] at read
  split_ifs at read with raw okay fill okay skip empty crc okay
  · cases read
    have blocks : chunkBlocks hdr = field hdr 4 4 := if_pos (.inl raw)
    refine ⟨rfl,
      .inl ⟨.inl raw, _, rfl, rfl, by rw [blocks], nofun, fun bytes is => ⟨r.pos, ?_, ?_⟩⟩⟩
    · show r.pos + _ * _ ≤ _
      omega
    · cases is
      rfl
  · cases read
    have blocks : chunkBlocks hdr = field hdr 4 4 := if_pos (.inr (.inl fill))
    exact ⟨rfl, .inl ⟨.inr fill, _, rfl, rfl, by rw [blocks], nofun, nofun⟩⟩
  · cases read
    exact ⟨rfl, .inr ⟨not_or.mpr ⟨raw, fill⟩, rfl,
      (if_pos (.inr (.inr skip))).trans (if_pos skip).symm⟩⟩
  all_goals
    cases read
    exact ⟨rfl, .inr ⟨not_or.mpr ⟨raw, fill⟩, rfl,
      (if_neg (by simp [raw, fill, skip])).trans (if_neg skip).symm⟩⟩

/- What a chunk at block `n` adds to what has each block. -/
theorem coverage_snoc (s : SparseFile) (chunks : List (Nat × List UInt8)) (n b : Nat)
    (hdr : List UInt8) : coverage s (chunks ++ [(n, hdr)]) b = coverage s chunks b +
      if field hdr 0 2 = chunkDontCare ∧ n ≤ b ∧ b < n + field hdr 4 4 then 1 else 0 := by
  rw [coverage, countP_append, countP_singleton, ← add_assoc]
  simp only [decide_eq_true_eq]
  rfl

theorem Tiles.snoc (tiles : Tiles buf s chunks n) (queued : Queued True s' (n + chunkBlocks hdr) 0)
    (more : ∀ b, coverage s' (chunks ++ [(n, hdr)]) b =
      coverage s chunks b + if n ≤ b ∧ b < n + chunkBlocks hdr then 1 else 0)
    (distinct : ∀ c ∈ chunks, Recorded c.2 → Recorded hdr → c.1 ≠ n)
    (origin : ∀ bb ∈ s'.blocks,
      ((∃ old ∈ s.blocks, bb.block = old.block) ∨ bb.block = n ∧ Recorded hdr) ∧ bb.Within buf) :
    Tiles buf s' (chunks ++ [(n, hdr)]) (n + chunkBlocks hdr) where
  once := fun b => by
    rw [more, tiles.once]
    split_ifs <;> omega
  queued := queued
  inside := by
    rw [forall_mem_append, forall_mem_singleton]
    exact ⟨fun c mem => (tiles.inside c mem).trans (Nat.le_add_right _ _), le_refl _⟩
  order := pairwise_append.mpr ⟨tiles.order, pairwise_singleton _ _, fun c mem c' only => by
    rw [mem_singleton.mp only]
    exact tiles.inside c mem⟩
  increasing := pairwise_append.mpr ⟨tiles.increasing, pairwise_singleton _ _,
    fun c mem c' only own other => by
      rw [mem_singleton.mp only] at other ⊢
      have := tiles.inside c mem
      have := distinct c mem own other
      dsimp only
      omega⟩
  origin := fun bb mem => by
    obtain ⟨⟨old, before, same⟩ | ⟨same, recorded⟩, within⟩ := origin bb mem
    · obtain ⟨⟨hdr, chunk, recorded⟩, -⟩ := tiles.origin old before
      exact ⟨⟨hdr, mem_append_left _ (same ▸ chunk), recorded⟩, within⟩
    · exact ⟨⟨hdr, mem_append_right _ (mem_singleton.mpr (by rw [same])), recorded⟩, within⟩

theorem Tiles.chunk (tiles : Tiles buf r.s chunks r.curBlock)
    (small : r.curBlock + chunkBlocks ((buf.drop r.pos).take 12) < 2 ^ 32)
    (distinct : ∀ c ∈ chunks, Recorded c.2 → Recorded ((buf.drop r.pos).take 12) →
      c.1 ≠ r.curBlock) (read : readChunk sum buf chunkHdrSz r = some r') :
    Tiles buf r'.s (chunks ++ [(r.curBlock, (buf.drop r.pos).take 12)]) r'.curBlock ∧
      r'.curBlock = r.curBlock + chunkBlocks ((buf.drop r.pos).take 12) := by
  rw [readChunk, ite_none_right_eq_some] at read
  obtain ⟨r1, process, is⟩ := bind_eq_some_iff.mp read.2
  rw [ite_none_right_eq_some] at is
  cases is.2
  obtain ⟨same, cases⟩ := processChunkBuf_cases process
  dsimp only at same cases
  generalize (buf.drop r.pos).take 12 = hdr at *
  have cur : (r1.curBlock + chunkBlocks hdr) % 2 ^ 32 = r.curBlock + chunkBlocks hdr := by
    rw [same, Nat.mod_eq_of_lt small]
  refine ⟨?_, cur⟩
  rw [cur]
  have queued := tiles.queued
  rcases cases with ⟨recorded, new, is, block, len, notFd, within⟩ | ⟨skipped, is, blocks⟩
  · have blocks : new.len / r.s.blockSize = chunkBlocks hdr := by
      rw [len, Nat.mul_div_cancel _ queued.pos]
    have front : ∀ bb ∈ r.s.blocks, bb.block < r.curBlock := fun bb mem => by
      obtain ⟨⟨hdr', there, own⟩, -⟩ := tiles.origin bb mem
      have := tiles.inside _ there
      have := distinct _ there own recorded
      dsimp only at *
      omega
    have added := @Queued.add _ [] _ _ _ _ _ queued ⟨block, by rwa [blocks],
      ⟨_, len.trans (mul_comm _ _)⟩, le_refl 0, fun offset is => absurd is (notFd offset),
      fun _ => front⟩
    have kept : field hdr 0 2 ≠ chunkDontCare := by
      rcases recorded with raw | fill
      · rw [raw]
        decide
      · rw [fill]
        decide
    rw [is]
    refine tiles.snoc (blocks ▸ added.queued) (fun b => ?_) distinct fun bb mem => ?_
    · rw [coverage_snoc, if_neg fun h => kept h.1, coverage, added.blockSize, added.cover, add_zero,
        add_right_comm]
      simp only [Covers, blocks, block, decide_eq_true_eq]
      rfl
    · obtain ⟨old, there, grown⟩ := added.origin bb mem
      have start : bb.block = old.block := by
        rcases grown with rfl | ⟨-, k, rfl⟩ <;> rfl
      have inBuf : old.Within buf → bb.Within buf := by
        rcases grown with rfl | ⟨⟨val, fill⟩, k, rfl⟩
        · exact id
        · exact fun _ bytes is => Backing.noConfusion (fill.symm.trans is)
      rcases mem_cons.mp there with rfl | before
      · exact ⟨.inr ⟨start.trans block, recorded⟩, inBuf within⟩
      · exact ⟨.inl ⟨old, before, start⟩, inBuf (tiles.origin old before).2⟩
  · rw [is]
    refine tiles.snoc ⟨queued.pos, { queued.list with
        ends := fun bb mem => (queued.list.ends bb mem).trans (Nat.le_add_right _ _) }⟩
      (fun b => ?_) distinct fun bb mem => ⟨.inl ⟨bb, mem, rfl⟩, (tiles.origin bb mem).2⟩
    rw [coverage_snoc, blocks]
    split_ifs <;> omega

theorem Tiles.run (tiles : Tiles buf r.s chunks r.curBlock)
    (small : r.curBlock + blocksSum (chunksRead sum buf chunkHdrSz left r) < 2 ^ 32)
    (distinct : Distinct (chunks ++ chunksRead sum buf chunkHdrSz left r))
    (read : readChunksBuf sum buf chunkHdrSz left r = some r') :
    Tiles buf r'.s (chunks ++ chunksRead sum buf chunkHdrSz left r) r'.curBlock := by
  induction left generalizing r chunks with
  | zero =>
    cases read
    rwa [chunksRead, append_nil]
  | succ left ih =>
    obtain ⟨r1, first, rest⟩ := bind_eq_some_iff.mp read
    rw [chunksRead, first, elim_some] at small distinct ⊢
    simp only [blocksSum, map_cons, sum_cons] at small
    have apart := (pairwise_append.mp distinct).2.2
    obtain ⟨tiles1, cur⟩ := tiles.chunk (by omega)
      (fun c mem => apart c mem _ mem_cons_self) first
    rw [append_cons] at distinct ⊢
    exact ih tiles1 (by rw [cur, blocksSum]; omega) distinct rest

end Tiles

end E2fs.Sparse
