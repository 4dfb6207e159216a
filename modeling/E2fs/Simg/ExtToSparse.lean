import E2fs.Sparse.Queue

/-! `ext2simg`: the blocks of a file system that are in use go into a sparse file, those that
follow each other in one chunk. -/
namespace E2fs.Simg
open Memory Device Sparse List Nat

/- The file system that was opened and the bytes of the input. There are no clusters:
`ext2fs_open` refuses them without 64-bit bitmaps. -/
structure Source where
  blocksize : Nat
  firstDataBlock : Nat
  blocksCount : Nat
  used : Nat → Bool
  input : List UInt8

/- The chunk is `[chunkStart, chunkEnd)`, and its bytes stay in the input file. -/
def addChunk (src : Source) (s : SparseFile) (chunkStart chunkEnd : Nat) : SparseFile :=
  let nbBlk := (2 ^ 32 + chunkEnd - chunkStart) % 2 ^ 32
  let len := nbBlk * src.blocksize % 2 ^ 32
  let offset := chunkStart * src.blocksize
  queueBb s ⟨chunkStart, len, .fd offset⟩

def maxBlkPerChunk (src : Source) : Nat := (2 ^ 31 - 1 - 12) / src.blocksize

/- One round of the loop over the blocks. Without a chunk that is open, `chunk_start` is −1. -/
def scanBlock (src : Source) (st : Option Nat × SparseFile) (curBlk : Nat) :
    Option Nat × SparseFile :=
  match st with
  | (none, s) => (if src.used curBlk then some curBlk else none, s)
  | (some chunkStart, s) =>
    if src.used curBlk then
      if curBlk - chunkStart + 1 = maxBlkPerChunk src then (none, addChunk src s chunkStart curBlk)
      else (some chunkStart, s)
    else (none, addChunk src s chunkStart curBlk)

def firstBlk (src : Source) : Nat := src.firstDataBlock
def lastBlk (src : Source) : Nat := src.blocksCount - 1
def nbBlk (src : Source) : Nat := (lastBlk src - firstBlk src + 1) % 2 ^ 32

def extToSparse (src : Source) : SparseFile :=
  match (List.range' (firstBlk src) (nbBlk src)).foldl (scanBlock src)
    (none, sparseFileNew src.blocksize (src.blocksize * nbBlk src)) with
  | (none, s) => s
  | (some chunkStart, s) => addChunk src s chunkStart (lastBlk src)

/- What `ext2fs_open` lets pass. -/
structure Opened (src : Source) : Prop where
  small : 1024 ≤ src.blocksize
  large : src.blocksize ≤ 65536
  first : src.firstDataBlock < src.blocksCount
  count : src.blocksCount < 2 ^ 32

/- The chunk holds the bytes of block `b` of the input. -/
def Holds (src : Source) (bb : BackedBlock) (b : Nat) : Prop :=
  bb.block ≤ b ∧ (b + 1) * src.blocksize ≤ bb.block * src.blocksize + bb.len ∧
    ∃ bytes, bb.source src.input = some bytes ∧
      ∀ j < src.blocksize,
        bytes ((b - bb.block) * src.blocksize + j) = src.input.getD (b * src.blocksize + j) 0

def Disjoint (src : Source) (a b : BackedBlock) : Prop :=
  a.block * src.blocksize + a.len ≤ b.block * src.blocksize ∨
    b.block * src.blocksize + b.len ≤ a.block * src.blocksize

structure Kept (src : Source) (s : SparseFile) : Prop where
  held : ∀ b, src.firstDataBlock ≤ b → b < src.blocksCount → src.used b = true →
    ∃ bb ∈ s.blocks, Holds src bb b
  disjoint : s.blocks.Pairwise (Disjoint src)
  inside : ∀ bb ∈ s.blocks, bb.block * src.blocksize + bb.len ≤ s.len
  short : ∀ bb ∈ s.blocks, bb.len < 2 ^ 31

/- A run of blocks in use is shorter than the longest chunk. -/
def RunsShort (src : Source) : Prop :=
  ∀ a, src.firstDataBlock ≤ a → a + maxBlkPerChunk src ≤ src.blocksCount →
    ∃ b, a ≤ b ∧ b < a + maxBlkPerChunk src ∧ src.used b = false

section Chunks

variable {src : Source} {s : SparseFile} {n start stop : Nat}

def chunkStop (src : Source) (bb : BackedBlock) : Nat := bb.block + bb.len / src.blocksize

theorem block_le_chunkStop (src : Source) (bb : BackedBlock) : bb.block ≤ chunkStop src bb :=
  Nat.le_add_right _ _

theorem Opened.two_le_max (opened : Opened src) : 2 ≤ maxBlkPerChunk src := by
  rw [maxBlkPerChunk, Nat.le_div_iff_mul_le (by have := opened.small; omega)]
  have := opened.large
  omega

theorem mul_lt_of_lt_max {k : Nat} (lt : k < maxBlkPerChunk src) : k * src.blocksize < 2 ^ 31 := by
  have le := Nat.mul_le_of_le_div _ _ _ lt.le
  omega

/- A chunk ends behind a block in use. Only if the last block is in use, a chunk can be empty. -/
def Filled (src : Source) (stop : Nat) : Prop :=
  src.used (lastBlk src) = false → ∃ b, stop = b + 1 ∧ src.firstDataBlock ≤ b ∧ src.used b = true

/- The chunks so far: there is always a block between two of them, so none is merged
with another. -/
structure Cut (src : Source) (s : SparseFile) (n : Nat) : Prop where
  size : s.blockSize = src.blocksize
  len : s.len = src.blocksize * nbBlk src
  apart : s.blocks.Pairwise fun a b => chunkStop src a < b.block
  ends : ∀ bb ∈ s.blocks, chunkStop src bb < n
  whole : ∀ bb ∈ s.blocks, ∃ k < maxBlkPerChunk src, bb.len = k * src.blocksize
  bytes : ∀ bb ∈ s.blocks, bb.source src.input = some fun j =>
    src.input.getD (bb.block * src.blocksize + j) 0
  filled : ∀ bb ∈ s.blocks, Filled src (chunkStop src bb)

theorem Cut.mono {m : Nat} (cut : Cut src s n) (le : n ≤ m) : Cut src s m :=
  { cut with ends := fun bb mem => (cut.ends bb mem).trans_le le }

/- The chunk that `add_chunk` adds. -/
def chunkOf (src : Source) (start stop : Nat) : BackedBlock :=
  ⟨start, (stop - start) * src.blocksize, .fd (start * src.blocksize)⟩

theorem addChunk_eq (le : start ≤ stop) (lt : stop - start < maxBlkPerChunk src) (s : SparseFile)
    (small : stop < 2 ^ 32) : addChunk src s start stop = queueBb s (chunkOf src start stop) := by
  have count : (2 ^ 32 + stop - start) % 2 ^ 32 = stop - start := by omega
  have len : (stop - start) * src.blocksize % 2 ^ 32 = (stop - start) * src.blocksize :=
    mod_eq_of_lt (by have := mul_lt_of_lt_max lt; omega)
  rw [addChunk]
  simp only [count, len]
  rfl

theorem chunkStop_chunkOf (opened : Opened src) (le : start ≤ stop) :
    chunkStop src (chunkOf src start stop) = stop := by
  rw [chunkStop, chunkOf, Nat.mul_div_cancel _ (by have := opened.small; omega),
    Nat.add_sub_cancel' le]

theorem Cut.queue (cut : Cut src s start) (small : start < 2 ^ 32) :
    (queueBb s (chunkOf src start stop)).blocks = s.blocks ++ [chunkOf src start stop] ∧
      (queueBb s (chunkOf src start stop)).len = s.len := by
  have sorted : Sorted s.blocks := cut.apart.imp fun {a b} lt =>
    (block_le_chunkStop src a).trans lt.le
  rcases head : s.blocks with _ | ⟨first, rest⟩
  · rw [queueBb, head]
    exact ⟨rfl, rfl⟩
  obtain ⟨init, a, post, place⟩ := exists_place (head ▸ sorted) (chunkOf src start stop)
  rw [← head] at place ⊢
  have front : ∀ bb ∈ s.blocks, bb.block < start := fun bb mem =>
    (block_le_chunkStop src bb).trans_lt (cut.ends bb mem)
  have none : post = [] := eq_nil_iff_forall_not_mem.mpr fun bb mem =>
    absurd (place.behind bb mem) (Nat.not_le.mpr (front bb (by rw [place.split]; simp [mem])))
  subst none
  have mem : a ∈ s.blocks := by rw [place.split]; simp
  have single : mergeBb s.blockSize a (chunkOf src start stop) = none := by
    have end_ := cut.ends a mem
    rw [mergeBb, if_neg]
    rintro ⟨next, -⟩
    change _ = start at next
    rw [cut.size, ← chunkStop, mod_eq_of_lt (by omega)] at next
    omega
  have alone : mergeAt s.blockSize (init ++ [a, chunkOf src start stop]) (init.length + 1) =
      (init ++ [a, chunkOf src start stop], false) := by
    simpa using @mergeAt_end (init ++ [a]) (chunkOf src start stop) s.blockSize
  rw [place.queueBb sorted (front a mem).le, alone, mergeAt_two, single]
  exact ⟨by simp [place.split], rfl⟩

theorem Cut.add (opened : Opened src) (cut : Cut src s start) (le : start ≤ stop)
    (lt : stop - start < maxBlkPerChunk src) (small : stop < 2 ^ 32) (filled : Filled src stop) :
    (addChunk src s start stop).blocks = s.blocks ++ [chunkOf src start stop] ∧
      Cut src (addChunk src s start stop) (stop + 1) := by
  rw [addChunk_eq le lt s small]
  obtain ⟨blocks, len⟩ := @Cut.queue _ _ _ stop cut (by omega)
  refine ⟨blocks, (queueBb_sizes _ _).trans cut.size, len.trans cut.len, ?_, ?_, ?_, ?_, ?_⟩
  · rw [blocks]
    exact pairwise_append.mpr ⟨cut.apart, pairwise_singleton _ _,
      fun bb mem new is => by rw [mem_singleton.mp is]; exact cut.ends bb mem⟩
  all_goals
    intro bb mem
    rw [blocks, mem_append, mem_singleton] at mem
  · rcases mem with old | rfl
    · have := cut.ends bb old
      omega
    · rw [chunkStop_chunkOf opened le]
      exact lt_succ_self _
  · rcases mem with old | rfl
    · exact cut.whole bb old
    · exact ⟨_, lt, rfl⟩
  · rcases mem with old | rfl
    · exact cut.bytes bb old
    · rfl
  · rcases mem with old | rfl
    · exact cut.filled bb old
    · rwa [chunkStop_chunkOf opened le]

theorem Cut.holds_iff {bb : BackedBlock} {b : Nat} (opened : Opened src) (cut : Cut src s n)
    (mem : bb ∈ s.blocks) : Holds src bb b ↔ bb.block ≤ b ∧ b < chunkStop src bb := by
  obtain ⟨k, -, len⟩ := cut.whole bb mem
  have pos : 0 < src.blocksize := by have := opened.small; omega
  have fits : (b + 1) * src.blocksize ≤ bb.block * src.blocksize + bb.len ↔
      b < chunkStop src bb := by
    rw [chunkStop, len, Nat.mul_div_cancel _ pos, ← Nat.add_mul, Nat.mul_le_mul_right_iff pos]
    exact succ_le_iff
  rw [Holds, fits]
  refine and_congr_right fun low => and_iff_left ⟨_, cut.bytes bb mem, fun j _ => ?_⟩
  rw [← add_assoc, ← add_mul, Nat.add_sub_cancel' low]

end Chunks

section Scan

variable {src : Source} {st : Option Nat × SparseFile} {n : Nat}

/- The loop in front of block `n`. If no run is too long, each block in use is in a chunk. -/
structure Scanned (src : Source) (n : Nat) (st : Option Nat × SparseFile) : Prop where
  cut : Cut src st.2 (st.1.getD n)
  run : ∀ a ∈ st.1, src.firstDataBlock ≤ a ∧ a < n ∧ n - a < maxBlkPerChunk src ∧ ∀ b, a ≤ b →
    b < n → src.used b = true
  covered : RunsShort src → ∀ b, src.firstDataBlock ≤ b → b < st.1.getD n → src.used b = true →
    ∃ bb ∈ st.2.blocks, bb.block ≤ b ∧ b < chunkStop src bb

/- A chunk that is closed in front of block `n` holds what was open. Block `n` is not in it. -/
theorem Scanned.close {a : Nat} {s : SparseFile} (scanned : Scanned src n (some a, s))
    (opened : Opened src) (small : n < 2 ^ 32) (lost : RunsShort src → src.used n = false) :
    Scanned src (n + 1) (none, addChunk src s a n) := by
  obtain ⟨first, lt, short, all⟩ := scanned.run a rfl
  obtain ⟨blocks, cut⟩ := scanned.cut.add opened lt.le short small
    fun _ => ⟨n - 1, by omega, by omega, all _ (by omega) (by omega)⟩
  refine ⟨cut, nofun, fun runs b low high used => ?_⟩
  change ∃ bb ∈ (addChunk src s a n).blocks, _
  rw [show (addChunk src s a n).blocks = s.blocks ++ [chunkOf src a n] from blocks]
  by_cases old : b < a
  · obtain ⟨bb, mem, inside⟩ := scanned.covered runs b low old used
    exact ⟨bb, mem_append_left _ mem, inside⟩
  have other : b ≠ n := by
    rintro rfl
    rw [lost runs] at used
    cases used
  change b < n + 1 at high
  exact ⟨_, mem_append_right _ (mem_singleton_self _), Nat.not_lt.mp old,
    (chunkStop_chunkOf opened lt.le).symm ▸ by omega⟩

theorem Scanned.step (scanned : Scanned src n st) (opened : Opened src)
    (low : src.firstDataBlock ≤ n) (lt : n < src.blocksCount) :
    Scanned src (n + 1) (scanBlock src st n) := by
  have small := opened.count
  have two := opened.two_le_max
  obtain ⟨chunkStart, s⟩ := st
  cases chunkStart with
  | none =>
    rw [scanBlock]
    cases used : src.used n with
    | false =>
      refine ⟨scanned.cut.mono (le_succ n), nofun, fun runs b first high is => ?_⟩
      have other : b ≠ n := by
        rintro rfl
        rw [used] at is
        cases is
      change b < n + 1 at high
      have front : b < n := by omega
      exact scanned.covered runs b first front is
    | true =>
      refine ⟨scanned.cut, ?_, scanned.covered⟩
      rintro a ⟨⟩
      refine ⟨low, lt_succ_self n, by omega, fun b first high => ?_⟩
      rwa [show b = n by omega]
  | some a =>
    obtain ⟨first, before, short, all⟩ := scanned.run a rfl
    cases used : src.used n with
    | false =>
      simpa [scanBlock, used] using scanned.close opened (by omega) fun _ => used
    | true =>
      have all' : ∀ b, a ≤ b → b < n + 1 → src.used b = true := fun b from_ high => by
        rcases Nat.lt_succ_iff_lt_or_eq.mp high with old | rfl
        · exact all b from_ old
        · exact used
      by_cases full : n - a + 1 = maxBlkPerChunk src
      · -- The run is as long as a chunk can be, and its last block is left out.
        have long : ¬ RunsShort src := fun runs => by
          obtain ⟨b, from_, high, free⟩ := runs a first (by omega)
          rw [all' b from_ (by omega)] at free
          cases free
        simpa [scanBlock, used, full] using
          scanned.close opened (by omega) fun runs => absurd runs long
      · have same : scanBlock src (some a, s) n = (some a, s) := by simp [scanBlock, used, full]
        rw [same]
        refine ⟨scanned.cut, ?_, scanned.covered⟩
        rintro _ ⟨⟩
        exact ⟨first, by omega, by omega, all'⟩

theorem Scanned.steps (scanned : Scanned src n st) (opened : Opened src)
    (low : src.firstDataBlock ≤ n) (k : Nat) (le : n + k ≤ src.blocksCount) :
    Scanned src (n + k) ((List.range' n k).foldl (scanBlock src) st) := by
  induction k generalizing n st with
  | zero => exact scanned
  | succ k ih =>
    have rest := ih (scanned.step opened low (by omega)) (by omega) (by omega)
    rwa [range'_succ, foldl_cons, show n + (k + 1) = n + 1 + k by omega]

theorem scanned_start :
    Scanned src src.firstDataBlock (none, sparseFileNew src.blocksize (src.blocksize * nbBlk src))
      where
  cut := {
    size := rfl
    len := rfl
    apart := .nil
    ends := forall_mem_nil _
    whole := forall_mem_nil _
    bytes := forall_mem_nil _
    filled := forall_mem_nil _ }
  run := nofun
  covered := fun _ _ low high => absurd high (Nat.not_lt.mpr low)

theorem nbBlk_eq (opened : Opened src) : src.firstDataBlock + nbBlk src = src.blocksCount := by
  obtain ⟨-, -, first, count⟩ := opened
  rw [nbBlk, lastBlk, firstBlk, mod_eq_of_lt (by omega)]
  omega

/- What comes out: chunks that are apart from each other and in front of the last block. -/
theorem extToSparse_spec (opened : Opened src) : Cut src (extToSparse src) src.blocksCount ∧
    (RunsShort src → src.used (lastBlk src) = false →
      ∀ b, src.firstDataBlock ≤ b → b < src.blocksCount → src.used b = true →
        ∃ bb ∈ (extToSparse src).blocks, bb.block ≤ b ∧ b < chunkStop src bb) := by
  have total := nbBlk_eq opened
  have scanned := scanned_start.steps opened (le_refl _) (nbBlk src) total.le
  rw [total] at scanned
  rw [extToSparse, firstBlk]
  generalize (List.range' src.firstDataBlock (nbBlk src)).foldl (scanBlock src) _ = st at scanned ⊢
  obtain ⟨_ | a, s⟩ := st
  · exact ⟨scanned.cut, fun runs _ => scanned.covered runs⟩
  obtain ⟨-, lt, short, all⟩ := scanned.run a rfl
  have last : lastBlk src + 1 = src.blocksCount := by
    rw [lastBlk]
    omega
  have count := opened.count
  have le : a ≤ lastBlk src := by omega
  have used : ¬ src.used (lastBlk src) = false := by simp [all (lastBlk src) le (by omega)]
  obtain ⟨-, cut⟩ := scanned.cut.add opened le (by change _ - a < _; omega) (by omega)
    fun free => absurd free used
  rw [last] at cut
  exact ⟨cut, fun _ free => absurd free used⟩

end Scan

section Result

variable {src : Source} {s : SparseFile}

/- A chunk is shorter than the run, and the block behind the chunk is in no other. -/
theorem Cut.runsShort {n : Nat} (cut : Cut src s n) (opened : Opened src)
    (held : ∀ b, src.firstDataBlock ≤ b → b < src.blocksCount → src.used b = true → ∃ bb ∈ s.blocks,
      Holds src bb b) :
    RunsShort src := by
  intro a first inside
  by_contra full
  have two := opened.two_le_max
  have used : ∀ b, a ≤ b → b < a + maxBlkPerChunk src → src.used b = true := fun b low high => by
    by_contra free
    exact full ⟨b, low, high, by simpa using free⟩
  obtain ⟨bb, mem, holds⟩ := held a first (by omega) (used a (le_refl _) (by omega))
  obtain ⟨low, high⟩ := (cut.holds_iff opened mem).mp holds
  obtain ⟨k, short, len⟩ := cut.whole bb mem
  have stop : chunkStop src bb = bb.block + k := by
    rw [chunkStop, len, Nat.mul_div_cancel _ (by have := opened.small; omega)]
  obtain ⟨bb', mem', holds'⟩ :=
    held (chunkStop src bb) (by omega) (by omega) (used _ high.le (by omega))
  obtain ⟨low', high'⟩ := (cut.holds_iff opened mem').mp holds'
  rcases eq_or_ne bb bb' with rfl | other
  · omega
  have either : chunkStop src bb < bb'.block ∨ chunkStop src bb' < bb.block := by
    have symmetric : Std.Symm fun a b : BackedBlock => chunkStop src a < b.block ∨
        chunkStop src b < a.block :=
      ⟨fun _ _ => Or.symm⟩
    have apart := cut.apart.imp fun {a b} lt =>
      (Or.inl lt : chunkStop src a < b.block ∨ chunkStop src b < a.block)
    exact apart.forall mem mem' other
  omega

/-- Each block in use is in the sparse file, in chunks that do not meet and are inside its length,
if and only if the last block is free, no run of blocks is as long as a chunk can be, and no block
in use is in the last `s_first_data_block` blocks. -/
theorem ext2simg_keeps_used_blocks (opened : Opened src) : Kept src (extToSparse src) ↔
    src.used (src.blocksCount - 1) = false ∧ RunsShort src ∧
      ∀ b, src.firstDataBlock ≤ b → b < src.blocksCount → src.used b = true →
        b + src.firstDataBlock < src.blocksCount := by
  obtain ⟨cut, covered⟩ := extToSparse_spec opened
  generalize extToSparse src = s at cut covered
  have pos : 0 < src.blocksize := by have := opened.small; omega
  have total := nbBlk_eq opened
  have first := opened.first
  have end_ : ∀ bb ∈ s.blocks,
      bb.block * src.blocksize + bb.len = chunkStop src bb * src.blocksize := fun bb mem => by
    obtain ⟨k, -, len⟩ := cut.whole bb mem
    rw [chunkStop, len, Nat.mul_div_cancel _ pos, Nat.add_mul]
  have inside : ∀ bb ∈ s.blocks, bb.block * src.blocksize + bb.len ≤ s.len ↔
      chunkStop src bb ≤ nbBlk src := fun bb mem => by
    rw [end_ bb mem, cut.len, mul_comm src.blocksize, Nat.mul_le_mul_right_iff pos]
  constructor
  · intro kept
    refine ⟨?_, cut.runsShort opened kept.held, fun b low high used => ?_⟩
    · by_contra used
      obtain ⟨bb, mem, holds⟩ :=
        kept.held (src.blocksCount - 1) (by omega) (by omega) (by simpa using used)
      have := ((cut.holds_iff opened mem).mp holds).2
      have := cut.ends bb mem
      omega
    · obtain ⟨bb, mem, holds⟩ := kept.held b low high used
      have := ((cut.holds_iff opened mem).mp holds).2
      have := (inside bb mem).mp (kept.inside bb mem)
      omega
  · rintro ⟨free, runs, low⟩
    refine ⟨?_, ?_, fun bb mem => ?_, fun bb mem => ?_⟩
    · intro b first high used
      obtain ⟨bb, mem, at_⟩ := covered runs free b first high used
      exact ⟨bb, mem, (cut.holds_iff opened mem).mpr at_⟩
    · refine cut.apart.imp_of_mem fun {a b} mem _ lt => .inl ?_
      rw [end_ a mem]
      exact Nat.mul_le_mul_right _ lt.le
    · obtain ⟨b, stop, above, used⟩ := cut.filled bb mem free
      have := low b above (by have := cut.ends bb mem; omega) used
      exact (inside bb mem).mpr (by omega)
    · obtain ⟨k, lt, len⟩ := cut.whole bb mem
      exact len ▸ mul_lt_of_lt_max lt

/- Blocks 1 and 2 of four, in blocks of 1 KiB. -/
def sampleSource : Source := ⟨1024, 1, 5, fun b => b = 1 || b = 2, List.replicate 5120 7⟩

theorem sample_blocks_kept : Kept sampleSource (extToSparse sampleSource) :=
  (ext2simg_keeps_used_blocks ⟨by decide, by decide, by decide, by decide⟩).mpr
    ⟨by decide, fun a _ inside =>
      absurd inside (by change ¬ a + 2147483635 / 1024 ≤ 5; omega), by decide +kernel⟩

/- 64 blocks, the last of them in use. The chunk that is open at the end is closed in front
of it. -/
def lastUsed : Source := ⟨1024, 1, 64, fun b => b ≤ 20 || b = 63, List.replicate 65536 7⟩

theorem last_block_lost : Opened lastUsed ∧ lastUsed.used 63 = true ∧
    (∀ bb ∈ (extToSparse lastUsed).blocks, ¬ Holds lastUsed bb 63) ∧
      ¬ Kept lastUsed (extToSparse lastUsed) := by
  have lost : ∀ bb ∈ [chunkOf lastUsed 1 21, chunkOf lastUsed 63 63], ¬ Holds lastUsed bb 63 := by
    intro bb mem holds
    rcases mem_cons.mp mem with rfl | mem
    · exact absurd holds.2.1 (by decide)
    · rw [mem_singleton.mp mem] at holds
      exact absurd holds.2.1 (by decide)
  refine ⟨⟨by decide, by decide, by decide, by decide⟩, rfl, lost, fun kept => ?_⟩
  obtain ⟨bb, mem, holds⟩ := kept.held 63 (by decide) (by decide) rfl
  exact lost bb mem holds

end Result

end E2fs.Simg
