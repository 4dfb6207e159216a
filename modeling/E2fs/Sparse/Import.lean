import E2fs.Sparse.Queue
import E2fs.Sparse.Plain

/-! What a sparse file describes, and what the channel holds after the import. The chunks become
backed blocks in the order of the file; their bytes are laid over an empty image. -/
namespace E2fs.Sparse
open Memory Device Word List Option

variable {blockSize n : Nat}

section Format

/- A chunk stands for a number of blocks: bytes of the file from an offset on, a value of four
bytes over and over, or nothing. -/
inductive Chunk where
  | raw (offset blocks : Nat)
  | fill (val blocks : Nat)
  | dontCare (blocks : Nat)
  deriving DecidableEq, Repr

def Chunk.size : Chunk → Nat
  | .raw _ blocks => blocks
  | .fill _ blocks => blocks
  | .dontCare blocks => blocks

def Chunk.byte (file : List UInt8) : Chunk → Nat → UInt8
  | .raw offset _, q => file.getD (offset + q) 0
  | .fill val _, q => (toBytes 4 val).getD (q % 4) 0
  | .dontCare _, _ => 0

def image (file : List UInt8) (blockSize : Nat) : List Chunk → Content
  | [] => zeros
  | c :: rest => fun q =>
    if q < c.size * blockSize then c.byte file q
      else image file blockSize rest (q - c.size * blockSize)

def totalSize (chunks : List Chunk) : Nat := (chunks.map Chunk.size).sum

/- The chunks from a position on, if they are of the three types that stand for blocks. -/
def decodeChunks (file : List UInt8) (chunkHdrSz blockSize : Nat) : Nat → Nat → Option (List Chunk)
  | 0, _ => some []
  | left + 1, pos =>
    let hdr := (file.drop pos).take 12
    let data := pos + chunkHdrSz
    let blocks := field hdr 4 4
    if field hdr 0 2 = chunkRaw then
      (decodeChunks file chunkHdrSz blockSize left (data + blocks * blockSize)).map
        (.raw data blocks :: ·)
    else if field hdr 0 2 = chunkFill then
      (decodeChunks file chunkHdrSz blockSize left (data + 4)).map
        (.fill (ofBytes ((file.drop data).take 4)) blocks :: ·)
    else if field hdr 0 2 = chunkDontCare then
      (decodeChunks file chunkHdrSz blockSize left data).map (.dontCare blocks :: ·)
    else none

def fileBlockSize (file : List UInt8) : Nat := field (file.take 28) 12 4

def decode (file : List UInt8) : Option (List Chunk) :=
  decodeChunks file (field (file.take 28) 10 2) (fileBlockSize file) (field (file.take 28) 20 4)
    (field (file.take 28) 8 2)

/- What is lost of a chunk: a value that is not zero. -/
def Chunk.Kept : Chunk → Prop
  | .fill val blocks => blocks = 0 ∨ val % 2 ^ 32 = 0
  | _ => True

instance (c : Chunk) : Decidable c.Kept :=
  match c with
  | .fill val blocks => inferInstanceAs (Decidable (blocks = 0 ∨ val % 2 ^ 32 = 0))
  | .raw _ _ => .isTrue trivial
  | .dontCare _ => .isTrue trivial

def Chunk.unfilled : Chunk → Chunk
  | .fill _ blocks => .dontCare blocks
  | c => c

theorem Chunk.size_unfilled (c : Chunk) : c.unfilled.size = c.size := by
  cases c <;> rfl

theorem ofBytes_eq_zero_iff (l : List UInt8) : ofBytes l = 0 ↔ ∀ j < l.length, l.getD j 0 = 0 := by
  induction l with
  | nil => simp [ofBytes]
  | cons b l ih =>
    have byte : b.toNat = 0 ↔ b = 0 := by rw [← UInt8.toNat_inj]; rfl
    rw [ofBytes, Nat.add_eq_zero_iff, byte, mul_eq_zero, or_iff_right (by decide), ih]
    constructor
    · rintro ⟨head, tail⟩ j lt
      cases j with
      | zero => exact head
      | succ j => exact tail j (Nat.lt_of_succ_lt_succ lt)
    · intro all
      exact ⟨all 0 (Nat.succ_pos _), fun j lt => all (j + 1) (Nat.succ_lt_succ lt)⟩

theorem toBytes_zero_iff (w n : Nat) : (∀ j < w, (toBytes w n).getD j 0 = 0) ↔ n % 256 ^ w = 0 := by
  rw [← ofBytes_toBytes, ofBytes_eq_zero_iff, length_toBytes]

theorem Chunk.byte_unfilled_iff (file : List UInt8) (four : 4 ≤ blockSize) (c : Chunk) :
    (∀ q < c.size * blockSize, c.unfilled.byte file q = c.byte file q) ↔ c.Kept := by
  cases c with
  | raw offset blocks | dontCare blocks => exact iff_of_true (fun _ _ => rfl) trivial
  | fill val blocks =>
    show (∀ q < blocks * blockSize, 0 = (toBytes 4 val).getD (q % 4) 0) ↔
      blocks = 0 ∨ val % 2 ^ 32 = 0
    rw [show (2 : Nat) ^ 32 = 256 ^ 4 from rfl, ← toBytes_zero_iff]
    constructor
    · intro all
      rcases eq_zero_or_pos blocks with none | some
      · exact .inl none
      · refine .inr fun j lt => ?_
        have long : blockSize ≤ blocks * blockSize := Nat.le_mul_of_pos_left _ some
        have := all j (by omega)
        rwa [Nat.mod_eq_of_lt lt, eq_comm] at this
    · rintro (rfl | zero) q lt
      · omega
      · exact (zero _ (Nat.mod_lt q (by decide))).symm

/- The image without the values is the image if and only if no value is lost. -/
theorem image_unfilled_iff (file : List UInt8) (four : 4 ≤ blockSize) (chunks : List Chunk) :
    image file blockSize (chunks.map Chunk.unfilled) = image file blockSize chunks ↔
    ∀ c ∈ chunks, c.Kept := by
  induction chunks with
  | nil => exact iff_of_true rfl (by simp)
  | cons c rest ih =>
    rw [forall_mem_cons, ← ih, ← c.byte_unfilled_iff file four]
    simp only [map_cons, image, Chunk.size_unfilled]
    constructor
    · intro same
      constructor
      · intro q lt
        simpa [lt] using congrFun same q
      · funext q
        simpa using congrFun same (q + c.size * blockSize)
    · rintro ⟨own, more⟩
      funext q
      by_cases lt : q < c.size * blockSize
      · rw [if_pos lt, if_pos lt, own q lt]
      · rw [if_neg lt, if_neg lt, more]

end Format

section Chunks

def addChunk (s : SparseFile) (cur : Nat) : Chunk → SparseFile
  | .raw offset blocks => queueBb s ⟨cur, blocks * s.blockSize, .fd offset⟩
  | .fill val blocks => queueBb s ⟨cur, blocks * s.blockSize, .fill val⟩
  | .dontCare _ => s

def addAll : SparseFile → Nat → List Chunk → SparseFile
  | s, _, [] => s
  | s, cur, c :: rest => addAll (addChunk s cur c) (cur + c.size) rest

def Apart (blockSize : Nat) : Nat → List Chunk → Prop
  | _, [] => True
  | p, .raw offset blocks :: rest => p < offset ∧ Apart blockSize (offset + blocks * blockSize) rest
  | p, _ :: rest => Apart blockSize p rest

/- Bytes that can be mapped and addressed with an `int`. -/
def Chunk.Addressed (blockSize : Nat) : Chunk → Prop
  | .raw _ blocks => 0 < blocks ∧ blocks * blockSize ≤ 2 ^ 31
  | _ => True

def Importable (bb : BackedBlock) : Prop :=
  match bb.backing with
  | .data _ => False
  | .fd _ => 0 < bb.len ∧ bb.len ≤ 2 ^ 31
  | .fill _ => True

/- `P` holds for the block that the chunk becomes. -/
def Chunk.Meets (P : BackedBlock → Prop) (blockSize : Nat) : Chunk → Prop
  | .raw offset blocks => ∀ cur, P ⟨cur, blocks * blockSize, .fd offset⟩
  | .fill val blocks => ∀ cur, P ⟨cur, blocks * blockSize, .fill val⟩
  | .dontCare _ => True

theorem importable_grown (old bb : BackedBlock) (grown : Grown old bb)
    (importable : Importable old) : Importable bb := by
  rcases grown with rfl | ⟨⟨val, is⟩, k, rfl⟩
  · exact importable
  · rw [Importable, is]
    trivial

variable {file : List UInt8} {s : SparseFile} {cur p q : Nat} {c : Chunk} {chunks : List Chunk}
  {P : BackedBlock → Prop} {strict : Prop}

variable {blockSize : Nat} {so_far : Content}

theorem Chunk.Addressed.meets (addressed : c.Addressed blockSize) (pos : 0 < blockSize) :
    c.Meets Importable blockSize := by
  cases c with
  | raw offset blocks => exact fun _ => ⟨mul_pos addressed.1 pos, addressed.2⟩
  | fill val blocks => exact fun _ => trivial
  | dontCare blocks => trivial

theorem Queued.mono (queued : Queued strict s cur p) {cur' : Nat} (le : cur ≤ cur') :
    Queued strict s cur' p where
  pos := queued.pos
  list := { queued.list with ends := fun bb mem => (queued.list.ends bb mem).trans le }

/- The chunks so far are in the list, and nothing is there behind them; `P` is what is known of
a block. -/
structure Filled (strict : Prop) (P : BackedBlock → Prop) (file : List UInt8) (s : SparseFile)
    (cur p : Nat) (so_far : Content) : Prop where
  queued : Queued strict s cur p
  bytes : laid file s.blockSize s.blocks = so_far
  empty : ∀ q, cur * s.blockSize ≤ q → so_far q = 0
  all : ∀ bb ∈ s.blocks, P bb

def extend (file : List UInt8) (blockSize cur : Nat) (so_far : Content) (c : Chunk) : Content :=
  patch so_far (cur * blockSize) (c.size * blockSize) (c.unfilled.byte file)

theorem extend_empty (empty : ∀ q, cur * blockSize ≤ q → so_far q = 0)
    (zero : ∀ q, c.unfilled.byte file q = 0) : extend file blockSize cur so_far c = so_far :=
  patch_zeros empty zero

theorem extend_behind (empty : ∀ q, cur * blockSize ≤ q → so_far q = 0)
    (far : (cur + c.size) * blockSize ≤ q) : extend file blockSize cur so_far c q = 0 := by
  rw [add_mul] at far
  rw [extend, patch_apart (.inr far)]
  exact empty q (by omega)

theorem onto_extend (c : Chunk) (rest : List Chunk) :
    onto (extend file blockSize cur so_far c) ((cur + c.size) * blockSize)
      (image file blockSize (rest.map Chunk.unfilled)) =
    onto so_far (cur * blockSize) (image file blockSize ((c :: rest).map Chunk.unfilled)) := by
  rw [map_cons, image, c.size_unfilled, onto_piece, ← add_mul]
  rfl

section

variable (grows : ∀ old bb, Grown old bb → P old → P bb)
  (lively : strict → ∀ bb, P bb → 0 < bb.len)
include grows lively

theorem Filled.add (filled : Filled strict P file s cur p so_far) (c : Chunk) (new : BackedBlock)
    (p' : Nat) (block : new.block = cur) (len : new.len = c.size * s.blockSize) (le : p ≤ p')
    (fd : ∀ offset, new.backing = .fd offset → p < offset ∧ offset + new.len ≤ p')
    (bytes : lay file s.blockSize so_far new = extend file s.blockSize cur so_far c)
    (own : P new) (small : cur + c.size < 2 ^ 32) :
    Filled strict P file (queueBb s new) (cur + c.size) p' (extend file s.blockSize cur so_far c) ∧
      (queueBb s new).blockSize = s.blockSize ∧ (queueBb s new).len = s.len := by
  have queued := filled.queued
  have blocks : new.len / s.blockSize = c.size := by rw [len, Nat.mul_div_cancel _ queued.pos]
  have front : strict → ∀ bb ∈ s.blocks, bb.block < cur := fun strict bb mem => by
    have some_ := lively strict bb (filled.all bb mem)
    have := Nat.div_pos (Nat.le_of_dvd some_ (queued.list.whole bb mem)) queued.pos
    have := queued.list.ends bb mem
    omega
  have added := @Queued.add _ file _ _ _ _ _ queued
    ⟨block, by rwa [blocks], ⟨c.size, by rw [len, mul_comm]⟩, le, fd, front⟩
  refine ⟨⟨blocks ▸ added.queued, ?_, ?_, ?_⟩, added.blockSize, added.len⟩
  · rw [added.blockSize, added.bytes, filled.bytes, bytes]
  · intro q far
    rw [added.blockSize] at far
    exact extend_behind filled.empty far
  · intro bb mem
    obtain ⟨old, there, grown⟩ := added.origin bb mem
    exact grows old bb grown ((mem_cons.mp there).elim (· ▸ own) (filled.all old))

theorem Filled.addChunk {rest : List Chunk} (filled : Filled strict P file s cur p so_far)
    (apart : Apart s.blockSize p (c :: rest)) (meets : c.Meets P s.blockSize)
    (small : cur + c.size < 2 ^ 32) :
    ∃ p', Filled strict P file (addChunk s cur c) (cur + c.size) p'
        (extend file s.blockSize cur so_far c) ∧ Apart s.blockSize p' rest ∧
      (Sparse.addChunk s cur c).blockSize = s.blockSize ∧
      (Sparse.addChunk s cur c).len = s.len := by
  cases c with
  | raw offset blocks =>
    obtain ⟨before, more⟩ := apart
    obtain ⟨next, same⟩ := filled.add grows lively (.raw offset blocks)
      ⟨cur, blocks * s.blockSize, .fd offset⟩ (offset + blocks * s.blockSize) rfl rfl (by omega)
      (fun _ is => by cases is; exact ⟨before, le_refl _⟩) rfl (meets cur) small
    exact ⟨_, next, more, same⟩
  | fill val blocks =>
    have nothing : lay file s.blockSize so_far ⟨cur, blocks * s.blockSize, .fill val⟩ =
        extend file s.blockSize cur so_far (.fill val blocks) :=
      Eq.trans (lay_fill rfl _ _) (extend_empty filled.empty fun _ => rfl).symm
    obtain ⟨next, same⟩ := filled.add grows lively (.fill val blocks)
      ⟨cur, blocks * s.blockSize, .fill val⟩ p rfl rfl (le_refl p) nofun nothing (meets cur) small
    exact ⟨p, next, apart, same⟩
  | dontCare blocks =>
    refine ⟨p, ?_, apart, rfl, rfl⟩
    rw [extend_empty filled.empty fun _ => rfl]
    exact ⟨filled.queued.mono (Nat.le_add_right _ _), filled.bytes, fun q far =>
      filled.empty q ((Nat.mul_le_mul_right _ (Nat.le_add_right _ _)).trans far), filled.all⟩

theorem Filled.addAll (filled : Filled strict P file s cur p so_far)
    (apart : Apart s.blockSize p chunks) (meets : ∀ c ∈ chunks, c.Meets P s.blockSize)
    (small : cur + totalSize chunks < 2 ^ 32) :
    ∃ p', Filled strict P file (addAll s cur chunks) (cur + totalSize chunks) p'
        (onto so_far (cur * s.blockSize) (image file s.blockSize (chunks.map Chunk.unfilled))) ∧
      (Sparse.addAll s cur chunks).blockSize = s.blockSize ∧
      (Sparse.addAll s cur chunks).len = s.len := by
  induction chunks generalizing s cur p so_far with
  | nil =>
    refine ⟨p, ?_, rfl, rfl⟩
    rw [map_nil, image, onto_zeros filled.empty]
    exact filled
  | cons c rest ih =>
    rw [forall_mem_cons] at meets
    have sum : totalSize (c :: rest) = c.size + totalSize rest := rfl
    rw [sum, ← add_assoc] at small ⊢
    obtain ⟨p1, filled1, apart1, size, len⟩ :=
      filled.addChunk grows lively apart meets.1 (by omega)
    rw [← size] at apart1 meets
    obtain ⟨p', filled', size', len'⟩ := ih filled1 apart1 meets.2 small
    rw [size, onto_extend] at filled'
    exact ⟨p', filled', size'.trans size, len'.trans len⟩

theorem addAll_new {len : Nat} (pos : 0 < blockSize) (apart : Apart blockSize 0 chunks)
    (meets : ∀ c ∈ chunks, c.Meets P blockSize) (small : totalSize chunks < 2 ^ 32) :
    (∃ p, Filled strict P file (addAll (sparseFileNew blockSize len) 0 chunks) (totalSize chunks) p
        (image file blockSize (chunks.map Chunk.unfilled))) ∧
      (addAll (sparseFileNew blockSize len) 0 chunks).blockSize = blockSize ∧
      (addAll (sparseFileNew blockSize len) 0 chunks).len = len := by
  have start : Filled strict P file (sparseFileNew blockSize len) 0 0 zeros :=
    ⟨sparseFileNew_queued strict pos len, rfl, fun _ _ => rfl, nofun⟩
  obtain ⟨p, filled, size, same⟩ := start.addAll grows lively apart meets (by rwa [zero_add])
  rw [Nat.zero_mul, onto_zero, zero_add] at filled
  exact ⟨⟨p, filled⟩, size, same⟩

end

end Chunks

section Opened

variable {file : List UInt8} {s : SparseFile} {cur p blockSize : Nat} {l : List BackedBlock}
  {bb : BackedBlock} {strict : Prop}

theorem divRoundUp_of_dvd (pos : 0 < blockSize) (dvd : blockSize ∣ n) :
    divRoundUp n blockSize = n / blockSize := by
  obtain ⟨k, rfl⟩ := dvd
  rw [divRoundUp, Nat.mul_div_cancel_left k pos]
  exact Nat.div_eq_of_lt_le (by rw [mul_comm]; omega) (by rw [Nat.add_one_mul, mul_comm k]; omega)

theorem align_of_dvd (pos : 0 < blockSize) (dvd : blockSize ∣ n) : align n blockSize = n := by
  rw [align, divRoundUp_of_dvd pos dvd, Nat.mul_div_cancel' dvd]

/- The blocks are counted from where the last one ended, some of them twice if a block starts
in front of that. -/
theorem lenBlocks_eq (pos : 0 < blockSize) (last : Nat) (small : cur < 2 ^ 32) (le : last ≤ cur)
    (ends : ∀ bb ∈ l, bb.block + bb.len / blockSize ≤ cur) (whole : ∀ bb ∈ l, blockSize ∣ bb.len) :
    ∃ twice, last * blockSize + (lenBlocks blockSize last l).1 =
        ((lenBlocks blockSize last l).2 + twice) * blockSize ∧
      (lenBlocks blockSize last l).2 ≤ cur ∧ ((∀ bb ∈ l, last ≤ bb.block) →
        l.Pairwise (fun a b => a.block + a.len / blockSize ≤ b.block) → twice = 0) := by
  induction l generalizing last with
  | nil => exact ⟨0, rfl, le, fun _ _ => rfl⟩
  | cons bb rest ih =>
    rw [forall_mem_cons] at ends whole
    have end_ : endBlock blockSize bb = bb.block + bb.len / blockSize := by
      rw [endBlock, divRoundUp_of_dvd pos whole.1, Nat.mod_eq_of_lt (ends.1.trans_lt small)]
    have own : normalLen blockSize bb = bb.len := by
      rw [normalLen]
      cases bb.backing <;> simp only [align_of_dvd pos whole.1]
    obtain ⟨twice, sum, bound, once⟩ := ih (bb.block + bb.len / blockSize) ends.1 ends.2 whole.2
    simp only [lenBlocks, end_, own]
    refine ⟨twice + (last - bb.block), ?_, bound, fun behind chain => ?_⟩
    · have skip : last * blockSize + (bb.block - last) * blockSize =
          bb.block * blockSize + (last - bb.block) * blockSize := by
        rw [← Nat.add_mul, ← Nat.add_mul]
        congr 1
        omega
      rw [← add_assoc _ twice, Nat.add_mul _ (last - bb.block), ← sum, Nat.add_mul,
        Nat.div_mul_cancel whole.1]
      omega
    · rw [forall_mem_cons] at behind
      rw [pairwise_cons] at chain
      rw [once chain.1 chain.2, Nat.sub_eq_zero_of_le behind.1]

theorem Queued.sparseFileLen (queued : Queued strict s cur p) (small : cur < 2 ^ 32)
    (len : s.len = cur * s.blockSize) :
    ∃ m, sparseFileLen s = some (m * s.blockSize) ∧ cur ≤ m ∧ (strict → m = cur) := by
  obtain ⟨twice, sum, bound, once⟩ := lenBlocks_eq queued.pos 0 small (Nat.zero_le _)
    queued.list.ends queued.list.whole
  have le := Nat.mul_le_mul_right s.blockSize bound
  refine ⟨cur + twice, ?_, Nat.le_add_right _ _, fun strict => ?_⟩
  · rw [Sparse.sparseFileLen, len, if_neg (by omega)]
    congr 1
    rw [Nat.zero_mul, zero_add] at sum
    rw [sum, Nat.add_mul, Nat.add_mul]
    omega
  · rw [once (fun _ _ => Nat.zero_le _) ((queued.list.chain strict).imp And.right), add_zero]

def InFile (file : List UInt8) (bb : BackedBlock) : Prop :=
  ∀ offset, bb.backing = .fd offset → offset + bb.len ≤ file.length

/- The channel of an import: its blocks are image blocks. -/
structure Importing (ch : Channel) (blockSize cur : Nat) : Prop where
  channel : ch.blockSize = blockSize
  image : ch.sm.blockSize = blockSize
  count : ch.sm.blocksCount = cur

variable {ch : Channel}

theorem Importing.fits (importing : Importing ch blockSize cur) (pos : 0 < blockSize) : Fits ch :=
  ⟨importing.channel ▸ pos, by rw [importing.channel, importing.image], importing.image ▸ pos⟩

theorem length_chunkHeader (chunkType chunkSz totalSz : Nat) :
    (chunkHeader chunkType chunkSz totalSz).length = 12 := by
  simp [chunkHeader]

theorem writeSparseDataChunk_whole (pos : 0 < blockSize) (k : Nat) (data : Content) :
    writeSparseDataChunk blockSize (k * blockSize) data =
      [ofList (chunkHeader chunkRaw k (12 + k * blockSize)), ⟨k * blockSize, data⟩] := by
  have none : zeroSpans 0 = [] := rfl
  simp only [writeSparseDataChunk, align_of_dvd pos (Nat.dvd_mul_left _ _),
    Nat.mul_div_cancel k pos, Nat.sub_self, none]

theorem last_block {k : Nat} (pos : 0 < blockSize) (positive : 0 < k) :
    (k * blockSize - 1) / blockSize + 1 = k := by
  obtain ⟨m, rfl⟩ := Nat.exists_eq_add_one.mpr positive
  rw [Nat.add_one_mul, Nat.add_sub_assoc pos, mul_comm, Nat.mul_add_div pos,
    Nat.div_eq_of_lt (by omega), add_zero]

theorem nrBlocks_eq {k : Nat} (big : 1024 ≤ blockSize) (positive : 0 < k)
    (short : k * blockSize ≤ 2 ^ 31) :
    ((k * blockSize + 2 ^ 64 - 1) % 2 ^ 64 / blockSize + 1) % 2 ^ 32 = k := by
  have atLeast := Nat.mul_le_mul_left k big
  have less : k * blockSize - 1 < 2 ^ 64 := by omega
  have wrapped : (k * blockSize + 2 ^ 64 - 1) % 2 ^ 64 = k * blockSize - 1 := by
    rw [show k * blockSize + 2 ^ 64 - 1 = k * blockSize - 1 + 2 ^ 64 by omega, Nat.add_mod_right,
      Nat.mod_eq_of_lt less]
  rw [wrapped, last_block (by omega) positive, Nat.mod_eq_of_lt (by omega)]

section

variable (importing : Importing ch blockSize cur) (big : 1024 ≤ blockSize)
include importing big

theorem sparseImportSegment_short (span : Span) (pos : 0 < span.len) (short : span.len < 1024)
    (block nrBlocks : Nat) : sparseImportSegment ch span block nrBlocks = ch := by
  rw [sparseImportSegment, importing.image, Nat.mod_eq_of_lt (by omega)]
  exact if_pos (.inr pos.ne')

theorem sparseImportSegment_header (chunkType chunkSz totalSz block nrBlocks : Nat) :
    sparseImportSegment ch (ofList (chunkHeader chunkType chunkSz totalSz)) block nrBlocks =
      ch := by
  have len : (ofList (chunkHeader chunkType chunkSz totalSz)).len = 12 := length_chunkHeader _ _ _
  exact sparseImportSegment_short importing big _ (by omega) (by omega) block nrBlocks

theorem sparseImportSegment_data {k block : Nat} (bytes : Nat → UInt8) (positive : 0 < k)
    (short : k * blockSize ≤ 2 ^ 31) (inside : block + k ≤ cur) :
    Importing (sparseImportSegment ch ⟨k * blockSize, bytes⟩ block k) blockSize cur ∧
      content (sparseImportSegment ch ⟨k * blockSize, bytes⟩ block k).sm =
        patch (content ch.sm) (block * blockSize) (k * blockSize) bytes := by
  have fits := importing.fits (by omega)
  have int : toInt32 k = k := by
    have := Nat.mul_le_mul_left k big
    exact toInt32_eq (by omega)
  have written : sparseImportSegment ch ⟨k * blockSize, bytes⟩ block k =
      step ch (.write block k fun q => bytes q.toNat) := by
    rw [sparseImportSegment, importing.image, Nat.mul_mod_left, int]
    exact if_neg (by omega)
  have harmless : Harmless ch (.write block k fun q => bytes q.toNat) :=
    harmless_write (by rw [importing.count]; exact inside) (by rw [importing.channel]; exact short)
  have request : Request ch block k := by
    rw [Request, if_neg (by omega), importing.channel, importing.image, importing.count]
    exact Nat.mul_le_mul_right _ inside
  have seen := (write_exactly fits block k _ request).mpr harmless
  obtain ⟨size, count, channel⟩ := step_size fits (.write block k fun q => bytes q.toNat)
  rw [written]
  refine ⟨⟨channel.trans importing.channel, size.trans importing.image,
    count.trans importing.count⟩, ?_⟩
  have bytesSeen := congrArg Prod.snd seen
  simpa [view, want, importing.channel, show ¬ (k : Int) < 0 by omega] using bytesSeen

theorem foreachChunk_block (rest : List BackedBlock) (importable : Importable bb)
    (whole : blockSize ∣ bb.len) (inside : bb.block + bb.len / blockSize ≤ cur) :
    foreachChunk file blockSize (bb :: rest) ch = none ∧ ¬ InFile file bb ∨
      InFile file bb ∧
      ∃ ch', foreachChunk file blockSize (bb :: rest) ch = foreachChunk file blockSize rest ch' ∧
        Importing ch' blockSize cur ∧ content ch'.sm = lay file blockSize (content ch.sm) bb := by
  have pos : 0 < blockSize := by omega
  cases backing : bb.backing with
  | data bytes => simp [Importable, backing] at importable
  | fill val =>
    refine .inr
      ⟨fun offset is => Backing.noConfusion (backing.symm.trans is), ch, ?_, importing, ?_⟩
    · have header :=
        sparseImportSegment_header importing big chunkFill (align bb.len blockSize / blockSize) 16
      have value := sparseImportSegment_short importing big (ofList (toBytes 4 val))
        (by simp [ofList]) (by simp [ofList])
      simp only [foreachChunk, sparseFileWriteBlock, backing, writeSparseFillChunk, foldl_cons,
        foldl_nil, header, value]
    · rw [lay_fill backing]
  | fd offset =>
    simp only [Importable, backing] at importable
    obtain ⟨k, is⟩ := whole
    rw [mul_comm] at is
    rw [is] at importable inside
    rw [Nat.mul_div_cancel k pos] at inside
    by_cases there : offset + bb.len ≤ file.length
    · have header := sparseImportSegment_header importing big chunkRaw k (12 + k * blockSize)
      obtain ⟨importing', bytes⟩ :=
        sparseImportSegment_data importing big (fun j => file.getD (offset + j) 0)
        (Nat.pos_of_mul_pos_right importable.1) importable.2 inside
      refine .inr ⟨fun offset' is' => ?_, _, ?_, importing', ?_⟩
      · cases backing.symm.trans is'
        exact there
      · rw [is] at there
        simp only [foreachChunk, sparseFileWriteBlock, backing, is, if_pos there,
          writeSparseDataChunk_whole pos,
          nrBlocks_eq big (Nat.pos_of_mul_pos_right importable.1) importable.2, foldl_cons,
          foldl_nil, header]
      · simp only [bytes, lay, BackedBlock.source, backing, is]
    · refine .inl ⟨?_, fun inFile => there (inFile offset backing)⟩
      simp only [foreachChunk, sparseFileWriteBlock, backing, if_neg there]

theorem foreachChunk_eq (importable : ∀ bb ∈ l, Importable bb)
    (whole : ∀ bb ∈ l, blockSize ∣ bb.len) (ends : ∀ bb ∈ l, bb.block + bb.len / blockSize ≤ cur) :
    foreachChunk file blockSize l ch = none ∧ (∃ bb ∈ l, ¬ InFile file bb) ∨
      ∃ ch', foreachChunk file blockSize l ch = some ch' ∧ Importing ch' blockSize cur ∧
        content ch'.sm = l.foldl (lay file blockSize) (content ch.sm) := by
  induction l generalizing ch with
  | nil => exact .inr ⟨ch, rfl, importing, rfl⟩
  | cons bb rest ih =>
    rw [forall_mem_cons] at importable whole ends
    rcases foreachChunk_block importing big rest importable.1 whole.1 ends.1 with
      ⟨fails, missing⟩ | ⟨-, ch1, is, importing1, bytes⟩
    · exact .inl ⟨fails, bb, mem_cons_self, missing⟩
    · rw [is, foldl_cons, ← bytes]
      rcases ih importing1 importable.2 whole.2 ends.2 with ⟨fails, x, mem, missing⟩ | done
      · exact .inl ⟨fails, x, mem_cons_of_mem _ mem, missing⟩
      · exact .inr done

end

theorem content_newChannel (B N : Nat) : content (newChannel B N).sm = zeros :=
  congrArg Prod.snd (view_newChannel B N)

theorem Filled.opened {bytes : Content} (filled : Filled strict Importable file s cur p bytes)
    (big : 1024 ≤ s.blockSize) (positive : 0 < cur) (small : cur < 2 ^ 32)
    (len : s.len = cur * s.blockSize) (imported : sparseFileImport file = some s) :
    ioManagerImportSparse file = none ∧ (∃ bb ∈ s.blocks, ¬ InFile file bb) ∨
      ∃ ch m, ioManagerImportSparse file = some ch ∧ Importing ch s.blockSize m ∧
        (strict → m = cur) ∧ content ch.sm = bytes := by
  have queued := filled.queued
  obtain ⟨m, length, le, exact_⟩ := queued.sparseFileLen small len
  have start : Importing (newChannel s.blockSize m) s.blockSize m := ⟨rfl, rfl, rfl⟩
  rw [ioManagerImportSparse, imported]
  simp only [length, last_block queued.pos (positive.trans_le le)]
  rcases foreachChunk_eq start big filled.all queued.list.whole
    (fun bb mem => (queued.list.ends bb mem).trans le) with fails | ⟨ch, is, importing, same⟩
  · exact .inl fails
  · rw [content_newChannel] at same
    exact .inr ⟨ch, m, is, importing, exact_, same.trans filled.bytes⟩

end Opened

section Read

variable {file : List UInt8} {s s' : SparseFile} {chunkHdrSz left pos cur p : Nat}
  {chunks : List Chunk}

theorem decodeChunks_apart (long : 0 < chunkHdrSz) (le : p ≤ pos)
    (decoded : decodeChunks file chunkHdrSz blockSize left pos = some chunks) :
    Apart blockSize p chunks := by
  induction left generalizing pos p chunks with
  | zero =>
    cases decoded
    trivial
  | succ left ih =>
    rw [decodeChunks] at decoded
    split at decoded
    · obtain ⟨rest, more, rfl⟩ := map_eq_some_iff.mp decoded
      exact ⟨by omega, ih (by omega) more⟩
    split at decoded
    · obtain ⟨rest, more, rfl⟩ := map_eq_some_iff.mp decoded
      exact show Apart blockSize p rest from ih (by omega) more
    · split at decoded
      · obtain ⟨rest, more, rfl⟩ := map_eq_some_iff.mp decoded
        exact show Apart blockSize p rest from ih (by omega) more
      · cases decoded

theorem readValue_eq_some {b : List UInt8} (is : readValue file pos n = some b) :
    b = (file.drop pos).take n := by
  rw [readValue, ite_none_right_eq_some] at is
  exact (some_inj.mp is.2).symm

theorem processChunk_decoded {hdr : List UInt8} {pos' blocks : Nat}
    (is : hdr = (file.drop pos).take 12)
    (decoded : decodeChunks file chunkHdrSz s.blockSize (left + 1) pos = some chunks)
    (done : processChunk s file chunkHdrSz hdr (pos + chunkHdrSz) cur = some (s', pos', blocks)) :
    ∃ c rest, chunks = c :: rest ∧ s' = addChunk s cur c ∧ blocks = c.size ∧
      decodeChunks file chunkHdrSz s.blockSize left pos' = some rest := by
  rw [decodeChunks] at decoded
  simp only [← is] at decoded
  rw [processChunk] at done
  by_cases raw : field hdr 0 2 = chunkRaw
  · rw [if_pos raw] at decoded done
    obtain ⟨rest, more, rfl⟩ := map_eq_some_iff.mp decoded
    rw [ite_none_right_eq_some] at done
    cases done.2
    exact ⟨_, rest, rfl, rfl, rfl, more⟩
  rw [if_neg raw] at decoded done
  by_cases fill : field hdr 0 2 = chunkFill
  · rw [if_pos fill] at decoded done
    obtain ⟨rest, more, rfl⟩ := map_eq_some_iff.mp decoded
    rw [ite_none_right_eq_some] at done
    obtain ⟨val, value, same⟩ := map_eq_some_iff.mp done.2
    cases same
    rw [readValue_eq_some value]
    exact ⟨_, rest, rfl, rfl, rfl, more⟩
  rw [if_neg fill] at decoded done
  by_cases skip : field hdr 0 2 = chunkDontCare
  · rw [if_pos skip] at decoded done
    obtain ⟨rest, more, rfl⟩ := map_eq_some_iff.mp decoded
    rw [ite_none_right_eq_some] at done
    cases done.2
    exact ⟨_, rest, rfl, rfl, rfl, more⟩
  · rw [if_neg skip] at decoded
    cases decoded

theorem addChunk_sizes (s : SparseFile) (cur : Nat) (c : Chunk) :
    (addChunk s cur c).blockSize = s.blockSize := by
  cases c with
  | raw offset blocks | fill val blocks => exact queueBb_sizes _ _
  | dontCare blocks => rfl

theorem readChunks_decoded {last : Nat}
    (decoded : decodeChunks file chunkHdrSz s.blockSize left pos = some chunks)
    (small : cur + totalSize chunks < 2 ^ 32)
    (done : readChunks file chunkHdrSz left s pos cur = some (s', last)) :
    s' = addAll s cur chunks ∧ last = cur + totalSize chunks := by
  induction left generalizing s pos cur chunks with
  | zero =>
    cases decoded
    cases done
    exact ⟨rfl, rfl⟩
  | succ left ih =>
    rw [readChunks] at done
    rcases header : readValue file pos 12 with _ | hdr
    · simp [header] at done
    simp only [header] at done
    rcases processed : processChunk s file chunkHdrSz hdr (pos + chunkHdrSz) cur with _ | result
    · simp [processed] at done
    obtain ⟨s1, pos1, blocks⟩ := result
    obtain ⟨c, rest, rfl, rfl, rfl, more⟩ :=
      processChunk_decoded (readValue_eq_some header) decoded processed
    simp only [processed, ite_none_right_eq_some] at done
    have sum : totalSize (c :: rest) = c.size + totalSize rest := rfl
    rw [sum, ← add_assoc] at small ⊢
    rw [Nat.mod_eq_of_lt (by omega)] at done
    rw [← addChunk_sizes s cur c] at more
    exact ih more small done.2

theorem sparseFileImport_cases (imported : sparseFileImport file = some s) :
    12 ≤ field (file.take 28) 10 2 ∧ 0 < fileBlockSize file ∧ ∃ total, 0 < total ∧
      readChunks file (field (file.take 28) 10 2) (field (file.take 28) 20 4)
        (sparseFileNew (fileBlockSize file) (total * fileBlockSize file))
        (field (file.take 28) 8 2) 0 = some (s, total) := by
  rw [sparseFileImport] at imported
  rcases header : readValue file 0 28 with _ | hdr
  · simp [header] at imported
  obtain rfl : hdr = file.take 28 := readValue_eq_some header
  simp only [header, ite_none_right_eq_some] at imported
  obtain ⟨⟨-, -, -, long, block, -, total⟩, rest⟩ := imported
  cases all : readChunks file (field (file.take 28) 10 2) (field (file.take 28) 20 4)
      (sparseFileNew (fileBlockSize file) (field (file.take 28) 16 4 * fileBlockSize file))
      (field (file.take 28) 8 2) 0 with
  | none =>
    rw [fileBlockSize] at all
    simp [all] at rest
  | some result =>
    rw [fileBlockSize] at all
    simp only [all, ite_none_right_eq_some] at rest
    obtain ⟨is, same⟩ := rest
    cases same
    refine ⟨long, pos_of_ne_zero block, _, pos_of_ne_zero total, ?_⟩
    rw [fileBlockSize, all, is]

end Read

theorem import_image {file : List UInt8} {ch : Channel} {chunks : List Chunk}
    (decoded : decode file = some chunks) (opened : ioManagerImportSparse file = some ch)
    (big : 1024 ≤ fileBlockSize file)
    (addressed : ∀ c ∈ chunks, c.Addressed (fileBlockSize file))
    (small : totalSize chunks < 2 ^ 32) :
    content ch.sm = image file (fileBlockSize file) (chunks.map Chunk.unfilled) := by
  rcases imported : sparseFileImport file with _ | s
  · simp [ioManagerImportSparse, imported] at opened
  obtain ⟨long, pos, total, positive, read⟩ := sparseFileImport_cases imported
  obtain ⟨rfl, is⟩ := @readChunks_decoded file (sparseFileNew (fileBlockSize file) _) s _ _ _ 0
    chunks total decoded (by rwa [zero_add]) read
  rw [zero_add] at is
  subst is
  obtain ⟨⟨p, filled⟩, size, len⟩ := @addAll_new file chunks _ False _ importable_grown nofun
    (totalSize chunks * fileBlockSize file) pos
      (decodeChunks_apart (by omega) (Nat.zero_le _) decoded)
    (fun c mem => (addressed c mem).meets pos) small
  rcases filled.opened (size.symm ▸ big) positive small (by rw [size]; exact len) imported with
    ⟨fails, -⟩ | ⟨ch', m, done, -, -, bytes⟩
  · rw [fails] at opened
    cases opened
  · obtain rfl := some_inj.mp (opened.symm.trans done)
    exact bytes

end E2fs.Sparse
