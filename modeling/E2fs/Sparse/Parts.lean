import E2fs.Sparse.Import

/-! The chunks that backed blocks in memory are written as: runs of blocks and the gaps between
them. Reading the file gives them back. -/
namespace E2fs.Sparse
open Memory Device Word List Option Nat

section Parts

/- What is written: a gap, or a run of blocks with their bytes. -/
inductive Part where
  | skip (blocks : Nat)
  | data (blocks : Nat) (bytes : Content)

def Part.size : Part → Nat
  | .skip blocks => blocks
  | .data blocks _ => blocks

def Part.encode (blockSize : Nat) : Part → List UInt8
  | .skip blocks => chunkHeader chunkDontCare blocks 12
  | .data blocks bytes =>
    chunkHeader chunkRaw blocks (12 + blocks * blockSize) ++ (List.range (blocks * blockSize)).map
      bytes

def encode (blockSize : Nat) (parts : List Part) : List UInt8 :=
  parts.flatMap (Part.encode blockSize)

def partsSize (parts : List Part) : Nat := (parts.map Part.size).sum

/- The chunks that the parts are in a file, from a position on. -/
def place (blockSize : Nat) : Nat → List Part → List Chunk
  | _, [] => []
  | pos, .skip blocks :: rest => .dontCare blocks :: place blockSize (pos + 12) rest
  | pos, .data blocks _ :: rest =>
    .raw (pos + 12) blocks :: place blockSize (pos + 12 + blocks * blockSize) rest

def Part.byte : Part → Content
  | .skip _ => zeros
  | .data _ bytes => bytes

def partsImage (blockSize : Nat) : List Part → Content
  | [] => zeros
  | part :: rest => fun q =>
    if q < part.size * blockSize then part.byte q
      else partsImage blockSize rest (q - part.size * blockSize)

/- Sizes that fit into the fields of a chunk header, the number of blocks also into an `int`. -/
def Part.Fits (blockSize : Nat) : Part → Prop
  | .skip blocks => blocks < 2 ^ 31
  | .data blocks _ => blocks < 2 ^ 31 ∧ 12 + blocks * blockSize < 2 ^ 32

variable {blockSize : Nat} {file pre post : List UInt8} {part : Part} {parts : List Part}
  {s : SparseFile} {cur : Nat}

theorem totalSize_place (pos : Nat) : totalSize (place blockSize pos parts) = partsSize parts := by
  induction parts generalizing pos with
  | nil => rfl
  | cons part rest ih => cases part <;> exact congrArg _ (ih _)

variable {pos blocks : Nat} {c : Chunk} {hdr : List UInt8}

theorem place_apart {p : Nat} (le : p ≤ pos) : Apart blockSize p (place blockSize pos parts) := by
  induction parts generalizing p pos with
  | nil => trivial
  | cons part rest ih =>
    cases part with
    | skip blocks => exact ih (by omega)
    | data blocks bytes => exact ⟨by omega, ih (le_refl _)⟩

theorem map_unfilled_place (pos : Nat) :
    (place blockSize pos parts).map Chunk.unfilled = place blockSize pos parts := by
  induction parts generalizing pos with
  | nil => rfl
  | cons part rest ih => cases part <;> exact congrArg (cons _) (ih _)

theorem field_header (chunkType chunkSz totalSz : Nat) :
    let header := chunkHeader chunkType chunkSz totalSz
    field header 0 2 = chunkType % 2 ^ 16 ∧ field header 4 4 = chunkSz % 2 ^ 32 ∧
        field header 8 4 = totalSz % 2 ^ 32 := by
  refine ⟨?_, ?_, ?_⟩
  · exact ofBytes_toBytes 2 chunkType
  · exact ofBytes_toBytes 4 chunkSz
  · exact ofBytes_toBytes 4 totalSz

theorem readValue_append {b : List UInt8} :
    readValue (pre ++ (b ++ post)) pre.length b.length = some b := by
  rw [readValue, if_pos (by simp), drop_left, take_left]

theorem readValue_header {chunkType chunkSz totalSz : Nat}
    (is : file = pre ++ (chunkHeader chunkType chunkSz totalSz ++ post)) :
    readValue file pre.length 12 = some (chunkHeader chunkType chunkSz totalSz) := by
  rw [is, ← length_chunkHeader chunkType chunkSz totalSz]
  exact readValue_append

theorem processChunk_raw (chunkType : field hdr 0 2 = chunkRaw)
    (chunkSz : field hdr 4 4 = blocks) (totalSz : field hdr 8 4 = 12 + blocks * s.blockSize)
    (positive : 0 < s.blockSize) (short : 12 + blocks * s.blockSize < 2 ^ 32) :
    processChunk s file 12 hdr pos cur = some (queueBb s ⟨cur, blocks * s.blockSize, .fd pos⟩,
      pos + blocks * s.blockSize, blocks) := by
  have dataSize : (field hdr 8 4 + 2 ^ 32 - 12) % 2 ^ 32 = blocks * s.blockSize := by
    rw [totalSz, Nat.add_assoc, Nat.add_sub_cancel_left, add_mod_right, mod_eq_of_lt (by omega)]
  rw [processChunk, if_pos chunkType, dataSize, chunkSz,
    if_pos ⟨mul_mod_left _ _, Nat.mul_div_cancel _ positive⟩]

theorem processChunk_dontCare (chunkType : field hdr 0 2 = chunkDontCare)
    (chunkSz : field hdr 4 4 = blocks) (totalSz : field hdr 8 4 = 12) :
    processChunk s file 12 hdr pos cur = some (s, pos, blocks) := by
  have dataSize : (field hdr 8 4 + 2 ^ 32 - 12) % 2 ^ 32 = 0 := by
    rw [totalSz]
    norm_num
  have notRaw : field hdr 0 2 ≠ chunkRaw := by rw [chunkType]; decide
  have notFill : field hdr 0 2 ≠ chunkFill := by rw [chunkType]; decide
  rw [processChunk, if_neg notRaw, if_neg notFill, if_pos chunkType, if_pos dataSize, chunkSz]

theorem readChunks_succ {chunkHdrSz left pos' : Nat} {s' : SparseFile}
    (header : readValue file pos 12 = some hdr)
    (processed : processChunk s file chunkHdrSz hdr (pos + chunkHdrSz) cur =
      some (s', pos', blocks))
    (lt : blocks < 2 ^ 31) (small : cur + blocks < 2 ^ 32) :
    readChunks file chunkHdrSz (left + 1) s pos cur =
      readChunks file chunkHdrSz left s' pos' (cur + blocks) := by
  rw [readChunks, header]
  dsimp only
  rw [processed]
  dsimp only
  rw [if_pos lt, mod_eq_of_lt small]

theorem readChunks_part {left : Nat} (is : file = pre ++ (part.encode s.blockSize ++ post))
    (fits : part.Fits s.blockSize) (positive : 0 < s.blockSize) (small : cur + part.size < 2 ^ 32) :
    ∃ c, place s.blockSize pre.length [part] = [c] ∧
    readChunks file 12 (left + 1) s pre.length cur =
      readChunks file 12 left (addChunk s cur c) (pre.length + (part.encode s.blockSize).length)
        (cur + part.size) := by
  cases part with
  | skip blocks =>
    obtain ⟨chunkType, chunkSz, totalSz⟩ := field_header chunkDontCare blocks 12
    have lt : blocks < 2 ^ 31 := fits
    rw [mod_eq_of_lt (by omega)] at chunkSz
    refine ⟨_, rfl, ?_⟩
    exact readChunks_succ (readValue_header is) (processChunk_dontCare chunkType chunkSz totalSz)
      lt small
  | data blocks bytes =>
    obtain ⟨lt, short⟩ := fits
    obtain ⟨chunkType, chunkSz, totalSz⟩ := field_header chunkRaw blocks (12 + blocks * s.blockSize)
    rw [mod_eq_of_lt (by omega)] at chunkSz
    rw [mod_eq_of_lt short] at totalSz
    have length :
        (Part.encode s.blockSize (.data blocks bytes)).length = 12 + blocks * s.blockSize := by
      simp [Part.encode, length_chunkHeader]
    rw [length, ← add_assoc]
    refine ⟨_, rfl, ?_⟩
    exact readChunks_succ (readValue_header is)
      (processChunk_raw chunkType chunkSz totalSz positive short) lt small

theorem place_cons (one : place blockSize pos [part] = [c]) :
    place blockSize pos (part :: parts) =
      c :: place blockSize (pos + (part.encode blockSize).length) parts := by
  cases part with
  | skip blocks =>
    cases one
    rfl
  | data blocks bytes =>
    cases one
    simp [place, Part.encode, length_chunkHeader, add_assoc]

theorem readChunks_place (is : file = pre ++ (encode s.blockSize parts ++ post))
    (fits : ∀ part ∈ parts, part.Fits s.blockSize) (positive : 0 < s.blockSize)
    (small : cur + partsSize parts < 2 ^ 32) : readChunks file 12 parts.length s pre.length cur =
      some (addAll s cur (place s.blockSize pre.length parts), cur + partsSize parts) := by
  induction parts generalizing s cur pre with
  | nil => rfl
  | cons part rest ih =>
    rw [forall_mem_cons] at fits
    have sum : partsSize (part :: rest) = part.size + partsSize rest := rfl
    have split : encode s.blockSize (part :: rest) =
      part.encode s.blockSize ++ encode s.blockSize rest := rfl
    rw [sum, ← add_assoc] at small ⊢
    rw [split, append_assoc] at is
    obtain ⟨c, one, read⟩ :=
      @readChunks_part file pre _ part s cur rest.length is fits.1 positive (by omega)
    have size : c.size = part.size := by cases part <;> cases one <;> rfl
    have same := addChunk_sizes s cur c
    rw [place_cons one, addAll, size, length_cons, read, ← length_append]
    have more := @ih (pre ++ part.encode s.blockSize) (addChunk s cur c) (cur + part.size)
    rw [same, append_assoc] at more
    exact more is fits.2 positive small

theorem image_cons {chunks : List Chunk} (size : c.size = part.size)
    (bytes : ∀ q < part.size * blockSize, c.byte file q = part.byte q)
    (more : image file blockSize chunks = partsImage blockSize parts) :
    image file blockSize (c :: chunks) = partsImage blockSize (part :: parts) := by
  funext q
  simp only [image, partsImage, size, more]
  split
  · exact bytes q ‹_›
  · rfl

theorem image_place (is : file = pre ++ (encode blockSize parts ++ post)) :
    image file blockSize (place blockSize pre.length parts) = partsImage blockSize parts := by
  induction parts generalizing pre with
  | nil => rfl
  | cons part rest ih =>
    have split : encode blockSize (part :: rest) = part.encode blockSize ++ encode blockSize rest :=
      rfl
    rw [split, append_assoc] at is
    have more := @ih (pre ++ part.encode blockSize) (by rw [is, append_assoc])
    rw [length_append] at more
    cases part with
    | skip blocks =>
      exact image_cons rfl (fun _ _ => rfl) more
    | data blocks bytes =>
      rw [place_cons rfl]
      refine image_cons rfl (fun q own => ?_) more
      have lt : q < blocks * blockSize := own
      have at_ : pre.length + 12 + q - pre.length - 12 = q := by omega
      show file.getD (pre.length + 12 + q) 0 = bytes q
      rw [is, Part.encode, append_assoc, getD_eq_getElem?_getD, getElem?_append_right (by omega),
        getElem?_append_right (by rw [length_chunkHeader]; omega), length_chunkHeader, at_,
        getElem?_append_left (by simpa using lt)]
      simp [lt]

end Parts

section Write

/- Backed blocks in memory behind block `last`, one after the other up to block `cur`, with gaps
that a chunk can have. -/
def Linked (blockSize cur : Nat) : Nat → List BackedBlock → Prop
  | last, [] => last ≤ cur ∧ cur < last + 2 ^ 31
  | last, bb :: rest => (last ≤ bb.block ∧ bb.block < last + 2 ^ 31) ∧
    (∃ bytes, bb.backing = .data bytes) ∧ (∃ k > 0, bb.len = k * blockSize) ∧
    Linked blockSize cur (bb.block + bb.len / blockSize) rest

theorem lay_cut {blockSize block max len : Nat} {bytes : Content} (dvd : blockSize ∣ max)
    (lt : max < len) (c : Content) : lay [] blockSize (lay [] blockSize c ⟨block, max, .data bytes⟩)
      ⟨block + max / blockSize, len - max, .data fun j => bytes (max + j)⟩ =
        lay [] blockSize c ⟨block, len, .data bytes⟩ := by
  have at_ : (block + max / blockSize) * blockSize = block * blockSize + max := by
    rw [Nat.add_mul, Nat.div_mul_cancel dvd]
  simp only [lay, BackedBlock.source, at_]
  rw [patch_more, Nat.add_sub_cancel' lt.le]

theorem splitAll_eq {blockSize cur M : Nat} (pos : 0 < blockSize) (some_ : 0 < M) (fuel last : Nat)
    (l : List BackedBlock) (linked : Linked blockSize cur last l)
    (enough : (l.map (·.len)).sum + l.length < fuel) :
    ∃ l', splitAll blockSize (M * blockSize) fuel l = some l' ∧ Linked blockSize cur last l' ∧
      (∀ bb ∈ l', bb.len ≤ M * blockSize) ∧
      ∀ c, l'.foldl (lay [] blockSize) c = l.foldl (lay [] blockSize) c := by
  induction fuel generalizing last l with
  | zero => omega
  | succ fuel ih =>
    rcases l with _ | ⟨bb, rest⟩
    · exact ⟨[], rfl, linked, nofun, fun _ => rfl⟩
    obtain ⟨behind, ⟨bytes, backing⟩, ⟨k, positive, is⟩, more⟩ := linked
    rw [map_cons, sum_cons, length_cons] at enough
    by_cases fits : bb.len ≤ M * blockSize
    · obtain ⟨l', split, linked', short, same⟩ := ih _ rest more (by omega)
      refine ⟨bb :: l', ?_, ⟨behind, ⟨bytes, backing⟩, ⟨k, positive, is⟩, linked'⟩,
        forall_mem_cons.mpr ⟨fits, short⟩, fun c => same _⟩
      rw [splitAll, if_pos fits, split]
      rfl
    have max := Nat.mul_pos some_ pos
    have quotient := Nat.mul_div_cancel M pos
    have less : M < k := by
      rw [is] at fits
      exact Nat.lt_of_mul_lt_mul_right (Nat.lt_of_not_le fits)
    have left : bb.len - M * blockSize = (k - M) * blockSize := by rw [is, Nat.sub_mul]
    have end_ :
        bb.block + M + (bb.len - M * blockSize) / blockSize = bb.block + bb.len / blockSize := by
      rw [left, is, Nat.mul_div_cancel _ pos, Nat.mul_div_cancel _ pos]
      omega
    obtain ⟨l', split, linked', short, same⟩ := ih (bb.block + M)
      (⟨bb.block + M, bb.len - M * blockSize, .data fun j => bytes (M * blockSize + j)⟩ :: rest)
      ⟨⟨le_refl _, by dsimp only; omega⟩, ⟨_, rfl⟩, ⟨k - M, by omega, left⟩,
        by rw [end_]; exact more⟩
      (by rw [map_cons, sum_cons, length_cons]; dsimp only; omega)
    refine ⟨{ bb with len := M * blockSize } :: l', ?_,
      ⟨behind, ⟨bytes, backing⟩, ⟨M, some_, rfl⟩, ?_⟩,
      forall_mem_cons.mpr ⟨le_refl _, short⟩, fun c => ?_⟩
    · simp only [splitAll, if_neg fits, backing, quotient, split]
      rfl
    · rw [quotient]
      exact linked'
    · obtain ⟨block, len, backing'⟩ := bb
      cases backing
      rw [foldl_cons, same, foldl_cons, foldl_cons,
        ← lay_cut (dvd_mul_left _ M) (Nat.lt_of_not_le fits) c, quotient]

def gap (last block : Nat) : List Part := if last < block then [.skip (block - last)] else []

/- The parts that backed blocks are written as, with the gaps between them and up to the end. -/
def partsFrom (blockSize cur : Nat) : Nat → List BackedBlock → List Part
  | last, [] => gap last cur
  | last, bb :: rest =>
    gap last bb.block ++ .data (bb.len / blockSize) ((bb.source []).getD zeros) ::
    partsFrom blockSize cur (bb.block + bb.len / blockSize) rest

variable {blockSize cur last a b : Nat} {l : List BackedBlock} {c : Content}

theorem toList_ofList (b : List UInt8) : (ofList b).toList = b := by
  refine ext_getElem (by simp [Span.toList, ofList]) fun i _ lt => ?_
  simp [Span.toList, ofList, lt]

theorem writeSparseSkipChunk_gap (pos : 0 < blockSize) :
    (if a < b then writeSparseSkipChunk blockSize ((b - a) * blockSize) else []).flatMap
      Span.toList = encode blockSize (gap a b) := by
  rw [gap]
  split
  · rw [writeSparseSkipChunk, if_pos (mul_mod_left _ _), Nat.mul_div_cancel _ pos,
      flatMap_singleton, toList_ofList]
    simp [encode, Part.encode]
  · rfl

theorem writeSparseDataChunk_data (pos : 0 < blockSize) (k : Nat) (bytes : Content) :
    (writeSparseDataChunk blockSize (k * blockSize) bytes).flatMap Span.toList =
      Part.encode blockSize (.data k bytes) := by
  rw [writeSparseDataChunk_whole pos, flatMap_cons, flatMap_singleton, toList_ofList]
  rfl

theorem Linked.end_ (linked : Linked blockSize cur last l) : last ≤ cur := by
  induction l generalizing last with
  | nil => exact linked.1
  | cons bb rest ih =>
    obtain ⟨behind, -, -, more⟩ := linked
    exact behind.1.trans ((Nat.le_add_right _ _).trans (ih more))

section

variable (pos : 0 < blockSize) (small : cur < 2 ^ 32)
include pos small

theorem endBlock_eq {bb : BackedBlock} {k : Nat} (is : bb.len = k * blockSize)
    (le : bb.block + bb.len / blockSize ≤ cur) :
    endBlock blockSize bb = bb.block + bb.len / blockSize := by
  rw [endBlock, divRoundUp_of_dvd pos ⟨k, by rw [is, mul_comm]⟩, mod_eq_of_lt (by omega)]

theorem writeBlocks_eq (linked : Linked blockSize cur last l) :
    ∃ spans e, writeBlocks [] blockSize last l = some (spans, e) ∧ e ≤ cur ∧
      encode blockSize (partsFrom blockSize cur last l) =
        spans.flatMap Span.toList ++ encode blockSize (gap e cur) := by
  induction l generalizing last with
  | nil => exact ⟨[], last, rfl, linked.1, rfl⟩
  | cons bb rest ih =>
    obtain ⟨behind, ⟨bytes, backing⟩, ⟨k, positive, is⟩, more⟩ := linked
    obtain ⟨spans, e, written, le, same⟩ := ih more
    have block : sparseFileWriteBlock [] blockSize bb =
        some (writeSparseDataChunk blockSize bb.len bytes) := by
      simp only [sparseFileWriteBlock, backing]
    refine ⟨(if last < bb.block then writeSparseSkipChunk blockSize ((bb.block - last) * blockSize)
      else []) ++ writeSparseDataChunk blockSize bb.len bytes ++ spans, e, ?_, le, ?_⟩
    · rw [writeBlocks, block]
      simp only [endBlock_eq pos small is more.end_, written]
    · have source :
        (bb.source []).getD zeros = bytes := by simp only [BackedBlock.source, backing, getD_some]
      have quotient : bb.len / blockSize = k := by rw [is, Nat.mul_div_cancel k pos]
      rw [flatMap_append, flatMap_append, writeSparseSkipChunk_gap pos, is,
        writeSparseDataChunk_data pos,
        append_assoc, append_assoc, ← same, partsFrom, source, quotient]
      simp only [encode, flatMap_append, flatMap_cons]

theorem sparseCountChunks_eq (linked : Linked blockSize cur last l) (n : Nat) :
    let counted := l.foldl (fun (chunks, lastBlock) bb =>
      (chunks + (if lastBlock < bb.block then 2 else 1), endBlock blockSize bb)) (n, last)
    (if counted.2 < cur then counted.1 + 1 else counted.1) =
        n + (partsFrom blockSize cur last l).length := by
  induction l generalizing last n with
  | nil =>
    dsimp only [foldl_nil, partsFrom, gap]
    split <;> rfl
  | cons bb rest ih =>
    obtain ⟨behind, -, ⟨k, -, is⟩, more⟩ := linked
    have next := ih more (n + if last < bb.block then 2 else 1)
    rw [foldl_cons, endBlock_eq pos small is more.end_]
    refine next.trans ?_
    rw [partsFrom, length_append, length_cons, gap]
    split
    · rw [length_singleton]
      omega
    · rw [length_nil]
      omega

end

/- Every part has blocks, a gap as many as a chunk can have and data no more than the limit. -/
theorem partsFrom_sizes {M : Nat} (pos : 0 < blockSize) (linked : Linked blockSize cur last l)
    (short : ∀ bb ∈ l, bb.len ≤ M * blockSize) :
    ∀ part ∈ partsFrom blockSize cur last l, 0 < part.size ∧
      match part with
      | .skip blocks => blocks < 2 ^ 31
      | .data blocks _ => blocks ≤ M := by
  have gaps (a b : Nat) (near : b < a + 2 ^ 31) : ∀ part ∈ gap a b, 0 < part.size ∧
      match part with
      | .skip blocks => blocks < 2 ^ 31
      | .data blocks _ => blocks ≤ M := by
    intro part mem
    rw [gap] at mem
    split at mem
    · obtain rfl := mem_singleton.mp mem
      exact ⟨Nat.sub_pos_of_lt ‹_›, by dsimp only; omega⟩
    · cases mem
  induction l generalizing last with
  | nil => exact gaps last cur linked.2
  | cons bb rest ih =>
    obtain ⟨⟨-, near⟩, -, ⟨k, positive, is⟩, more⟩ := linked
    rw [forall_mem_cons] at short
    rw [partsFrom, forall_mem_append, forall_mem_cons]
    refine ⟨gaps _ _ near, ⟨?_, ?_⟩, ih more short.2⟩
    · rw [is, Nat.mul_div_cancel k pos]
      exact positive
    · exact Nat.div_le_of_le_mul (by rw [mul_comm]; exact short.1)

theorem partsSize_append (a b : List Part) : partsSize (a ++ b) = partsSize a + partsSize b := by
  simp [partsSize]

theorem partsSize_gap (le : a ≤ b) : a + partsSize (gap a b) = b := by
  rw [gap]
  split
  · exact Nat.add_sub_cancel' le
  · exact le_antisymm le (Nat.le_of_not_lt ‹_›)

theorem partsSize_partsFrom (linked : Linked blockSize cur last l) :
    last + partsSize (partsFrom blockSize cur last l) = cur := by
  induction l generalizing last with
  | nil => exact partsSize_gap linked.1
  | cons bb rest ih =>
    obtain ⟨⟨behind, -⟩, -, -, more⟩ := linked
    have sum : partsSize (.data (bb.len / blockSize) ((bb.source []).getD zeros) ::
        partsFrom blockSize cur (bb.block + bb.len / blockSize) rest) = bb.len / blockSize +
        partsSize (partsFrom blockSize cur (bb.block + bb.len / blockSize) rest) := rfl
    have := ih more
    have := partsSize_gap behind
    rw [partsFrom, partsSize_append, sum]
    omega

theorem onto_part (p : Nat) (part : Part) (parts : List Part) :
    onto c p (partsImage blockSize (part :: parts)) =
      onto (patch c p (part.size * blockSize) part.byte) (p + part.size * blockSize)
      (partsImage blockSize parts) :=
  onto_piece _

theorem onto_gap (le : a ≤ b) (empty : ∀ q, a * blockSize ≤ q → c q = 0) (parts : List Part) :
    onto c (a * blockSize) (partsImage blockSize (gap a b ++ parts)) = onto c (b * blockSize)
    (partsImage blockSize parts) := by
  rw [gap]
  split
  · rw [singleton_append, onto_part, patch_zeros empty fun j => show Part.byte (.skip (b - a)) j = 0
      from rfl, ← add_mul, show Part.size (.skip (b - a)) = b - a from rfl, Nat.add_sub_cancel' le]
  · rw [nil_append, le_antisymm le (Nat.le_of_not_lt ‹_›)]

theorem partsImage_partsFrom (pos : 0 < blockSize) (linked : Linked blockSize cur last l)
    (empty : ∀ q, last * blockSize ≤ q → c q = 0) :
    onto c (last * blockSize)
    (partsImage blockSize (partsFrom blockSize cur last l)) = l.foldl (lay [] blockSize) c := by
  induction l generalizing last c with
  | nil =>
    have later : ∀ q, cur * blockSize ≤ q → c q = 0 := fun q far =>
      empty q ((Nat.mul_le_mul_right _ linked.1).trans far)
    rw [partsFrom, ← append_nil (gap last cur), onto_gap linked.1 empty]
    exact onto_zeros later
  | cons bb rest ih =>
    obtain ⟨⟨behind, -⟩, ⟨bytes, backing⟩, ⟨k, positive, is⟩, more⟩ := linked
    have source : bb.source [] = some bytes := by simp only [BackedBlock.source, backing]
    have quotient : bb.len / blockSize = k := by rw [is, Nat.mul_div_cancel k pos]
    have own : lay [] blockSize c bb = patch c (bb.block * blockSize) (k * blockSize) bytes := by
      simp only [lay, source, is]
    rw [quotient] at more
    rw [partsFrom, onto_gap behind empty, onto_part, source, getD_some, quotient, foldl_cons, own,
      ← ih more, add_mul]
    · rfl
    · intro q far
      rw [add_mul] at far
      rw [patch_apart (.inr far)]
      exact empty q ((Nat.mul_le_mul_right _ behind).trans (by omega))

end Write

end E2fs.Sparse
