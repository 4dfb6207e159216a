import E2fs.Sparse.Parts

/-! What `sparse_close` writes is the image that was in memory: the blocks that were written
become backed blocks, and the file that is made from them is imported again. -/
namespace E2fs.Sparse
open Memory Device Word List Nat Option

section Closing

variable {sm : SparseMap} {s : SparseFile} {i m c : Nat} {st : Option Nat × SparseFile}

/- The blocks in front of block `m` are in the list, with what was written. -/
structure Listed (sm : SparseMap) (m : Nat) (s : SparseFile) : Prop where
  queued : Queued True s m 0
  blocks : ∀ bb ∈ s.blocks, (∃ bytes, bb.backing = .data bytes) ∧ 0 < bb.len
  bytes : laid [] sm.blockSize s.blocks = fun q => if q < m * sm.blockSize then content sm q else 0
  free : ∀ b < m, s.blocks.countP (Covers sm.blockSize b) = 0 → sm.blocks b = none
  size : s.blockSize = sm.blockSize
  len : s.len = sm.blocksCount * sm.blockSize

theorem Listed.strict (listed : Listed sm m s) : ∀ bb ∈ s.blocks, bb.block < m := by
  intro bb mem
  have ends := listed.queued.list.ends bb mem
  have some_ := Nat.div_pos (le_of_dvd (listed.blocks bb mem).2 (listed.queued.list.whole bb mem))
    listed.queued.pos
  omega

theorem content_of_none (none : sm.blocks m = none) {q : Nat} (low : m * sm.blockSize ≤ q)
    (high : q < (m + 1) * sm.blockSize) : content sm q = 0 := by
  rw [Nat.add_one_mul] at high
  rw [content, div_of_piece low high, none]
  split <;> rfl

theorem Listed.skip (listed : Listed sm m s) (none : sm.blocks m = none) : Listed sm (m + 1) s where
  __ := listed
  queued := listed.queued.mono (le_succ m)
  free := fun b lt uncovered => by
    rcases Nat.lt_succ_iff_lt_or_eq.mp lt with before | rfl
    · exact listed.free b before uncovered
    · exact none
  bytes := by
    rw [listed.bytes]
    funext q
    by_cases front : q < m * sm.blockSize
    · rw [if_pos front, if_pos (by rw [Nat.add_one_mul]; omega)]
    · rw [if_neg front]
      split
      · exact (content_of_none none (by omega) ‹_›).symm
      · rfl

theorem Listed.merge (listed : Listed sm m s) (lt : m < i) (le : i ≤ sm.blocksCount)
    (small : sm.blocksCount < 2 ^ 32) : Listed sm i (sparseMergeBlocks sm s m (i - m)) := by
  have pos : 0 < sm.blockSize := listed.size ▸ listed.queued.pos
  have block : m % 2 ^ 32 = m := mod_eq_of_lt (by omega)
  have len : sm.blockSize * (i - m) / s.blockSize = i - m := by
    rw [listed.size, Nat.mul_div_cancel_left _ pos]
  have end_ : m * sm.blockSize + sm.blockSize * (i - m) = i * sm.blockSize := by
    rw [mul_comm sm.blockSize, ← Nat.add_mul, Nat.add_sub_cancel' lt.le]
  rw [sparseMergeBlocks, block]
  have next : Next True s m 0 0 ⟨m, sm.blockSize * (i - m),
      .data fun j => ((sm.blocks (m + j / sm.blockSize)).getD zeros) (j % sm.blockSize)⟩ :=
    ⟨rfl, by dsimp only; omega, listed.size ▸ dvd_mul_right _ _, le_refl 0, nofun,
      fun _ => listed.strict⟩
  have added := @Queued.add _ [] _ _ _ _ _ listed.queued next
  have queued := added.queued
  rw [len, Nat.add_sub_cancel' lt.le] at queued
  refine ⟨queued, ?_, ?_, ?_, added.blockSize.trans listed.size, added.len.trans listed.len⟩
  · intro bb mem
    obtain ⟨old, there, grown⟩ := added.origin bb mem
    have data : (∃ bytes, old.backing = .data bytes) ∧ 0 < old.len := by
      rcases mem_cons.mp there with rfl | before
      · exact ⟨⟨_, rfl⟩, mul_pos pos (by omega)⟩
      · exact listed.blocks old before
    rcases grown with rfl | ⟨⟨val, fill⟩, -⟩
    · exact data
    · obtain ⟨⟨bytes, is⟩, -⟩ := data
      cases fill.symm.trans is
  · have bytes := added.bytes
    rw [listed.size, listed.bytes] at bytes
    rw [bytes]
    funext q
    simp only [lay, BackedBlock.source]
    have whole : i * sm.blockSize ≤ sm.blocksCount * sm.blockSize := Nat.mul_le_mul_right _ le
    by_cases own : m * sm.blockSize ≤ q ∧ q < i * sm.blockSize
    · have split : q = q - m * sm.blockSize + m * sm.blockSize := by omega
      rw [patch_inside own.1 (by omega), if_pos own.2, content, if_pos (by omega)]
      conv_rhs => rw [split, add_mul_div_right _ _ pos, add_mul_mod_self_right, add_comm (_ / _)]
    · rw [patch_apart (by omega)]
      by_cases front : q < m * sm.blockSize
      · rw [if_pos front, if_pos (by omega)]
      · rw [if_neg front, if_neg (by omega)]
  · intro b before uncovered
    have cover := added.cover b
    rw [listed.size] at cover len
    rw [cover, Nat.add_eq_zero_iff] at uncovered
    refine listed.free b ?_ uncovered.1
    by_contra own
    rw [if_pos] at uncovered
    · cases uncovered.2
    · simp only [Covers, len, decide_eq_true_eq]
      omega

structure Closing (sm : SparseMap) (i : Nat) (st : Option Nat × SparseFile) : Prop where
  listed : Listed sm (st.1.getD i) st.2
  start : ∀ c, st.1 = some c → (c < i ∨ c = 0) ∧ sm.blocks c ≠ none

theorem Closing.round (closing : Closing sm i st) (lt : i < sm.blocksCount)
    (small : sm.blocksCount < 2 ^ 32) : Closing sm (i + 1) (closeRound sm st i) := by
  obtain ⟨start, s⟩ := st
  obtain ⟨listed, started⟩ := closing
  cases here : sm.blocks i with
  | none =>
    rcases start with _ | c
    · rw [show closeRound sm (none, s) i = (none, s) by simp only [closeRound, here]]
      exact ⟨listed.skip here, nofun⟩
    obtain ⟨first, there⟩ := started c rfl
    have before : c < i := by
      rcases first with before | rfl
      · exact before
      · exact pos_of_ne_zero fun zero => there (zero ▸ here)
    simp only [closeRound, here]
    exact ⟨(Listed.merge listed before lt.le small).skip here, nofun⟩
  | some buf =>
    cases start with
    | none =>
      simp only [closeRound, here]
      refine ⟨listed, fun c is => ?_⟩
      cases is
      exact ⟨.inl (lt_succ_self i), by simp [here]⟩
    | some c =>
      simp only [closeRound, here]
      refine ⟨listed, fun c' is => ?_⟩
      cases is
      obtain ⟨first, there⟩ := started c rfl
      exact ⟨first.imp_left lt_succ_of_lt, there⟩

theorem Closing.rounds (closing : Closing sm 0 st) (small : sm.blocksCount < 2 ^ 32)
    (le : i ≤ sm.blocksCount) : Closing sm i ((List.range i).foldl (closeRound sm) st) := by
  induction i with
  | zero => exact closing
  | succ i ih =>
    rw [range_succ, foldl_append]
    exact (ih (by omega)).round (by omega) small

theorem sparseCloseChannel_eq (pos : 0 < sm.blockSize) (some_ : 0 < sm.blocksCount)
    (small : sm.blocksCount < 2 ^ 32) : Listed sm sm.blocksCount (sparseCloseChannel sm) := by
  have begin_ : Listed sm 0 (sparseFileNew sm.blockSize (sm.blockSize * sm.blocksCount)) :=
    ⟨sparseFileNew_queued True pos _, nofun, by
      funext q
      rw [Nat.zero_mul, if_neg (Nat.not_lt_zero q)]
      rfl, nofun, rfl, mul_comm _ _⟩
  have closing : Closing sm 0 (if (sm.blocks 0).isNone then none else some 0,
      sparseFileNew sm.blockSize (sm.blockSize * sm.blocksCount)) := by
    split
    · exact ⟨begin_, nofun⟩
    · refine ⟨begin_, fun c is => ?_⟩
      cases is
      exact ⟨.inr rfl, fun none => ‹¬ _› (by rw [none]; rfl)⟩
  have closed := closing.rounds small (le_refl _)
  rw [sparseCloseChannel]
  generalize (List.range sm.blocksCount).foldl (closeRound sm) _ = st at closed ⊢
  obtain ⟨start, s⟩ := st
  obtain ⟨listed, started⟩ := closed
  rcases start with _ | c
  · exact listed
  have before : c < sm.blocksCount := by
    rcases (started c rfl).1 with before | rfl
    · exact before
    · exact some_
  exact Listed.merge listed before (le_refl _) small

/- No run of blocks that were not written is too long for a chunk. -/
def GapsShort (sm : SparseMap) : Prop :=
  ∀ a, a + 2 ^ 31 ≤ sm.blocksCount → ∃ b, a ≤ b ∧ b < a + 2 ^ 31 ∧ sm.blocks b ≠ none

theorem GapsShort.near {last stop : Nat} (gaps : GapsShort sm) (inside : stop ≤ sm.blocksCount)
    (free : ∀ b, last ≤ b → b < stop → sm.blocks b = none) : stop < last + 2 ^ 31 := by
  by_contra far
  obtain ⟨b, low, high, used⟩ := gaps last (by omega)
  exact used (free b low (by omega))

theorem linked_of_queued {cur last : Nat} {l : List BackedBlock} (gaps : GapsShort sm)
    (inside : cur ≤ sm.blocksCount) (le : last ≤ cur) (behind : ∀ bb ∈ l, last ≤ bb.block)
    (chain : l.Pairwise fun a b => a.block + a.len / sm.blockSize ≤ b.block)
    (ends : ∀ bb ∈ l, bb.block + bb.len / sm.blockSize ≤ cur)
    (whole : ∀ bb ∈ l, sm.blockSize ∣ bb.len)
    (blocks : ∀ bb ∈ l, (∃ bytes, bb.backing = .data bytes) ∧ 0 < bb.len)
    (free : ∀ b, last ≤ b → b < cur → l.countP (Covers sm.blockSize b) = 0 → sm.blocks b = none) :
    Linked sm.blockSize cur last l := by
  induction l generalizing last with
  | nil => exact ⟨le, gaps.near inside fun b low high => free b low high rfl⟩
  | cons bb rest ih =>
    rw [forall_mem_cons] at behind ends whole blocks
    rw [pairwise_cons] at chain
    obtain ⟨k, is⟩ := whole.1
    have positive : 0 < k := pos_of_ne_zero fun zero => by
      rw [zero, Nat.mul_zero] at is
      exact absurd is blocks.1.2.ne'
    have span := Nat.le_add_right bb.block (bb.len / sm.blockSize)
    have near : bb.block < last + 2 ^ 31 := by
      refine gaps.near (by omega) fun b low high => free b low (by omega) ?_
      rw [countP_eq_zero]
      intro x mem covers
      simp only [Covers, decide_eq_true_eq] at covers
      rcases mem_cons.mp mem with rfl | later
      · omega
      · have := chain.1 x later
        omega
    refine ⟨⟨behind.1, near⟩, blocks.1.1, ⟨k, positive, by rw [is, mul_comm]⟩,
      ih ends.1 chain.1 chain.2 ends.2 whole.2 blocks.2 fun b low high uncovered => ?_⟩
    refine free b (by omega) high ?_
    rw [countP_cons, uncovered, if_neg]
    simp only [Covers, decide_eq_true_eq]
    omega

theorem Listed.linked (listed : Listed sm sm.blocksCount s) (gaps : GapsShort sm) :
    Linked sm.blockSize sm.blocksCount 0 s.blocks := by
  have list := listed.queued.list
  rw [listed.size] at list
  exact linked_of_queued gaps (le_refl _) (Nat.zero_le _) (fun _ _ => Nat.zero_le _)
    ((list.chain trivial).imp And.right) list.ends list.whole listed.blocks
    fun b _ lt => listed.free b lt

end Closing

section Reopened

variable {file pre post : List UInt8} {blockSize cur : Nat} {parts : List Part}

theorem place_meets (positive : 0 < blockSize) (is : file = pre ++ (encode blockSize parts ++ post))
    (sizes : ∀ part ∈ parts, (0 < part.size ∧ part.size < 2 ^ 31) ∧
      (part.encode blockSize).length ≤ 2 ^ 31) : ∀ c ∈ place blockSize pre.length parts,
      c.Meets (fun bb => Importable bb ∧ InFile file bb ∧ 0 < bb.len) blockSize := by
  induction parts generalizing pre with
  | nil => nofun
  | cons part rest ih =>
    have split : encode blockSize (part :: rest) = part.encode blockSize ++ encode blockSize rest :=
      rfl
    rw [split, append_assoc] at is
    rw [forall_mem_cons] at sizes
    have more := @ih (pre ++ part.encode blockSize) (by rw [is, append_assoc]) sizes.2
    rw [length_append] at more
    cases part with
    | skip blocks =>
      rw [place_cons rfl, forall_mem_cons]
      exact ⟨trivial, more⟩
    | data blocks bytes =>
      rw [place_cons rfl, forall_mem_cons]
      refine ⟨fun cur => ?_, more⟩
      have length :
          (Part.encode blockSize (.data blocks bytes)).length = 12 + blocks * blockSize := by
        simp [Part.encode, length_chunkHeader]
      have some_ : 0 < blocks := sizes.1.1.1
      refine ⟨⟨mul_pos some_ positive, by have := sizes.1.2; dsimp only; omega⟩, ?_,
        mul_pos some_ positive⟩
      · intro offset same
        cases same
        have total := congrArg List.length is
        rw [length_append, length_append, length] at total
        dsimp only
        omega

theorem field_sparseHeader (blkSz totalBlks totalChunks : Nat) (rest : List UInt8) :
    let hdr := (sparseHeader blkSz totalBlks totalChunks ++ rest).take 28
    field hdr 0 4 = sparseHeaderMagic ∧ field hdr 4 2 = 1 ∧ field hdr 8 2 = 28 ∧
      field hdr 10 2 = 12 ∧
      field hdr 12 4 = blkSz % 2 ^ 32 ∧ field hdr 16 4 = totalBlks % 2 ^ 32 ∧
          field hdr 20 4 = totalChunks % 2 ^ 32 := by
  exact ⟨(ofBytes_toBytes 4 sparseHeaderMagic).trans (by norm_num [sparseHeaderMagic]),
    ofBytes_toBytes 2 1,
    ofBytes_toBytes 2 28, ofBytes_toBytes 2 12, ofBytes_toBytes 4 blkSz,
    ofBytes_toBytes 4 totalBlks,
    ofBytes_toBytes 4 totalChunks⟩

theorem sparseFileImport_parts (block : blockSize < 2 ^ 32) (four : blockSize % 4 = 0)
    (positive : 0 < blockSize)
    (some_ : 0 < cur) (small : cur < 2 ^ 32) (number : parts.length < 2 ^ 32)
    (fits : ∀ part ∈ parts, part.Fits blockSize) (total : partsSize parts = cur) :
    sparseFileImport (sparseHeader blockSize cur parts.length ++ encode blockSize parts) =
      some (addAll (sparseFileNew blockSize (cur * blockSize)) 0 (place blockSize 28 parts)) := by
  generalize is : sparseHeader blockSize cur parts.length ++ encode blockSize parts = file
  have length : (sparseHeader blockSize cur parts.length).length = 28 := by simp [sparseHeader]
  have header : readValue file 0 28 = some (file.take 28) :=
    if_pos (by rw [← is, length_append, length]; omega)
  obtain ⟨magic, major, fileHdr, chunkHdr, blkSz, totalBlks, totalChunks⟩ :=
    field_sparseHeader blockSize cur parts.length (encode blockSize parts)
  rw [is] at magic major fileHdr chunkHdr blkSz totalBlks totalChunks
  rw [mod_eq_of_lt block] at blkSz
  rw [mod_eq_of_lt small] at totalBlks
  rw [mod_eq_of_lt number] at totalChunks
  have read := @readChunks_place file (sparseHeader blockSize cur parts.length) [] parts
    (sparseFileNew blockSize (cur * blockSize)) 0 (by rw [append_nil]; exact is.symm) fits positive
    (by rw [total, zero_add]; exact small)
  rw [length, total, zero_add] at read
  rw [sparseFileImport, header]
  simp only [magic, major, fileHdr, chunkHdr, blkSz, totalBlks, totalChunks, read]
  rw [if_pos ⟨trivial, trivial, by omega, by omega, by omega, four, by omega⟩, if_pos trivial]
  rfl

theorem length_le_partsSize (positive : ∀ part ∈ parts, 0 < part.size) :
    parts.length ≤ partsSize parts := by
  induction parts with
  | nil => exact le_refl _
  | cons part rest ih =>
    rw [forall_mem_cons] at positive
    have more := ih positive.2
    have sum : partsSize (part :: rest) = part.size + partsSize rest := rfl
    rw [sum, length_cons]
    omega

theorem part_fits {part : Part} (size : part.size < 2 ^ 31)
    (length : (part.encode blockSize).length ≤ 2 ^ 31) : part.Fits blockSize := by
  cases part with
  | skip blocks => exact size
  | data blocks bytes =>
    have is : (Part.encode blockSize (.data blocks bytes)).length = 12 + blocks * blockSize := by
      simp [Part.encode, length_chunkHeader]
    exact ⟨size, by omega⟩

theorem reopened (block : blockSize < 2 ^ 31) (unit : blockSize % 1024 = 0)
    (positive : 0 < blockSize)
    (some_ : 0 < cur) (small : cur < 2 ^ 32) (total : partsSize parts = cur)
    (sizes : ∀ part ∈ parts, (0 < part.size ∧ part.size < 2 ^ 31) ∧
      (part.encode blockSize).length ≤ 2 ^ 31) :
    ∃ ch, ioManagerImportSparse
      (sparseHeader blockSize cur parts.length ++ encode blockSize parts) = some ch ∧
      Importing ch blockSize cur ∧ content ch.sm = partsImage blockSize parts := by
  have number := length_le_partsSize fun part mem => (sizes part mem).1.1
  rw [total] at number
  have length : (sparseHeader blockSize cur parts.length).length = 28 := by simp [sparseHeader]
  have apart : Apart blockSize 0 (place blockSize 28 parts) := place_apart (Nat.zero_le _)
  have imported := sparseFileImport_parts (by omega) (by omega) positive some_ (by omega) (by omega)
    (fun part mem => part_fits (sizes part mem).1.2 (sizes part mem).2) total
  generalize is : sparseHeader blockSize cur parts.length ++ encode blockSize parts = file
    at imported ⊢
  have here : file = sparseHeader blockSize cur parts.length ++ (encode blockSize parts ++ []) := by
    rw [append_nil, is]
  have grows : ∀ old bb, Grown old bb → (Importable old ∧ InFile file old ∧ 0 < old.len) →
      Importable bb ∧ InFile file bb ∧ 0 < bb.len := by
    intro old bb grown all
    refine ⟨importable_grown old bb grown all.1, ?_⟩
    rcases grown with rfl | ⟨⟨val, fill⟩, k, rfl⟩
    · exact all.2
    · exact ⟨fun _ fd => Backing.noConfusion (fill.symm.trans fd), Nat.add_pos_left all.2.2 k⟩
  obtain ⟨⟨p, filled⟩, size, len⟩ := @addAll_new file _ _ True _ grows (fun _ _ all => all.2.2)
    (cur * blockSize) positive apart (place_meets positive here sizes)
    (by rw [totalSize_place, total]; omega)
  have bytes := image_place here
  rw [length] at bytes
  rw [totalSize_place, total, map_unfilled_place, bytes] at filled
  have importable : Filled True Importable file _ cur p (partsImage blockSize parts) :=
    ⟨filled.queued, filled.bytes, filled.empty, fun bb mem => (filled.all bb mem).1⟩
  rcases importable.opened (by omega) some_ (by omega) (by rw [len, size]) imported with
    ⟨-, bb, mem, missing⟩ | ⟨ch, m, opened, importing, exact_, same⟩
  · exact absurd (filled.all bb mem).2.1 missing
  · rw [size, exact_ trivial] at importing
    exact ⟨ch, opened, importing, same⟩

theorem Listed.written {sm : SparseMap} {s : SparseFile} (listed : Listed sm sm.blocksCount s)
    (limit : sm.blockSize ≤ 2 ^ 26) (small : sm.blocksCount < 2 ^ 32) (gaps : GapsShort sm) :
    ∃ parts, sparseFileWrite s =
        some (sparseHeader sm.blockSize sm.blocksCount parts.length ++ encode sm.blockSize parts) ∧
      partsSize parts = sm.blocksCount ∧ partsImage sm.blockSize parts = content sm ∧
      ∀ part ∈ parts, (0 < part.size ∧ part.size < 2 ^ 31) ∧
        (part.encode sm.blockSize).length ≤ 2 ^ 31 := by
  have pos : 0 < sm.blockSize := listed.size ▸ listed.queued.pos
  have limited : maxBackedBlockSize / sm.blockSize * sm.blockSize ≤ 2 ^ 26 := div_mul_le_self _ _
  have atLeast : 0 < maxBackedBlockSize / sm.blockSize := Nat.div_pos limit pos
  obtain ⟨l, split, linked, short, same⟩ := splitAll_eq pos atLeast (splitFuel s.blocks) 0 s.blocks
    (listed.linked gaps) (lt_succ_self _)
  obtain ⟨spans, e, written, le, encoded⟩ := writeBlocks_eq pos small linked
  have inside : e * sm.blockSize ≤ sm.blocksCount * sm.blockSize := Nat.mul_le_mul_right _ le
  have number : divRoundUp (sm.blocksCount * sm.blockSize) sm.blockSize = sm.blocksCount := by
    rw [divRoundUp_of_dvd pos (Nat.dvd_mul_left _ _), Nat.mul_div_cancel _ pos]
  have counted : sparseCountChunks ⟨sm.blockSize, sm.blocksCount * sm.blockSize, l, s.lastUsed⟩ =
      (partsFrom sm.blockSize sm.blocksCount 0 l).length := by
    simp only [sparseCountChunks, number]
    exact (sparseCountChunks_eq pos small linked 0).trans (zero_add _)
  have pad : (if 0 < sm.blocksCount * sm.blockSize - e * sm.blockSize then
      writeSparseSkipChunk sm.blockSize (sm.blocksCount * sm.blockSize - e * sm.blockSize)
        else []) =
      if e < sm.blocksCount then writeSparseSkipChunk sm.blockSize
          ((sm.blocksCount - e) * sm.blockSize) else [] := by
    rw [← Nat.sub_mul]
    exact if_congr (by rw [Nat.mul_pos_iff_of_pos_right pos, Nat.sub_pos_iff_lt]) rfl rfl
  refine ⟨partsFrom sm.blockSize sm.blocksCount 0 l, ?_, ?_, ?_, ?_⟩
  · rw [sparseFileWrite, listed.size, split]
    dsimp only
    rw [written]
    dsimp only
    rw [listed.len, if_neg (Nat.not_lt.mpr inside), number, pad, flatMap_append,
      writeSparseSkipChunk_gap pos, ← encoded, counted]
  · have := partsSize_partsFrom linked
    rwa [zero_add] at this
  · have image := @partsImage_partsFrom _ _ 0 l zeros pos linked fun _ _ => rfl
    rw [Nat.zero_mul, onto_zero, same] at image
    rw [image]
    refine listed.bytes.trans (funext fun q => ?_)
    split
    · rfl
    · rw [content, if_neg ‹_›]
  · intro part mem
    obtain ⟨positive, bound⟩ := partsFrom_sizes pos linked short part mem
    cases part with
    | skip blocks =>
      refine ⟨⟨positive, bound⟩, ?_⟩
      rw [Part.encode, length_chunkHeader]
      norm_num
    | data blocks bytes =>
      have most : maxBackedBlockSize / sm.blockSize ≤ 2 ^ 26 := Nat.div_le_self _ _
      have := Nat.mul_le_mul_right sm.blockSize bound
      refine ⟨⟨positive, by change blocks < _; omega⟩, ?_⟩
      rw [Part.encode, length_append, length_chunkHeader, length_map, length_range]
      omega

end Reopened

/- Sizes of an image that can be written and read again: larger blocks than
`MAX_BACKED_BLOCK_SIZE` are split without end, and a chunk of 2^31 blocks is refused. -/
structure Closable (sm : SparseMap) : Prop where
  unit : sm.blockSize % 1024 = 0
  block : 0 < sm.blockSize
  limit : sm.blockSize ≤ 2 ^ 26
  some_ : 0 < sm.blocksCount
  count : sm.blocksCount < 2 ^ 32
  gaps : GapsShort sm

structure Same (sm sm' : SparseMap) : Prop where
  blockSize : sm'.blockSize = sm.blockSize
  blocksCount : sm'.blocksCount = sm.blocksCount
  content : content sm' = content sm

theorem closed_reopened {sm : SparseMap} (closable : Closable sm) (blockSize : Nat) :
    ∃ file ch', sparseClose ⟨⟨sm, blockSize⟩, true⟩ = some file ∧
    ioManagerImportSparse file = some ch' ∧ Same sm ch'.sm := by
  obtain ⟨unit, block, limit, some_, count, gaps⟩ := closable
  have listed := sparseCloseChannel_eq block some_ count
  obtain ⟨parts, written, total, bytes, sizes⟩ := listed.written limit count gaps
  obtain ⟨ch', opened, importing, same⟩ := reopened (by omega) unit block some_ count total sizes
  refine ⟨_, ch', ?_, opened, importing.image, importing.count, same.trans bytes⟩
  exact written

theorem openForWriting_fdOpen {byFd : Bool} {old : List UInt8} {blockSize blocksCount : Nat}
    {w : Writer}
    (opened : openForWriting byFd old blockSize blocksCount = some w) : w.fdOpen = !byFd := by
  rw [openForWriting] at opened
  split at opened
  · cases opened
    rfl
  · split at opened
    · cases opened
    · cases opened
      rfl

theorem imported_iff {file : List UInt8} {chunks : List Chunk} {ch : Channel}
    (decoded : decode file = some chunks) (imported : ioManagerImportSparse file = some ch)
    (unit : fileBlockSize file % 1024 = 0)
    (addressed : ∀ c ∈ chunks, c.Addressed (fileBlockSize file))
    (small : totalSize chunks < 2 ^ 32) :
    content ch.sm = image file (fileBlockSize file) chunks ↔ ∀ c ∈ chunks, c.Kept := by
  have accepted : ∃ s, sparseFileImport file = some s := by
    cases none_or : sparseFileImport file with
    | none => simp [ioManagerImportSparse, none_or] at imported
    | some s => exact ⟨s, rfl⟩
  obtain ⟨s, is⟩ := accepted
  have pos := (sparseFileImport_cases is).2.1
  rw [import_image decoded imported (by omega) addressed small]
  exact image_unfilled_iff file (by omega) chunks

theorem reopened_iff {old : List UInt8} {byFd : Bool} {blockSize blocksCount : Nat} {w : Writer}
    {ops : List Op} (opened : openForWriting byFd old blockSize blocksCount = some w)
    (closable : Closable (runOps w.ch ops).sm) :
    (∃ file ch, sparseClose ⟨runOps w.ch ops, w.fdOpen⟩ = some file ∧
      ioManagerImportSparse file = some ch ∧ Same (runOps w.ch ops).sm ch.sm) ↔ byFd = false := by
  rw [openForWriting_fdOpen opened]
  cases byFd with
  | false => exact iff_of_true (closed_reopened closable _) rfl
  | true =>
    refine iff_of_false ?_ (by simp)
    rintro ⟨file, ch, closed, -⟩
    cases closed

/-- What the file describes is opened, and what was written is read again. -/
theorem sparse_image_survives {file old : List UInt8} {chunks : List Chunk} {ch : Channel}
    (decoded : decode file = some chunks) (imported : ioManagerImportSparse file = some ch)
    (unit : fileBlockSize file % 1024 = 0)
    (addressed : ∀ c ∈ chunks, c.Addressed (fileBlockSize file)) (small : totalSize chunks < 2 ^ 32)
    {byFd : Bool} {blockSize blocksCount : Nat} {w : Writer} {ops : List Op}
    (opened : openForWriting byFd old blockSize blocksCount = some w)
    (closable : Closable (runOps w.ch ops).sm) :
    (content ch.sm = image file (fileBlockSize file) chunks ↔ ∀ c ∈ chunks, c.Kept) ∧
      ((∃ file' ch', sparseClose ⟨runOps w.ch ops, w.fdOpen⟩ = some file' ∧
        ioManagerImportSparse file' = some ch' ∧ Same (runOps w.ch ops).sm ch'.sm) ↔
        byFd = false) :=
  ⟨imported_iff decoded imported unit addressed small, reopened_iff opened closable⟩

def sampleFile : List UInt8 :=
  sparseHeader 1024 3 3 ++ chunkHeader chunkRaw 1 1036 ++ List.replicate 1024 7 ++
    chunkHeader chunkFill 1 16 ++ toBytes 4 0 ++ chunkHeader chunkDontCare 1 12

theorem sample_image_survives : (∃ ch, ioManagerImportSparse sampleFile = some ch ∧
      content ch.sm = image sampleFile 1024 [.raw 40 1, .fill 0 1, .dontCare 1]) ∧
    ∃ file ch', sparseClose ⟨runOps (newChannel 1024 4) [.write 2 1 (fill 7)], true⟩ = some file ∧
      ioManagerImportSparse file = some ch' ∧
      Same (runOps (newChannel 1024 4) [.write 2 1 (fill 7)]).sm ch'.sm := by
  have some_ : (ioManagerImportSparse sampleFile).isSome = true := by decide +kernel
  obtain ⟨ch, is⟩ := isSome_iff_exists.mp some_
  have decoded : decode sampleFile = some [.raw 40 1, .fill 0 1, .dontCare 1] := by decide +kernel
  have size : fileBlockSize sampleFile = 1024 := by decide +kernel
  have opened : openForWriting false [] 1024 4 = some ⟨newChannel 1024 4, true⟩ := rfl
  have closable : Closable (runOps (newChannel 1024 4) [.write 2 1 (fill 7)]).sm :=
    ⟨by decide, by decide, by decide, by decide, by decide,
      fun a inside => absurd inside (by change ¬ a + 2 ^ 31 ≤ 4; omega)⟩
  have survives := sparse_image_survives decoded is (by rw [size])
    (by simp [Chunk.Addressed, size]) (by simp [totalSize, Chunk.size]) opened closable
  exact ⟨⟨ch, is, survives.1.mpr (by decide)⟩, survives.2.mpr rfl⟩

def filledFile : List UInt8 := sparseHeader 1024 1 1 ++ chunkHeader chunkFill 1 16 ++ toBytes 4 1

theorem fill_not_imported : decode filledFile = some [.fill 1 1] ∧ fileBlockSize filledFile = 1024 ∧
    ∃ ch, ioManagerImportSparse filledFile = some ch ∧
    content ch.sm ≠ image filledFile 1024 [.fill 1 1] := by
  refine ⟨by decide +kernel, by decide +kernel, ?_⟩
  have first : (ioManagerImportSparse filledFile).map (fun ch => content ch.sm 0) = some 0 := by
    decide +kernel
  obtain ⟨ch, is, zero⟩ := map_eq_some_iff.mp first
  refine ⟨ch, is, fun same => ?_⟩
  rw [same] at zero
  exact absurd zero (by decide +kernel)

end E2fs.Sparse
