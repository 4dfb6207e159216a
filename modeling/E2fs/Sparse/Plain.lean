import E2fs.Sparse.Channel

/-! When the channel over a sparse image is a plain block device. -/
namespace E2fs.Sparse
open Memory Device Word Run Function List Option Prod

section Pieces

variable {ch : Channel} {sm : SparseMap} {block n k off : Nat} {src : Nat → UInt8}

theorem content_setBlock (b : Option Content) (q : Nat) : content (setBlock sm k b) q =
    if q < sm.blocksCount * sm.blockSize ∧ q / sm.blockSize = k
    then (b.getD zeros) (q % sm.blockSize) else content sm q := by
  show (if q < sm.blocksCount * sm.blockSize then
    ((update sm.blocks k b (q / sm.blockSize)).getD zeros) (q % sm.blockSize) else 0) = _
  rw [update_apply, content]
  by_cases within : q < sm.blocksCount * sm.blockSize
  · by_cases own : q / sm.blockSize = k
    · rw [if_pos within, if_pos own, if_pos ⟨within, own⟩]
    · rw [if_pos within, if_neg own, if_neg fun both => own both.2, if_pos within]
  · rw [if_neg within, if_neg fun both => within both.1, if_neg within]

theorem div_of_piece {size q : Nat} (low : k * size ≤ q) (high : q < k * size + size) :
    q / size = k :=
  Nat.div_eq_of_lt_le low (by rwa [Nat.succ_mul])

theorem content_at (lt : off < sm.blockSize)
    (inside : k * sm.blockSize + off < sm.blocksCount * sm.blockSize) :
    content sm (k * sm.blockSize + off) = ((sm.blocks k).getD zeros) off := by
  have own : (k * sm.blockSize + off) / sm.blockSize = k := div_of_piece (by omega) (by omega)
  rw [content, if_pos inside, own, Nat.mul_add_mod', Nat.mod_eq_of_lt lt]

theorem content_piece (small : off + n ≤ sm.blockSize)
    (inside : k * sm.blockSize + off + n ≤ sm.blocksCount * sm.blockSize) :
    content (setBlock sm k (some (patch ((sm.blocks k).getD zeros) off n src))) =
      patch (content sm) (k * sm.blockSize + off) n src := by
  funext q
  rw [content_setBlock, getD_some]
  by_cases own : q < sm.blocksCount * sm.blockSize ∧ q / sm.blockSize = k
  · have split := Nat.div_add_mod' q sm.blockSize
    rw [own.2] at split
    have here : content sm q = ((sm.blocks k).getD zeros) (q % sm.blockSize) := by
      rw [content, if_pos own.1, own.2]
    rw [if_pos own]
    by_cases inRange : off ≤ q % sm.blockSize ∧ q % sm.blockSize < off + n
    · rw [patch_inside inRange.1 inRange.2, patch_inside (by omega) (by omega)]
      congr 1
      omega
    · rw [patch_apart (by omega), patch_apart (by omega), here]
  · rw [if_neg own]
    by_cases inRange : k * sm.blockSize + off ≤ q ∧ q < k * sm.blockSize + off + n
    · exact absurd ⟨by omega, div_of_piece (by omega) (by omega)⟩ own
    · rw [patch_apart (by omega)]

theorem Fits.div (fits : Fits ch) (block : Nat) :
    (blockToSparseBlock block ch).1 = block * ch.blockSize / ch.sm.blockSize := by
  obtain ⟨place, small⟩ := fits.place block
  have pos := fits.pos
  exact (div_of_piece (by omega) (by omega)).symm

structure Piece (ch : Channel) (block n : Nat) : Prop where
  small : (blockToSparseBlock block ch).2 + n ≤ ch.sm.blockSize
  inside : block * ch.blockSize + n ≤ ch.sm.blocksCount * ch.sm.blockSize

theorem Fits.piece (fits : Fits ch)
    (inside : (block + 1) * ch.blockSize ≤ ch.sm.blocksCount * ch.sm.blockSize) :
    Piece ch block ch.blockSize where
  small := (fits.place block).2
  inside := by rwa [← Nat.succ_mul]

theorem readPiece_eq (fits : Fits ch) (piece : Piece ch block n) (out : Mem) (p : Int) :
    readPiece ch block out p n = copyTo out p n fun j =>
    content ch.sm (block * ch.blockSize + j) := by
  have place := (fits.place block).1
  have small := piece.small
  have inside := piece.inside
  have same : ∀ j < n, content ch.sm (block * ch.blockSize + j) =
      ((ch.sm.blocks (blockToSparseBlock block ch).1).getD zeros)
          ((blockToSparseBlock block ch).2 + j) := by
    intro j lt
    rw [← place, add_assoc]
    exact content_at (by omega) (by omega)
  rw [copyTo_congr same]
  cases there : ch.sm.blocks (blockToSparseBlock block ch).1 with
  | none | some buf =>
    simp only [readPiece, there]
    rfl

theorem writePiece_eq (fits : Fits ch) (piece : Piece ch block n)
    (size : sm.blockSize = ch.sm.blockSize) (count : sm.blocksCount = ch.sm.blocksCount) :
    content (writePiece ch block sm n src) = patch (content sm) (block * ch.blockSize) n src := by
  have place := (fits.place block).1
  have small := piece.small
  have inside := piece.inside
  rw [← size, ← count] at inside
  rw [← size] at small place
  rw [← place] at inside ⊢
  exact content_piece small inside

end Pieces

section Loops

variable {ch : Channel} {sm : SparseMap} {block : Nat}

theorem writeLoop_eq (fits : Fits ch) (buf : Mem) {left : Nat} (i : Nat)
    (size : sm.blockSize = ch.sm.blockSize) (count : sm.blocksCount = ch.sm.blocksCount)
    (inside : (block + i + left) * ch.blockSize ≤ ch.sm.blocksCount * ch.sm.blockSize) :
    content (writeLoop ch block buf left i sm) = patch (content sm) ((block + i) * ch.blockSize)
      (min left (ch.sm.blocksCount - (block + i)) * ch.blockSize)
      fun j =>
      buf (toInt32 ((i + j / ch.blockSize) * ch.blockSize) + (j % ch.blockSize : Nat)) := by
  induction left generalizing i sm with
  | zero => simp [writeLoop]
  | succ left ih =>
    rw [writeLoop, count]
    split_ifs with beyond
    · rw [Nat.sub_eq_zero_of_le beyond, min_zero, Nat.zero_mul, patch_none]
    have pos := fits.pos
    have piece : Piece ch (block + i) ch.blockSize := fits.piece
      ((Nat.mul_le_mul_right _ (by omega)).trans inside)
    refine Eq.trans (ih (i + 1) size count ?_) ?_
    · rwa [show block + (i + 1) + left = block + i + (left + 1) by omega]
    rw [writePiece_eq fits piece size count,
      show (block + (i + 1)) * ch.blockSize = (block + i) * ch.blockSize + ch.blockSize by ring,
      patch_append,
      show min (left + 1) (ch.sm.blocksCount - (block + i)) =
        min left (ch.sm.blocksCount - (block + (i + 1))) + 1 by omega,
      add_one_mul, add_comm ch.blockSize]
    apply patch_congr
    intro j _
    split_ifs with lt
    · rw [Nat.div_eq_of_lt lt, Nat.mod_eq_of_lt lt, add_zero]
    · obtain ⟨j', rfl⟩ := Nat.exists_eq_add_of_le (Nat.le_of_not_lt lt)
      rw [Nat.add_sub_cancel_left, Nat.add_div_left _ pos, Nat.add_mod_left,
        show i + 1 + j' / ch.blockSize = i + (j' / ch.blockSize).succ by omega]

/- The bytes of all image blocks that the request meets go. -/
def Freed (ch : Channel) (blk count q : Nat) : Prop :=
  ∃ k < count, blk + k < ch.sm.blocksCount ∧
    (blk + k) * ch.blockSize / ch.sm.blockSize = q / ch.sm.blockSize

instance (ch : Channel) (blk count q : Nat) : Decidable (Freed ch blk count q) :=
  inferInstanceAs (Decidable (∃ k < count, blk + k < ch.sm.blocksCount ∧
    (blk + k) * ch.blockSize / ch.sm.blockSize = q / ch.sm.blockSize))

theorem discardLoop_eq (fits : Fits ch) (left i : Nat) (size : sm.blockSize = ch.sm.blockSize)
    (count : sm.blocksCount = ch.sm.blocksCount) (q : Nat) :
    content (discardLoop ch block left i sm) q = if Freed ch (block + i) left q then 0
    else content sm q := by
  induction left generalizing i sm with
  | zero =>
    rw [if_neg]
    · rfl
    · rintro ⟨k, lt, -⟩
      omega
  | succ left ih =>
    rw [discardLoop, count]
    split
    · rename_i beyond
      rw [if_neg]
      rintro ⟨k, -, under, -⟩
      omega
    rename_i under
    have more : Freed ch (block + i) (left + 1) q ↔ Freed ch (block + (i + 1)) left q ∨
          (block + i) * ch.blockSize / ch.sm.blockSize = q / ch.sm.blockSize := by
      constructor
      · rintro ⟨k, lt, inside, is⟩
        cases k with
        | zero => exact .inr is
        | succ k =>
          refine .inl ⟨k, by omega, by omega, ?_⟩
          rwa [show block + (i + 1) + k = block + i + (k + 1) by omega]
      · rintro (⟨k, lt, inside, is⟩ | is)
        · refine ⟨k + 1, by omega, by omega, ?_⟩
          rwa [show block + i + (k + 1) = block + (i + 1) + k by omega]
        · exact ⟨0, by omega, by omega, is⟩
    refine Eq.trans (ih (i + 1) size count) ?_
    rw [content_setBlock, fits.div, size, getD_none]
    by_cases later : Freed ch (block + (i + 1)) left q
    · rw [if_pos later, if_pos (more.mpr (.inl later))]
    rw [if_neg later]
    by_cases own : (block + i) * ch.blockSize / ch.sm.blockSize = q / ch.sm.blockSize
    · rw [if_pos (more.mpr (.inr own))]
      split_ifs with outside
      · rfl
      · rw [content, if_neg fun lt => outside ⟨size ▸ lt, own.symm⟩]
    · rw [if_neg fun both => own both.2.symm, if_neg fun either => (more.mp either).elim later own]

end Loops

section Spec

/- What the channel should stand for: its block size and the bytes of the image. -/
def want (t : Nat × Content) : Op → Nat × Content
  | .setBlksize blksize => (blksize, t.2)
  | .read _ _ => t
  | .write block count buf =>
    (t.1, patch t.2 (block * t.1) (if count < 0 then count.natAbs else count.toNat * t.1)
      fun j => buf j)
  | .zeroout blk count => (t.1, patch t.2 (blk * t.1) (count * t.1) zeros)
  | .discard blk count => (t.1, patch t.2 (blk * t.1) (count * t.1) zeros)

/- A request for bytes of the image: whole blocks, or some bytes of one image block. -/
def Request (ch : Channel) (block : Nat) (count : Int) : Prop :=
  if count < 0 then Piece ch block count.natAbs
  else (block + count.toNat) * ch.blockSize ≤ ch.sm.blocksCount * ch.sm.blockSize

def Inside (ch : Channel) : Op → Prop
  | .setBlksize blksize => 0 < blksize ∧ blksize ∣ ch.sm.blockSize
  | .read block count => Request ch block count
  | .write block count _ => Request ch block count
  | .zeroout blk count => (blk + count) * ch.blockSize ≤ ch.sm.blocksCount * ch.sm.blockSize
  | .discard blk count => (blk + count) * ch.blockSize ≤ ch.sm.blocksCount * ch.sm.blockSize

/-- What reading gives, for all requests of at most 2 GiB. -/
def Reads (ch : Channel) (c : Content) : Prop :=
  ∀ block count out, Request ch block count → count * ch.blockSize ≤ 2 ^ 31 →
    ∃ out', sparseReadBlk64 ch block count out = .ok out' ∧
      ∀ j < (if count < 0 then count.natAbs else count.toNat * ch.blockSize),
        out' j = c (block * ch.blockSize + j)

/-- What the calls that write leave right: the blocks behind the number of image blocks hold
the new bytes before, and only zeros are lost beside a range that is zeroed. -/
def Harmless (ch : Channel) : Op → Prop
  | .setBlksize _ => True
  | .read _ _ => True
  | .write block count buf => ∀ i < count.toNat, ∀ j < ch.blockSize,
    if ch.sm.blocksCount ≤ block + i then content ch.sm ((block + i) * ch.blockSize + j) =
      buf (i * ch.blockSize + j)
    else buf (toInt32 (i * ch.blockSize) + j) = buf (i * ch.blockSize + j)
  | .zeroout blk count => ∀ q, content ch.sm q ≠ 0 →
    (Freed ch blk count q ↔ blk * ch.blockSize ≤ q ∧ q < (blk + count) * ch.blockSize)
  | .discard blk count => ∀ q, content ch.sm q ≠ 0 →
    (Freed ch blk count q ↔ blk * ch.blockSize ≤ q ∧ q < (blk + count) * ch.blockSize)

def view (ch : Channel) : Nat × Content := (ch.blockSize, content ch.sm)

end Spec

section Steps

variable {ch : Channel}

theorem writeLoop_size (ch : Channel) (block : Nat) (buf : Mem) (left i : Nat) (sm : SparseMap) :
    (writeLoop ch block buf left i sm).blockSize = sm.blockSize ∧
      (writeLoop ch block buf left i sm).blocksCount = sm.blocksCount := by
  induction left generalizing i sm with
  | zero => exact ⟨rfl, rfl⟩
  | succ left ih =>
    rw [writeLoop]
    split
    · exact ⟨rfl, rfl⟩
    · exact ih _ _

theorem discardLoop_size (ch : Channel) (blk left i : Nat) (sm : SparseMap) :
    (discardLoop ch blk left i sm).blockSize = sm.blockSize ∧
      (discardLoop ch blk left i sm).blocksCount = sm.blocksCount := by
  induction left generalizing i sm with
  | zero => exact ⟨rfl, rfl⟩
  | succ left ih =>
    rw [discardLoop]
    split
    · exact ⟨rfl, rfl⟩
    · exact ih _ _

section

variable (fits : Fits ch)
include fits

theorem step_size (op : Op) :
    (step ch op).sm.blockSize = ch.sm.blockSize ∧ (step ch op).sm.blocksCount = ch.sm.blocksCount ∧
      (step ch op).blockSize =
        match op with | .setBlksize blksize => blksize | _ => ch.blockSize := by
  cases op with
  | setBlksize blksize | read block count => exact ⟨rfl, rfl, rfl⟩
  | write block count buf =>
    simp only [step, sparseWriteBlk64, fits.check]
    split
    · exact ⟨rfl, rfl, rfl⟩
    · have sizes := writeLoop_size ch block buf count.toNat 0 ch.sm
      exact ⟨sizes.1, sizes.2, rfl⟩
  | zeroout blk count =>
    have sizes := discardLoop_size ch blk count 0 ch.sm
    simp only [step, sparseZeroout, sparseDiscard, fits.check]
    exact ⟨sizes.1, sizes.2, rfl⟩
  | discard blk count =>
    have sizes := discardLoop_size ch blk count 0 ch.sm
    simp only [step, sparseDiscard, fits.check]
    exact ⟨sizes.1, sizes.2, rfl⟩

theorem Fits.step (op : Op) (inside : Inside ch op) : Fits (step ch op) := by
  obtain ⟨size, -, channel⟩ := step_size fits op
  cases op with
  | setBlksize blksize => exact ⟨inside.1, inside.2, fits.image⟩
  | read block count => exact fits
  | write block count buf | zeroout blk count =>
    exact ⟨channel ▸ fits.pos, by rw [channel, size]; exact fits.dvd, size ▸ fits.image⟩
  | discard blk count =>
    exact ⟨channel ▸ fits.pos, by rw [channel, size]; exact fits.dvd, size ▸ fits.image⟩

theorem write_exactly (block : Nat) (count : Int) (buf : Mem) (inside : Request ch block count) :
    view (step ch (.write block count buf)) = want (view ch) (.write block count buf) ↔
      Harmless ch (.write block count buf) := by
  simp only [step, sparseWriteBlk64, fits.check, want, view]
  by_cases negative : count < 0
  · rw [Request, if_pos negative] at inside
    rw [if_pos negative, if_pos negative]
    refine iff_of_true ?_ fun i lt => ?_
    · exact congrArg (mk ch.blockSize) (writePiece_eq fits inside rfl rfl)
    · omega
  rw [Request, if_neg negative] at inside
  rw [if_neg negative, if_neg negative]
  show (ch.blockSize, content (writeLoop ch block buf count.toNat 0 ch.sm)) = _ ↔ _
  rw [writeLoop_eq fits buf 0 rfl rfl (by simpa using inside), add_zero, mk.injEq,
    patch_eq_iff fits.pos (min_le_left _ _)]
  simp only [true_and, zero_add, Harmless]
  refine forall₂_congr fun i lt => forall₂_congr fun j small => ?_
  rw [mul_comm i, Nat.mul_add_div fits.pos, Nat.div_eq_of_lt small, add_zero, Nat.mul_add_mod,
    Nat.mod_eq_of_lt small, mul_comm ch.blockSize, ← add_assoc, ← add_mul]
  by_cases beyond : ch.sm.blocksCount ≤ block + i
  · rw [if_pos beyond, if_neg (by omega)]
    rfl
  · rw [if_neg beyond, if_pos (by omega)]
    rfl

theorem discard_exactly (blk count : Nat) :
    content (discardLoop ch blk count 0 ch.sm) = patch (content ch.sm) (blk * ch.blockSize)
    (count * ch.blockSize) zeros ↔
      ∀ q, content ch.sm q ≠ 0 →
      (Freed ch blk count q ↔ blk * ch.blockSize ≤ q ∧ q < (blk + count) * ch.blockSize) := by
  rw [funext_iff]
  refine forall_congr' fun q => ?_
  rw [discardLoop_eq fits count 0 rfl rfl, add_zero, patch, ← add_mul]
  by_cases zero : content ch.sm q = 0
  · simp [zero, zeros]
  by_cases freed : Freed ch blk count q
  · simp only [freed, if_true, zero, ne_eq, not_false_eq_true, true_iff, forall_true_left]
    split_ifs with inside
    · exact iff_of_true rfl inside
    · exact iff_of_false (Ne.symm zero) inside
  · simp only [freed, if_false, zero, ne_eq, not_false_eq_true, false_iff, forall_true_left]
    split_ifs with inside
    · exact iff_of_false zero (not_not.mpr inside)
    · exact iff_of_true rfl inside

theorem step_exactly {op : Op} (inside : Inside ch op) : view (step ch op) = want (view ch) op ↔
    Harmless ch op := by
  cases op with
  | setBlksize blksize | read block count => exact iff_of_true rfl trivial
  | write block count buf => exact write_exactly fits block count buf inside
  | zeroout blk count | discard blk count =>
    rw [Harmless, ← discard_exactly fits blk count]
    simp only [step, sparseZeroout, sparseDiscard, fits.check, view, want]
    exact mk.injEq _ _ _ _ ▸ ⟨And.right, fun same => ⟨rfl, same⟩⟩

end

end Steps

section Reading

variable {ch : Channel}

theorem readLoop_eq (fits : Fits ch) {block n : Nat} (out : Mem)
    (inside : (block + n) * ch.blockSize ≤ ch.sm.blocksCount * ch.sm.blockSize)
    (short : n * ch.blockSize ≤ 2 ^ 31) :
    (range n).foldl
      (fun out i => readPiece ch (block + i) out (toInt32 (i * ch.blockSize)) ch.blockSize) out =
    copyTo out 0 (n * ch.blockSize) fun j => content ch.sm (block * ch.blockSize + j) := by
  induction n with
  | zero =>
    funext q
    rw [copyTo_apart (by omega)]
    rfl
  | succ n ih =>
    have pos := fits.pos
    rw [add_one_mul] at short
    have piece : Piece ch (block + n) ch.blockSize := fits.piece inside
    rw [range_succ, foldl_append, ih ((Nat.mul_le_mul_right _ (by omega)).trans inside) (by omega),
      foldl_cons, foldl_nil, readPiece_eq fits piece, toInt32_eq (by omega)]
    funext q
    by_cases last :
      ((n * ch.blockSize : Nat) : Int) ≤ q ∧ q < (n * ch.blockSize : Nat) + ch.blockSize
    · rw [copyTo_inside last.1 last.2, copyTo_inside (by omega) (by rw [add_one_mul]; omega),
        add_mul]
      congr 1
      omega
    · rw [copyTo_apart (by omega)]
      by_cases before : 0 ≤ q ∧ q < (n * ch.blockSize : Nat)
      · rw [copyTo_inside before.1 (by omega), copyTo_inside before.1 (by rw [add_one_mul]; omega)]
      · rw [copyTo_apart (by omega), copyTo_apart (by rw [add_one_mul]; omega)]

theorem reads_content (fits : Fits ch) : Reads ch (content ch.sm) := by
  intro block count out request short
  rw [sparseReadBlk64, fits.check]
  by_cases negative : count < 0
  · rw [Request, if_pos negative] at request
    rw [if_pos negative, if_pos negative, readPiece_eq fits request]
    refine ⟨_, rfl, fun j lt => ?_⟩
    rw [copyTo_inside (by omega) (by omega)]
    congr 1
  · rw [Request, if_neg negative] at request
    obtain ⟨n, rfl⟩ := Int.eq_ofNat_of_zero_le (Int.not_lt.mp negative)
    rw [if_neg negative, if_neg negative, readLoop_eq fits out request (by exact_mod_cast short)]
    refine ⟨_, rfl, fun j lt => ?_⟩
    rw [copyTo_inside (by omega) (by omega)]
    congr 1

theorem Reads.eq_content (fits : Fits ch) {c : Content} (reads : Reads ch c)
    (short : ch.blockSize ≤ 2 ^ 31) {q : Nat}
    (inside : q < ch.sm.blocksCount * ch.sm.blockSize) : content ch.sm q = c q := by
  have pos := fits.pos
  obtain ⟨ratio, is⟩ := fits.dvd
  have split := Nat.div_add_mod' q ch.blockSize
  have small := Nat.mod_lt q pos
  have lt : q / ch.blockSize < ch.sm.blocksCount * ratio := by
    apply Nat.div_lt_of_lt_mul
    calc q < ch.sm.blocksCount * ch.sm.blockSize := inside
      _ = ch.blockSize * (ch.sm.blocksCount * ratio) := by rw [is]; ring
  have request : Request ch (q / ch.blockSize) 1 := by
    calc (q / ch.blockSize + 1) * ch.blockSize ≤ ch.sm.blocksCount * ratio * ch.blockSize :=
          Nat.mul_le_mul_right _ lt
      _ = ch.sm.blocksCount * ch.sm.blockSize := by rw [is]; ring
  have one : (1 : Int) * ch.blockSize ≤ 2 ^ 31 := by omega
  obtain ⟨out, ran, gives⟩ := reads _ 1 (fun _ => 0) request one
  obtain ⟨out', ran', gives'⟩ := reads_content fits _ 1 (fun _ => 0) request one
  cases ran.symm.trans ran'
  have here := gives (q % ch.blockSize) (by simpa using small)
  have here' := gives' (q % ch.blockSize) (by simpa using small)
  rw [split] at here here'
  exact here'.symm.trans here

end Reading

section Runs

variable {B N : Nat} {ch : Channel} {t : Nat × Content}

/-- The sizes of a run: those of the image stay, and nothing is wanted outside of it. -/
structure Sized (B N : Nat) (ch : Channel) (t : Nat × Content) : Prop where
  fits : Fits ch
  image : ch.sm.blockSize = B
  number : ch.sm.blocksCount = N
  channel : t.1 = ch.blockSize
  outside : ∀ q, N * B ≤ q → t.2 q = 0

section

variable (sized : Sized B N ch t)
include sized

theorem Sized.patched {p n : Nat} (new : Nat → UInt8) (inside : p + n ≤ N * B) :
    ∀ q, N * B ≤ q → patch t.2 p n new q = 0 := by
  intro q far
  rw [patch_apart (.inr (inside.trans far))]
  exact sized.outside q far

theorem Sized.outside_step (op : Op) (inside : Inside ch op) :
    ∀ q, N * B ≤ q → (want t op).2 q = 0 := by
  have channel := sized.channel
  cases op with
  | setBlksize blksize => exact sized.outside
  | read block count => exact sized.outside
  | write block count buf =>
    simp only [want]
    apply sized.patched
    have request : Request ch block count := inside
    rw [channel, ← sized.image, ← sized.number]
    by_cases negative : count < 0
    · rw [Request, if_pos negative] at request
      rw [if_pos negative]
      exact request.inside
    · rw [Request, if_neg negative] at request
      rw [if_neg negative, ← add_mul]
      exact request
  | zeroout blk count | discard blk count =>
    apply sized.patched
    rw [channel, ← sized.image, ← sized.number, ← add_mul]
    exact inside

theorem Sized.step (op : Op) (inside : Inside ch op) : Sized B N (step ch op) (want t op) := by
  obtain ⟨image, number, channel⟩ := step_size sized.fits op
  refine ⟨sized.fits.step op inside, image.trans sized.image, number.trans sized.number, ?_,
    sized.outside_step op inside⟩
  rw [channel]
  cases op <;> first | rfl | exact sized.channel

theorem Sized.reads_iff (int : B < 2 ^ 31) : Reads ch t.2 ↔ view ch = t := by
  constructor
  · intro reads
    refine Prod.ext sized.channel.symm (funext fun q => ?_)
    by_cases inside : q < ch.sm.blocksCount * ch.sm.blockSize
    · have := Nat.le_of_dvd sized.fits.image sized.fits.dvd
      rw [sized.image] at this
      exact reads.eq_content sized.fits (by omega) inside
    · have far : N * B ≤ q := by
        rw [← sized.image, ← sized.number]
        exact Nat.le_of_not_lt inside
      exact Eq.trans (if_neg inside) (sized.outside q far).symm
  · rintro rfl
    exact reads_content sized.fits

end

end Runs

/- What a new image of `N` blocks of `B` bytes should hold after a run. -/
def wanted (B : Nat) (ops : List Op) : Nat × Content := ops.foldl want (B, zeros)

theorem view_newChannel (B N : Nat) : view (newChannel B N) = (B, zeros) :=
  congrArg (mk B) (funext fun q => by rw [content]; split <;> rfl)

/-- After every call all reads give what was written, if and only if all calls are harmless. -/
theorem sparse_channel_plain_iff (B N : Nat) (pos : 0 < B) (int : B < 2 ^ 31) (ops : List Op)
    (inside : Along step Inside (newChannel B N) ops) :
    (∀ pre, pre <+: ops → Reads (runOps (newChannel B N) pre) (wanted B pre).2) ↔
      Along step Harmless (newChannel B N) ops := by
  have fits : Fits (newChannel B N) := ⟨pos, dvd_refl B, pos⟩
  have start : Sized B N (newChannel B N) (B, zeros) := ⟨fits, rfl, rfl, rfl, fun _ _ => rfl⟩
  have fitting : Along step (fun ch op => Fits ch ∧ Inside ch op) (newChannel B N) ops :=
    inside.with_invariant (fun _ op fits allowed => fits.step op allowed) fits
  rw [← follows_iff (fun ch op allowed => step_exactly allowed.1 allowed.2) _ _ fitting,
    view_newChannel]
  refine forall₂_congr fun pre is => ?_
  exact Sized.reads_iff
    (inside.simulates (fun _ _ op sized allowed => sized.step op allowed) start is) int

theorem harmless_write {ch : Channel} {block : Nat} {count : Int} {buf : Mem}
    (front : block + count.toNat ≤ ch.sm.blocksCount)
    (short : count.toNat * ch.blockSize ≤ 2 ^ 31) : Harmless ch (.write block count buf) := by
  intro i lt j small
  have := lt_of_block lt small
  rw [if_neg (by omega), toInt32_eq (by omega)]
  rfl

theorem freed_iff {ch : Channel} {blk count : Nat} (same : ch.blockSize = ch.sm.blockSize)
    (pos : 0 < ch.sm.blockSize) (front : blk + count ≤ ch.sm.blocksCount) (q : Nat) :
    Freed ch blk count q ↔ blk * ch.blockSize ≤ q ∧ q < (blk + count) * ch.blockSize := by
  simp only [Freed, same, Nat.mul_div_cancel _ pos]
  rw [← Nat.le_div_iff_mul_le pos, ← Nat.div_lt_iff_lt_mul pos]
  constructor
  · rintro ⟨k, lt, -, is⟩
    omega
  · rintro ⟨low, high⟩
    exact ⟨q / ch.sm.blockSize - blk, by omega, by omega, by omega⟩

def fill (b : UInt8) : Mem := fun _ => b

/- A block of the image, zeroed and then written in one of its quarters; another one
is discarded. -/
def sampleOps : List Op :=
  [.write 1 1 (fill 1), .zeroout 1 1, .discard 0 1, .setBlksize 1024, .write 1 1 (fill 2),
    .read 0 4]

theorem sample_channel_plain : Reads (runOps (newChannel 4096 2) sampleOps)
    (wanted 4096 sampleOps).2 := by
  refine (sparse_channel_plain_iff 4096 2 (by decide) (by decide) sampleOps ?_).mpr ?_ sampleOps
    (prefix_refl _)
  · exact ⟨show 2 * 4096 ≤ 2 * 4096 by decide, show 2 * 4096 ≤ 2 * 4096 by decide,
      show 1 * 4096 ≤ 2 * 4096 by decide, ⟨by decide, by decide⟩,
      show 2 * 1024 ≤ 2 * 4096 by decide,
      show 4 * 1024 ≤ 2 * 4096 by decide, trivial⟩
  · exact ⟨harmless_write (by decide) (by decide),
      fun q _ => freed_iff rfl (by decide) (by decide) q,
      fun q _ => freed_iff rfl (by decide) (by decide) q, trivial,
      harmless_write (by decide) (by decide), trivial, trivial⟩

/- Block 16 of 1024 bytes is the first one of image block 4, of 16. -/
def lostOps : List Op := [.setBlksize 1024, .write 16 1 (fill 1)]

theorem write_inside_dropped : Along step Inside (newChannel 4096 16) lostOps ∧
    ¬ ∀ pre, pre <+: lostOps → Reads (runOps (newChannel 4096 16) pre) (wanted 4096 pre).2 := by
  have inside : Along step Inside (newChannel 4096 16) lostOps :=
    ⟨⟨by decide, by decide⟩, show 17 * 1024 ≤ 16 * 4096 by decide, trivial⟩
  refine ⟨inside, fun plain => ?_⟩
  have fits : Fits (runOps (newChannel 4096 16) lostOps) := ⟨by decide, by decide, by decide⟩
  have same := (plain lostOps (prefix_refl _)).eq_content (q := 16384) fits (by decide) (by decide)
  exact absurd same (by decide +kernel)

end E2fs.Sparse
