import E2fs.Lib.Device
import E2fs.Lib.Loop
import E2fs.Lib.Word

/-! `unix_io.c`: requests that go through the bounce buffer, in pieces of whole aligned blocks. -/
namespace E2fs.Unix
open Device Loop Word

/- A request, with the fields of the channel it reads; `align` is not 0 here. -/
structure Request where
  blockSize : Nat
  align : Nat
  base : Nat
  block : Nat
  count : Int
  align_pos : 0 < align

structure Piece where
  size : Nat
  moved : Nat
  alignedBlk : Nat
  offset : Nat

section Loops

variable (r : Request)

def Request.size : Nat := if r.count < 0 then r.count.natAbs else r.count.toNat * r.blockSize

def Request.location : Nat := r.block * r.blockSize + r.base

def Request.alignSize : Nat :=
  if r.align < r.blockSize ∧ r.blockSize % r.align = 0 then r.blockSize else r.align

def Request.first : Piece := ⟨r.size, 0, r.location / r.alignSize, r.location % r.alignSize⟩

/- `actual` is an `int`, and it is the size of a `memcpy`. -/
def actual (s : Piece) : Int :=
  let actual := toInt32 (s.size % 2 ^ 32)
  (if r.alignSize < actual then (r.alignSize : Int) else actual) - s.offset

def Piece.next (s : Piece) (n : Nat) : Piece := ⟨s.size - n, s.moved + n, s.alignedBlk + 1, 0⟩

/- A round of `raw_read_blk`; the file is read on from the first piece. -/
def readRound (dev : Content) : Piece × Content → Round (Piece × Content) (Option Content)
  | (s, buf) =>
    if s.size = 0 then .done (some buf)
    else if actual r s < 0 then .done none
    else
      let n := (actual r s).toNat
      .again
        (s.next n, patch buf s.moved n fun j => dev (s.alignedBlk * r.alignSize + s.offset + j))

/- A round of `raw_write_blk`, with the device and the bounce buffer. -/
def writeRound (buf : Content) : Piece × Content × Content → Round (Piece × Content × Content)
    (Option Content)
  | (s, dev, bounce) =>
    if s.size = 0 then .done (some dev)
    else
      let bounce := if s.size < r.alignSize ∨ s.offset ≠ 0 then fun j =>
        dev (s.alignedBlk * r.alignSize + j) else bounce
      if actual r s < 0 then .done none
      else
        let n := (actual r s).toNat
        let bounce := patch bounce s.offset n fun j => buf (s.moved + j)
        .again (s.next n, patch dev (s.alignedBlk * r.alignSize) r.alignSize bounce, bounce)

def rawReadBounce (fuel : Nat) (dev buf : Content) : Option (Option Content) :=
  runLoop (readRound r dev) fuel (r.first, buf)

def rawWriteBounce (fuel : Nat) (dev bounce buf : Content) : Option (Option Content) :=
  runLoop (writeRound r buf) fuel (r.first, dev, bounce)

/-- The first piece reaches to the end of its aligned block. -/
def Whole (s : Piece) : Prop := s.size < 2 ^ 31 ∧ (s.size = 0 ∨ s.offset = 0 ∨ r.alignSize ≤ s.size)

end Loops

variable {r : Request} {s : Piece} {dev buf bounce : Content}

theorem alignSize_pos : 0 < r.alignSize := by
  have := r.align_pos
  unfold Request.alignSize
  split <;> omega

section

variable (whole : Whole r s) (inside : s.offset < r.alignSize) (more : s.size ≠ 0)
include whole inside more

/- A piece is not empty, and when it is not the last one it ends with the aligned block. -/
theorem actual_spec : ∃ n : Nat, actual r s = n ∧ 0 < n ∧ n ≤ s.size ∧ s.offset + n ≤ r.alignSize ∧
    (s.size ≠ n → s.offset + n = r.alignSize) ∧
      (r.alignSize ≤ s.size → s.offset = 0 → n = r.alignSize) ∧ Whole r (s.next n) := by
  obtain ⟨int, whole⟩ := whole
  have is : toInt32 (s.size % 2 ^ 32) = s.size := by
    rw [Nat.mod_eq_of_lt (by omega), toInt32_eq int]
  simp only [actual, is, Whole, Piece.next, true_or, or_true, and_true]
  by_cases big : r.alignSize < s.size
  · exact ⟨r.alignSize - s.offset, by omega⟩
  · exact ⟨s.size - s.offset, by omega⟩

end

theorem read_ends (whole : Whole r s) (inside : s.offset < r.alignSize) :
    ∃ t, Reaches (readRound r dev) (s, buf) t ∧
    readRound r dev t = .done (some (patch buf s.moved s.size fun j =>
      dev (s.alignedBlk * r.alignSize + s.offset + j))) := by
  induction left : s.size using Nat.strongRecOn generalizing s buf with
  | _ k ih =>
    by_cases last : s.size = 0
    · exact ⟨_, .here _, by simp [readRound, last, ← left]⟩
    obtain ⟨n, is, pos, le, room, ends, -, whole'⟩ := actual_spec whole inside last
    have round : readRound r dev (s, buf) = .again (s.next n, patch buf s.moved n fun j =>
        dev (s.alignedBlk * r.alignSize + s.offset + j)) := by
      simp [readRound, last, is]
    obtain ⟨t, way, done⟩ := ih (s.size - n) (by omega) whole' alignSize_pos rfl
    refine ⟨t, .step round way, done.trans ?_⟩
    have split : k = n + (s.size - n) := by omega
    rw [split, ← patch_more]
    refine congrArg (Round.done ∘ some) (patch_congr fun j lt => congrArg dev ?_)
    have whole := ends (by omega)
    simp only [Piece.next, add_one_mul]
    omega

theorem write_ends (whole : Whole r s) (inside : s.offset < r.alignSize) :
    ∃ t, Reaches (writeRound r buf) (s, dev, bounce) t ∧ writeRound r buf t = .done (some
      (patch dev (s.alignedBlk * r.alignSize + s.offset) s.size fun j => buf (s.moved + j))) := by
  induction left : s.size using Nat.strongRecOn generalizing s dev bounce with
  | _ k ih =>
    by_cases last : s.size = 0
    · exact ⟨_, .here _, by simp [writeRound, last, ← left]⟩
    obtain ⟨n, is, pos, le, room, ends, all, whole'⟩ := actual_spec whole inside last
    generalize old :
      (if s.size < r.alignSize ∨ s.offset ≠ 0 then fun j => dev (s.alignedBlk * r.alignSize + j)
      else bounce) = bounce'
    have piece : patch dev (s.alignedBlk * r.alignSize) r.alignSize
      (patch bounce' s.offset n fun j => buf (s.moved + j)) =
        patch dev (s.alignedBlk * r.alignSize + s.offset) n fun j => buf (s.moved + j) := by
      generalize s.alignedBlk * r.alignSize = place at old
      funext q
      by_cases new : place + s.offset ≤ q ∧ q < place + s.offset + n
      · rw [patch_inside (by omega) (by omega), patch_inside (by omega) (by omega),
          patch_inside new.1 new.2, Nat.sub_sub]
      · rw [@patch_apart _ _ n _ _ (by omega)]
        refine patch_eq (fun low high => ?_) rfl
        rw [patch_apart (by omega), ← old,
          if_pos (by by_contra small; have := all (by omega) (by omega); omega),
          Nat.add_sub_cancel' low]
    have round : writeRound r buf (s, dev, bounce) = .again (s.next n,
        patch dev (s.alignedBlk * r.alignSize + s.offset) n (fun j => buf (s.moved + j)),
        patch bounce' s.offset n fun j => buf (s.moved + j)) := by
      simp [writeRound, last, is, old, piece]
    obtain ⟨t, way, done⟩ := ih (s.size - n) (by omega) whole' alignSize_pos rfl
    refine ⟨t, .step round way, done.trans ?_⟩
    have split : k = n + (s.size - n) := by omega
    rw [split, ← patch_more]
    by_cases rest : s.size = n
    · simp [rest]
    · have whole := ends rest
      simp only [Piece.next, add_one_mul, add_assoc, whole]
      rfl

/- From 2^31 bytes on `actual` is negative, or at last 0 for ever. -/
theorem long_read_fails {out : Content} (fuel : Nat) (long : 2 ^ 31 ≤ s.size) :
    runLoop (readRound r dev) fuel (s, buf) ≠ some (some out) := by
  induction fuel generalizing s buf with
  | zero => simp [runLoop]
  | succ fuel ih =>
    rw [runLoop, readRound, if_neg (by omega)]
    split_ifs with negative
    · simp
    · refine ih ?_
      have small : (actual r s).toNat ≤ s.size % 2 ^ 32 ∧ s.size % 2 ^ 32 < 2 ^ 31 := by
        revert negative
        unfold actual toInt32
        rw [Int.bmod_def]
        dsimp only
        split_ifs <;> omega
      simp only [Piece.next]
      omega

/- A short request that begins inside an aligned block goes on in the next one too early. -/
theorem short_read_differs (short : s.size < r.alignSize) (int : s.size < 2 ^ 31)
    (some_ : s.size ≠ 0) (inside : s.offset ≠ 0) (fresh : s.moved = 0) : ∃ dev, ¬ ∃ fuel,
      runLoop (readRound r dev) fuel (s, buf) = some (some (patch buf 0 s.size fun j =>
        dev (s.alignedBlk * r.alignSize + s.offset + j))) := by
  have is : actual r s = s.size - s.offset := by
    have eq : toInt32 (s.size % 2 ^ 32) = s.size := by
      rw [Nat.mod_eq_of_lt (by omega), toInt32_eq int]
    simp only [actual, eq]
    rw [if_neg (by omega)]
  let dev : Content := fun q => if q = s.alignedBlk * r.alignSize + s.size then 1 else 0
  refine ⟨dev, fun ⟨fuel, result⟩ => ?_⟩
  by_cases negative : s.size < s.offset
  · have failed : runLoop (readRound r dev) 1 (s, buf) = some none := by
      rw [runLoop, readRound, if_neg some_, if_pos (by omega)]
    cases runLoop_unique failed result
  -- the piece ends `s.size` bytes into the aligned block, and the byte there is left out
  obtain ⟨n, split⟩ : ∃ n, s.size = s.offset + n := ⟨s.size - s.offset, by omega⟩
  have round : readRound r dev (s, buf) = .again (s.next n, patch buf s.moved n fun j =>
      dev (s.alignedBlk * r.alignSize + s.offset + j)) := by
    have count : actual r s = n := by omega
    simp [readRound, some_, count]
  have whole : Whole r (s.next n) := ⟨by simp only [Piece.next]; omega, .inr (.inl rfl)⟩
  obtain ⟨t, way, done⟩ := @read_ends r (s.next n) dev _ whole alignSize_pos
  obtain ⟨fuel', other⟩ := (Reaches.step round way).returns done
  have same := congrFun (Option.some.inj (runLoop_unique other result)) n
  simp only [Piece.next, fresh, Nat.zero_add] at same
  rw [patch_inside le_rfl (by omega), patch_inside (Nat.zero_le n) (by omega)] at same
  simp only [dev, add_one_mul] at same
  rw [if_neg (by omega), if_pos (by omega)] at same
  cases same

/-- A request that begins with an aligned block, or has at least its size, moves its bytes; no
other one does for all contents. -/
theorem bounced_exact (r : Request) : (∀ dev buf bounce : Content,
    (∃ fuel, rawReadBounce r fuel dev buf =
      some (some (patch buf 0 r.size fun j => dev (r.location + j)))) ∧
    ∃ fuel, rawWriteBounce r fuel dev bounce buf = some (some (patch dev r.location r.size buf))) ↔
      Whole r r.first := by
  have at_ : r.first.alignedBlk * r.alignSize + r.first.offset = r.location := Nat.div_add_mod' _ _
  have inside : r.first.offset < r.alignSize := Nat.mod_lt _ alignSize_pos
  refine ⟨fun exact_ => ?_, fun whole dev buf bounce => ⟨?_, ?_⟩⟩
  · by_contra other
    by_cases long : 2 ^ 31 ≤ r.size
    · obtain ⟨fuel, result⟩ := (exact_ zeros zeros zeros).1
      exact long_read_fails fuel long result
    · have short : ¬ (r.size = 0 ∨ r.first.offset = 0 ∨ r.alignSize ≤ r.size) :=
        fun is => other ⟨Nat.not_le.mp long, is⟩
      rw [not_or, not_or, Nat.not_le] at short
      obtain ⟨dev, differs⟩ := @short_read_differs r r.first zeros short.2.2 (Nat.not_le.mp long)
        short.1 short.2.1 rfl
      simp only [at_] at differs
      exact differs (exact_ dev zeros zeros).1
  · obtain ⟨t, way, done⟩ := @read_ends r r.first dev buf whole inside
    simp only [at_] at done
    exact way.returns done
  · obtain ⟨t, way, done⟩ := @write_ends r r.first dev buf bounce whole inside
    rw [at_] at done
    simp only [Request.first, zero_add] at done
    exact way.returns done

/- Block 1 of 1024 bytes with an alignment of 4096: what is read are the bytes from 4096 on. -/
def smallBlock : Request := ⟨1024, 4096, 0, 1, 1, by decide⟩

theorem small_block_misread :
    ¬ ∃ fuel, rawReadBounce smallBlock fuel (fun q => if q = 1024 then 1 else 0) zeros =
      some (some (patch zeros 0 smallBlock.size fun j => if smallBlock.location + j = 1024 then 1
        else 0)) := by
  rintro ⟨fuel, result⟩
  have run : (rawReadBounce smallBlock 3 (fun q => if q = 1024 then 1 else 0) zeros).map
      (·.map (· 0)) = some (some 0) := by
    decide +kernel
  obtain ⟨out, three, first⟩ := Option.map_eq_some_iff.mp run
  rw [runLoop_unique three result] at first
  exact absurd first (by decide)

end E2fs.Unix
