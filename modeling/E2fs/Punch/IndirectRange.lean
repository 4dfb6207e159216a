import E2fs.Punch.IndirectSound

/-! Punching a range out of a whole file. The pointers of the inode are four segments:
twelve direct ones, and one for each level of indirection. -/
namespace E2fs.Punch
open Word BlockTree Option Prod
open List (getElem?_drop range')
open List hiding lookup

/-- Pointers of one level, and the number of blocks they map. -/
structure Segment where
  level : Nat
  size : Nat
  entries : List Nat

/- The segments of `bp` as the main loop goes through them. -/
def segmentsFrom (n : Nat) : List Nat → Nat → Nat → List Nat → List Segment
  | [], _, _, _ => []
  | level :: levels, max, num, bp =>
    let next := if level = 0 then (1, 1) else (num, max)
    ⟨level, max, bp.take num⟩ :: segmentsFrom n levels (next.2 * n) next.1 (bp.drop num)

def segments (n : Nat) (iBlock : List Nat) : List Segment :=
  segmentsFrom n [0, 1, 2, 3] 12 12 iBlock

def segmentsLookup {n : Nat} (d : Disk n) : List Segment → Nat → Nat
  | [], _ => 0
  | g :: gs, l =>
    if l < g.size then entriesLookup d g.level g.entries l else segmentsLookup d gs (l - g.size)

/- Block `l` of the segments is removed. The loop goes on behind a segment only when
the count is larger than the segment, wherever in it the range started. -/
def RangeSelected (n : Nat) : List Segment → Nat → Nat → Nat → Prop
  | [], _, _, _ => False
  | g :: gs, start, count, l =>
    if start < g.size then
      if l < g.size then Selected n (g.level + 1) start count l
      else count > g.size ∧ RangeSelected n gs 0 (count - (g.size - start)) (l - g.size)
    else g.size ≤ l ∧ RangeSelected n gs (start - g.size) count (l - g.size)

def rowReached {n : Nat} (d : Disk n) (k start count : Nat) (ps : List Nat) : List Nat :=
  ps.zipIdx.flatMap fun e =>
    if Visited n k start count e.2 then
      reached d k (start - e.2 * n ^ k) (sub64 count (e.2 * n ^ k)) e.1
    else []

def rangeReached {n : Nat} (d : Disk n) : List Segment → Nat → Nat → List Nat
  | [], _, _ => []
  | g :: gs, start, count =>
    if start < g.size then
      rowReached d g.level start count g.entries ++
        if count > g.size then rangeReached d gs 0 (count - (g.size - start)) else []
    else rangeReached d gs (start - g.size) count

def segmentsBlocks {n : Nat} (d : Disk n) (gs : List Segment) : List Nat :=
  gs.flatMap fun g => g.entries.flatMap (blocks d g.level)

def segmentsIndirects {n : Nat} (d : Disk n) (gs : List Segment) : List Nat :=
  gs.flatMap fun g => g.entries.flatMap (indirects d g.level)

section
variable {n : Nat} (d0 : Disk n)

def segmentsPiece (gs : List Segment) (start count : Nat) : Piece where
  size := (gs.map Segment.size).sum
  before := segmentsLookup d0 gs
  selected := RangeSelected n gs start count
  indirects := segmentsIndirects d0 gs
  reached := rangeReached d0 gs start count
  blocks := segmentsBlocks d0 gs

def Piece.idle (P : Piece) : Piece := { P with selected := fun _ => False, reached := [] }

theorem Piece.idle_wf {P : Piece} (wf : P.Wf) : P.idle.Wf :=
  ⟨by simp [Piece.idle], wf.indirects_sub, wf.nodup⟩

theorem rangeReached_subset (gs : List Segment) (start count : Nat) :
    rangeReached d0 gs start count ⊆ segmentsIndirects d0 gs := by
  induction gs generalizing start count with
  | nil => simp [rangeReached]
  | cons g gs ih =>
    have row :
        rowReached d0 g.level start count g.entries ⊆ g.entries.flatMap (indirects d0 g.level) := by
      intro b hb
      obtain ⟨⟨q, j⟩, hq, below⟩ := mem_flatMap.mp hb
      refine mem_flatMap.mpr ⟨q, fst_mem_of_mem_zipIdx hq, ?_⟩
      split at below
      · exact reached_subset d0 _ _ _ q below
      · simp at below
    intro b hb
    simp only [segmentsIndirects, flatMap_cons, mem_append]
    rw [rangeReached] at hb
    split at hb
    · rcases mem_append.mp hb with h | h
      · exact .inl (row h)
      · split at h
        · exact .inr (ih _ _ h)
        · simp at h
    · exact .inr (ih _ _ hb)

theorem segmentsPiece_wf {gs : List Segment} (start count : Nat)
    (nodup : (segmentsBlocks d0 gs).Nodup) : (segmentsPiece d0 gs start count).Wf where
  reached_sub := rangeReached_subset d0 gs start count
  indirects_sub b hb := by
    obtain ⟨g, hg, row⟩ := mem_flatMap.mp hb
    obtain ⟨q, hq, below⟩ := mem_flatMap.mp row
    exact mem_flatMap.mpr ⟨g, hg, mem_flatMap.mpr ⟨q, hq, indirects_subset_blocks d0 _ q below⟩⟩
  nodup := nodup

theorem segmentsPiece_cons {g : Segment} (gs : List Segment) (start count : Nat)
    (full : g.entries.length * n ^ g.level = g.size) : segmentsPiece d0 (g :: gs) start count =
      if start < g.size then
        (entriesPiece d0 start count g.level 0 g.entries).append
          (if count > g.size then segmentsPiece d0 gs 0 (count - (g.size - start))
            else (segmentsPiece d0 gs 0 0).idle)
      else (entriesPiece d0 0 0 g.level 0 g.entries).idle.append
        (segmentsPiece d0 gs (start - g.size) count) := by
  have before : ∀ r, segmentsLookup d0 (g :: gs) r =
      if r < g.entries.length * n ^ g.level then entriesLookup d0 g.level g.entries r
      else segmentsLookup d0 gs (r - g.entries.length * n ^ g.level) := by
    intro r
    rw [segmentsLookup, full]
  by_cases inside : start < g.size
  · rw [if_pos inside]
    split
    all_goals
      rename_i more
      simp only [segmentsPiece, Piece.append, entriesPiece, Piece.idle, Piece.mk.injEq]
      refine ⟨by simp [full], funext before, ?_, rfl, ?_, rfl⟩
      · funext r
        simp [RangeSelected, inside, more, Selected, full]
      · simp [rangeReached, inside, more, rowReached, entryPiece]
  · rw [if_neg inside]
    simp only [segmentsPiece, Piece.append, entriesPiece, Piece.idle, Piece.mk.injEq]
    refine ⟨by simp [full], funext before, ?_, rfl, ?_, rfl⟩
    · funext r
      simp [RangeSelected, inside, full]
    · simp [rangeReached, inside]

theorem segmentsLookup_congr {d : Disk n} {gs : List Segment} (l : Nat)
    (agree : Agree (segmentsIndirects d0 gs) d d0) :
    segmentsLookup d gs l = segmentsLookup d0 gs l := by
  induction gs generalizing l with
  | nil => rfl
  | cons g gs ih =>
    rw [segmentsLookup, segmentsLookup]
    split
    · exact entriesLookup_congr d0 d g.level g.entries l fun b hb =>
        agree b (mem_append_left _ hb)
    · exact ih _ fun b hb => agree b (mem_append_right _ hb)

variable {sb : Super}

theorem Punched.skip_idle {unit : Nat} (P : Piece) (w : Work n) (after : Disk n → Nat → Nat)
    (same : ∀ d, Agree P.indirects d w.disk → ∀ r < P.size, after d r = P.before r) :
    Punched unit sb P.idle w w after [] 0 :=
  Punched.skip unit sb P.idle w after rfl (fun _ _ h => h.elim) same

/- What is needed of the segments before they are punched. -/
structure SegmentsReady (sb : Super) (gs : List Segment) (w : Work n) : Prop where
  nodup : (segmentsBlocks d0 gs).Nodup
  legal : ∀ b ∈ segmentsBlocks d0 gs, b < sb.blocksCount
  agree : Agree (segmentsIndirects d0 gs) w.disk d0

theorem SegmentsReady.head {g : Segment} {gs : List Segment} {w : Work n}
    (ready : SegmentsReady d0 sb (g :: gs) w) : RowReady d0 sb g.level g.entries w where
  nodup := (nodup_append.mp ready.nodup).1
  legal b hb := ready.legal b (mem_append_left _ hb)
  agree b hb := ready.agree b (mem_append_left _ hb)

theorem SegmentsReady.tail {g : Segment} {gs : List Segment} {w w1 : Work n}
    (ready : SegmentsReady d0 sb (g :: gs) w)
    (frame : ∀ b, b ∉ g.entries.flatMap (blocks d0 g.level) → w1.disk.read b = w.disk.read b) :
    SegmentsReady d0 sb gs w1 where
  nodup := (nodup_append.mp ready.nodup).2.1
  legal b hb := ready.legal b (mem_append_right _ hb)
  agree b hb := by
    rw [frame b fun own => ?_]
    · exact ready.agree b (mem_append_right _ hb)
    · have mem := (segmentsPiece_wf d0 0 0 (nodup_append.mp ready.nodup).2.1).indirects_sub hb
      exact (nodup_append.mp ready.nodup).2.2 b own b mem rfl

end

/- The pointers of `m` levels from `k` on: `num` of the first one, which map `max` blocks, and one
of each other. -/
structure Pointers (sb : Super) (k m max num : Nat) (bp : List Nat) : Prop where
  room : ∀ m', m = m' + 1 → bp.length = num + m'
  width : max = num * sb.addrPerBlock ^ k
  single : k ≠ 0 → num = 1

section
variable {sb : Super} {k m max num : Nat} {bp : List Nat}

theorem Pointers.length_take (all : Pointers sb k (m + 1) max num bp) :
    (bp.take num).length = num := by
  have := all.room m rfl
  rw [List.length_take]
  omega

theorem Pointers.next (all : Pointers sb k (m + 1) max num bp) {next : Nat × Nat}
    (is : (if k = 0 then (1, 1) else (num, max)) = next) :
    Pointers sb (k + 1) m (next.2 * sb.addrPerBlock) next.1 (bp.drop num) := by
  have one : next.1 = 1 := by
    by_cases direct : k = 0
    · simp [← is, direct]
    · simp [← is, direct, all.single direct]
  refine ⟨fun m' eq => ?_, ?_, fun _ => one⟩
  · have := all.room m rfl
    rw [length_drop, one]
    omega
  · by_cases direct : k = 0
    · simp [← is, direct]
    · simp [← is, direct, all.width, all.single direct, pow_succ]

/- A segment and what follows it, read back from the new pointers. -/
theorem segmentsLookup_join {n size : Nat} (others : List Nat → List Segment) (p rest : List Nat)
    (len : p.length = num) (full : size = max) : (fun (d : Disk n) =>
      segmentsLookup d (⟨k, max, (p ++ rest).take num⟩ :: others ((p ++ rest).drop num))) =
        fun d r =>
      if r < size then entriesLookup d k p r else segmentsLookup d (others rest) (r - size) := by
  funext d r
  rw [full, ← len, take_left, drop_left]
  rfl

end

theorem punchLevels_spec {sb : Super} {d0 : Disk sb.addrPerBlock} {hugeFileFl : Bool} (m : Nat)
    (k start count max num : Nat) (bp bp' : List Nat) (w w' : Work sb.addrPerBlock)
    (small : start < 2 ^ 32) (all : Pointers sb k m max num bp)
    (ready : SegmentsReady d0 sb (segmentsFrom sb.addrPerBlock (range' k m) max num bp) w)
    (run : punchLevels sb hugeFileFl (range' k m) start count max num bp w = some (w', bp')) :
    ∃ rel, Punched (iblkUnit sb hugeFileFl) sb
      (segmentsPiece d0 (segmentsFrom sb.addrPerBlock (range' k m) max num bp) start count) w w'
      (fun d => segmentsLookup d (segmentsFrom sb.addrPerBlock (range' k m) max num bp'))
      rel 0 := by
  induction m generalizing k start count max num bp bp' w with
  | zero =>
    obtain ⟨rfl, rfl⟩ := run
    refine ⟨[], Punched.skip _ sb _ _ _ rfl ?_ ?_⟩
    · intro r inside
      simp [segmentsPiece, segmentsFrom] at inside
    · intro d _ r inside
      simp [segmentsPiece, segmentsFrom] at inside
  | succ m ih =>
    rw [range'_succ] at ready run ⊢
    generalize hnext : (if k = 0 then (1, 1) else (num, max)) = next at *
    have behind := all.next hnext
    have takeLen := all.length_take
    simp only [segmentsFrom, hnext] at ready ⊢
    have full : (bp.take num).length * sb.addrPerBlock ^ k = max := by rw [takeLen, all.width]
    rw [segmentsPiece_cons d0 _ start count full]
    have split := nodup_append.mp ready.nodup
    let others := segmentsFrom sb.addrPerBlock (range' (k + 1) m) (next.2 * sb.addrPerBlock) next.1
    have disjoint :
        ∀ b ∈ (bp.take num).flatMap (blocks d0 k), b ∉ segmentsBlocks d0 (others (bp.drop num)) :=
      fun b hb hc => split.2.2 b hb b hc rfl
    have wfHead := fun s c => entriesPiece_wf d0 s c k 0 (bp.take num) split.1
    have wfTail := fun s c => segmentsPiece_wf d0 s c split.2.1
    simp only [punchLevels, hnext] at run
    by_cases inside : start < max
    · simp only [inside, if_true, bind_eq_bind, bind_eq_some_iff] at run ⊢
      obtain ⟨⟨w1, p⟩, level, run⟩ := run
      obtain ⟨lenp, _, rel1, head⟩ := indPunch_spec sb d0 hugeFileFl k start count _ _ _ _ small
        ready.head level
      have frame : ∀ b, b ∉ (bp.take num).flatMap (blocks d0 k) →
          w1.disk.read b = w.disk.read b := fun b hb => head.frame b fun hr =>
        hb ((wfHead start count).indirects_sub ((wfHead start count).reached_sub hr))
      have readyTail := ready.tail d0 frame
      by_cases more : count > max
      · simp only [more, if_true, bind_eq_some_iff, some.injEq, mk.injEq] at run ⊢
        obtain ⟨⟨w2, rest⟩, later, rfl, rfl⟩ := run
        obtain ⟨rel2, tail⟩ := ih (k + 1) 0 _ _ next.1 (bp.drop num) rest w1 (by decide)
          behind readyTail later
        refine ⟨rel1 ++ rel2, ?_⟩
        rw [segmentsLookup_join others p rest (lenp.trans takeLen) full]
        exact Punched.append _ sb (wfHead start count) (wfTail 0 _) disjoint head tail
      · simp only [more, if_false, some.injEq, mk.injEq] at run ⊢
        obtain ⟨rfl, rfl⟩ := run
        refine ⟨rel1 ++ [], ?_⟩
        rw [segmentsLookup_join others p _ (lenp.trans takeLen) full]
        refine Punched.append _ sb (wfHead start count) (Piece.idle_wf (wfTail 0 0)) disjoint head
          (Punched.skip_idle _ w1 _ fun d same r _ => ?_)
        exact segmentsLookup_congr d0 r fun b hb => (same b hb).trans (readyTail.agree b hb)
    · simp only [inside, if_false, bind_eq_bind, bind_eq_some_iff, some.injEq, mk.injEq] at run ⊢
      obtain ⟨⟨w2, rest⟩, later, rfl, rfl⟩ := run
      obtain ⟨rel2, tail⟩ := ih (k + 1) (start - max) _ _ next.1 (bp.drop num) rest w (by omega)
        behind (ready.tail d0 fun _ _ => rfl) later
      refine ⟨[] ++ rel2, ?_⟩
      rw [segmentsLookup_join others _ rest takeLen full]
      refine Punched.append _ sb (Piece.idle_wf (wfHead 0 0)) (wfTail (start - max) _) disjoint
        (Punched.skip_idle _ w _ fun d same r _ => ?_) tail
      exact entriesLookup_congr d0 d k _ r fun b hb => (same b hb).trans (ready.head.agree b hb)

section
variable {n : Nat}

section

variable (d : Disk n)

theorem lookup_one (p r : Nat) : lookup d 1 p r = blockIndBmap d p r := by
  simp [lookup, blockIndBmap]

theorem lookup_two (p r : Nat) : lookup d 2 p r = blockDindBmap d p r := by
  by_cases hole : p = 0
  · simp [hole, blockDindBmap, blockIndBmap]
  · rw [lookup, if_neg hole, lookup_one, pow_one, blockDindBmap]
    simp [blockIndBmap, hole]

theorem lookup_three (p r : Nat) : lookup d 3 p r = blockTindBmap d p r := by
  by_cases hole : p = 0
  · simp [hole, blockTindBmap, blockDindBmap, blockIndBmap]
  have digits : r / n ^ 2 = r / n / n ∧ r % n ^ 2 / n = r / n % n ∧ r % n ^ 2 % n = r % n := by
    rw [pow_two]
    exact ⟨(Nat.div_div_eq_div_mul r n n).symm, Nat.mod_mul_right_div_self r n n,
      Nat.mod_mul_left_mod r n n⟩
  rw [lookup, if_neg hole, lookup_two, blockDindBmap, digits.1, digits.2.1, digits.2.2,
    blockTindBmap, blockDindBmap]
  congr 2
  simp [blockIndBmap, hole]

theorem entriesLookup_single {k r : Nat} (ps : List Nat) (inside : r < n ^ k) :
    entriesLookup d k ps r = lookup d k (ps.getD 0 0) r := by
  rw [entriesLookup, Nat.div_eq_of_lt inside, Nat.mod_eq_of_lt inside]

theorem blockTindBmap_past (p r : Nat) (pos : 0 < n) (past : n * n * n ≤ r) :
    blockTindBmap d p r = 0 := by
  have row : n ≤ r / n / n := by
    rw [Nat.div_div_eq_div_mul, Nat.le_div_iff_mul_le (Nat.mul_pos pos pos), ← Nat.mul_assoc]
    exact past
  have top : blockIndBmap d p (r / n / n) = 0 := by
    unfold blockIndBmap
    split
    · rfl
    · rw [getD_eq_getElem?_getD, List.getElem?_eq_none (by rw [d.length_read]; exact row)]
      rfl
  rw [blockTindBmap, blockDindBmap, top]
  simp [blockIndBmap]

theorem bmapWalk_eq (iBlock : List Nat) (l : Nat) (pos : 0 < n) :
    bmapWalk d iBlock l = segmentsLookup d (segments n iBlock) l := by
  simp only [segments, segmentsFrom, segmentsLookup, bmapWalk, if_true, one_mul,
    one_ne_zero, if_false, OfNat.ofNat_ne_zero]
  split
  · rename_i direct
    simp [entriesLookup, lookup, direct]
  split
  · rename_i inside
    rw [entriesLookup_single d _ (by rwa [pow_one]), lookup_one]
    simp [getElem?_drop]
  split
  · rename_i inside
    rw [entriesLookup_single d _ (by rwa [pow_two]), lookup_two]
    simp [getElem?_drop]
  · split_ifs with inside
    · have width : n * n * n = n ^ 3 := by ring
      rw [entriesLookup_single d _ (by rwa [← width]), lookup_three]
      simp [getElem?_drop]
    · exact blockTindBmap_past d _ _ pos (by omega)

end

theorem segments_size (iBlock : List Nat) :
    ((segments n iBlock).map Segment.size).sum = n + n * n + n * n * n + 12 := by
  simp [segments, segmentsFrom]
  ring

end

/-- The blocks of a file form a tree: no block is used twice, and all are legal. -/
structure IsTree (sb : Super) (disk : Disk sb.addrPerBlock) (inode : Inode) : Prop where
  nodup : (segmentsBlocks disk (segments sb.addrPerBlock inode.iBlock)).Nodup
  legal : ∀ b ∈ segmentsBlocks disk (segments sb.addrPerBlock inode.iBlock), b < sb.blocksCount

/-- The range has been taken out of the file and nothing else: the blocks of the range are
unmapped, these and the indirect blocks that lost their last pointer are released. -/
structure PunchesExactly (sb : Super) (disk : Disk sb.addrPerBlock) (inode : Inode)
    (start stop : Nat) (w : Work sb.addrPerBlock) (iBlock : List Nat) : Prop where
  mapping : ∀ l, ext2fsBmap2 w.disk iBlock l =
    if start ≤ l ∧ l ≤ stop then (ext2fsBmap2 disk inode.iBlock l).map fun _ => 0
    else ext2fsBmap2 disk inode.iBlock l
  nodup : w.released.Nodup
  released : ∀ b, b ∈ w.released ↔
    (∃ l, start ≤ l ∧ l ≤ stop ∧ ext2fsBmap2 disk inode.iBlock l = some b ∧ b ≠ 0) ∨
      (b ∈ segmentsIndirects disk (segments sb.addrPerBlock inode.iBlock) ∧
        checkZeroBlock (disk.read b) = false ∧ checkZeroBlock (w.disk.read b) = true)
  counted : w.count.total sb + iblkUnit sb inode.hugeFileFl * w.released.length =
    inode.count.total sb

/-- The moved windows meet exactly the requested blocks among those that are mapped, and
no indirect block on the way is empty from the start. -/
structure WindowsFit (sb : Super) (disk : Disk sb.addrPerBlock) (inode : Inode) (start stop : Nat) :
    Prop where
  mapped : ∀ l, bmapWalk disk inode.iBlock l ≠ 0 →
    (RangeSelected sb.addrPerBlock (segments sb.addrPerBlock inode.iBlock) start
      (punchCount start stop) l ↔ start ≤ l ∧ l ≤ stop ∧ l < 2 ^ 32 - 1)
  pointers : ∀ b ∈ rangeReached disk (segments sb.addrPerBlock inode.iBlock) start
    (punchCount start stop), checkZeroBlock (disk.read b) = false

section
variable {n : Nat} (d : Disk n) (gs : List Segment) (l : Nat) (mapped : segmentsLookup d gs l ≠ 0)
include mapped

theorem segmentsLookup_mem : segmentsLookup d gs l ∈ segmentsBlocks d gs := by
  induction gs generalizing l with
  | nil => simp [segmentsLookup] at mapped
  | cons g gs ih =>
    rw [segmentsLookup] at mapped ⊢
    split_ifs with inside
    · rw [if_pos inside] at mapped
      exact mem_append_left _ (entriesLookup_mem_blocks d _ _ _ mapped)
    · rw [if_neg inside] at mapped
      exact mem_append_right _ (ih _ mapped)

theorem segmentsLookup_lt : l < (gs.map Segment.size).sum := by
  induction gs generalizing l with
  | nil => simp [segmentsLookup] at mapped
  | cons g gs ih =>
    rw [segmentsLookup] at mapped
    rw [map_cons, sum_cons]
    split at mapped
    · omega
    · have := ih _ mapped
      omega

theorem segments_not_indirect (nodup : (segmentsBlocks d gs).Nodup) :
    segmentsLookup d gs l ∉ segmentsIndirects d gs := by
  induction gs generalizing l with
  | nil => simp [segmentsIndirects]
  | cons g gs ih =>
    have split := nodup_append.mp nodup
    have wfHead := entriesPiece_wf d 0 0 g.level 0 g.entries split.1
    have wfTail := segmentsPiece_wf d 0 0 split.2.1
    rw [segmentsLookup] at mapped ⊢
    intro hb
    by_cases inside : l < g.size
    · rw [if_pos inside] at mapped hb
      have mem := entriesLookup_mem_blocks d _ _ _ mapped
      rcases mem_append.mp hb with h | h
      · exact row_data_not_indirect d g.level _ l (data_not_indirect d g.level) split.1 mapped h
      · exact split.2.2 _ mem _ (wfTail.indirects_sub h) rfl
    · rw [if_neg inside] at mapped hb
      rcases mem_append.mp hb with h | h
      · exact split.2.2 _ (wfHead.indirects_sub h) _ (segmentsLookup_mem d gs _ mapped) rfl
      · exact ih _ mapped split.2.1 h

theorem segments_position_unique (l' : Nat) (pos : 0 < n) (nodup : (segmentsBlocks d gs).Nodup)
    (same : segmentsLookup d gs l = segmentsLookup d gs l') : l = l' := by
  induction gs generalizing l l' with
  | nil => simp [segmentsLookup] at mapped
  | cons g gs ih =>
    have split := nodup_append.mp nodup
    have apart : ∀ x y, entriesLookup d g.level g.entries x ≠ 0 →
        entriesLookup d g.level g.entries x ≠ segmentsLookup d gs y := by
      intro x y hx eq
      have hy : segmentsLookup d gs y ≠ 0 := eq ▸ hx
      exact split.2.2 _ (entriesLookup_mem_blocks d _ _ _ hx) _ (segmentsLookup_mem d gs y hy) eq
    rw [segmentsLookup] at mapped same
    rw [segmentsLookup] at same
    by_cases inside : l < g.size <;> by_cases inside' : l' < g.size <;>
      simp only [inside, inside', if_true, if_false] at mapped same
    · exact row_position_unique d g.level _ l l' pos
        (fun p r r' => position_unique d g.level p r r' pos) split.1 mapped same
    · exact absurd same (apart l _ mapped)
    · exact absurd same.symm (apart l' _ (same ▸ mapped))
    · have := ih _ mapped _ split.2.1 same
      omega

end

def FilePunched (sb : Super) (disk : Disk sb.addrPerBlock) (inode : Inode) (start stop : Nat)
    (w : Work sb.addrPerBlock) (iBlock : List Nat) : Prop :=
  Punched (iblkUnit sb inode.hugeFileFl) sb
    (segmentsPiece disk (segments sb.addrPerBlock inode.iBlock) start (punchCount start stop))
    ⟨disk, [], inode.count⟩ w (fun d => segmentsLookup d (segments sb.addrPerBlock iBlock))
    w.released 0

theorem ext2fsPunch_spec {sb : Super} {disk : Disk sb.addrPerBlock} {inode : Inode}
    {start stop : Nat} (tree : IsTree sb disk inode) {w : Work sb.addrPerBlock} {iBlock : List Nat}
    (inside : start < 2 ^ 32) (run : ext2fsPunch sb disk inode start stop = some (w, iBlock)) :
    FilePunched sb disk inode start stop w iBlock := by
  rw [ext2fsPunch] at run
  split at run
  · cases run
  have small : ¬ start > blkTMax := by
    unfold blkTMax
    omega
  rw [ext2fsPunchInd, if_neg small] at run
  have ready : SegmentsReady disk sb (segments sb.addrPerBlock inode.iBlock)
      ⟨disk, [], inode.count⟩ := ⟨tree.nodup, tree.legal, fun _ _ => rfl⟩
  obtain ⟨rel, done⟩ := punchLevels_spec 4 0 start (punchCount start stop) 12 12 inode.iBlock iBlock
    _ w inside ⟨fun m' eq => by rw [inode.length_iBlock]; omega, by simp, by simp⟩ ready run
  have whole : w.released = rel := by simpa using done.released
  rw [FilePunched, whole]
  exact done

theorem ext2fsBmap2_of_mapped {n : Nat} (pos : 0 < n) {d : Disk n} {iBlock : List Nat} {l : Nat}
    (mapped : bmapWalk d iBlock l ≠ 0) (small : l < 2 ^ 32 - 1) :
    ext2fsBmap2 d iBlock l = some (bmapWalk d iBlock l) := by
  have size : l < n + n * n + n * n * n + 12 := by
    rw [← segments_size iBlock]
    exact segmentsLookup_lt d _ l (bmapWalk_eq d iBlock l pos ▸ mapped)
  refine if_neg fun big => ?_
  rcases big with h | h <;> omega

theorem ext2fsBmap2_eq_some {n : Nat} {d : Disk n} {iBlock : List Nat} {l b : Nat}
    (found : ext2fsBmap2 d iBlock l = some b) : l < 2 ^ 32 - 1 ∧ bmapWalk d iBlock l = b := by
  unfold ext2fsBmap2 at found
  split at found
  · cases found
  · rename_i fits
    cases found
    exact ⟨by unfold fileBlockOffsetTooBig at fits; omega, rfl⟩

section
variable {sb : Super} {disk : Disk sb.addrPerBlock} {inode : Inode} {start stop : Nat}
  {w : Work sb.addrPerBlock} {iBlock : List Nat}
  (done : FilePunched sb disk inode start stop w iBlock)
include done

theorem walk_after (l : Nat) :
    (RangeSelected sb.addrPerBlock (segments sb.addrPerBlock inode.iBlock) start
      (punchCount start stop) l → bmapWalk w.disk iBlock l = 0) ∧
    (¬ RangeSelected sb.addrPerBlock (segments sb.addrPerBlock inode.iBlock) start
      (punchCount start stop) l → bmapWalk w.disk iBlock l = bmapWalk disk inode.iBlock l) := by
  have pos := addrPerBlock_pos sb
  rw [bmapWalk_eq _ _ _ pos, bmapWalk_eq _ _ _ pos]
  by_cases size : l < ((segments sb.addrPerBlock inode.iBlock).map Segment.size).sum
  · exact done.mapping w.disk (fun _ _ => rfl) l size
  have hole : ∀ (d : Disk sb.addrPerBlock) (ib : List Nat),
      segmentsLookup d (segments sb.addrPerBlock ib) l = 0 := by
    intro d ib
    by_contra mapped
    have lt := segmentsLookup_lt d _ l mapped
    exact size lt
  simp [hole]

theorem exact_of_fit (fit : WindowsFit sb disk inode start stop) :
    PunchesExactly sb disk inode start stop w iBlock := by
  have pos := addrPerBlock_pos sb
  refine ⟨fun l => ?_, done.nodup, fun b => ?_, by simpa using done.counted⟩
  · by_cases big : fileBlockOffsetTooBig sb.addrPerBlock l
    · simp [ext2fsBmap2, big]
    have small : l < 2 ^ 32 - 1 := by
      unfold fileBlockOffsetTooBig at big
      omega
    have after := walk_after done l
    simp only [ext2fsBmap2, big, if_false, map_some, ← apply_ite]
    congr 1
    by_cases mapped : bmapWalk disk inode.iBlock l = 0
    · rw [mapped] at after ⊢
      rw [ite_self]
      exact (em _).elim after.1 after.2
    · have meets := fit.mapped l mapped
      split_ifs with range
      · exact after.1 (meets.mpr ⟨range.1, range.2, small⟩)
      · exact after.2 fun sel => range ⟨(meets.mp sel).1, (meets.mp sel).2.1⟩
  · rw [done.mem w.disk (fun _ _ => rfl) b]
    constructor
    · rintro (⟨l, _, sel, eq, ne⟩ | ⟨hr, zero⟩)
      · have walk : bmapWalk disk inode.iBlock l = b := (bmapWalk_eq disk _ l pos).trans eq
        have range := (fit.mapped l (walk ▸ ne)).mp sel
        refine .inl ⟨l, range.1, range.2.1, ?_, ne⟩
        rw [ext2fsBmap2_of_mapped pos (walk ▸ ne) range.2.2, walk]
      · exact .inr ⟨rangeReached_subset disk _ _ _ hr, fit.pointers b hr, zero⟩
    · rintro (⟨l, low, high, found, ne⟩ | ⟨_, full, zero⟩)
      · obtain ⟨small, walk⟩ := ext2fsBmap2_eq_some found
        have eq := (bmapWalk_eq disk inode.iBlock l pos).symm.trans walk
        exact .inl ⟨l, segmentsLookup_lt disk _ l (eq ▸ ne),
          (fit.mapped l (walk ▸ ne)).mpr ⟨low, high, small⟩, eq, ne⟩
      · refine .inr ⟨?_, zero⟩
        by_contra unreached
        rw [done.frame b unreached, full] at zero
        cases zero

theorem fit_of_exact (tree : IsTree sb disk inode)
    (exactly : PunchesExactly sb disk inode start stop w iBlock) :
    WindowsFit sb disk inode start stop := by
  have pos := addrPerBlock_pos sb
  have data : ∀ l, bmapWalk disk inode.iBlock l ≠ 0 → bmapWalk disk inode.iBlock l ∉
      segmentsIndirects disk (segments sb.addrPerBlock inode.iBlock) := by
    intro l mapped
    rw [bmapWalk_eq disk _ l pos] at mapped ⊢
    exact segments_not_indirect disk _ l mapped tree.nodup
  refine ⟨fun l mapped => ?_, fun b hr => ?_⟩
  · have after := walk_after done l
    by_cases small : l < 2 ^ 32 - 1
    · -- below the limit the mapping tells whether the block was selected
      have fits : ¬ fileBlockOffsetTooBig sb.addrPerBlock l := by
        intro big
        have found := ext2fsBmap2_of_mapped pos mapped small
        simp [ext2fsBmap2, big] at found
      have new := exactly.mapping l
      simp only [ext2fsBmap2, fits, if_false, map_some, ← apply_ite, some.injEq] at new
      constructor
      · intro sel
        rw [after.1 sel] at new
        by_contra outside
        rw [if_neg fun range => outside ⟨range.1, range.2, small⟩] at new
        exact mapped new.symm
      · rintro ⟨low, high, _⟩
        by_contra kept
        rw [after.2 kept, if_pos ⟨low, high⟩] at new
        exact mapped new
    · -- past the limit a selected block would be released without being in the range
      refine ⟨fun sel => ?_, fun range => absurd range.2.2 small⟩
      have eq := bmapWalk_eq disk inode.iBlock l pos
      have given : bmapWalk disk inode.iBlock l ∈ w.released :=
        (done.mem w.disk (fun _ _ => rfl) _).mpr
          (.inl ⟨l, segmentsLookup_lt disk _ l (eq ▸ mapped), sel, eq.symm, mapped⟩)
      rcases (exactly.released _).mp given with ⟨l', _, _, found, _⟩ | ⟨indirect, _⟩
      · obtain ⟨small', walk⟩ := ext2fsBmap2_eq_some found
        rw [bmapWalk_eq disk _ l' pos, eq] at walk
        have same := segments_position_unique disk _ l (eq ▸ mapped) l' pos tree.nodup walk.symm
        exact absurd small' (same ▸ small)
      · exact absurd indirect (data l mapped)
  · by_contra empty
    have zero : checkZeroBlock (disk.read b) = true := by simpa using empty
    have given :
      b ∈ w.released := (done.mem w.disk (fun _ _ => rfl) b).mpr (.inr ⟨hr, done.shrinks b zero⟩)
    rcases (exactly.released b).mp given with ⟨l, _, _, found, ne⟩ | ⟨_, full, _⟩
    · obtain ⟨_, walk⟩ := ext2fsBmap2_eq_some found
      exact data l (walk ▸ ne) (walk ▸ rangeReached_subset disk _ _ _ hr)
    · rw [zero] at full
      cases full

end

/-- A successful punch takes exactly the range out of the file, if and only if the windows
fit it. -/
theorem punch_exactly_iff (sb : Super) (disk : Disk sb.addrPerBlock) (inode : Inode)
    (start stop : Nat) (tree : IsTree sb disk inode) (w : Work sb.addrPerBlock) (iBlock : List Nat)
    (run : ext2fsPunch sb disk inode start stop = some (w, iBlock)) :
    PunchesExactly sb disk inode start stop w iBlock ↔
      (start < 2 ^ 32 → WindowsFit sb disk inode start stop) := by
  by_cases inside : start < 2 ^ 32
  · have done := ext2fsPunch_spec tree inside run
    exact ⟨fun exactly _ => fit_of_exact done tree exactly,
      fun fit => exact_of_fit done (fit inside)⟩
  refine ⟨fun _ h => absurd h inside, fun _ => ?_⟩
  -- no block of such a range can be mapped, and nothing is done
  have past : start > blkTMax := by
    unfold blkTMax
    omega
  rw [ext2fsPunch] at run
  split at run
  · cases run
  simp only [ext2fsPunchInd, past, if_true, some.injEq, mk.injEq] at run
  obtain ⟨rfl, rfl⟩ := run
  have unmapped : ∀ l, start ≤ l → ext2fsBmap2 disk inode.iBlock l = none := by
    intro l low
    exact if_pos (.inl (by omega))
  refine ⟨fun l => ?_, nodup_nil, fun b => ?_, by simp⟩
  · split_ifs with range
    · simp [unmapped l range.1]
    · rfl
  · constructor
    · simp
    · rintro (⟨l, low, _, found, _⟩ | ⟨_, full, zero⟩)
      · simp [unmapped l low] at found
      · simp [full] at zero

/- From block zero on the windows are never moved wrongly: the count of every entry is
what is left of the range. -/
theorem selected_from_zero (n k count r : Nat) (pos : 0 < n) (small : count < 2 ^ 64) :
    Selected n (k + 1) 0 count r ↔ r < count := by
  induction k generalizing count r with
  | zero =>
    simp [Selected, Visited, add64_eq (show 0 + count < 2 ^ 64 by omega)]
  | succ k ih =>
    have width : 0 < n ^ (k + 1) := Nat.pow_pos pos
    have parts := Nat.div_add_mod' r (n ^ (k + 1))
    have le := Nat.div_mul_le_self r (n ^ (k + 1))
    generalize hoff : r / n ^ (k + 1) * n ^ (k + 1) = off at parts le
    rw [Selected, hoff, Visited, hoff, Nat.zero_sub, add64_eq (by omega), Nat.zero_add]
    have ahead : 0 < (r / n ^ (k + 1) + 1) * n ^ (k + 1) := Nat.mul_pos (Nat.succ_pos _) width
    by_cases before : off < count
    · rw [sub64_eq (by omega) small, ih _ _ (by omega)]
      omega
    · exact ⟨fun h => absurd h.1.1 before, fun h => absurd h (by omega)⟩

theorem range_from_zero {n : Nat} {gs : List Segment} (count l : Nat) (pos : 0 < n)
    (small : count < 2 ^ 64) (inside : l < (gs.map Segment.size).sum) :
    RangeSelected n gs 0 count l ↔ l < count := by
  induction gs generalizing count l with
  | nil => simp at inside
  | cons g gs ih =>
    rw [map_cons, sum_cons] at inside
    rw [RangeSelected]
    by_cases own : l < g.size
    · rw [if_pos (by omega), if_pos own]
      exact selected_from_zero n g.level count l pos small
    have rest := fun c hc => ih c (l - g.size) hc (by omega)
    by_cases empty : 0 < g.size
    · rw [if_pos empty, if_neg own, rest _ (by omega)]
      omega
    · rw [if_neg empty, Nat.zero_sub, rest _ small]
      omega

/-- Truncation: the windows fit every range from block zero on, when no empty indirect
block is on the way. -/
theorem windowsFit_from_zero {sb : Super} {disk : Disk sb.addrPerBlock} {inode : Inode} {stop : Nat}
    (pointers : ∀ b ∈ rangeReached disk (segments sb.addrPerBlock inode.iBlock) 0
      (punchCount 0 stop), checkZeroBlock (disk.read b) = false) :
    WindowsFit sb disk inode 0 stop := by
  have pos := addrPerBlock_pos sb
  refine ⟨fun l mapped => ?_, pointers⟩
  have count :
      punchCount 0 stop < 2 ^ 64 ∧ (l < punchCount 0 stop ↔ l ≤ stop ∧ l < 2 ^ 32 - 1) := by
    unfold punchCount blkTMax
    split <;> omega
  rw [bmapWalk_eq disk _ l pos] at mapped
  rw [range_from_zero _ l pos count.1 (segmentsLookup_lt disk _ l mapped), count.2]
  simp

/- A file of fifteen blocks: twelve direct ones and three below the indirect block 200. -/
def smallSuper : Super := ⟨1000, 0, 0, false, by decide⟩

def smallDisk : Disk smallSuper.addrPerBlock where
  read b := if b = 200 then [113, 114, 115] ++ List.replicate 253 0 else List.replicate 256 0
  length_read b := by
    split
    · rw [length_append, length_replicate]
      rfl
    · rw [length_replicate]
      rfl

def smallInode : Inode where
  iBlock := [101, 102, 103, 104, 105, 106, 107, 108, 109, 110, 111, 112, 200, 0, 0]
  length_iBlock := rfl
  hugeFileFl := false
  count := ⟨32, 0, by decide, by decide⟩

theorem small_is_tree : IsTree smallSuper smallDisk smallInode :=
  ⟨by decide +kernel, by decide +kernel⟩

theorem small_windows_fit : WindowsFit smallSuper smallDisk smallInode 0 12 :=
  windowsFit_from_zero (by decide +kernel)

theorem punch_exactly_small :
    ∃ w iBlock, ext2fsPunch smallSuper smallDisk smallInode 0 12 = some (w, iBlock) ∧
      PunchesExactly smallSuper smallDisk smallInode 0 12 w iBlock := by
  have succeeds : (ext2fsPunch smallSuper smallDisk smallInode 0 12).isSome = true := by
    decide +kernel
  obtain ⟨⟨w, iBlock⟩, run⟩ := isSome_iff_exists.mp succeeds
  exact ⟨w, iBlock, run,
    (punch_exactly_iff smallSuper smallDisk smallInode 0 12 small_is_tree w iBlock
    run).mpr fun _ => small_windows_fit⟩

/- Taking out the blocks 5 to 14: ten blocks are to go, no more than the first segment
has, so the loop stops behind the direct blocks and 12 to 14 stay mapped. -/
theorem punch_keeps_tail : IsTree smallSuper smallDisk smallInode ∧
    (ext2fsPunch smallSuper smallDisk smallInode 5 14).map
      (fun out => ([12, 13, 14].map (ext2fsBmap2 out.1.disk out.2), out.1.released)) =
    some ([some 113, some 114, some 115], [106, 107, 108, 109, 110, 111, 112]) :=
  ⟨small_is_tree, by decide +kernel⟩

end E2fs.Punch
