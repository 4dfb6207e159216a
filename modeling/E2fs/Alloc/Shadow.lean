import E2fs.Alloc.Stats
import E2fs.Bitmap.Clusters
import Mathlib.Order.CompletePartialOrder

/-! e2fsck's own map of used blocks under the callbacks that should keep it: what
every call does to the map, what it should do, and when the two are the same. -/
namespace E2fs.Alloc
open Word Generic Rb List Option Nat Set

inductive Use where
  | allocate
  | release
  deriving DecidableEq

def Use.inuse : Use → Int
  | .allocate => 1
  | .release => -1

inductive Call where
  | block (blk : Nat) (use : Use)
  | range (blk num : Nat) (use : Use)

/- The blocks of a call lie in the file system; `num` is a `blk_t`. -/
def Call.Inside (sb : Super) : Call → Prop
  | .block blk _ => sb.Holds blk
  | .range blk num _ =>
    sb.firstDataBlock ≤ blk ∧ blk + num ≤ sb.blocksCount ∧ num < 2 ^ 32

instance (sb : Super) : (call : Call) → Decidable (call.Inside sb)
  | .block blk _ => inferInstanceAs (Decidable (sb.Holds blk))
  | .range _ _ _ => inferInstanceAs (Decidable (_ ∧ _ ∧ _))

def statsStep (alloc : Allocator) (fs : Filsys) : Call → Filsys
  | .block blk use => ext2fsBlockAllocStats2 alloc fs blk use.inuse
  | .range blk num use => ext2fsBlockAllocStatsRange alloc fs blk num use.inuse

def statsRun (alloc : Allocator) (fs : Filsys) (calls : List Call) : Filsys :=
  calls.foldl (statsStep alloc) fs

section Spec

variable (clusterBits : Nat) (critical : Set Nat)

/-- One block allocated or released: its cluster is added, or removed unless it is one
of the critical ones. -/
def followBlock (use : Use) (found : Set Nat) (blk : Nat) : Set Nat :=
  match use with
  | .allocate => found ∪ {blk >>> clusterBits}
  | .release => found \ ({blk >>> clusterBits} \ critical)

/-- What a call should do to the map: a range is its blocks in order. -/
def follow (found : Set Nat) : Call → Set Nat
  | .block blk use => followBlock clusterBits critical use found blk
  | .range blk num use => (List.range' blk num).foldl (followBlock clusterBits critical use) found

theorem clustersOf_succ (blk num : Nat) : clustersOf clusterBits (Set.Ico blk (blk + (num + 1))) =
      {blk >>> clusterBits} ∪ clustersOf clusterBits (Set.Ico (blk + 1) (blk + 1 + num)) := by
  have first : Set.Ico blk (blk + (num + 1)) = {blk} ∪ Set.Ico (blk + 1) (blk + 1 + num) := by
    ext b
    simp only [singleton_union, mem_insert_iff, mem_Ico]
    omega
  rw [first, clustersOf_union]
  congr 1
  exact image_singleton

theorem follow_allocate (found : Set Nat) (blk num : Nat) :
    follow clusterBits critical found (.range blk num .allocate) =
      found ∪ clustersOf clusterBits (Set.Ico blk (blk + num)) := by
  simp only [follow]
  induction num generalizing blk found with
  | zero => simp [clustersOf]
  | succ num ih =>
    rw [range'_succ, foldl_cons, ih, followBlock, union_assoc, ← clustersOf_succ]

theorem follow_release (found : Set Nat) (blk num : Nat) :
    follow clusterBits critical found (.range blk num .release) =
      found \ (clustersOf clusterBits (Set.Ico blk (blk + num)) \ critical) := by
  simp only [follow]
  induction num generalizing blk found with
  | zero => simp [clustersOf]
  | succ num ih =>
    rw [range'_succ, foldl_cons, ih, followBlock, Set.sdiff_sdiff, ← union_sdiff_distrib,
      ← clustersOf_succ]

end Spec

/- The cluster that an empty range at `blk` still has: the one `blk` is inside of. -/
def brokenCluster (clusterBits blk : Nat) : Set Nat :=
  {c | c = blk >>> clusterBits ∧ blk % 2 ^ clusterBits ≠ 0}

/- What the callbacks do to the map. `metadata` is the other map, if there is one. -/
def callbackEffect (clusterBits : Nat) (metadata : Option (Set Nat)) (found : Set Nat) :
    Call → Set Nat
  | .block blk use => followBlock clusterBits (metadata.getD ∅) use found blk
  | .range blk num .allocate => found ∪ brokenCluster clusterBits (blk + num)
  | .range blk num .release =>
    match metadata with
    | none => found \ brokenCluster clusterBits (blk + num)
    | some critical => found \ (brokenCluster clusterBits (blk + num) ∩ critical)

/-- A range call that needs no change of the map, apart from the cluster that contains
the block behind the range. -/
def Harmless (clusterBits : Nat) (metadata : Option (Set Nat)) (found : Set Nat) : Call → Prop
  | .block _ _ => True
  | .range blk num .allocate =>
    (∀ b ∈ Set.Ico blk (blk + num), b >>> clusterBits ≠ (blk + num) >>> clusterBits →
      b >>> clusterBits ∈ found) ∧
    (num = 0 → blk % 2 ^ clusterBits ≠ 0 → blk >>> clusterBits ∈ found)
  | .range blk num .release =>
    match metadata with
    | none =>
      (∀ b ∈ Set.Ico blk (blk + num), b >>> clusterBits ≠ (blk + num) >>> clusterBits →
        b >>> clusterBits ∉ found) ∧
      (num = 0 → blk % 2 ^ clusterBits ≠ 0 → blk >>> clusterBits ∉ found)
    | some critical =>
      (∀ b ∈ Set.Ico blk (blk + num), b >>> clusterBits ∉ critical → b >>> clusterBits ∉ found) ∧
      ((blk + num) % 2 ^ clusterBits ≠ 0 → (blk + num) >>> clusterBits ∈ critical →
        (blk + num) >>> clusterBits ∉ found)

section Effect

variable {clusterBits blk num : Nat} {found : Set Nat}

theorem last_shares_cluster {stop : Nat} (inner : stop % 2 ^ clusterBits ≠ 0) :
    (stop - 1) >>> clusterBits = stop >>> clusterBits := by
  rw [shiftRight_eq_div_pow, shiftRight_eq_div_pow]
  generalize 2 ^ clusterBits = w at *
  have pos : 0 < stop := pos_of_ne_zero fun h => inner (by simp [h])
  have split := @Nat.succ_div (stop - 1) w
  rw [Nat.sub_add_cancel pos, if_neg fun h => inner (mod_eq_zero_of_dvd h)] at split
  exact split.symm

theorem stop_begins_cluster {stop b : Nat} (edge : stop % 2 ^ clusterBits = 0) (before : b < stop) :
    b >>> clusterBits ≠ stop >>> clusterBits := by
  rw [shiftRight_eq_div_pow, shiftRight_eq_div_pow]
  have pos : 0 < 2 ^ clusterBits := Nat.two_pow_pos _
  generalize 2 ^ clusterBits = w at *
  apply Nat.ne_of_lt
  rw [Nat.div_lt_iff_lt_mul pos, Nat.div_mul_cancel (dvd_of_mod_eq_zero edge)]
  exact before

/- The broken cluster stands for the clusters of the range as far as the clusters
with a property go. -/
theorem broken_stands_for_range (P : Nat → Prop) :
    (∀ c, P c → (c ∈ brokenCluster clusterBits (blk + num) ↔
      c ∈ clustersOf clusterBits (Set.Ico blk (blk + num)))) ↔
      (∀ b ∈ Set.Ico blk (blk + num), b >>> clusterBits ≠ (blk + num) >>> clusterBits →
        ¬ P (b >>> clusterBits)) ∧ (num = 0 → blk % 2 ^ clusterBits ≠ 0 →
        ¬ P (blk >>> clusterBits)) := by
  constructor
  · intro same
    constructor
    · intro b mem other hit
      exact other ((same _ hit).mpr ⟨b, mem, rfl⟩).1
    · rintro rfl inner hit
      obtain ⟨b, ⟨low, high⟩, -⟩ := (same _ hit).mp ⟨rfl, inner⟩
      omega
  · rintro ⟨others, bare⟩ c hit
    constructor
    · rintro ⟨rfl, inner⟩
      rcases Nat.eq_zero_or_pos num with rfl | pos
      · exact absurd hit (bare rfl inner)
      · exact ⟨blk + num - 1, ⟨by omega, by omega⟩, last_shares_cluster inner⟩
    · rintro ⟨b, mem, rfl⟩
      have last : b >>> clusterBits = (blk + num) >>> clusterBits := by
        by_contra other
        exact others b mem other hit
      exact ⟨last, fun edge => stop_begins_cluster edge mem.2 last⟩

theorem effect_eq_follow_iff (metadata : Option (Set Nat)) (call : Call) :
    callbackEffect clusterBits metadata found call =
      follow clusterBits (metadata.getD ∅) found call ↔
      Harmless clusterBits metadata found call := by
  cases call with
  | block blk use => exact iff_of_true rfl trivial
  | range blk num use =>
    cases use with
    | allocate =>
      rw [follow_allocate, callbackEffect, Harmless]
      have h := @broken_stands_for_range clusterBits blk num (fun c => c ∉ found)
      simp only [not_not] at h
      rw [← h, Set.ext_iff]
      refine forall_congr' fun c => ?_
      simp only [mem_union]
      tauto
    | release =>
      rw [follow_release]
      cases metadata with
      | none =>
        simp only [callbackEffect, Harmless]
        rw [← broken_stands_for_range (fun c => c ∈ found), Set.ext_iff]
        refine forall_congr' fun c => ?_
        simp only [getD_none, mem_sdiff, mem_empty_iff_false, not_false_eq_true, and_true]
        tauto
      | some critical =>
        simp only [callbackEffect, Harmless, getD_some, Set.ext_iff, mem_sdiff, mem_inter_iff]
        constructor
        · intro same
          constructor
          · intro b mem free hit
            exact ((same _).mp ⟨hit, fun h => free h.2⟩).2 ⟨⟨b, mem, rfl⟩, free⟩
          · intro inner guarded hit
            exact ((same _).mpr ⟨hit, fun h => h.2 guarded⟩).2 ⟨⟨rfl, inner⟩, guarded⟩
        · rintro ⟨others, last⟩ c
          constructor
          · rintro ⟨hit, -⟩
            refine ⟨hit, ?_⟩
            rintro ⟨⟨b, mem, rfl⟩, free⟩
            exact others b mem free hit
          · rintro ⟨hit, -⟩
            refine ⟨hit, ?_⟩
            rintro ⟨⟨rfl, inner⟩, guarded⟩
            exact last inner guarded hit

end Effect

section Maps

variable {sb : Super} {bm : GenericBitmap64} {blk : Nat}

theorem clusterRange_zero (map : MapOver sb bm) (inside : blk ≤ sb.blocksCount) :
    clusterRange bm blk 0 =
      (blk >>> sb.clusterRatioBits, if blk % 2 ^ sb.clusterRatioBits = 0 then 0 else 1) := by
  have ratio := sb.ratio_le
  have blocks := sb.blocks_le
  rw [← map.cells] at ratio ⊢
  exact clusterRange_empty (by omega) (by omega)

/- Either the block is inside a cluster of the bitmap, or the range is really empty. -/
theorem clusterRange_zero_cells (map : MapOver sb bm) (low : sb.firstDataBlock ≤ blk)
    (inside : blk ≤ sb.blocksCount) :
    Set.Ico (clusterRange bm blk 0).1 ((clusterRange bm blk 0).1 + (clusterRange bm blk 0).2) =
        brokenCluster sb.clusterRatioBits blk ∧
        (outside bm.bounds (clusterRange bm blk 0).1 (clusterRange bm blk 0).2 →
        brokenCluster sb.clusterRatioBits blk = ∅) := by
  rw [clusterRange_zero map inside]
  by_cases edge : blk % 2 ^ sb.clusterRatioBits = 0
  · rw [if_pos edge]
    have none : brokenCluster sb.clusterRatioBits blk = ∅ := by
      simp [brokenCluster, edge]
    exact ⟨by simp [none], fun _ => none⟩
  rw [if_neg edge]
  have one : brokenCluster sb.clusterRatioBits blk = {blk >>> sb.clusterRatioBits} := by
    simp [brokenCluster, edge]
  refine ⟨by rw [one, Ico_one], fun out => ?_⟩
  exfalso
  have above : sb.firstDataBlock >>> sb.clusterRatioBits ≤ blk >>> sb.clusterRatioBits := by
    simp only [shiftRight_eq_div_pow]
    exact Nat.div_le_div_right low
  have below : blk >>> sb.clusterRatioBits ≤ (sb.blocksCount - 1) >>> sb.clusterRatioBits := by
    rw [← last_shares_cluster edge]
    simp only [shiftRight_eq_div_pow]
    exact Nat.div_le_div_right (by omega)
  have word : blk >>> sb.clusterRatioBits ≤ blk := by
    rw [shiftRight_eq_div_pow]
    exact Nat.div_le_self _ _
  have blocks := sb.blocks_le
  rw [outside, map.start, map.stop] at out
  generalize blk >>> sb.clusterRatioBits = c at *
  rw [add64_eq (by omega), sub64_eq (by omega) (by omega)] at out
  omega

/-- What a callback may assume of the three operations it calls: they mark, unmark and
test, on every map over the file system. -/
structure Operates (sb : Super) (cells : Set Nat) (critical : Set Nat → Prop)
    (test : GenericBitmap64 → GenericBitmap64 × Nat)
    (mark unmark : GenericBitmap64 → GenericBitmap64) : Prop where
  marks : ∀ bm, MapOver sb bm → MapOver sb (mark bm) ∧ (mark bm).bits = bm.bits ∪ cells
  unmarks : ∀ bm, MapOver sb bm → MapOver sb (unmark bm) ∧ (unmark bm).bits = bm.bits \ cells
  tests : ∀ bm, MapOver sb bm → MapOver sb (test bm).1 ∧ (test bm).1.bits = bm.bits ∧
    ((test bm).2 ≠ 0 ↔ critical bm.bits)

theorem block_operates (alloc : Allocator) (holds : sb.Holds blk) :
    Operates sb {blk >>> sb.clusterRatioBits} (blk >>> sb.clusterRatioBits ∈ ·)
      (fun bm => ext2fsTestGenericBmap bm blk) (fun bm => (ext2fsMarkGenericBmap alloc bm blk).1)
      (fun bm => (ext2fsUnmarkGenericBmap alloc bm blk).1) := by
  constructor
  · intro bm map
    have has := map.has holds
    refine (map.step alloc (.mark blk) trivial).imp_right fun bits => bits.trans ?_
    simp only [opBits]
    rw [if_neg (not_or.mpr ⟨Nat.not_lt.mpr has.1, Nat.not_lt.mpr has.2⟩), Ico_one, map.cells]
  · intro bm map
    have has := map.has holds
    refine (map.step alloc (.unmark blk) trivial).imp_right fun bits => bits.trans ?_
    simp only [opBits]
    rw [if_neg (not_or.mpr ⟨Nat.not_lt.mpr has.1, Nat.not_lt.mpr has.2⟩), Ico_one, map.cells]
  · intro bm map
    obtain ⟨bounds, cells, sound, bits, answer⟩ := test_reports bm blk map.sound
    refine ⟨map.of_same bounds cells sound, bits, answer.trans ?_⟩
    rw [GenericBitmap64.IsSet, map.cells]
    exact and_iff_right (map.has holds)

/- The range callback is given an empty range, which still has a cluster when it
begins inside one. The test is positive when that cluster is not critical. -/
theorem empty_range_operates (alloc : Allocator) (low : sb.firstDataBlock ≤ blk)
    (inside : blk ≤ sb.blocksCount) :
    Operates sb (brokenCluster sb.clusterRatioBits blk)
    (Disjoint (brokenCluster sb.clusterRatioBits blk) ·)
      (fun bm => ext2fsTestBlockBitmapRange2 bm blk 0)
      (fun bm => ext2fsMarkBlockBitmapRange2 alloc bm blk 0)
      (fun bm => ext2fsUnmarkBlockBitmapRange2 alloc bm blk 0) := by
  have word : ∀ bm, MapOver sb bm → blk + 0 + 2 ^ bm.clusterBits ≤ 2 ^ 64 := fun bm map => by
    rw [map.cells]
    exact sb.word_le inside
  constructor
  · intro bm map
    obtain ⟨range, hidden⟩ := clusterRange_zero_cells map low inside
    refine (map.step alloc (.markRange blk 0) (word bm map)).imp_right fun bits => bits.trans ?_
    simp only [opBits, range]
    split_ifs with out
    · simp [hidden out]
    · rfl
  · intro bm map
    obtain ⟨range, hidden⟩ := clusterRange_zero_cells map low inside
    refine (map.step alloc (.unmarkRange blk 0) (word bm map)).imp_right fun bits => bits.trans ?_
    simp only [opBits, range]
    split_ifs with out
    · simp [hidden out]
    · rfl
  · intro bm map
    obtain ⟨range, hidden⟩ := clusterRange_zero_cells map low inside
    obtain ⟨same, answer⟩ := testRange2_reports bm map.sound (word bm map) (by decide)
    rw [range] at answer
    refine ⟨(congrArg (MapOver sb) same).mpr map, congrArg (·.bits) same, answer.trans ?_⟩
    rw [Set.disjoint_left]
    constructor
    · rintro (out | clear)
      · simp [hidden out]
      · exact clear
    · exact .inr

end Maps

/-- The maps of e2fsck: the clusters found in use, and those of the metadata map when
there is one. -/
structure Shadowed (sb : Super) (metadata : Option (Set Nat)) (found : Set Nat) (ctx : E2fsck) :
    Prop where
  found_map : ∃ bm, ctx.blockFoundMap = some bm ∧ MapOver sb bm ∧ bm.bits = found
  metadata_bits : ctx.blockMetadataMap.map (·.bits) = metadata
  metadata_map : ∀ bm ∈ ctx.blockMetadataMap, MapOver sb bm

def Filsys.Tracks (fs : Filsys) (metadata : Option (Set Nat)) (found : Set Nat) : Prop :=
  ∃ ctx, fs.ctx = some ctx ∧ Shadowed fs.super metadata found ctx

section Steps

variable {sb : Super} {metadata : Option (Set Nat)} {found cells : Set Nat}
  {critical : Set Nat → Prop} {test : GenericBitmap64 → GenericBitmap64 × Nat}
  {mark unmark : GenericBitmap64 → GenericBitmap64} {ctx : E2fsck}

section

variable (ops : Operates sb cells critical test mark unmark)
  (shadowed : Shadowed sb metadata found ctx)
include ops shadowed

theorem shadowStats_allocate : Shadowed sb metadata (found ∪ cells)
    (shadowStats test mark unmark ctx 1) := by
  obtain ⟨⟨bm, there, map, rfl⟩, bits, maps⟩ := shadowed
  obtain ⟨map', marked⟩ := ops.marks bm map
  simp only [shadowStats, there]
  exact ⟨⟨mark bm, rfl, map', marked⟩, bits, maps⟩

theorem shadowStats_release {kept : Set Nat}
    (skips : ∀ c, c ∈ kept ↔ c ∈ found ∧ (c ∈ cells → ∃ m ∈ metadata, critical m)) :
    Shadowed sb metadata kept (shadowStats test mark unmark ctx (-1)) := by
  obtain ⟨⟨bm, there, map, rfl⟩, bits, maps⟩ := shadowed
  obtain ⟨map', unmarked⟩ := ops.unmarks bm map
  cases other : ctx.blockMetadataMap with
  | none =>
    rw [other] at bits
    simp only [shadowStats, there, other]
    refine ⟨⟨unmark bm, rfl, map', unmarked.trans ?_⟩, bits, by simp⟩
    ext c
    simp [skips, ← bits, mem_sdiff]
  | some m =>
    rw [other, map_some] at bits
    obtain ⟨over', same, answer⟩ := ops.tests m (maps m other)
    have bits' : (some (test m).1).map (·.bits) = metadata := by simpa [same] using bits
    have maps' : ∀ bm ∈ some (test m).1, MapOver sb bm := by simpa using over'
    simp only [shadowStats, there, other]
    rw [if_pos (by decide)]
    subst bits
    split
    · rename_i guarded
      refine ⟨⟨bm, rfl, map, ?_⟩, bits', maps'⟩
      ext c
      simp [skips, answer.mp guarded]
    · rename_i free
      refine ⟨⟨unmark bm, rfl, map', unmarked.trans ?_⟩, bits', maps'⟩
      ext c
      simp [skips, mt answer.mpr free, mem_sdiff]

end

end Steps

section Calls

variable {fs : Filsys} {metadata : Option (Set Nat)} {found : Set Nat} {blk num : Nat}

theorem blocksInGroup_spec {sb : Super} (low : sb.firstDataBlock ≤ blk) (left : 0 < num)
    (inside : blk + num ≤ sb.blocksCount) :
    0 < blocksInGroup sb blk num ∧ blocksInGroup sb blk num ≤ num := by
  have blocks := sb.blocks_le
  have last := le_groupLastBlock2 ⟨low, by omega⟩
  simp only [blocksInGroup]
  generalize groupLastBlock2 sb (groupOfBlk2 sb blk) = lastBlk at last ⊢
  rw [add64_eq (show blk + num < 2 ^ 64 by omega), sub64_eq last.1 (by omega),
    add64_eq (show lastBlk - blk + 1 < 2 ^ 64 by omega)]
  split <;> omega

/- The loop only touches the counts and flags, and takes the whole range. -/
theorem statsGroups_spec (inuse : Int) {rounds : Nat} (fs : Filsys) (blk num : Nat)
    (enough : num ≤ rounds) (low : fs.super.firstDataBlock ≤ blk)
    (inside : blk + num ≤ fs.super.blocksCount) (word : num < 2 ^ 32) :
    let out := statsGroups inuse rounds fs blk num
    out.1.super = fs.super ∧ out.1.ctx = fs.ctx ∧ out.2 = (blk + num, 0) := by
  induction rounds generalizing fs blk num with
  | zero =>
    obtain rfl : num = 0 := by omega
    exact ⟨rfl, rfl, rfl⟩
  | succ rounds ih =>
    rw [statsGroups]
    split_ifs with done
    · subst done
      exact ⟨rfl, rfl, rfl⟩
    have blocks := fs.super.blocks_le
    obtain ⟨pos, few⟩ := blocksInGroup_spec low (pos_of_ne_zero done) inside
    simp only
    generalize blocksInGroup fs.super blk num = n at pos few ⊢
    rw [add64_eq (show blk + n < 2 ^ 64 by omega), sub64_eq few (by omega), mod_eq_of_lt (by omega)]
    have rest := ih (groupStats inuse fs (groupOfBlk2 fs.super blk) n) (blk + n) (num - n)
      (by omega) (le_trans low (by omega)) (le_of_eq_of_le (by omega) inside) (by omega)
    rw [show blk + n + (num - n) = blk + num by omega] at rest
    exact rest

theorem stats2_tracks (alloc : Allocator) (use : Use) (tracks : fs.Tracks metadata found)
    (holds : fs.super.Holds blk) :
    let fs' := ext2fsBlockAllocStats2 alloc fs blk use.inuse
    fs'.super = fs.super ∧ fs'.Tracks metadata
        (followBlock fs.super.clusterRatioBits (metadata.getD ∅) use found blk) := by
  obtain ⟨ctx, there, shadowed⟩ := tracks
  rw [ext2fsBlockAllocStats2, if_neg (Nat.not_le.mpr holds.2)]
  refine ⟨rfl, _, congrArg (Option.map _) there, ?_⟩
  cases use with
  | allocate => exact shadowStats_allocate (block_operates alloc holds) shadowed
  | release =>
    refine shadowStats_release (block_operates alloc holds) shadowed fun c => ?_
    simp only [followBlock, mem_sdiff, mem_singleton_iff]
    refine and_congr_right fun _ => ?_
    rcases metadata with _ | m
    · simp
    simp only [getD_some, mem_def, some.injEq, exists_eq_left', not_and, not_not]
    exact forall_congr' fun here => here ▸ Iff.rfl

theorem range_tracks (alloc : Allocator) {use : Use} (tracks : fs.Tracks metadata found)
    (inside : (Call.range blk num use).Inside fs.super) :
    let fs' := ext2fsBlockAllocStatsRange alloc fs blk num use.inuse
    fs'.super = fs.super ∧ fs'.Tracks metadata
        (callbackEffect fs.super.clusterRatioBits metadata found (.range blk num use)) := by
  obtain ⟨ctx, there, shadowed⟩ := tracks
  obtain ⟨low, high, word⟩ := inside
  have blocks := fs.super.blocks_le
  have ops := empty_range_operates alloc (le_trans low (Nat.le_add_right blk num)) high
  have signed : (if use.inuse > 0 then 1 else -1) = use.inuse := by cases use <;> rfl
  have moved : use.inuse ≠ 0 := by cases use <;> decide
  rw [ext2fsBlockAllocStatsRange, if_neg (by rw [add64_eq (by omega)]; omega), if_neg moved, signed]
  dsimp only
  generalize (if use.inuse > 0 then ext2fsMarkBlockBitmapRange2 alloc fs.blockMap blk num
    else ext2fsUnmarkBlockBitmapRange2 alloc fs.blockMap blk num) = map
  obtain ⟨super, same, rest⟩ := statsGroups_spec use.inuse { fs with blockMap := map } blk num
    (le_refl _) low high word
  generalize statsGroups use.inuse num { fs with blockMap := map } blk num = out at *
  obtain ⟨fs', blk', num'⟩ := out
  obtain ⟨rfl, rfl⟩ : blk' = blk + num ∧ num' = 0 := Prod.mk.inj rest
  refine ⟨super, _,
    congrArg (Option.map _) (same.trans there), ?_⟩
  rw [super]
  cases use with
  | allocate => exact shadowStats_allocate ops shadowed
  | release =>
    refine shadowStats_release ops shadowed fun c => ?_
    simp only [callbackEffect]
    rcases metadata with _ | m
    · simp [mem_sdiff]
    simp only [mem_sdiff, mem_inter_iff, mem_def, some.injEq, exists_eq_left', Set.disjoint_left]
    refine and_congr_right fun _ => ?_
    constructor
    · rintro apart ⟨rfl, inner⟩ d ⟨rfl, -⟩ hit
      exact apart ⟨⟨rfl, inner⟩, hit⟩
    · rintro apart ⟨here, hit⟩
      exact apart here here hit

theorem statsStep_tracks (alloc : Allocator) {call : Call} (tracks : fs.Tracks metadata found)
    (inside : call.Inside fs.super) : (statsStep alloc fs call).super = fs.super ∧
      (statsStep alloc fs call).Tracks metadata
        (callbackEffect fs.super.clusterRatioBits metadata found call) := by
  cases call with
  | block blk use => exact stats2_tracks alloc use tracks inside
  | range blk num use => exact range_tracks alloc tracks inside

theorem Filsys.Tracks.unique {other : Set Nat} (one : fs.Tracks metadata found)
    (two : fs.Tracks metadata other) : found = other := by
  obtain ⟨ctx, there, shadowed⟩ := one
  obtain ⟨ctx', there', shadowed'⟩ := two
  obtain rfl : ctx = ctx' := some.inj (there.symm.trans there')
  obtain ⟨bm, is, -, rfl⟩ := shadowed.found_map
  obtain ⟨bm', is', -, rfl⟩ := shadowed'.found_map
  rw [some.inj (is.symm.trans is')]

theorem statsRun_super (alloc : Allocator) (calls : List Call) (tracks : fs.Tracks metadata found)
    (inside : ∀ call ∈ calls, call.Inside fs.super) :
    (statsRun alloc fs calls).super = fs.super := by
  induction calls generalizing fs found with
  | nil => rfl
  | cons call calls ih =>
    obtain ⟨super, after⟩ := statsStep_tracks alloc tracks (inside call (by simp))
    exact (ih after fun c mem => super ▸ inside c (by simp [mem])).trans super

end Calls

def followAll (clusterBits : Nat) (critical found : Set Nat) (calls : List Call) : Set Nat :=
  calls.foldl (follow clusterBits critical) found

/-- e2fsck's map follows the calls, after each of them, exactly when every range call
is harmless: its blocks are already in the map when it allocates, and not in the map
when it releases them, up to the cluster that contains the block behind the range. -/
theorem found_map_follows_iff (alloc : Allocator) (fs : Filsys) (metadata : Option (Set Nat))
    (found : Set Nat) (calls : List Call) (tracks : fs.Tracks metadata found)
    (inside : ∀ call ∈ calls, call.Inside fs.super) :
    (∀ n ≤ calls.length, (statsRun alloc fs (calls.take n)).Tracks metadata
      (followAll fs.super.clusterRatioBits (metadata.getD ∅) found (calls.take n))) ↔
    ∀ n (h : n < calls.length), Harmless fs.super.clusterRatioBits metadata
      (followAll fs.super.clusterRatioBits (metadata.getD ∅) found (calls.take n)) calls[n] := by
  -- what one more call does, when the map has followed the calls before it
  have step : ∀ n (h : n < calls.length), (statsRun alloc fs (calls.take n)).Tracks metadata
      (followAll fs.super.clusterRatioBits (metadata.getD ∅) found (calls.take n)) →
      (statsRun alloc fs (calls.take (n + 1))).Tracks metadata
        (callbackEffect fs.super.clusterRatioBits metadata
          (followAll fs.super.clusterRatioBits (metadata.getD ∅) found (calls.take n))
          calls[n]) := by
    intro n h before
    have super := statsRun_super alloc (calls.take n) tracks fun c mem =>
      inside c (mem_of_mem_take mem)
    have after := (statsStep_tracks alloc before (super ▸ inside _ (getElem_mem h))).2
    rw [super] at after
    rw [take_succ_eq_append_getElem h, statsRun, foldl_append]
    exact after
  have wanted : ∀ n (h : n < calls.length),
      followAll fs.super.clusterRatioBits (metadata.getD ∅) found (calls.take (n + 1)) =
        follow fs.super.clusterRatioBits (metadata.getD ∅)
          (followAll fs.super.clusterRatioBits (metadata.getD ∅) found (calls.take n))
          calls[n] := by
    intro n h
    rw [take_succ_eq_append_getElem h, followAll, foldl_append]
    rfl
  constructor
  · intro follows n h
    rw [← effect_eq_follow_iff, ← wanted n h]
    exact (step n h (follows n h.le)).unique (follows (n + 1) h)
  · intro harmless n
    induction n with
    | zero => exact fun _ => tracks
    | succ n ih =>
      intro h
      have after := step n h (ih (le_of_succ_le h))
      rwa [(effect_eq_follow_iff _ _).mpr (harmless n h), ← wanted n h] at after

def emptyMap : GenericBitmap64 := ⟨smallBounds, 0, .rbtree rbAllocPrivateData⟩

def smallFilsys : Filsys where
  super := twoGroups false
  freeBlocksCount := 32
  group := fun _ => ⟨16, false⟩
  blockMap := emptyMap
  ctx := some ⟨some emptyMap, some emptyMap⟩

theorem emptyMap_over : MapOver (twoGroups false) emptyMap := ⟨sound_empty _, rfl, rfl, rfl⟩

theorem emptyMap_bits : emptyMap.bits = ∅ := by
  simp [GenericBitmap64.bits, emptyMap, Private.bits, Rb.bits, RbPrivate.extents,
    rbAllocPrivateData]

theorem smallFilsys_tracks : smallFilsys.Tracks (some ∅) ∅ :=
  ⟨_, rfl, ⟨emptyMap, rfl, emptyMap_over, emptyMap_bits⟩, congrArg some emptyMap_bits,
    fun bm h => by cases h; exact emptyMap_over⟩

theorem found_map_follows_small_run : smallFilsys.Tracks (some ∅) ∅ ∧
      ∀ n ≤ 3, (statsRun bumpAllocator smallFilsys
        (List.take n [.block 3 .allocate, .range 3 1 .allocate, .block 3 .release])).Tracks (some ∅)
        (followAll 0 ∅ ∅
          (List.take n [.block 3 .allocate, .range 3 1 .allocate, .block 3 .release])) := by
  refine ⟨smallFilsys_tracks, ?_⟩
  refine (found_map_follows_iff bumpAllocator smallFilsys (some ∅) ∅
    [.block 3 .allocate, .range 3 1 .allocate, .block 3 .release] smallFilsys_tracks ?_).mpr ?_
  · intro call mem
    simp only [mem_cons, not_mem_nil, or_false] at mem
    rcases mem with rfl | rfl | rfl <;> decide
  · intro n h
    match n, h with
    | 0, _ => trivial
    | 1, _ =>
      refine ⟨fun b mem _ => ?_, fun none => absurd none (by decide)⟩
      obtain rfl : b = 3 := by
        have := mem.1
        have := mem.2
        omega
      exact .inr rfl
    | 2, _ => trivial

/- The ten blocks of a range allocation do not reach the map. -/
theorem range_allocation_not_followed :
    smallFilsys.Tracks (some ∅) ∅ ∧ (Call.range 10 10 .allocate).Inside smallFilsys.super ∧
      (statsRun bumpAllocator smallFilsys [.range 10 10 .allocate]).Tracks (some ∅) ∅ ∧
      ¬ (statsRun bumpAllocator smallFilsys [.range 10 10 .allocate]).Tracks (some ∅)
        (followAll 0 ∅ ∅ [.range 10 10 .allocate]) := by
  have inside : (Call.range 10 10 .allocate).Inside smallFilsys.super := by decide
  have after := (statsStep_tracks bumpAllocator smallFilsys_tracks inside).2
  have nothing : callbackEffect smallFilsys.super.clusterRatioBits (some ∅) ∅
      (.range 10 10 .allocate) = ∅ := by
    ext c
    simp [callbackEffect, brokenCluster, smallFilsys, twoGroups, mod_one]
  rw [nothing] at after
  refine ⟨smallFilsys_tracks, inside, after, fun follows => ?_⟩
  have wanted : 10 ∈ followAll 0 ∅ ∅ [.range 10 10 .allocate] := by
    rw [followAll, foldl_cons, follow_allocate]
    exact .inr ⟨10, by simp, rfl⟩
  rw [← after.unique follows] at wanted
  exact wanted

end E2fs.Alloc
