import E2fs.Quota.Map

/-! A file with more than 2 GiB: `find_free_dqentry` computes the offset of a record in an
`int`, so a record of a data block from number `2 ^ 21` on is written somewhere else. -/
namespace E2fs.Quota
open Memory Word Finset Function

/- Ids that share no block of the lowest level of the tree. -/
def wideId (n : Nat) : UInt32 := UInt32.ofNat (256 * n)

def wideOps (n : Nat) : List Op := (List.range n).map fun k => .write ⟨wideId k, sampleUse 1, 0⟩

def wideFile (n : Nat) : QuotaHandle := runOps (newIo []) (wideOps n)

def wideMap (n : Nat) : UInt32 → Option Dqblk := (wideOps n).foldl Op.apply fun _ => none

theorem wideOps_succ (n : Nat) :
    wideOps (n + 1) = wideOps n ++ [.write ⟨wideId n, sampleUse 1, 0⟩] := by
  simp [wideOps, List.range_succ]

theorem wideFile_succ (n : Nat) : wideFile (n + 1) = step (wideFile n)
    (.write ⟨wideId n, sampleUse 1, 0⟩) := by
  simp [wideFile, runOps, wideOps_succ]

theorem wideMap_succ (n : Nat) : wideMap (n + 1) = update (wideMap n) (wideId n)
    (some (sampleUse 1)) := by
  simp [wideMap, wideOps_succ, Op.apply]

theorem toNat_wideId {n : Nat} (lt : n < 2 ^ 22) : (wideId n).toNat = 256 * n :=
  UInt32.toNat_ofNat_of_lt' (show 256 * n < 2 ^ 32 by omega)

theorem wideId_inj {k n : Nat} (lt : k < 2 ^ 22) (lt' : n < 2 ^ 22) (same : wideId k = wideId n) :
    k = n := by
  have := congrArg UInt32.toNat same
  rw [toNat_wideId lt, toNat_wideId lt'] at this
  omega

theorem wideMap_eq {n : Nat} (le : n ≤ 2 ^ 22) {k : Nat} (lt : k < 2 ^ 22) :
    wideMap n (wideId k) = if k < n then some (sampleUse 1) else none := by
  induction n with
  | zero => rfl
  | succ n ih =>
    rw [wideMap_succ, update_apply]
    by_cases same : k = n
    · rw [if_pos (by rw [same]), if_pos (by omega)]
    · rw [if_neg fun is => same (wideId_inj lt (by omega) is), ih (by omega)]
      simp only [show k < n + 1 ↔ k < n by omega]

theorem CurrentRun.snoc {limit : Nat} {h : QuotaHandle} {ops : List Op} {op : Op}
    (run : CurrentRun limit h ops)
    (current : op.Current (runOps h ops)) (small : (step (runOps h ops) op).blocks ≤ limit) :
    CurrentRun limit h (ops ++ [op]) := by
  induction ops generalizing h with
  | nil => exact ⟨current, small, trivial⟩
  | cons first ops ih => exact ⟨run.1, run.2.1, ih run.2.2 current small⟩

section Wide

variable {n : Nat} {L : List Nat} {place : UInt32 → Nat}

/-- The state while all is well: nothing was freed, and one block at most has free entries. -/
structure Wide (n : Nat) (L : List Nat) (place : UInt32 → Nat) : Prop where
  inv : Inv (wideFile n) (wideMap n) [] L place
  single : ∃ x, ∀ c ∈ L, c = x
  run : CurrentRun (2 ^ 22 - 1) (newIo []) (wideOps n)

theorem Wide.lt_blocks (wide : Wide n L place) (le : n ≤ 2 ^ 22) : n < (wideFile n).blocks := by
  have inv := wide.inv
  have start := inv.pool.start
  have prefixes : ∀ k < n, pre (wideId k) 3 = k := by
    intro k lt
    rw [pre, toNat_wideId (by omega)]
    omega
  have there : ∀ k < n, nodeOf (wideFile n) 3 k ≠ 0 := by
    intro k lt
    have stored := inv.stored (wideId k) (sampleUse 1) (by rw [wideMap_eq le (by omega), if_pos lt])
    have := node_of_home stored.2.1 (d := 3) (by decide)
    rwa [prefixes k lt] at this
  have card := card_le_card_of_injOn (s := range n) (t := Ico 1 (wideFile n).blocks)
    (fun k => nodeOf (wideFile n) 3 k) (fun k mem => by
      have lt : k < n := mem_range.mp mem
      exact mem_coe.mpr (mem_Ico.mpr
        (inv.pool.lt (.inl (isTree_node (by decide) (show k < 256 ^ 3 by omega) (there k lt))))))
    (fun k mem k' mem' same => by
      have lt : k < n := mem_range.mp mem
      have lt' : k' < n := mem_range.mp mem'
      exact (inv.inj 3 (by decide) k (by omega) 3 (by decide) k' (by omega) (there k lt) same).2)
  rw [card_range, Nat.card_Ico] at card
  omega

/- A record far behind is written in front of the file. -/
theorem far_record (h1 : QuotaHandle) {b i : Nat} {l : List UInt8} (len : l.length = 72)
    (lt : i < 14)
    (far : 2 ^ 21 ≤ b) (small : b < 2 ^ 22) :
    view (e2fsWrite h1 (toInt32 (b * 1024) + 16 + 72 * i) l) = view h1 := by
  have off : toInt32 (b * 1024) = ((b * 1024 : Nat) : Int) - 4294967296 := by
    unfold toInt32
    rw [Int.bmod_def]
    omega
  funext c q
  rw [view, view]
  split
  · exact writeBytes_apart (by rw [off, len]; omega)
  · rfl

/- The count of a new block far behind has no record. -/
theorem far_not_map {h h1 : QuotaHandle} {m m' : UInt32 → Option Dqblk} {F F' L' : List Nat}
    {id : UInt32}
    {path : Nat → Nat} {i : Nat} {old : Buf} {l : List UInt8} (inv : Inv h m F L place)
    (new : home h id = 0)
    (inserted : Inserted h h1 id (InUse h) F F' L L' 0 path i old) (len : l.length = 72)
    (far : 2 ^ 21 ≤ path 4) :
    ¬ QuotaMap (e2fsWrite h1 (toInt32 (path 4 * 1024) + 16 + 72 * i) l) m' := by
  intro map
  have small := inserted.pool.lt_bound (.inl ⟨4, Nat.zero_le 4, le_refl 4, rfl⟩)
  have same := far_record h1 len inserted.took.lt far small
  obtain ⟨-, -, -, datas⟩ := same_tree h1 (e2fsWrite h1 _ l) fun c _ => congrFun same c
  have counted := map.counts (path 4) ((datas _).mpr ((inserted.isData inv new _).mpr (.inr rfl)))
  rw [same, inserted.took.entries, used_congr inserted.took.slots] at counted
  omega

theorem Wide.next (wide : Wide n L place) (lt : n < 2 ^ 22)
    (room : (wideFile n).blocks + 6 ≤ 2 ^ 22)
    (map : CurrentRun (2 ^ 22 - 1) (newIo []) (wideOps (n + 1)) →
      QuotaMap (wideFile (n + 1)) (wideMap (n + 1))) :
    ∃ b L' place', Wide (n + 1) L' place' ∧ (wideFile n).blocks ≤ (wideFile (n + 1)).blocks ∧
      (wideFile (n + 1)).blocks ≤ (wideFile n).blocks + 5 ∧ b < 2 ^ 21 ∧
      (b ∈ L ∧ used (view (wideFile (n + 1)) b) = used (view (wideFile n) b) + 1 ∧
        (∀ c ∈ L', c = b) ∨ L = [] ∧ (wideFile n).blocks ≤ b) := by
  have inv := wide.inv
  have usedv : (sampleUse 1).Used := .inl (show (1 : UInt64) ≠ 0 by decide)
  have none : wideMap n (wideId n) = none := by
    rw [wideMap_eq lt.le lt, if_neg (lt_irrefl n)]
  have new := inv.absent _ none
  obtain ⟨h1, path, i, F', L', old, ran, inserted⟩ := inv.room_for (by omega) new
  obtain ⟨noneFree, ahead⟩ := inserted.empty rfl
  subst noneFree
  have is : wideFile (n + 1) =
      e2fsWrite h1 (toInt32 (path 4 * 1024) + 16 + 72 * i) (mem2disk (wideId n) (sampleUse 1)) := by
    rw [wideFile_succ]
    simp only [step, qtreeWriteDquot, ran, if_true]
  have blocks : (wideFile (n + 1)).blocks = h1.blocks := by
    rw [is]
    rfl
  have upper := inserted.blocks
  have run : CurrentRun (2 ^ 22 - 1) (newIo []) (wideOps (n + 1)) := by
    rw [wideOps_succ]
    refine wide.run.snoc ⟨?_, usedv⟩ ?_
    · exact ((inv.read_eq (wideId n)).2.2.mpr none).symm
    · show (step (wideFile n) _).blocks ≤ _
      rw [← wideFile_succ, blocks]
      omega
  have near : path 4 < 2 ^ 21 := by
    by_contra far
    have := map run
    rw [is] at this
    exact far_not_map inv new inserted (length_mem2disk _ _) (by omega) this
  have is' : wideFile (n + 1) =
      e2fsWrite h1 (1024 * path 4 + 16 + 72 * i) (mem2disk (wideId n) (sampleUse 1)) := by
    rw [is, toInt32_eq (by omega)]
    push_cast
    rw [mul_comm]
  have inv' := inv.insert (v := sampleUse 1) new usedv inserted near is'
  rw [← wideMap_succ] at inv'
  have members := inserted.took.members
  -- at most the block of the record is left
  have only : ∀ c ∈ L', c = path 4 := by
    intro c mem
    rcases (members c).mp mem with ⟨memL, ne⟩ | ⟨same, -⟩
    · obtain ⟨x, all⟩ := wide.single
      rcases inserted.took.old_is with ⟨mem', -⟩ | ⟨empty, -⟩
      · exact absurd ((all c memL).trans (all _ mem').symm) ne
      · rw [empty] at memL
        cases memL
    · exact same
  refine ⟨path 4, L', _, ⟨inv', ⟨path 4, only⟩, run⟩, ?_, by omega, near, ?_⟩
  · rcases lt_or_ge 1 (wideFile n).blocks with more | less
    · have last := (inv.pool.cover ((wideFile n).blocks - 1)).mp ⟨by omega, by omega⟩
      simp only [List.not_mem_nil, or_false] at last
      have := (inserted.pool.lt (.inr last)).2
      omega
    · have := inv'.pool.start
      omega
  · rcases inserted.took.old_is with ⟨mem, isOld⟩ | ⟨empty, -⟩
    · refine .inl ⟨mem, ?_, only⟩
      rw [is', view_record (length_mem2disk _ _) inserted.took.lt, update_self,
        inserted.took.filled usedv, isOld]
    · exact .inr ⟨empty, ahead empty⟩

theorem wide_zero : ∃ L place, Wide 0 L place := ⟨_, _, newIo_inv [], ⟨0, by simp⟩, trivial⟩

/-- If all goes well, the file comes to `2 ^ 21` blocks. -/
theorem reaches_far (maps : ∀ n, CurrentRun (2 ^ 22 - 1) (newIo []) (wideOps n) →
    QuotaMap (wideFile n) (wideMap n)) :
    ∃ n L place, Wide n L place ∧ n ≤ 2 ^ 21 ∧ 2 ^ 21 ≤ (wideFile n).blocks ∧
    (wideFile n).blocks ≤ 2 ^ 21 + 4 := by
  by_contra never
  have grows : ∀ n ≤ 2 ^ 21, ∃ L place, Wide n L place ∧ (wideFile n).blocks < 2 ^ 21 := by
    intro n
    induction n with
    | zero =>
      intro _
      obtain ⟨L, place, wide⟩ := wide_zero
      exact ⟨L, place, wide, by decide⟩
    | succ n ih =>
      intro le
      obtain ⟨L, place, wide, less⟩ := ih (by omega)
      obtain ⟨-, L', place', wide', -, upper, -⟩ := wide.next (by omega) (by omega) (maps (n + 1))
      refine ⟨L', place', wide', ?_⟩
      by_contra far
      exact never ⟨n + 1, L', place', wide', le, by omega, by omega⟩
  obtain ⟨L, place, wide, less⟩ := grows (2 ^ 21) (le_refl _)
  have := wide.lt_blocks (by omega)
  omega

end Wide

/-- Somewhere on the way from `2 ^ 21` to `2 ^ 22` blocks a record is lost. -/
theorem far_record_lost : ∃ n, CurrentRun (2 ^ 22 - 1) (newIo []) (wideOps n) ∧
    ¬ QuotaMap (wideFile n) (wideMap n) := by
  by_contra none
  have maps : ∀ n, CurrentRun (2 ^ 22 - 1) (newIo []) (wideOps n) →
      QuotaMap (wideFile n) (wideMap n) := by
    intro n run
    by_contra not
    exact none ⟨n, run, not⟩
  obtain ⟨n, L, place, wide, le, far, upper⟩ := reaches_far maps
  obtain ⟨x, single⟩ := wide.single
  -- no new data block can come, so every record goes to the same block
  have fills : ∀ j ≤ 15, ∃ L place, Wide (n + j) L place ∧ 2 ^ 21 ≤ (wideFile (n + j)).blocks ∧
      (wideFile (n + j)).blocks ≤ 2 ^ 21 + 4 + 5 * j ∧ (∀ c ∈ L, c = x) ∧
      j ≤ used (view (wideFile (n + j)) x) := by
    intro j
    induction j with
    | zero => exact fun _ => ⟨L, place, wide, far, upper, single, Nat.zero_le _⟩
    | succ j ih =>
      intro small
      obtain ⟨L, place, wide, far, upper, single, many⟩ := ih (by omega)
      obtain ⟨b, L', place', wide', lower, upper', near, filled | ⟨-, ahead⟩⟩ :=
        wide.next (by omega) (by omega) (maps (n + j + 1))
      · obtain ⟨mem, more, only⟩ := filled
        rw [single b mem] at more only
        rw [← add_assoc]
        exact ⟨L', place', wide', by omega, by omega, only, by omega⟩
      · omega
  obtain ⟨-, -, -, -, -, -, many⟩ := fills 15 (le_refl _)
  have := used_le (view (wideFile (n + 15)) x)
  omega

end E2fs.Quota
