import E2fs.Lib.Loop
import E2fs.Quota.Remove

/-! Reading a record and reporting all of them. -/
namespace E2fs.Quota
open Memory Word List

variable {h : QuotaHandle} {m : UInt32 → Option Dqblk} {F L : List Nat} {place : UInt32 → Nat}
  {id : UInt32}

section Read

theorem readBytes_slot {b i : Nat} (lt : i < 14) :
    readBytes h.file (1024 * b + 16 + 72 * i) 72 = slot (view h b) i := by
  rw [slot, readBytes, readBytes]
  apply map_congr_left
  intro k mem
  have := mem_range.mp mem
  rw [view, if_pos (by omega)]
  congr 1
  omega

section

variable (inv : Inv h m F L place)
include inv

theorem Inv.inside {b : Nat} (own : InUse h b) : b < 2 ^ 22 := inv.pool.lt_bound own

theorem Inv.findSlot_eq (live : home h id ≠ 0) :
    findSlot (view h (home h id)) (isId · id) = place id := by
  have data : IsData h (home h id) := ⟨live, id, rfl⟩
  rcases found : m id with _ | v
  · exact absurd (inv.absent id found) live
  obtain ⟨usedv, -, lt, stored⟩ := inv.stored id v found
  obtain ⟨small, isit⟩ := @findSlot_spec (view h (home h id)) (isId · id)
    ⟨place id, lt, by rw [stored, isId_mem2disk usedv]; simp⟩
  generalize findSlot (view h (home h id)) (isId · id) = k at small isit ⊢
  have busy : slot (view h (home h id)) k ≠ blank := by
    intro is
    rw [is] at isit
    simp [isId, show entryUnused blank = true by decide] at isit
  obtain ⟨id', isHome, isPlace⟩ := inv.owned _ k data small busy
  rcases found' : m id' with _ | w
  · exact absurd (isHome.symm.trans (inv.absent id' found')) live
  obtain ⟨usedw, -, -, stored'⟩ := inv.stored id' w found'
  rw [← isPlace, ← isHome, stored', isId_mem2disk usedw] at isit
  rw [← isPlace, show id' = id by simpa using isit]

theorem Inv.findTree_eq (levels : Nat) (le : levels ≤ 3)
    (there : nodeOf h (3 - levels) (pre id (3 - levels)) ≠ 0) :
    findTreeDqentry h id levels (nodeOf h (3 - levels) (pre id (3 - levels))) =
      if home h id = 0 then 0 else findBlockDqentry h id (home h id) := by
  induction levels with
  | zero =>
    have lt : 3 < 4 := by decide
    have small := inv.inside (.inl (isTree_node lt (pre_lt id lt.le) there))
    have next : ref (view h (nodeOf h 3 (pre id 3))) (getIndex id 3) = home h id := by
      rw [home_eq, nodeOf_next id lt, if_neg there]
    simp only [findTreeDqentry, readBlk_eq small, next]
  | succ levels ih =>
    obtain ⟨d, isd⟩ : ∃ d, d = 3 - (levels + 1) := ⟨_, rfl⟩
    have lt : d < 4 := by omega
    rw [← isd] at there ⊢
    rw [show 3 - levels = d + 1 by omega] at ih
    have small := inv.inside (.inl (isTree_node lt (pre_lt id lt.le) there))
    have next : ref (view h (nodeOf h d (pre id d))) (getIndex id d) =
        nodeOf h (d + 1) (pre id (d + 1)) := by
      rw [nodeOf_next id lt, if_neg there]
    simp only [findTreeDqentry, show 2 - levels = d by omega, readBlk_eq small, next]
    split
    · rename_i none
      rw [if_pos]
      by_contra live
      exact node_of_home live (d := d + 1) (by omega) none
    · rename_i some
      exact ih (by omega) some

theorem Inv.findDqentry_eq (id : UInt32) :
    findDqentry h id = if home h id = 0 then 0
    else 1024 * (home h id : Int) + 16 + 72 * place id := by
  refine (inv.findTree_eq 3 (le_refl 3) (by rw [nodeOf_zero]; decide)).trans ?_
  split_ifs with live
  · rfl
  · have small := inv.inside (.inr ⟨live, id, rfl⟩)
    rw [findBlockDqentry, readBlk_eq small, inv.findSlot_eq live, blkOff_eq small]
    push_cast
    ring

theorem Inv.read_eq (id : UInt32) :
    (qtreeReadDquot h id).id = id ∧ (qtreeReadDquot h id).dqb = (m id).getD Dqblk.zero ∧
      ((qtreeReadDquot h id).off = 0 ↔ m id = none) := by
  unfold qtreeReadDquot
  rw [inv.findDqentry_eq id]
  cases found : m id with
  | none =>
    rw [if_pos (inv.absent id found)]
    exact ⟨rfl, rfl, iff_of_true rfl rfl⟩
  | some v =>
    obtain ⟨usedv, live, lt, stored⟩ := inv.stored id v found
    have pos : (0 : Int) < 1024 * (home h id) + 16 + 72 * (place id) := by omega
    rw [if_neg live]
    dsimp only
    rw [if_pos pos, readBytes_slot lt, stored, diskId_mem2disk, disk2mem_mem2disk usedv]
    exact ⟨rfl, rfl, iff_of_false pos.ne' (by simp)⟩

end

end Read

section Report

def blockDquots (h : QuotaHandle) (b : Nat) : List Dquot :=
  ((List.range 14).filter fun i => !entryUnused (slot (view h b) i)).map fun i =>
    ⟨diskId (slot (view h b) i), disk2mem (slot (view h b) i), blkOff b + 16 + 72 * (i : Int)⟩

/- The blocks that were reported, in their order. -/
structure Seen (h : QuotaHandle) (r : Report) (seen : List Nat) : Prop where
  dquots : r.dquots = seen.flatMap (blockDquots h)
  nodup : seen.Nodup
  bitmap : ∀ b, r.bitmap b = true ↔ b ∈ seen

variable {r : Report} {seen : List Nat} {b i d p k : Nat}

theorem Seen.reportBlock (before : Seen h r seen) (new : b ∉ seen)
    (small : b < 2 ^ 22) : Seen h (reportBlock h b r) (seen ++ [b]) where
  dquots := by
    rw [flatMap_append, flatMap_singleton, ← before.dquots]
    simp only [Quota.reportBlock, readBlk_eq small, dqstrInBlk]
    rfl
  nodup := by
    rw [nodup_append]
    refine ⟨before.nodup, nodup_singleton b, fun c mem d isd same => ?_⟩
    rw [mem_singleton] at isd
    exact new (isd ▸ same ▸ mem)
  bitmap c := by
    simp only [Quota.reportBlock, Bool.or_eq_true, decide_eq_true_eq, before.bitmap c, mem_append,
      mem_singleton]
    exact or_comm

def Below (h : QuotaHandle) (k p b : Nat) : Prop := b ≠ 0 ∧ ∃ q, q / 256 ^ k = p ∧ nodeOf h 4 q = b

theorem nodeOf_succ : nodeOf h (d + 1) p =
    if nodeOf h d (p / 256) = 0 then 0 else ref (view h (nodeOf h d (p / 256))) (p % 256) := rfl

theorem nodeOf_child (there : nodeOf h d p ≠ 0) :
    ∀ i < 256, ref (view h (nodeOf h d p)) i = nodeOf h (d + 1) (256 * p + i) := by
  intro i lt
  rw [@nodeOf_succ h d (256 * p + i), show (256 * p + i) / 256 = p by omega, if_neg there,
    show (256 * p + i) % 256 = i by omega]

theorem nodeOf_hole {q : Nat} (hole : nodeOf h d p = 0) (is : q / 256 ^ k = p) :
    nodeOf h (d + k) q = 0 := by
  induction k generalizing q with
  | zero =>
    rw [pow_zero, Nat.div_one] at is
    rw [is]
    exact hole
  | succ k ih =>
    rw [← add_assoc, nodeOf_succ, if_pos]
    apply ih
    rw [Nat.div_div_eq_div_mul, ← pow_succ', is]

theorem below_split : (∃ j < 256, Below h k (256 * p + j) b) ↔ Below h (k + 1) p b := by
  constructor
  · rintro ⟨j, lt, nonzero, q, is, found⟩
    refine ⟨nonzero, q, ?_, found⟩
    rw [pow_succ, ← Nat.div_div_eq_div_mul, is]
    omega
  · rintro ⟨nonzero, q, is, found⟩
    rw [pow_succ, ← Nat.div_div_eq_div_mul] at is
    exact ⟨q / 256 ^ k % 256, Nat.mod_lt _ (by decide), nonzero, q, by omega, found⟩

theorem isData_of_node {q : Nat} (lt : q < 256 ^ 4) (nonzero : nodeOf h 4 q ≠ 0) :
    IsData h (nodeOf h 4 q) := by
  refine ⟨nonzero, UInt32.ofNat q, ?_⟩
  rw [home, UInt32.toNat_ofNat_of_lt' (show q < 2 ^ 32 from lt)]

/- One more child of a node: `seen` before the node, then the children so far. -/
def Upto (h : QuotaHandle) (seen : List Nat) (k p i : Nat) (r : Report) : Prop :=
  ∃ seen', Seen h r seen' ∧ ∀ b, b ∈ seen' ↔ b ∈ seen ∨ ∃ j < i, Below h k (256 * p + j) b

theorem Upto.skip (before : Upto h seen k p i r)
    (nothing : ∀ b, Below h k (256 * p + i) b → r.bitmap b = true) : Upto h seen k p (i + 1) r := by
  obtain ⟨seen', all, members⟩ := before
  refine ⟨seen', all, fun b => ?_⟩
  rw [Nat.exists_lt_succ_right, ← or_assoc, ← members b]
  exact (or_iff_left_of_imp fun below => (all.bitmap b).mp (nothing b below)).symm

theorem Inv.report (inv : Inv h m F L place) (levels : Nat) (le : levels ≤ 3)
    (small : p < 256 ^ (3 - levels)) (there : nodeOf h (3 - levels) p ≠ 0)
    (before : Seen h r seen) :
    ∃ r' seen', reportTree h levels (nodeOf h (3 - levels) p) r = some r' ∧ Seen h r' seen' ∧
      ∀ b, b ∈ seen' ↔ b ∈ seen ∨ Below h (levels + 1) p b := by
  have blocks := inv.pool.start
  induction levels generalizing p r seen with
  | zero =>
    have lt3 : 3 < 4 := by decide
    have inside := inv.inside (.inl (isTree_node lt3 small there))
    have child : ∀ i < 256, ref (view h (nodeOf h 3 p)) i = nodeOf h 4 (256 * p + i) :=
      nodeOf_child (d := 3) there
    obtain ⟨r', ran, seen', all, members⟩ := Loop.foldlM_range (P := Upto h seen 0 p) (n := 256)
      (f := fun r i => if h.blocks ≤ ref (readBlk h (nodeOf h 3 p)) i then none
        else if ref (readBlk h (nodeOf h 3 p)) i ≠ 0 ∧
          r.bitmap (ref (readBlk h (nodeOf h 3 p)) i) = false
          then some (reportBlock h (ref (readBlk h (nodeOf h 3 p)) i) r) else some r)
      (s := r) ⟨seen, before, by simp⟩ (by
        intro i lt t ⟨seen', all, members⟩
        rw [readBlk_eq inside, child i lt]
        have range : 256 * p + i < 256 ^ 4 := by
          omega
        have only : ∀ b, Below h 0 (256 * p + i) b ↔ b ≠ 0 ∧ nodeOf h 4 (256 * p + i) = b := by
          intro b
          simp [Below]
        by_cases zero : nodeOf h 4 (256 * p + i) = 0
        · rw [zero, if_neg (by omega), if_neg (by simp)]
          refine ⟨t, rfl, Upto.skip ⟨seen', all, members⟩ fun b below => ?_⟩
          obtain ⟨nonzero, is⟩ := (only b).mp below
          exact absurd (is.symm.trans zero) nonzero
        · have data := isData_of_node range zero
          have lt' := (inv.pool.lt (.inr data)).2
          rw [if_neg (by omega)]
          by_cases marked : t.bitmap (nodeOf h 4 (256 * p + i)) = true
          · rw [if_neg (by simp [marked])]
            refine ⟨t, rfl, Upto.skip ⟨seen', all, members⟩ fun b below => ?_⟩
            rw [← ((only b).mp below).2]
            exact marked
          · have new :
              nodeOf h 4 (256 * p + i) ∉ seen' := fun mem => marked ((all.bitmap _).mpr mem)
            rw [if_pos ⟨zero, by simpa using marked⟩]
            refine ⟨_, rfl, _, all.reportBlock new (inv.inside (.inr data)), fun b => ?_⟩
            rw [mem_append, members b, mem_singleton, or_assoc, Nat.exists_lt_succ_right, only b]
            exact or_congr_right
              (or_congr_right ⟨fun is => ⟨is ▸ zero, is.symm⟩, fun both => both.2.symm⟩))
    refine ⟨r', seen', ran, all, fun b => ?_⟩
    rw [members b, below_split]
  | succ levels ih =>
    obtain ⟨d, isd⟩ : ∃ d, d = 3 - (levels + 1) := ⟨_, rfl⟩
    have lt4 : d < 4 := by omega
    rw [← isd] at small there ⊢
    rw [show 3 - levels = d + 1 by omega] at ih
    have inside := inv.inside (.inl (isTree_node lt4 small there))
    have child := nodeOf_child there
    obtain ⟨r', ran, seen', all, members⟩ :=
      Loop.foldlM_range (P := Upto h seen (levels + 1) p) (n := 256)
      (f := fun r i => if ref (readBlk h (nodeOf h d p)) i = 0 then some r
        else if h.blocks ≤ ref (readBlk h (nodeOf h d p)) i then none
        else reportTree h levels (ref (readBlk h (nodeOf h d p)) i) r)
      (s := r) ⟨seen, before, by simp⟩ (by
        intro i lt t ⟨seen', all, members⟩
        rw [readBlk_eq inside, child i lt]
        have range : 256 * p + i < 256 ^ (d + 1) := by
          omega
        split
        · rename_i zero
          refine ⟨t, rfl, Upto.skip ⟨seen', all, members⟩ fun b ⟨nonzero, q, is, found⟩ => ?_⟩
          have hole := nodeOf_hole zero is
          rw [show d + 1 + (levels + 1) = 4 by omega] at hole
          exact absurd (found.symm.trans hole) nonzero
        · rename_i nonzero
          have lt' := (inv.pool.lt (.inl (isTree_node (by omega) range nonzero))).2
          rw [if_neg (by omega)]
          obtain ⟨t', seen'', ran, all', members'⟩ := ih (by omega) range nonzero all
          refine ⟨t', ran, seen'', all', fun b => ?_⟩
          rw [members' b, members b, or_assoc, Nat.exists_lt_succ_right])
    refine ⟨r', seen', ran, all, fun b => ?_⟩
    rw [members b, below_split]

theorem Inv.record (inv : Inv h m F L place) (data : IsData h b) (lt : i < 14)
    (busy : slot (view h b) i ≠ blank) :
    ∃ id v, m id = some v ∧ home h id = b ∧ place id = i ∧ slot (view h b) i = mem2disk id v := by
  obtain ⟨id, isHome, isPlace⟩ := inv.owned b i data lt busy
  rcases found : m id with _ | v
  · exact absurd (isHome.symm.trans (inv.absent id found)) data.1
  refine ⟨id, v, found, isHome, isPlace, ?_⟩
  rw [← isHome, ← isPlace]
  exact (inv.stored id v found).2.2.2

theorem mem_filled {buf : Buf} :
    i ∈ (List.range 14).filter (fun i => !entryUnused (slot buf i)) ↔
    i < 14 ∧ slot buf i ≠ blank := by
  rw [mem_filter, mem_range, Bool.not_eq_true', ← Bool.not_eq_true, entryUnused_iff length_slot]

section

variable (inv : Inv h m F L place)
include inv

theorem Inv.mem_blockDquots (data : IsData h b) {dq : Dquot}
    (mem : dq ∈ blockDquots h b) : m dq.id = some dq.dqb ∧ home h dq.id = b := by
  obtain ⟨i, filled, rfl⟩ := mem_map.mp mem
  obtain ⟨lt, busy⟩ := mem_filled.mp filled
  obtain ⟨id, v, found, isHome, -, is⟩ := inv.record data lt busy
  rw [is, diskId_mem2disk, disk2mem_mem2disk (inv.stored id v found).1]
  exact ⟨found, isHome⟩

theorem Inv.nodup_blockDquots (data : IsData h b) : ((blockDquots h b).map (·.id)).Nodup := by
  rw [blockDquots, map_map]
  refine List.Nodup.map_on ?_ (nodup_range.filter _)
  intro i memi j memj same
  obtain ⟨lt, busy⟩ := mem_filled.mp memi
  obtain ⟨lt', busy'⟩ := mem_filled.mp memj
  obtain ⟨id, v, -, -, isPlace, is⟩ := inv.record data lt busy
  obtain ⟨id', v', -, -, isPlace', is'⟩ := inv.record data lt' busy'
  simp only [Function.comp_apply, is, is', diskId_mem2disk] at same
  rw [← isPlace, ← isPlace', same]

theorem Inv.id_reported {v : Dqblk} (found : m id = some v) :
    ∃ dq ∈ blockDquots h (home h id), dq.id = id := by
  obtain ⟨usedv, -, lt, is⟩ := inv.stored id v found
  refine ⟨_, mem_map.mpr ⟨place id, mem_filled.mpr ⟨lt, ?_⟩, rfl⟩, ?_⟩
  · rw [is]
    exact mem2disk_not_blank usedv
  · rw [is, diskId_mem2disk]

theorem Inv.scan : ∃ out, qtreeScanDquots h = some out ∧ (out.map (·.id)).Nodup ∧
    (∀ dq ∈ out, m dq.id = some dq.dqb) ∧ ∀ id v, m id = some v → ∃ dq ∈ out, dq.id = id := by
  obtain ⟨r, seen, ran, all, members⟩ :=
    inv.report 3 (le_refl 3) (p := 0) (by simp) (by rw [nodeOf_zero]; decide)
    (show Seen h ⟨fun _ => false, []⟩ [] from ⟨rfl, nodup_nil, by simp⟩)
  have datas : ∀ b, b ∈ seen ↔ IsData h b := by
    intro b
    rw [members b]
    simp only [not_mem_nil, false_or]
    constructor
    · rintro ⟨nonzero, q, is, rfl⟩
      refine isData_of_node ?_ nonzero
      exact (Nat.div_eq_zero_iff_lt (by decide)).mp is
    · rintro ⟨nonzero, id, is⟩
      refine ⟨nonzero, id.toNat, ?_, is⟩
      exact Nat.div_eq_of_lt id.toNat_lt
  have dquots := all.dquots
  refine ⟨r.dquots, ?_, ?_, fun dq mem => ?_, fun id v found => ?_⟩
  · rw [qtreeScanDquots]
    have ran' : reportTree h 3 treeoff ⟨fun _ => false, []⟩ = some r := ran
    rw [ran']
    rfl
  · rw [dquots, map_flatMap, nodup_flatMap]
    refine ⟨fun b mem => inv.nodup_blockDquots ((datas b).mp mem), ?_⟩
    refine all.nodup.imp_of_mem fun {b c} memb memc ne => ?_
    intro id memId memId'
    obtain ⟨dq, mem, rfl⟩ := mem_map.mp memId
    obtain ⟨dq', mem', same⟩ := mem_map.mp memId'
    have first := (inv.mem_blockDquots ((datas b).mp memb) mem).2
    have second := (inv.mem_blockDquots ((datas c).mp memc) mem').2
    rw [same] at second
    exact ne (first.symm.trans second)
  · rw [dquots] at mem
    obtain ⟨b, memb, mem⟩ := mem_flatMap.mp mem
    exact (inv.mem_blockDquots ((datas b).mp memb) mem).1
  · obtain ⟨dq, mem, is⟩ := inv.id_reported found
    refine ⟨dq, ?_, is⟩
    rw [dquots]
    have live := (inv.stored id v found).2.1
    exact mem_flatMap.mpr ⟨home h id, (datas _).mpr ⟨live, id, rfl⟩, mem⟩

end

end Report

end E2fs.Quota
