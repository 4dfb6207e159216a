import E2fs.Quota.Scan

/-! A quota file is a map from ids to records, after every run of calls that uses current
dquots and keeps the file within the offsets of an `int`. -/
namespace E2fs.Quota
open Memory Word Links Function List

variable {h : QuotaHandle} {m : UInt32 → Option Dqblk} {F L : List Nat} {place : UInt32 → Nat}

section Spec

/-- The file stands for the map: what reading and scanning give, and where the blocks are. -/
structure QuotaMap (h : QuotaHandle) (m : UInt32 → Option Dqblk) : Prop where
  read : ∀ id, (qtreeReadDquot h id).id = id ∧ (qtreeReadDquot h id).dqb = (m id).getD Dqblk.zero ∧
    ((qtreeReadDquot h id).off = 0 ↔ m id = none)
  scan : ∃ out, qtreeScanDquots h = some out ∧ (out.map (·.id)).Nodup ∧
    (∀ dq ∈ out, m dq.id = some dq.dqb) ∧ ∀ id v, m id = some v → ∃ dq ∈ out, dq.id = id
  counts : ∀ b, IsData h b → entries (view h b) = used (view h b)
  freeEntries :
    ∃ L, Linked (fun b => nextFree (view h b)) (fun b => prevFree (view h b)) 0 h.freeEntry L ∧
    L.Nodup ∧ ∀ b, b ∈ L ↔ IsData h b ∧ (∃ i < 14, slot (view h b) i ≠ blank) ∧
      ∃ i < 14, slot (view h b) i = blank
  partition : ∃ F, Chain (fun b => nextFree (view h b)) h.freeBlk F ∧ F.Nodup ∧
    (∀ b, 1 ≤ b ∧ b < h.blocks ↔ IsTree h b ∨ IsData h b ∨ b ∈ F) ∧
      (∀ b, IsTree h b → ¬ IsData h b) ∧
    ∀ b ∈ F, ¬ IsTree h b ∧ ¬ IsData h b
  tree : ∀ d < 4, ∀ p < 256 ^ d, ∀ d' < 4, ∀ p' < 256 ^ d', nodeOf h d p ≠ 0 →
    nodeOf h d p = nodeOf h d' p' → d = d' ∧ p = p'

theorem Inv.quotaMap (inv : Inv h m F L place) : QuotaMap h m where
  read := inv.read_eq
  scan := inv.scan
  counts := inv.counts
  freeEntries := by
    refine ⟨L, inv.partly.linked, inv.partly.nodup, fun b => (inv.members b).trans ?_⟩
    refine and_congr_right fun data => ?_
    obtain ⟨id, live⟩ := data.2
    have filled : ∃ i < 14, slot (view h b) i ≠ blank := by
      have := inv.live_slot (live ▸ data.1 : home h id ≠ 0)
      rw [live] at this
      exact ⟨place id, this⟩
    constructor
    · exact fun room => ⟨filled, exists_blank room⟩
    · rintro ⟨-, i, lt, is⟩
      by_contra full
      have all :
          (Finset.range 14).filter (fun i => slot (view h b) i ≠ blank) = Finset.range 14 := by
        apply Finset.eq_of_subset_of_card_le (Finset.filter_subset _ _)
        exact Nat.le_of_not_lt full
      have :=
        Finset.mem_filter.mp (all ▸ Finset.mem_range.mpr lt : i ∈ Finset.filter _ (Finset.range 14))
      exact this.2 is
  partition := by
    refine ⟨F, inv.pool.chain, inv.pool.nodup, fun b => ?_, inv.apart, fun b mem => ?_⟩
    · rw [inv.pool.cover b, InUse, or_assoc]
    · exact not_or.mp (inv.pool.free b mem)
  tree := inv.inj

end Spec

section Runs

/-- The calls that the file can follow: the dquot has the offset that reading its id gives, and
usage and limits to write are not all zero. -/
def Op.Current (h : QuotaHandle) : Op → Prop
  | .write dq => dq.off = (qtreeReadDquot h dq.id).off ∧ dq.dqb.Used
  | .delete dq => dq.off = (qtreeReadDquot h dq.id).off
  | .read _ => True

/-- A run of such calls on a file that has at most `limit` blocks. -/
def CurrentRun (limit : Nat) : QuotaHandle → List Op → Prop
  | _, [] => True
  | h, op :: ops => op.Current h ∧ (step h op).blocks ≤ limit ∧ CurrentRun limit (step h op) ops

instance decidableCurrent (h : QuotaHandle) : (op : Op) → Decidable (op.Current h)
  | .write dq => inferInstanceAs (Decidable (dq.off = (qtreeReadDquot h dq.id).off ∧
      (dq.dqb.curspace ≠ 0 ∨ dq.dqb.curinodes ≠ 0 ∨ dq.dqb.bsoftlimit ≠ 0 ∨ dq.dqb.isoftlimit ≠ 0 ∨
        dq.dqb.bhardlimit ≠ 0 ∨ dq.dqb.ihardlimit ≠ 0)))
  | .delete dq => inferInstanceAs (Decidable (dq.off = (qtreeReadDquot h dq.id).off))
  | .read _ => .isTrue trivial

instance decidableCurrentRun (limit : Nat) : (h : QuotaHandle) → (ops : List Op) →
    Decidable (CurrentRun limit h ops)
  | _, [] => .isTrue trivial
  | h, op :: ops =>
    have := decidableCurrentRun limit (step h op) ops
    inferInstanceAs
      (Decidable (op.Current h ∧ (step h op).blocks ≤ limit ∧ CurrentRun limit (step h op) ops))

def Op.apply (m : UInt32 → Option Dqblk) : Op → UInt32 → Option Dqblk
  | .write dq => Function.update m dq.id (some dq.dqb)
  | .delete dq => Function.update m dq.id none
  | .read _ => m

section

variable (inv : Inv h m F L place)
include inv

theorem Inv.off_eq (id : UInt32) :
    (qtreeReadDquot h id).off = if home h id = 0 then 0
    else 1024 * (home h id : Int) + 16 + 72 * place id := by
  unfold qtreeReadDquot
  rw [inv.findDqentry_eq id]
  split
  · rfl
  · rw [if_pos (by omega)]

theorem Inv.room_for (room : h.blocks + 5 ≤ 2 ^ 22) {id : UInt32} (none : home h id = 0) :
    ∃ h' path i F' L' old,
    doInsertTree id 3 h treeoff = (h', path 0, toInt32 (path 4 * 1024) + 16 + 72 * (i : Nat)) ∧
      Inserted h h' id (InUse h) F F' L L' 0 path i old :=
  doInsertTree_spec 3 (le_refl 3) inv.pool inv.partly (fun _ mem => .inr (inv.data_of_mem mem))
    (fun _ mem => inv.counted mem) inv.tree none room

theorem Inv.write (room : h.blocks + 5 ≤ 2 ^ 22) {dq : Dquot}
    (current : (Op.write dq).Current h) (small : (step h (.write dq)).blocks ≤ 2 ^ 21) :
    ∃ F' L' place', Inv (step h (.write dq)) ((Op.write dq).apply m) F' L' place' := by
  obtain ⟨off, usedv⟩ := current
  rw [inv.off_eq] at off
  by_cases new : home h dq.id = 0
  · rw [if_pos new] at off
    obtain ⟨h1, path, i, F', L', old, ran, inserted⟩ := inv.room_for room new
    have is : step h (.write dq) =
        e2fsWrite h1 (toInt32 (path 4 * 1024) + 16 + 72 * i) (mem2disk dq.id dq.dqb) := by
      simp only [step, qtreeWriteDquot, off, ran, if_true]
    have blocks : h1.blocks ≤ 2 ^ 21 := by
      rw [is] at small
      exact small
    have below :=
      lt_of_lt_of_le (inserted.pool.lt (.inl ⟨4, Nat.zero_le 4, le_refl 4, rfl⟩)).2 blocks
    rw [toInt32_eq (by omega)] at is
    refine ⟨F', L', update place dq.id i, inv.insert new usedv inserted below ?_⟩
    rw [is]
    push_cast
    rw [mul_comm]
  · rw [if_neg new] at off
    rcases found : m dq.id with _ | w
    · exact absurd (inv.absent _ found) new
    refine ⟨F, L, place, inv.overwrite found usedv ?_⟩
    have nonzero : dq.off ≠ 0 := by omega
    simp only [step, qtreeWriteDquot, if_neg nonzero]
    rw [off]

theorem Inv.remove {dq : Dquot} (current : (Op.delete dq).Current h) :
    ∃ F' L' place', Inv (step h (.delete dq)) ((Op.delete dq).apply m) F' L' place' := by
  have off : dq.off = _ := current
  rw [inv.off_eq] at off
  by_cases none : home h dq.id = 0
  · rw [if_pos none] at off
    have same : (Op.delete dq).apply m = m := by
      cases found : m dq.id with
      | none => rw [Op.apply, ← found, update_eq_self]
      | some v => exact absurd none (inv.stored _ v found).2.1
    rw [same]
    refine ⟨F, L, place, ?_⟩
    simpa only [step, qtreeDeleteDquot, off, if_true] using inv
  · rw [if_neg none] at off
    obtain ⟨lt, filled⟩ := inv.live_slot none
    obtain ⟨h', path, F', L', ran, removed⟩ := removeTree_spec 3 (le_refl 3) inv none lt filled
    have ran' : removeTree dq.id dq.off 3 h treeoff = (h', path 0) := by
      rw [off]
      exact ran
    have nonzero : dq.off ≠ 0 := by omega
    refine ⟨F', L', place, ?_⟩
    simp only [step, qtreeDeleteDquot, if_neg nonzero, ran']
    exact inv.delete none removed

theorem Inv.step {op : Op} (current : op.Current h) (room : h.blocks + 5 ≤ 2 ^ 22)
    (small : (step h op).blocks ≤ 2 ^ 21) :
    ∃ F' L' place', Inv (step h op) (op.apply m) F' L' place' := by
  cases op with
  | write dq => exact inv.write room current small
  | delete dq => exact inv.remove current
  | read id => exact ⟨F, L, place, inv⟩

theorem Inv.run {ops : List Op} (start : h.blocks ≤ 2 ^ 21) (current : CurrentRun (2 ^ 21) h ops) :
    ∃ F' L' place', Inv (runOps h ops) (ops.foldl Op.apply m) F' L' place' := by
  induction ops generalizing h m F L place with
  | nil => exact ⟨F, L, place, inv⟩
  | cons op ops ih =>
    obtain ⟨good, small, rest⟩ := current
    obtain ⟨F', L', place', inv'⟩ := inv.step good (by omega) small
    exact ih inv' small rest

end

theorem newIo_nodes (header : List UInt8) (d p : Nat) : nodeOf (newIo header) (d + 1) p = 0 := by
  induction d generalizing p with
  | zero =>
    rw [nodeOf_succ, nodeOf_zero, if_neg (by decide)]
    refine load_of_zero fun q low high => ?_
    rw [view]
    split
    · exact if_neg (by omega)
    · rfl
  | succ d ih => rw [nodeOf_succ, if_pos (ih _)]

theorem newIo_inv (header : List UInt8) : Inv (newIo header) (fun _ => none) [] [] fun _ => 0 := by
  have tree : ∀ b, IsTree (newIo header) b ↔ b = 1 := by
    intro b
    constructor
    · rintro ⟨nonzero, d, lt, p, small, is⟩
      cases d with
      | zero => exact is.symm
      | succ d => exact absurd (is.symm.trans (newIo_nodes header d p)) nonzero
    · rintro rfl
      exact ⟨by decide, 0, by decide, 0, by decide, rfl⟩
  have data : ∀ b, ¬ IsData (newIo header) b := by
    rintro b ⟨nonzero, id, is⟩
    exact nonzero (is.symm.trans (newIo_nodes header 3 _))
  refine ⟨⟨rfl, nodup_nil, by simp, fun b => ?_, show 1 ≤ 2 by decide, ?_⟩,
    ⟨rfl, nodup_nil, by simp⟩, ?_,
    fun b _ => data b, fun b => ?_, fun b here => absurd here (data b), fun id v found => ?_,
    fun id _ => newIo_nodes header 3 _, fun b i here => absurd here (data b), fun b here =>
      absurd here (data b)⟩
  · rw [InUse, tree]
    simp only [data, or_false, not_mem_nil]
    show 1 ≤ b ∧ b < 2 ↔ b = 1
    omega
  · show 2 ≤ 2 ^ 22
    decide
  · intro d lt p small d' lt' p' small' nonzero same
    cases d with
    | zero =>
      cases d' with
      | zero =>
        exact ⟨rfl, by omega⟩
      | succ d' =>
        rw [newIo_nodes] at same
        exact absurd same nonzero
    | succ d => exact absurd (newIo_nodes header d p) nonzero
  · simp [data]
  · cases found

end Runs

/-- After every run of calls on a new file, the file stands for what was written. -/
theorem quota_file_is_map (header : List UInt8) (ops : List Op)
    (current : CurrentRun (2 ^ 21) (newIo header) ops) :
    QuotaMap (runOps (newIo header) ops) (ops.foldl Op.apply fun _ => none) := by
  obtain ⟨F, L, place, inv⟩ := (newIo_inv header).run (show 2 ≤ 2 ^ 21 by decide) current
  exact inv.quotaMap

def sampleUse (n : UInt64) : Dqblk := { Dqblk.zero with curspace := n }

def sampleOps : List Op :=
  [.write ⟨5, sampleUse 1, 0⟩, .write ⟨261, sampleUse 2, 0⟩, .read 5,
    .delete ⟨5, sampleUse 1, 5136⟩]

theorem sample_is_map : QuotaMap (runOps (newIo []) sampleOps)
    (sampleOps.foldl Op.apply fun _ => none) :=
  quota_file_is_map [] sampleOps (by decide +kernel)

end E2fs.Quota
