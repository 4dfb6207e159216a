import E2fs.Lib.Memory

/-! Records of a quota file: `struct v2r1_disk_dqblk` with `v2r1_mem2diskdqblk`,
`v2r1_disk2memdqblk` and `v2r1_is_id` of lib/support/quotaio_v2.c. -/
namespace E2fs.Quota
open Memory List

structure Dqblk where
  ihardlimit : UInt64
  isoftlimit : UInt64
  curinodes : UInt64
  bhardlimit : UInt64
  bsoftlimit : UInt64
  curspace : UInt64
  btime : UInt64
  itime : UInt64
  deriving DecidableEq, Repr

def Dqblk.zero : Dqblk := ⟨0, 0, 0, 0, 0, 0, 0, 0⟩

/-- Usage and limits are not all zero, as `v2_commit_dquot` tests before it writes. -/
def Dqblk.Used (m : Dqblk) : Prop :=
  m.curspace ≠ 0 ∨ m.curinodes ≠ 0 ∨ m.bsoftlimit ≠ 0 ∨ m.isoftlimit ≠ 0 ∨ m.bhardlimit ≠ 0 ∨
    m.ihardlimit ≠ 0

def packed (fields : List (Nat × Nat)) : List UInt8 := fields.flatMap fun f => toBytes f.1 f.2

/- The fields in the order they have on disk, with the padding. -/
def diskRecord (id : UInt32) (m : Dqblk) : List UInt8 :=
  packed [(4, id.toNat), (4, 0), (8, m.ihardlimit.toNat), (8, m.isoftlimit.toNat),
    (8, m.curinodes.toNat), (8, m.bhardlimit.toNat), (8, m.bsoftlimit.toNat), (8, m.curspace.toNat),
    (8, m.btime.toNat), (8, m.itime.toNat)]

def entryUnused (disk : List UInt8) : Bool := disk.all (· = 0)

def field (disk : List UInt8) (off width : Nat) : Nat := ofBytes ((disk.drop off).take width)

def mem2disk (id : UInt32) (m : Dqblk) : List UInt8 :=
  if entryUnused (diskRecord id m) then diskRecord id { m with itime := 1 } else diskRecord id m

def diskId (disk : List UInt8) : UInt32 := UInt32.ofNat (field disk 0 4)

def disk2mem (disk : List UInt8) : Dqblk :=
  let at_ (off : Nat) := UInt64.ofNat (field disk off 8)
  let m : Dqblk := ⟨at_ 8, at_ 16, at_ 24, at_ 32, at_ 40, at_ 48, at_ 56, at_ 64⟩
  if disk = diskRecord 0 { Dqblk.zero with itime := 1 } then { m with itime := 0 } else m

def isId (disk : List UInt8) (id : UInt32) : Bool := !entryUnused disk && diskId disk = id

theorem length_packed (fields : List (Nat × Nat)) :
    (packed fields).length = (fields.map (·.1)).sum := by
  simp [packed, length_flatMap]

theorem field_packed (before after : List (Nat × Nat)) (w k : Nat) :
    field (packed (before ++ (w, k) :: after)) (before.map (·.1)).sum w = k % 256 ^ w := by
  rw [packed, flatMap_append, flatMap_cons, field, ← length_packed, packed, drop_left,
    take_left' (length_toBytes w k), ofBytes_toBytes]

theorem length_diskRecord (id : UInt32) (m : Dqblk) : (diskRecord id m).length = 72 :=
  length_packed _

@[simp] theorem length_mem2disk (id : UInt32) (m : Dqblk) : (mem2disk id m).length = 72 := by
  unfold mem2disk
  split <;> exact length_diskRecord _ _

theorem diskId_diskRecord (id : UInt32) (m : Dqblk) : diskId (diskRecord id m) = id := by
  have value : field (diskRecord id m) 0 4 = id.toNat :=
    (field_packed [] _ 4 id.toNat).trans (Nat.mod_eq_of_lt id.toNat_lt)
  rw [diskId, value, UInt32.ofNat_toNat]

theorem diskId_mem2disk (id : UInt32) (m : Dqblk) : diskId (mem2disk id m) = id := by
  unfold mem2disk
  split <;> exact diskId_diskRecord _ _

section Fields

variable {id : UInt32} {m : Dqblk}

theorem field_value (before after : List (Nat × Nat)) (v : UInt64) :
    UInt64.ofNat (field (packed (before ++ (8, v.toNat) :: after)) (before.map (·.1)).sum 8) =
      v := by
  have whole : v.toNat % 256 ^ 8 = v.toNat := Nat.mod_eq_of_lt v.toNat_lt
  rw [field_packed, whole, UInt64.ofNat_toNat]

theorem disk_fields : (⟨.ofNat (field (diskRecord id m) 8 8), .ofNat (field (diskRecord id m) 16 8),
    .ofNat (field (diskRecord id m) 24 8), .ofNat (field (diskRecord id m) 32 8),
    .ofNat (field (diskRecord id m) 40 8), .ofNat (field (diskRecord id m) 48 8),
    .ofNat (field (diskRecord id m) 56 8), .ofNat (field (diskRecord id m) 64 8)⟩ : Dqblk) = m := by
  obtain ⟨ih, is, ci, bh, bs, cs, bt, it⟩ := m
  rw [Dqblk.mk.injEq]
  refine ⟨?_, ?_, ?_, ?_, ?_, ?_, ?_, ?_⟩
  · exact field_value [(4, _), (4, _)] _ ih
  · exact field_value [(4, _), (4, _), (8, _)] _ is
  · exact field_value [(4, _), (4, _), (8, _), (8, _)] _ ci
  · exact field_value [(4, _), (4, _), (8, _), (8, _), (8, _)] _ bh
  · exact field_value [(4, _), (4, _), (8, _), (8, _), (8, _), (8, _)] _ bs
  · exact field_value [(4, _), (4, _), (8, _), (8, _), (8, _), (8, _), (8, _)] _ cs
  · exact field_value [(4, _), (4, _), (8, _), (8, _), (8, _), (8, _), (8, _), (8, _)] _ bt
  · exact field_value [(4, _), (4, _), (8, _), (8, _), (8, _), (8, _), (8, _), (8, _), (8, _)] _ it

theorem diskRecord_inj {id' : UInt32} {m' : Dqblk} (same : diskRecord id m = diskRecord id' m') :
    m = m' := by
  rw [← @disk_fields id m, same, disk_fields]

theorem zero_of_unused (unused : entryUnused (diskRecord id m)) : m = Dqblk.zero := by
  have bytes : diskRecord id m = diskRecord 0 Dqblk.zero := by
    refine eq_replicate_iff.mpr ⟨length_diskRecord id m, fun b mem => ?_⟩
    simpa using all_eq_true.mp unused b mem
  exact diskRecord_inj bytes

theorem Dqblk.Used.not_zero (used : m.Used) : m ≠ Dqblk.zero := by
  rintro rfl
  simp [Dqblk.Used, Dqblk.zero] at used

theorem used_stored (used : m.Used) :
    mem2disk id m = diskRecord id m ∧ ¬ entryUnused (mem2disk id m) := by
  have stored :
    ¬ entryUnused (diskRecord id m) := fun unused => used.not_zero (zero_of_unused unused)
  have same : mem2disk id m = diskRecord id m := if_neg stored
  exact ⟨same, same ▸ stored⟩

theorem disk2mem_mem2disk (used : m.Used) : disk2mem (mem2disk id m) = m := by
  have other : diskRecord id m ≠ diskRecord 0 { Dqblk.zero with itime := 1 } := by
    intro same
    rw [diskRecord_inj same] at used
    simp [Dqblk.Used, Dqblk.zero] at used
  rw [(used_stored used).1, disk2mem]
  rw [if_neg other, disk_fields]

theorem isId_mem2disk (used : m.Used) (id' : UInt32) :
    isId (mem2disk id m) id' = (id = id' : Bool) := by
  have stored := (@used_stored id m used).2
  rw [isId, diskId_mem2disk]
  simp [stored]

end Fields

end E2fs.Quota
