import E2fs.Pass3.Scan

/-! The whole of pass 3: the directories form one tree in the end if and only if there was no loop
and every `..` that had to be changed was that of a directory in lost+found. -/
namespace E2fs.Pass3
open List Function

section Tree

variable {env : Env} {c ctx : Ctx}

def Connected (ctx : Ctx) : Prop :=
  ∀ d, IsDir ctx d → (∃ k, (parentOf ctx)^[k] d = ext2RootIno) ∧
    (d ≠ ext2RootIno → (parentOf ctx d, d) ∈ ctx.entries ∧ ctx.dotdot d = parentOf ctx d)

/- Every way up ends, at the root or at a directory without a parent. -/
def NoLoop (c : Ctx) : Prop :=
  ∀ d, IsDir c d → ∃ k, (parentOf c)^[k] d = ext2RootIno ∨ (parentOf c)^[k] d = 0

/- Only the root is done before the first directory. -/
def start (c : Ctx) : Ctx :=
  { c with inodeDoneMap := Function.update (fun _ => false) ext2RootIno true }

theorem start_done {d : Nat} (done : (start c).inodeDoneMap d = true) : d = ext2RootIno := by
  by_contra notRoot
  change Function.update (fun _ => false) ext2RootIno true d = true at done
  rw [update_of_ne notRoot] at done
  cases done

theorem start_going (rec : Recorded env c) : Going env c (start c) 0 where
  inv := {
    wf := ⟨rec.sorted, rec.few.le⟩
    room := fun _ => rec.few
    dirs := fun d => by
      refine ⟨.inl, fun is => is.elim id ?_⟩
      rintro ⟨nonzero, rfl⟩
      exact (rec.lookup _ (rec.lost.resolve_left nonzero)).1
    root := ⟨rfl, rec.row _ rec.root⟩
    cases := fun _ _ _ => .inl ⟨rfl, rfl⟩
    made := by
      rintro d nonzero rfl new
      exact absurd (rec.lookup _ (rec.lost.resolve_left nonzero)).1 new
    settled := fun _ _ notRoot done => absurd (start_done done) notRoot
    only := fun p d isDir notRoot _ mem => ((rec.named p d isDir notRoot).mp mem).2.symm
    keep := fun _ mem => mem
    lost := by
      by_cases none_ : c.lostAndFound = 0
      · exact .inl ⟨none_, rfl⟩
      · have lookup := rec.lost.resolve_left none_
        exact .inr ⟨none_, lookup, .inl lookup⟩ }
  left := fun d isDir _ => by
    obtain ⟨row, is⟩ := rec.row d isDir
    obtain ⟨j, at_⟩ := entry_index is
    refine .inr (.inr ⟨j, Nat.zero_le j, ?_⟩)
    change (c.db.array[j]?).map DirInfo.ino = some d
    rw [at_, Option.map_some, entry_ino is]
  calm := fun _ _ _ notRoot bad => absurd (start_done bad.done) notRoot

theorem start_noBad : NoBad c (start c) := fun _ _ notRoot bad => notRoot (start_done bad.done)

section

variable (inv : Inv env c ctx) (rec : Recorded env c) (some_ : ctx.lostAndFound ≠ 0)
  (all : ∀ d, IsDir c d → d ≠ ext2RootIno → Good c ctx d)
include inv rec some_ all

theorem Inv.lost_parent : parentOf ctx ctx.lostAndFound = ext2RootIno := by
  by_cases old : IsDir c ctx.lostAndFound
  · rcases inv.lost with ⟨none_, -⟩ | ⟨-, -, lookup | ⟨-, new⟩⟩
    · exact absurd none_ some_
    · obtain ⟨-, notRoot, parent⟩ := rec.lookup _ lookup
      rw [(all _ old notRoot).parent_eq, want, parent]
      rfl
    · rw [new] at old
      exact absurd old rec.new.2
  · exact parentOf_of_row (inv.made _ some_ rfl old).row

/- A way up that ends leads to the root when each directory has the parent it should have. -/
theorem Inv.reaches {k d : Nat} (isDir : IsDir c d)
    (ends : (parentOf c)^[k] d = ext2RootIno ∨ (parentOf c)^[k] d = 0) :
    ∃ k, (parentOf ctx)^[k] d = ext2RootIno := by
  induction k generalizing d with
  | zero =>
    refine ⟨0, ends.resolve_right fun zero => rec.zero ?_⟩
    rw [← zero]
    exact isDir
  | succ k ih =>
    by_cases root : d = ext2RootIno
    · exact ⟨0, root⟩
    have parent := (all d isDir root).parent_eq
    by_cases none_ : parentOf c d = 0
    · rw [want, if_pos none_] at parent
      refine ⟨2, ?_⟩
      change parentOf ctx (parentOf ctx d) = ext2RootIno
      rw [parent, inv.lost_parent rec some_ all]
    · rw [want, if_neg none_] at parent
      obtain ⟨m, reaches⟩ := ih ((rec.parent d isDir).resolve_left none_) ends
      exact ⟨m + 1, by rw [iterate_succ_apply, parent, reaches]⟩

theorem Inv.connected (noLoop : NoLoop c) : Connected ctx := by
  intro d isDir
  by_cases old : IsDir c d
  · obtain ⟨k, ends⟩ := noLoop d old
    refine ⟨inv.reaches rec some_ all old ends, fun notRoot => ?_⟩
    have good := all d old notRoot
    rw [good.parent_eq]
    exact ⟨good.named, good.dotdot⟩
  · obtain ⟨nonzero, is⟩ := ((inv.dirs d).mp isDir).resolve_left old
    have made := inv.made d nonzero is old
    have parent := parentOf_of_row made.row
    refine ⟨⟨1, parent⟩, fun _ => ?_⟩
    rw [parent]
    exact ⟨made.named, made.dotdot⟩

end

theorem Inv.noBad_of_connected (inv : Inv env c ctx) (connected : Connected ctx) : NoBad c ctx :=
  fun d isDir notRoot bad => by
    have named := ((connected d ((inv.dirs d).mpr (.inl isDir))).2 notRoot).1
    exact bad.wrong (inv.only _ d isDir notRoot bad.parent named)

theorem Inv.ends {k d : Nat} (rec : Recorded env c)
    (all : ∀ d, IsDir c d → d ≠ ext2RootIno → Good c ctx d)
    (isDir : IsDir c d) (reaches : (parentOf ctx)^[k] d = ext2RootIno) :
    ∃ k, (parentOf c)^[k] d = ext2RootIno ∨ (parentOf c)^[k] d = 0 := by
  induction k generalizing d with
  | zero => exact ⟨0, .inl reaches⟩
  | succ k ih =>
    by_cases root : d = ext2RootIno
    · exact ⟨0, .inl root⟩
    have parent := (all d isDir root).parent_eq
    by_cases none_ : parentOf c d = 0
    · exact ⟨1, .inr none_⟩
    · rw [want, if_neg none_] at parent
      rw [iterate_succ_apply, parent] at reaches
      obtain ⟨m, ends⟩ := ih ((rec.parent d isDir).resolve_left none_) reaches
      exact ⟨m + 1, ends⟩

/-- Pass 3 ends, and leaves one tree exactly if no recorded parents form a loop and each
directory that is checked is the root, has no parent, has the right `..` or is in the lost+found
that is known by then. -/
theorem pass3_connected_iff (rec : Recorded env c) : ∃ c', e2fsckPass3 env c = some c' ∧
      (Connected c' ↔ NoLoop c ∧ meets env (c.db.array.length + 2) 0 (start c) = true) := by
  obtain ⟨ctx, is, later, all, iff⟩ := (start_going rec).run (c.db.array.length + 2) 0 rec (by
    change c.db.array.length + _ - 0 + 1 ≤ _
    split <;> omega)
  obtain ⟨found, some_, -⟩ := later.inv.found rec
  have good : NoBad c ctx → ∀ d, IsDir c d → d ≠ ext2RootIno → Good c (getLostAndFound env ctx) d :=
    fun none_ d isDir notRoot =>
      found.good d isDir notRoot ((all d isDir notRoot).resolve_right (none_ d isDir notRoot))
  refine ⟨_, by rw [e2fsckPass3]; exact congrArg (Option.map _) is, fun connected => ?_, ?_⟩
  · have none_ : NoBad c ctx := fun d isDir notRoot bad =>
      found.inv.noBad_of_connected connected d isDir notRoot (found.bad d isDir notRoot bad)
    refine ⟨fun d isDir => ?_, (iff.mp none_).2⟩
    obtain ⟨k, reaches⟩ := (connected d ((found.inv.dirs d).mpr (.inl isDir))).1
    exact Inv.ends rec (good none_) isDir reaches
  · rintro ⟨noLoop, meets⟩
    exact found.inv.connected rec some_ (good (iff.mpr ⟨start_noBad, meets⟩)) noLoop

end Tree

section Sample

def sampleEnv : Env := ⟨20, false⟩

def recorded (rows : List DirInfo) : Ctx where
  db := ⟨rows, none⟩
  inodeDirMap := fun d => (rows.map DirInfo.ino).contains d
  inodeDoneMap := fun _ => false
  inodeLoopDetect := fun _ => false
  lostAndFound := 0
  lookup := some 11
  dotdot := fun d => ((SortedTable.row DirInfo.ino rows d).map DirInfo.dotdot).getD 0
  entries := (rows.filter fun dir => dir.ino ≠ ext2RootIno ∧ dir.parent ≠ 0).map fun dir =>
    (dir.parent, dir.ino)

theorem forall_recorded {rows : List DirInfo} {P : Nat → Prop} (each : ∀ dir ∈ rows, P dir.ino)
    (d : Nat) (isDir : IsDir (recorded rows) d) : P d := by
  obtain ⟨dir, mem, rfl⟩ := mem_map.mp (contains_iff_mem.mp isDir)
  exact each dir mem

theorem recorded_of_rows {rows : List DirInfo} (sorted : SortedTable.Sorted DirInfo.ino rows)
    (few : rows.length < 2 ^ 31) (lost : ⟨11, 2, 2⟩ ∈ rows)
    (root : IsDir (recorded rows) ext2RootIno)
    (free : ¬ IsDir (recorded rows) 0 ∧ ¬ IsDir (recorded rows) 20)
    (parents : ∀ dir ∈ rows, dir.parent = 0 ∨ IsDir (recorded rows) dir.parent) :
    Recorded sampleEnv (recorded rows) := by
  have is : ∀ dir ∈ rows, entry (recorded rows).db dir.ino = some dir := fun dir mem => by
    obtain ⟨i, at_⟩ := List.getElem?_of_mem mem
    exact sorted.row_get at_
  have parent : ∀ dir ∈ rows, parentOf (recorded rows) dir.ino = dir.parent := fun dir mem =>
    parentOf_of_row (is dir mem)
  refine ⟨sorted, few, forall_recorded fun dir mem => ⟨dir, is dir mem⟩, free.1, root, ?_,
    fun p => ?_, ?_, ?_, .inl rfl, by decide, free.2⟩
  · refine forall_recorded fun dir mem => ?_
    rw [parent dir mem]
    exact parents dir mem
  · refine forall_recorded fun dir mem notRoot => ?_
    rw [parent dir mem, recorded, mem_map]
    constructor
    · rintro ⟨other, mem', same⟩
      obtain ⟨rfl, ino⟩ := Prod.mk.inj same
      obtain ⟨mem', both⟩ := mem_filter.mp mem'
      have := is other mem'
      rw [ino, is dir mem] at this
      cases this
      exact ⟨(of_decide_eq_true both).2, rfl⟩
    · rintro ⟨nonzero, rfl⟩
      exact ⟨dir, mem_filter.mpr ⟨mem, decide_eq_true ⟨notRoot, nonzero⟩⟩, rfl⟩
  · intro d dir _ hasRow
    change ((entry (recorded rows).db d).map DirInfo.dotdot).getD 0 = dir.dotdot
    rw [hasRow]
    rfl
  · rintro l ⟨rfl⟩
    exact ⟨contains_iff_mem.mpr (mem_map_of_mem lost), by decide, parent ⟨11, 2, 2⟩ lost⟩

/- Directory 12 has no parent, and 13 is in it. -/
def piece : Ctx := recorded [⟨2, 2, 2⟩, ⟨11, 2, 2⟩, ⟨12, 7, 0⟩, ⟨13, 12, 12⟩]

theorem piece_recorded : Recorded sampleEnv piece :=
  recorded_of_rows (by unfold SortedTable.Sorted; decide) (by decide) (by decide) (by decide)
    (by decide) (by decide)

theorem piece_connected : ∃ c', e2fsckPass3 sampleEnv piece = some c' ∧ Connected c' := by
  obtain ⟨c', is, iff⟩ := pass3_connected_iff piece_recorded
  have ends : ∀ dir ∈ piece.db.array, ∃ k < 3,
      (parentOf piece)^[k] dir.ino = ext2RootIno ∨ (parentOf piece)^[k] dir.ino = 0 := by decide
  refine ⟨c', is, iff.mpr ⟨forall_recorded fun dir mem => ?_, by decide +kernel⟩⟩
  obtain ⟨k, -, both⟩ := ends dir mem
  exact ⟨k, both⟩

/- The directories 12 and 13 are in each other. -/
def ring : Ctx := recorded [⟨2, 2, 2⟩, ⟨11, 2, 2⟩, ⟨12, 13, 13⟩, ⟨13, 12, 12⟩]

theorem ring_stays : Recorded sampleEnv ring ∧
    ∃ c', e2fsckPass3 sampleEnv ring = some c' ∧ ∀ k, (parentOf c')^[k] 12 ≠ ext2RootIno := by
  refine ⟨recorded_of_rows (by unfold SortedTable.Sorted; decide) (by decide) (by decide)
    (by decide) (by decide) (by decide), ?_⟩
  have run : (e2fsckPass3 sampleEnv ring).map (fun c' => (parentOf c' 12, parentOf c' 13)) =
      some (13, 12) := by
    decide +kernel
  obtain ⟨c', is, parents⟩ := Option.map_eq_some_iff.mp run
  obtain ⟨first, second⟩ := Prod.mk.inj parents
  refine ⟨c', is, fun k => ?_⟩
  have inRing : ∀ k, (parentOf c')^[k] 12 = 12 ∨ (parentOf c')^[k] 12 = 13 := fun k => by
    induction k with
    | zero => exact .inl rfl
    | succ k ih =>
      rw [iterate_succ_apply']
      rcases ih with here | here
      · exact .inr (by rw [here, first])
      · exact .inl (by rw [here, second])
  rcases inRing k with here | here <;> rw [here] <;> decide

end Sample

end E2fs.Pass3
