import E2fs.Pass3.Climb

/-! The directories are checked in the order of the table, which may grow meanwhile. A `..` that is
changed is right in the end only where the directory is in lost+found. -/
namespace E2fs.Pass3
open Option Function

section Check

variable {env : Env} {c ctx : Ctx} {dir : Nat}

/- The directory is the root, or has no parent, or its `..` need not be changed, or it is in
lost+found. -/
def Ok (ctx : Ctx) (d : Nat) : Prop :=
  ∀ row ∈ entry ctx.db d, d = ext2RootIno ∨ row.parent = 0 ∨ row.dotdot = row.parent ∨
    row.parent = ctx.lostAndFound

instance (ctx : Ctx) (d : Nat) : Decidable (Ok ctx d) :=
  inferInstanceAs (Decidable (∀ row ∈ entry ctx.db d, _))

variable {row : DirInfo}

theorem checkDirectory_eq {ctx' : Ctx} (wf : WellFormed ctx'.db)
    (climbed : climb env dir (ctx.db.array.length + 2) ctx dir false 0 = some (ctx', true))
    (is : entry ctx'.db dir = some row) : checkDirectory env ctx dir =
      some (if row.dotdot ≠ row.parent then fixDotdot ctx' dir row.parent else ctx') := by
  rw [checkDirectory, climbed, map_some]
  dsimp only
  rw [dirInfoGetDotdot, dirInfoGetParent, info_eq wf, is]
  rfl

theorem Inv.fix (inv : Inv env c ctx) (old : IsDir c dir) (done : ctx.inodeDoneMap dir = true)
    (is : entry ctx.db dir = some row)
    (status : dir ≠ ext2RootIno → Good c (fixDotdot ctx dir row.parent) dir ∧ ¬ Bad c ctx dir ∨
      Bad c (fixDotdot ctx dir row.parent) dir ∧ ¬ Good c ctx dir) :
    Later env c ctx (fixDotdot ctx dir row.parent) ∧
      ∀ d, d ≠ dir → entry (fixDotdot ctx dir row.parent).db d = entry ctx.db d := by
  obtain ⟨wf, length, inos, rows⟩ := fixDotdot_db inv.wf dir row.parent
  have others : ∀ d, d ≠ dir → entry (fixDotdot ctx dir row.parent).db d = entry ctx.db d :=
      fun d other =>
    (rows d).trans (if_neg other)
  refine ⟨inv.touch ⟨wf, length, inos, others, fun d other => update_of_ne other .., rfl, rfl, rfl,
    fun d => ⟨.inr, ?_⟩, fun e mem => .inl mem, fun e mem => mem⟩ old (fun _ => ?_) status, others⟩
  · rintro (rfl | is)
    · exact done
    · exact is
  · exact ⟨_, (rows dir).trans (by rw [if_pos rfl, is]; rfl)⟩

structure Checked (env : Env) (c ctx ctx' : Ctx) (dir : Nat) : Prop where
  later : Later env c ctx ctx'
  status : IsDir c dir → dir ≠ ext2RootIno → Good c ctx' dir ∨ Bad c ctx' dir
  old : ∀ d, IsDir c d → d ≠ ext2RootIno → Bad c ctx' d → Bad c ctx d ∨ d = dir ∧ ¬ Ok ctx dir
  bad : IsDir c dir → ¬ Ok ctx dir → Bad c ctx' dir

structure Up (env : Env) (c ctx ctx' : Ctx) (dir : Nat) : Prop where
  climbed : climb env dir (ctx.db.array.length + 2) ctx dir false 0 = some (ctx', true)
  later : Later env c ctx ctx'
  done : ctx'.inodeDoneMap dir = true
  same : ∀ d, IsDir c d → parentOf c d ≠ 0 → entry ctx'.db d = entry ctx.db d

variable {ctx' : Ctx}

section

variable (up : Up env c ctx ctx' dir) (inv : Inv env c ctx)
include up inv

/- Only a directory with a recorded parent can be bad, and the way up does not change its row. -/
theorem Up.oldBad {d : Nat} (isDir : IsDir c d) (notRoot : d ≠ ext2RootIno) (bad : Bad c ctx' d) :
    Bad c ctx d :=
  inv.bad_of_wrong isDir notRoot bad.parent
    (by rw [parentOf, ← up.same d isDir bad.parent]; exact bad.wrong)

theorem Up.leave (status : IsDir c dir → dir ≠ ext2RootIno → Good c ctx' dir ∨ Bad c ctx' dir)
    (bad : IsDir c dir → ¬ Ok ctx dir → Bad c ctx' dir) : Checked env c ctx ctx' dir :=
  ⟨up.later, status, fun _ isDir notRoot bad => .inl (up.oldBad inv isDir notRoot bad), bad⟩

theorem Up.fix (old : IsDir c dir) (is : entry ctx'.db dir = some row)
    (status : dir ≠ ext2RootIno → Good c (fixDotdot ctx' dir row.parent) dir ∧ ¬ Bad c ctx' dir ∧
      Ok ctx dir ∨
      Bad c (fixDotdot ctx' dir row.parent) dir ∧ ¬ Good c ctx' dir ∧
    (¬ Ok ctx dir ∨ Bad c ctx dir)) : Checked env c ctx (fixDotdot ctx' dir row.parent) dir := by
  obtain ⟨later, others⟩ := up.later.inv.fix old up.done is fun notRoot =>
    (status notRoot).imp (fun both => ⟨both.1, both.2.1⟩) fun both => ⟨both.1, both.2.1⟩
  refine ⟨up.later.trans later, fun _ notRoot => (status notRoot).imp And.left And.left, ?_,
    fun _ notOk => ?_⟩
  · intro d isDir notRoot bad
    rcases eq_or_ne d dir with rfl | other
    · rcases status notRoot with good | ⟨-, -, either⟩
      · exact absurd bad good.1.not_bad
      · exact either.symm.imp id fun notOk => ⟨rfl, notOk⟩
    · have before : Bad c ctx' d := up.later.inv.bad_of_wrong isDir notRoot bad.parent (by
        rw [parentOf, ← others d other]
        exact bad.wrong)
      exact .inl (up.oldBad inv isDir notRoot before)
  · have notRoot : dir ≠ ext2RootIno := fun root => notOk fun _ _ => .inl root
    exact ((status notRoot).resolve_left fun good => notOk good.2.2).1

theorem Up.good (old : IsDir c dir) (notRoot : dir ≠ ext2RootIno)
    (good : Good c ctx' dir) :
    checkDirectory env ctx dir = some ctx' ∧ Checked env c ctx ctx' dir := by
  have ok : Ok ctx dir := by
    intro row is
    by_cases none_ : parentOf c dir = 0
    · rcases inv.cases dir old notRoot with fresh | good | bad
      · have := fresh.parent_eq
        rw [parentOf_of_row is, none_] at this
        exact .inr (.inl this)
      · rw [good.row] at is
        cases is
        exact .inr (.inr (.inl rfl))
      · exact absurd none_ bad.parent
    · rw [← up.same dir old none_, good.row] at is
      cases is
      exact .inr (.inr (.inl rfl))
  refine ⟨?_, up.leave inv (fun _ _ => .inl good) fun _ notOk => absurd ok notOk⟩
  rw [checkDirectory_eq up.later.inv.wf up.climbed good.row]
  exact congrArg some (if_neg fun other => other rfl)

theorem Up.fresh (rec : Recorded env c) (old : IsDir c dir)
    (notRoot : dir ≠ ext2RootIno) (some_ : parentOf c dir ≠ 0) (fresh : Fresh c ctx' dir) :
    ∃ ctx'', checkDirectory env ctx dir = some ctx'' ∧ Checked env c ctx ctx'' dir := by
  have inv' := up.later.inv
  obtain ⟨row, hasRow⟩ := rec.row dir old
  have ino := entry_ino hasRow
  have parent : row.parent = parentOf c dir := (parentOf_of_row hasRow).symm
  have is := fresh.row.trans hasRow
  have before : entry ctx.db dir = some row := (up.same dir old some_).symm.trans is
  have dotdot := fresh.dotdot.trans (rec.dotdot dir row old hasRow)
  have named : ∀ ctx'' : Ctx, (∀ e ∈ ctx'.entries, e ∈ ctx''.entries) →
      (parentOf c dir, dir) ∈ ctx''.entries :=
    fun ctx'' keep => keep _ (inv'.keep _ ((rec.named _ dir old notRoot).mpr ⟨some_, rfl⟩))
  have want_ : ∀ ctx'', want c ctx'' dir = parentOf c dir := fun ctx'' => by rw [want, if_neg some_]
  by_cases agree : row.dotdot = row.parent
  · have good : Good c ctx' dir := by
      refine ⟨?_, by rwa [want_], ?_, ?_⟩
      · rw [want_, is, ← parent]
        congr 1
        cases row
        cases ino
        cases agree
        rfl
      · rw [want_, dotdot, agree, parent]
      · rw [want_]
        exact named ctx' fun _ mem => mem
    exact ⟨ctx', up.good inv old notRoot good⟩
  · rw [checkDirectory_eq inv'.wf up.climbed is, if_pos agree]
    refine ⟨_, rfl, up.fix inv old is fun _ => ?_⟩
    obtain ⟨-, -, -, rows⟩ := fixDotdot_db inv'.wf dir row.parent
    have row' :
        entry (fixDotdot ctx' dir row.parent).db dir = some ⟨dir, row.parent, ctx'.lostAndFound⟩ :=
      (rows dir).trans (by rw [if_pos rfl, is, map_some, ino])
    have lost := inv.lost_iff rec old some_ up.climbed up.later
    by_cases inLost : ctx'.lostAndFound = parentOf c dir
    · refine .inl
        ⟨⟨?_, by rwa [want_], ?_, ?_⟩, fun bad => bad.wrong fresh.parent_eq, fun row1 is1 => ?_⟩
      · rw [want_, row', parent, inLost]
      · rw [want_, ← parent]
        exact update_self ..
      · rw [want_]
        exact named _ fun _ mem => mem
      · rw [before] at is1
        cases is1
        exact .inr (.inr (.inr (parent.trans (lost.mp inLost).symm)))
    · refine .inr ⟨⟨some_, ?_, up.done, _, row'⟩, fun good => ?_, .inl fun ok => ?_⟩
      · rwa [parentOf_of_row row']
      · have := good.row
        rw [is] at this
        cases this
        exact agree rfl
      · rcases ok row before with root | none_ | same | lost'
        · exact notRoot root
        · exact some_ (parent ▸ none_)
        · exact agree same
        · exact inLost (lost.mpr (lost'.symm.trans parent))

end

section

variable (inv : Inv env c ctx)
include inv

/- Where lost+found was not there before, it is no directory's recorded parent. -/
theorem Inv.lost_ne (rec : Recorded env c) (old : IsDir c dir) (some_ : parentOf c dir ≠ 0)
    (absent : c.lookup = none) : ctx.lostAndFound ≠ parentOf c dir := fun is => by
  rcases inv.lost with ⟨none_, -⟩ | ⟨-, -, lookup | ⟨-, new⟩⟩
  · exact some_ (is.symm.trans none_)
  · rw [absent] at lookup
    cases lookup
  · have := (rec.parent dir old).resolve_left some_
    rw [← is, new] at this
    exact rec.new.2 this

theorem Up.bad (up : Up env c ctx ctx' dir) (rec : Recorded env c) (old : IsDir c dir)
    (notRoot : dir ≠ ext2RootIno) (calm : Bad c ctx dir → c.lookup = none) (bad : Bad c ctx' dir) :
    ∃ ctx'', checkDirectory env ctx dir = some ctx'' ∧ Checked env c ctx ctx'' dir := by
  have before := up.oldBad inv old notRoot bad
  have other := up.later.inv.lost_ne rec old bad.parent (calm before)
  obtain ⟨row, is⟩ := bad.row
  rw [checkDirectory_eq up.later.inv.wf up.climbed is]
  split
  · refine ⟨_, rfl, up.fix inv old is fun _ =>
      .inr ⟨⟨bad.parent, ?_, up.done, ?_⟩, fun good => good.not_bad bad, .inr before⟩⟩
    all_goals
      obtain ⟨-, -, -, rows⟩ := fixDotdot_db up.later.inv.wf dir row.parent
      have row' := (rows dir).trans (by rw [if_pos rfl, is, map_some])
    · rwa [parentOf_of_row row']
    · exact ⟨_, row'⟩
  · exact ⟨_, rfl, up.leave inv (fun _ _ => .inr bad) fun _ _ => bad⟩

theorem Inv.check (rec : Recorded env c) (isDir : IsDir ctx dir)
    (calm : IsDir c dir → dir ≠ ext2RootIno → Bad c ctx dir → c.lookup = none) :
    ∃ ctx', checkDirectory env ctx dir = some ctx' ∧ Checked env c ctx ctx' dir := by
  have enough := unmarked_le ctx
  obtain ⟨ctx1, climbed, later, done, same⟩ :=
    inv.goUp (ctx.db.array.length + 2) 0 rec isDir (.inr rfl) (by omega)
  have inv1 := later.inv
  have up : Up env c ctx ctx1 dir := ⟨climbed, later, done, same⟩
  by_cases old : IsDir c dir
  · by_cases root : dir = ext2RootIno
    · obtain ⟨row, is⟩ := inv1.root.2
      rw [← root] at is
      rw [checkDirectory_eq inv1.wf climbed is]
      have ok : Ok ctx dir := fun _ _ => .inl root
      split
      · exact ⟨_, rfl, up.fix inv old is fun notRoot => absurd root notRoot⟩
      · exact ⟨_, rfl, up.leave inv (fun _ notRoot => absurd root notRoot) fun _ notOk =>
          absurd ok notOk⟩
    · by_cases none_ : parentOf c dir = 0
      · -- Without a parent it was linked on the way.
        exact ⟨ctx1, up.good inv old root (inv1.settled dir old root done none_)⟩
      · rcases inv1.cases dir old root with fresh | good | bad
        · exact up.fresh inv rec old root none_ fresh
        · exact ⟨ctx1, up.good inv old root good⟩
        · exact up.bad inv rec old root (calm old root) bad
  · obtain ⟨nonzero, is⟩ := ((inv.dirs dir).mp isDir).resolve_left old
    have made := inv1.made dir nonzero (is.trans (later.lost (is ▸ nonzero)).symm) old
    rw [checkDirectory_eq inv1.wf climbed made.row]
    exact ⟨_, congrArg some (if_neg fun other => other rfl),
        up.leave inv (fun isDir => absurd isDir old) fun isDir =>
      absurd isDir old⟩

theorem Inv.made_ok (isDir : IsDir ctx dir) (new : ¬ IsDir c dir) : Ok ctx dir := by
  obtain ⟨nonzero, is⟩ := ((inv.dirs dir).mp isDir).resolve_left new
  intro row hasRow
  rw [(inv.made dir nonzero is new).row] at hasRow
  cases hasRow
  exact .inr (.inr (.inl rfl))

end

end Check

section Scan

variable (env : Env)

/-- Each directory is as it should be when `check_directory` is called for it. -/
def meets : Nat → Nat → Ctx → Bool
  | 0, _, _ => true
  | fuel + 1, i, ctx =>
    match ctx.db.array[i]? with
    | none => true
    | some dir =>
      let ctx := { ctx with db := { ctx.db with lastLookup := some i } }
      if ctx.inodeDirMap dir.ino then
        decide (Ok ctx dir.ino) && (checkDirectory env ctx dir.ino).all (meets fuel (i + 1))
      else meets fuel (i + 1) ctx

variable {env} {c ctx : Ctx}

def NoBad (c ctx : Ctx) : Prop := ∀ d, IsDir c d → d ≠ ext2RootIno → ¬ Bad c ctx d

theorem Checked.noBad {ctx' : Ctx} {dir : Nat} (checked : Checked env c ctx ctx' dir)
    (inv : Inv env c ctx) (isDir : IsDir ctx dir) : NoBad c ctx' ↔ NoBad c ctx ∧ Ok ctx dir := by
  constructor
  · intro none_
    refine ⟨fun d isDir notRoot bad =>
      none_ d isDir notRoot (checked.later.bad d isDir notRoot bad), ?_⟩
    by_cases old : IsDir c dir
    · by_contra notOk
      exact none_ dir old (fun root => notOk fun _ _ => .inl root) (checked.bad old notOk)
    · exact inv.made_ok isDir old
  · rintro ⟨none_, ok⟩ d isDir notRoot bad
    rcases checked.old d isDir notRoot bad with before | ⟨-, notOk⟩
    · exact none_ d isDir notRoot before
    · exact notOk ok

/- The rows before `i` were looked at. Bad ones are among them, unless lost+found may be made and
move the rows. -/
structure Going (env : Env) (c ctx : Ctx) (i : Nat) : Prop where
  inv : Inv env c ctx
  left : ∀ d, IsDir c d → d ≠ ext2RootIno → Good c ctx d ∨ Bad c ctx d ∨ ∃ j, i ≤ j ∧
    inoAt ctx.db j = some d
  calm : c.lookup ≠ none → ∀ d, IsDir c d → d ≠ ext2RootIno → Bad c ctx d →
    ∃ j < i, inoAt ctx.db j = some d

theorem inoAt_inj {i j ino : Nat} (wf : WellFormed ctx.db) (first : inoAt ctx.db i = some ino)
    (second : inoAt ctx.db j = some ino) : i = j := by
  obtain ⟨row, at_, is⟩ := map_eq_some_iff.mp first
  obtain ⟨row', at_', is'⟩ := map_eq_some_iff.mp second
  rcases lt_trichotomy i j with lt | same | lt
  · have := wf.sorted.lt_of_lt lt at_ at_'
    omega
  · exact same
  · have := wf.sorted.lt_of_lt lt at_' at_
    omega

theorem Going.next {ctx' : Ctx} {i ino : Nat} (going : Going env c ctx i)
    (at_ : inoAt ctx.db i = some ino)
    (later : Later env c ctx ctx')
    (status : IsDir c ino → ino ≠ ext2RootIno → Good c ctx' ino ∨ Bad c ctx' ino)
    (old : ∀ d, IsDir c d → d ≠ ext2RootIno → Bad c ctx' d → Bad c ctx d ∨ d = ino) :
    Going env c ctx' (i + 1) where
  inv := later.inv
  left := fun d isDir notRoot => by
    rcases going.left d isDir notRoot with good | bad | ⟨j, le, is⟩
    · exact .inl (later.good d isDir notRoot good)
    · exact .inr (.inl (later.bad d isDir notRoot bad))
    · rcases eq_or_lt_of_le le with rfl | lt
      · obtain rfl : d = ino := Option.some.inj (is.symm.trans at_)
        exact (status isDir notRoot).imp id .inl
      · obtain ⟨j', le', is'⟩ := later.order j d is
        exact .inr (.inr ⟨j', by omega, is'⟩)
  calm := fun some_ d isDir notRoot bad => by
    rcases old d isDir notRoot bad with before | rfl
    · obtain ⟨j, lt, is⟩ := going.calm some_ d isDir notRoot before
      exact ⟨j, by omega, (later.still some_ j).trans is⟩
    · exact ⟨i, by omega, (later.still some_ i).trans at_⟩

theorem Going.run (fuel i : Nat) (rec : Recorded env c) (going : Going env c ctx i)
    (enough : ctx.db.array.length + (if ctx.lookup = none then 1 else 0) - i + 1 ≤ fuel) :
    ∃ ctx', scan env fuel i ctx = some ctx' ∧ Later env c ctx ctx' ∧
      (∀ d, IsDir c d → d ≠ ext2RootIno → Good c ctx' d ∨ Bad c ctx' d) ∧
      (NoBad c ctx' ↔ NoBad c ctx ∧ meets env fuel i ctx = true) := by
  induction fuel generalizing i ctx with
  | zero => omega
  | succ fuel ih =>
    rw [scan, meets]
    cases at_ : ctx.db.array[i]? with
    | none =>
      refine ⟨ctx, rfl, .refl going.inv, fun d isDir notRoot => ?_, (and_iff_left rfl).symm⟩
      rcases going.left d isDir notRoot with good | bad | ⟨j, le, is⟩
      · exact .inl good
      · exact .inr bad
      · have past := List.getElem?_eq_none (le_trans (List.getElem?_eq_none_iff.mp at_) le)
        rw [inoAt, past] at is
        cases is
    | some dir =>
      have ino : inoAt ctx.db i = some dir.ino := by rw [inoAt, at_]; rfl
      have lt := (List.getElem?_eq_some_iff.mp at_).1
      have aside := going.inv.aside ctx.inodeLoopDetect (some i)
      have same : ∀ d, Bad c { ctx with db := { ctx.db with lastLookup := some i } } d →
          Bad c ctx d := fun d bad =>
        { bad with }
      have noBad : NoBad c { ctx with db := { ctx.db with lastLookup := some i } } ↔ NoBad c ctx :=
        ⟨fun none_ d isDir notRoot bad => none_ d isDir notRoot (aside.bad d isDir notRoot bad),
          fun none_ d isDir notRoot bad => none_ d isDir notRoot (same d bad)⟩
      dsimp only
      split_ifs with isDir
      · obtain ⟨ctx1, is, checked⟩ := aside.inv.check rec isDir fun old notRoot bad => by
          by_contra some_
          obtain ⟨j, less, is⟩ := going.calm some_ dir.ino old notRoot (same _ bad)
          have := inoAt_inj going.inv.wf ino is
          omega
        have later := aside.trans checked.later
        have next := going.next ino later checked.status fun d isDir notRoot bad =>
          (checked.old d isDir notRoot bad).imp (same d) And.left
        obtain ⟨ctx2, is', later', all, iff⟩ := ih (i + 1) next (by have := later.length; omega)
        rw [is]
        refine ⟨ctx2, is', later.trans later', all, iff.trans ?_⟩
        rw [checked.noBad aside.inv isDir, and_assoc]
        refine and_congr noBad ?_
        rw [all_some, Bool.and_eq_true, decide_eq_true_eq]
      · have next :=
          going.next ino aside (fun old => absurd ((going.inv.dirs _).mpr (.inl old)) isDir)
          fun d _ _ bad => .inl (same d bad)
        obtain ⟨ctx2, is', later', all, iff⟩ := ih (i + 1) next (by have := aside.length; omega)
        exact ⟨ctx2, is', aside.trans later', all, iff.trans (and_congr_left fun _ => noBad)⟩

end Scan

end E2fs.Pass3
