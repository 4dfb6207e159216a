import E2fs.Pass3.Invariant

/-! One call of `check_directory`: the way up from a directory and the comparison of its `..` with
its parent. -/
namespace E2fs.Pass3
open List Function

section Touch

variable {env : Env} {c ctx ctx' : Ctx} {ino : Nat}

/- What may differ after one directory was changed. -/
structure Touched (c ctx ctx' : Ctx) (ino : Nat) : Prop where
  wf : WellFormed ctx'.db
  length : ctx'.db.array.length = ctx.db.array.length
  inos : ∀ j, inoAt ctx'.db j = inoAt ctx.db j
  row : ∀ d, d ≠ ino → entry ctx'.db d = entry ctx.db d
  dotdot : ∀ d, d ≠ ino → ctx'.dotdot d = ctx.dotdot d
  dirs : ctx'.inodeDirMap = ctx.inodeDirMap
  lost : ctx'.lostAndFound = ctx.lostAndFound
  lookup : ctx'.lookup = ctx.lookup
  done : ∀ d, ctx'.inodeDoneMap d = true ↔ d = ino ∨ ctx.inodeDoneMap d = true
  entries : ∀ e ∈ ctx'.entries, e ∈ ctx.entries ∨ e.2 = ino ∧ parentOf c ino = 0
  keep : ∀ e ∈ ctx.entries, e ∈ ctx'.entries

section

variable (touched : Touched c ctx ctx' ino) {d : Nat}
include touched

theorem Touched.want (d : Nat) : want c ctx' d = want c ctx d := by
  rw [E2fs.Pass3.want, E2fs.Pass3.want, touched.lost]

theorem Touched.good (other : d ≠ ino) (good : Good c ctx d) : Good c ctx' d where
  row := by rw [touched.want, touched.row d other, good.row]
  there := by rw [touched.want]; exact good.there
  dotdot := by rw [touched.want, touched.dotdot d other, good.dotdot]
  named := by rw [touched.want]; exact touched.keep _ good.named

theorem Touched.bad (other : d ≠ ino) (bad : Bad c ctx d) : Bad c ctx' d where
  parent := bad.parent
  wrong := by rw [parentOf, touched.row d other]; exact bad.wrong
  done := (touched.done d).mpr (.inr bad.done)
  row := by rw [touched.row d other]; exact bad.row

end

theorem Inv.touch (inv : Inv env c ctx) (touched : Touched c ctx ctx' ino) (old : IsDir c ino)
    (root : ino = ext2RootIno → ∃ dir, entry ctx'.db ino = some dir)
    (status : ino ≠ ext2RootIno → Good c ctx' ino ∧ ¬ Bad c ctx ino ∨ Bad c ctx' ino ∧
      ¬ Good c ctx ino) :
    Later env c ctx ctx' := by
  have good : ∀ d, d ≠ ext2RootIno → Good c ctx d → Good c ctx' d := fun d notRoot good => by
    rcases eq_or_ne d ino with rfl | other
    · exact ((status notRoot).resolve_right fun is => is.2 good).1
    · exact touched.good other good
  have bad : ∀ d, d ≠ ext2RootIno → Bad c ctx d → Bad c ctx' d := fun d notRoot bad => by
    rcases eq_or_ne d ino with rfl | other
    · exact ((status notRoot).resolve_left fun is => is.2 bad).1
    · exact touched.bad other bad
  refine ⟨⟨touched.wf, ?_, ?_, ⟨?_, ?_⟩, ?_, ?_, ?_, ?_,
    fun e mem => touched.keep e (inv.keep e mem), ?_⟩,
    fun d _ => bad d, fun d _ => good d, fun d is => (touched.done d).mpr (.inr is), fun _ =>
      touched.lost,
    fun j d is => ⟨j, le_refl _, by rw [touched.inos]; exact is⟩, fun _ => touched.inos, ?_⟩
  · rw [touched.lookup, touched.length]
    exact inv.room
  · intro d
    rw [IsDir, touched.dirs, touched.lost]
    exact inv.dirs d
  · exact (touched.done _).mpr (.inr inv.root.1)
  · rcases eq_or_ne ext2RootIno ino with is | other
    · exact is ▸ root is.symm
    · rw [touched.row _ other]
      exact inv.root.2
  · intro d dir notRoot
    rcases eq_or_ne d ino with rfl | other
    · exact .inr ((status notRoot).imp And.left And.left)
    · refine (inv.cases d dir notRoot).imp (fun fresh => ⟨?_, ?_⟩)
        (Or.imp (good d notRoot) (bad d notRoot))
      · rw [touched.row d other, fresh.row]
      · rw [touched.dotdot d other, fresh.dotdot]
  · intro d nonzero is new
    have other : d ≠ ino := by
      rintro rfl
      exact new old
    have made := inv.made d nonzero (by rw [← touched.lost, is]) new
    exact ⟨by rw [touched.row d other, made.row], by rw [touched.dotdot d other, made.dotdot],
      touched.keep _ made.named⟩
  · intro d dir notRoot done is
    rcases eq_or_ne d ino with rfl | other
    · exact ((status notRoot).resolve_right fun bad => bad.1.parent is).1
    · exact good d notRoot
        (inv.settled d dir notRoot (((touched.done d).mp done).resolve_left other) is)
  · intro p d dir notRoot some_ mem
    rcases touched.entries _ mem with old | ⟨rfl, none_⟩
    · exact inv.only p d dir notRoot some_ old
    · exact absurd none_ some_
  · rw [touched.lost, touched.lookup]
    exact inv.lost
  · rw [touched.length, touched.lookup]

theorem fixDotdot_db (wf : WellFormed ctx.db) (ino parent : Nat) :
    let ctx' := fixDotdot ctx ino parent
    WellFormed ctx'.db ∧ ctx'.db.array.length = ctx.db.array.length ∧
      (∀ j, inoAt ctx'.db j = inoAt ctx.db j) ∧ ∀ d, entry ctx'.db d =
        if d = ino then (entry ctx.db d).map fun dir => ⟨dir.ino, parent, ctx.lostAndFound⟩
            else entry ctx.db d := by
  obtain ⟨wf1, len1, inos1, rows1⟩ :=
    change_spec (f := fun dir => { dir with dotdot := parent }) wf (fun _ => rfl) ino
  obtain ⟨wf2, len2, inos2, rows2⟩ :=
    change_spec (f := fun dir => { dir with parent := ctx.lostAndFound }) wf1 (fun _ => rfl) ino
  refine ⟨wf2, len2.trans len1, fun j => (inos2 j).trans (inos1 j), fun d => (rows2 d).trans ?_⟩
  rw [rows1]
  split
  · cases entry ctx.db d <;> rfl
  · rfl

end Touch

section Climb

variable {env : Env} {c ctx : Ctx} {ino : Nat}

theorem getLostAndFound_mark (env : Env) (ctx : Ctx) (ino : Nat) :
    getLostAndFound env (mark ctx ino) = mark (getLostAndFound env ctx) ino := by
  obtain ⟨db, dirs, done, loop, lost, lookup, dotdot, entries⟩ := ctx
  unfold getLostAndFound mark
  split
  · rfl
  · cases lookup <;> rfl

theorem Inv.reconnect (inv : Inv env c ctx) (rec : Recorded env c) (dir : IsDir ctx ino)
    (open_ : ctx.inodeDoneMap ino = false) (none_ : parentOf ctx ino = 0) :
    let linked := reconnectFile env (mark ctx ino) ino
    let fixed := fixDotdot linked ino linked.lostAndFound
    Later env c ctx fixed ∧ fixed.inodeDoneMap ino = true ∧
      ∀ d, IsDir c d → parentOf c d ≠ 0 → entry fixed.db d = entry ctx.db d := by
  intro linked
  have notRoot : ino ≠ ext2RootIno := by
    rintro rfl
    rw [inv.root.1] at open_
    cases open_
  have notGood : ¬ Good c ctx ino := fun good => good.there (good.parent_eq.symm.trans none_)
  have notBad : ¬ Bad c ctx ino := fun bad => by
    rw [bad.done] at open_
    cases open_
  have old : IsDir c ino := by
    by_contra new
    obtain ⟨nonzero, is⟩ := ((inv.dirs ino).mp dir).resolve_left new
    have made := parentOf_of_row (inv.made ino nonzero is new).row
    rw [none_] at made
    cases made
  have fresh :
    Fresh c ctx ino := (inv.cases ino old notRoot).resolve_right fun is => is.elim notGood notBad
  have without : parentOf c ino = 0 := by rw [← fresh.parent_eq, none_]
  obtain ⟨later, there, rows⟩ := inv.found rec
  have linked_ : linked = { mark (getLostAndFound env ctx) ino with
      entries :=
          ((getLostAndFound env ctx).lostAndFound, ino) :: (getLostAndFound env ctx).entries } := by
    change reconnectFile env (mark ctx ino) ino = _
    rw [reconnectFile, getLostAndFound_mark]
    rfl
  clear_value linked
  subst linked_
  generalize getLostAndFound env ctx = g at later there rows
  have inv' := later.inv
  obtain ⟨row, hasRow⟩ := rec.row ino old
  obtain ⟨wf, length, inos, entries⟩ := @fixDotdot_db
    { mark g ino with entries := (g.lostAndFound, ino) :: g.entries } inv'.wf ino g.lostAndFound
  have want_ : ∀ ctx', want c ctx' ino = ctx'.lostAndFound :=
    fun ctx' => by rw [want, if_pos without]
  refine ⟨later.trans (inv'.touch
    ⟨wf, length, inos, fun d other => ?_, fun d other => ?_, rfl, rfl, rfl, ?_, ?_, ?_⟩ old
    (fun is => absurd is notRoot) fun _ => .inl ⟨⟨?_, ?_, ?_, ?_⟩, fun bad => bad.parent without⟩),
      ?_, ?_⟩
  · exact (entries d).trans (if_neg other)
  · exact update_of_ne other ..
  · exact mark_done g ino
  · exact forall_mem_cons.mpr ⟨.inr ⟨rfl, without⟩, fun _ => .inl⟩
  · exact fun e mem => mem_cons_of_mem _ mem
  · rw [want_]
    refine (entries ino).trans ?_
    rw [if_pos rfl]
    change (entry g.db ino).map _ = _
    rw [rows ino old, fresh.row, hasRow]
    have is := entry_ino hasRow
    rw [Option.map_some, is]
    rfl
  · rw [want_]
    exact there
  · rw [want_]
    exact update_self ..
  · rw [want_]
    exact mem_cons_self ..
  · exact (mark_done g ino ino).mpr (.inl rfl)
  · intro d dir' some_
    have other : d ≠ ino := by
      rintro rfl
      exact some_ without
    exact ((entries d).trans (if_neg other)).trans (rows d dir')

/- Rounds of the loop are counted by the rows that are not done. -/
def unmarked (ctx : Ctx) : Nat := (ctx.db.array.filter fun dir => !ctx.inodeDoneMap dir.ino).length

theorem unmarked_mark {dir : DirInfo} (row : entry ctx.db ino = some dir)
    (open_ : ctx.inodeDoneMap ino = false) : unmarked (mark ctx ino) < unmarked ctx := by
  have split : (ctx.db.array.filter fun dir => !(mark ctx ino).inodeDoneMap dir.ino) =
      (ctx.db.array.filter fun dir => !ctx.inodeDoneMap dir.ino).filter fun dir =>
          decide (dir.ino ≠ ino) := by
    rw [filter_filter]
    refine filter_congr fun dir _ => ?_
    rw [Bool.eq_iff_iff, Bool.not_eq_true', ← Bool.not_eq_true, mark_done, Bool.and_eq_true,
      Bool.not_eq_true', decide_eq_true_eq, not_or, Bool.not_eq_true]
  change (ctx.db.array.filter fun dir => !(mark ctx ino).inodeDoneMap dir.ino).length < _
  rw [split, unmarked, length_filter_lt_length_iff_exists]
  obtain ⟨i, at_⟩ := entry_index row
  have is := entry_ino row
  exact ⟨dir, mem_filter.mpr ⟨mem_of_getElem? at_, by rw [is, open_]; rfl⟩, by simp [is]⟩

theorem unmarked_le (ctx : Ctx) : unmarked ctx ≤ ctx.db.array.length := length_filter_le ..

theorem Inv.aside (inv : Inv env c ctx) (f : Nat → Bool) (last : Option Nat) :
    Later env c ctx { ctx with
      db := { ctx.db with lastLookup := last }, inodeLoopDetect := f } where
  inv := { inv with
    wf := ⟨inv.wf.sorted, inv.wf.few⟩
    cases :=
      fun d dir notRoot => (inv.cases d dir notRoot).imp (fun fresh => ⟨fresh.row, fresh.dotdot⟩)
      fun either => either.imp (fun good => { good with }) fun bad =>
        { bad with }
    made :=
      fun d nonzero is new => ⟨(inv.made d nonzero is new).row, (inv.made d nonzero is new).dotdot,
      (inv.made d nonzero is new).named⟩
    settled := fun d dir notRoot done none_ =>
      have good := inv.settled d dir notRoot done none_
      { good with } }
  bad := fun _ _ _ bad => { bad with }
  good := fun _ _ _ good => { good with }
  done := fun _ is => is
  lost := fun _ => rfl
  order := fun j _ is => ⟨j, le_refl _, is⟩
  still := fun _ _ => rfl
  length := le_refl _

theorem Inv.loop (inv : Inv env c ctx) (f : Nat → Bool) :
    Later env c ctx { ctx with inodeLoopDetect := f } :=
  inv.aside f ctx.db.lastLookup

theorem getParent_eq (wf : WellFormed ctx.db) {row : DirInfo} (is : entry ctx.db ino = some row) :
    dirInfoGetParent ctx.db ino = some (parentOf ctx ino) := by
  rw [dirInfoGetParent, info_eq wf, is, parentOf_of_row is]
  rfl

/- The way up ends at a directory that is done or has no parent. -/
theorem Inv.goUp {dir : Nat} (fuel n : Nat) (inv : Inv env c ctx) (rec : Recorded env c)
    (isDir : IsDir ctx ino)
    (first : ctx.inodeDoneMap dir = true ∨ ino = dir) (enough : unmarked ctx + 2 ≤ fuel) :
    ∃ ctx', climb env dir fuel ctx ino false n = some (ctx', true) ∧ Later env c ctx ctx' ∧
      ctx'.inodeDoneMap ino = true ∧ ∀ d, IsDir c d → parentOf c d ≠ 0 →
      entry ctx'.db d = entry ctx.db d := by
  induction fuel generalizing ctx ino n with
  | zero => omega
  | succ fuel ih =>
    rw [climb]
    cases open_ : ctx.inodeDoneMap ino with
    | true => exact ⟨ctx, rfl, .refl inv, open_, fun _ _ _ => rfl⟩
    | false =>
      obtain ⟨⟨row, hasRow⟩, up⟩ := inv.climbable rec isDir open_
      have parent := getParent_eq inv.wf hasRow
      dsimp only
      rw [parent]
      simp only [Bool.false_and, Bool.false_eq_true, or_false, if_false]
      by_cases none_ : parentOf ctx ino = 0
      · rw [if_pos none_]
        exact ⟨_, rfl, inv.reconnect rec isDir open_ none_⟩
      rw [if_neg none_]
      have marked := inv.marked none_
      have dirDone : (mark ctx ino).inodeDoneMap dir = true :=
        (mark_done ctx ino dir).mpr (first.symm.imp Eq.symm id)
      have inoDone : (mark ctx ino).inodeDoneMap ino = true :=
        (mark_done ctx ino ino).mpr (.inl rfl)
      split
      · -- The second pass starts at a directory that is done, and ends there.
        obtain ⟨more, rfl⟩ : ∃ more, fuel = more + 1 := ⟨fuel - 1, by omega⟩
        refine ⟨{ mark ctx ino with inodeLoopDetect := fun _ => false }, ?_,
          marked.trans (marked.inv.loop _), inoDone, fun _ _ _ => rfl⟩
        exact if_pos dirDone
      · have less := unmarked_mark hasRow open_
        obtain ⟨ctx', climbed, later, -, same⟩ :=
          ih (n + 1) marked.inv (up.resolve_left none_) (.inl dirDone) (by omega)
        exact ⟨ctx', climbed, marked.trans later, later.done _ inoDone, same⟩

end Climb

section Check

variable {env : Env} {c ctx : Ctx} {dir : Nat}

theorem Inv.bad_of_wrong {d : Nat} (inv : Inv env c ctx) (isDir : IsDir c d)
    (notRoot : d ≠ ext2RootIno)
    (some_ : parentOf c d ≠ 0) (wrong : parentOf ctx d ≠ parentOf c d) : Bad c ctx d := by
  rcases inv.cases d isDir notRoot with fresh | good | bad
  · exact absurd fresh.parent_eq wrong
  · have is := good.parent_eq
    rw [want, if_neg some_] at is
    exact absurd is wrong
  · exact bad

theorem Inv.parent_of_open {d : Nat} (inv : Inv env c ctx) (isDir : IsDir c d)
    (some_ : parentOf c d ≠ 0)
    (open_ : ctx.inodeDoneMap d = false) : parentOf ctx d = parentOf c d := by
  by_contra wrong
  have notRoot : d ≠ ext2RootIno := by
    rintro rfl
    rw [inv.root.1] at open_
    cases open_
  have done := (inv.bad_of_wrong isDir notRoot some_ wrong).done
  rw [open_] at done
  cases done

theorem climb_up {fuel n ino : Nat} {row : DirInfo} (wf : WellFormed ctx.db)
    (open_ : ctx.inodeDoneMap ino = false)
    (is : entry ctx.db ino = some row) (some_ : parentOf ctx ino ≠ 0) (few : n ≤ 2048) :
    climb env dir (fuel + 1) ctx ino false n = climb env dir fuel (mark ctx ino)
    (parentOf ctx ino) false (n + 1) := by
  rw [climb, open_, if_neg Bool.false_ne_true]
  dsimp only
  rw [getParent_eq wf is]
  simp only [Bool.false_and, Bool.false_eq_true, or_false, if_false, if_neg some_,
    if_neg (show ¬ n > 2048 by omega)]
  rfl

theorem climb_done {fuel n ino : Nat} {loopPass : Bool} (done : ctx.inodeDoneMap ino = true) :
    climb env dir (fuel + 1) ctx ino loopPass n = some (ctx, true) := by
  exact if_pos done

/- From a directory in lost+found the way is up to the root, and nothing is linked. -/
theorem Inv.lost_iff {ctx' : Ctx} (inv : Inv env c ctx) (rec : Recorded env c) (isDir : IsDir c dir)
    (some_ : parentOf c dir ≠ 0)
    (climbed : climb env dir (ctx.db.array.length + 2) ctx dir false 0 = some (ctx', true))
    (later : Later env c ctx ctx') : ctx'.lostAndFound = parentOf c dir ↔
    ctx.lostAndFound = parentOf c dir := by
  by_cases known : ctx.lostAndFound = 0
  · refine iff_of_false (fun is => ?_) fun is => some_ (is.symm.trans known)
    have upDir := (rec.parent dir isDir).resolve_left some_
    obtain ⟨-, -, found⟩ := later.inv.lost.resolve_left fun both => some_ (is.symm.trans both.1)
    rcases found with lookup | ⟨-, new⟩
    · obtain ⟨-, notRoot, root⟩ := rec.lookup _ lookup
      rw [is] at notRoot root
      -- The parent is lost+found, and its parent is the root.
      have same : ctx'.lostAndFound = ctx.lostAndFound := by
        obtain ⟨row, hasRow⟩ := inv.root.2
        obtain ⟨i, at_⟩ := entry_index hasRow
        have pos := (List.getElem?_eq_some_iff.mp at_).1
        obtain ⟨more, length⟩ : ∃ more, ctx.db.array.length + 2 = more + 3 :=
          ⟨ctx.db.array.length - 1, by omega⟩
        rw [length] at climbed
        cases open_ : ctx.inodeDoneMap dir with
        | true =>
          rw [climb_done open_] at climbed
          cases climbed
          rfl
        | false =>
          have parent := inv.parent_of_open isDir some_ open_
          obtain ⟨⟨row, hasRow⟩, -⟩ := inv.climbable rec ((inv.dirs dir).mpr (.inl isDir)) open_
          rw [climb_up inv.wf open_ hasRow (parent ▸ some_) (by omega), parent] at climbed
          have inv1 := (inv.marked (parent ▸ some_ : parentOf ctx dir ≠ 0)).inv
          cases open1 : (mark ctx dir).inodeDoneMap (parentOf c dir) with
          | true =>
            rw [climb_done open1] at climbed
            cases climbed
            rfl
          | false =>
            have parent1 : parentOf (mark ctx dir) (parentOf c dir) = ext2RootIno :=
              (inv1.parent_of_open upDir (by rw [root]; decide) open1).trans root
            obtain ⟨⟨row1, hasRow1⟩, -⟩ := inv1.climbable rec ((inv1.dirs _).mpr (.inl upDir)) open1
            rw [climb_up inv1.wf open1 hasRow1 (by rw [parent1]; decide) (by omega), parent1,
              climb_done ((mark_done _ _ _).mpr (.inr inv1.root.1))] at climbed
            cases climbed
            rfl
      exact some_ (is.symm.trans (same.trans known))
    · rw [is] at new
      exact rec.new.2 (new ▸ upDir)
  · rw [later.lost known]

end Check

end E2fs.Pass3
