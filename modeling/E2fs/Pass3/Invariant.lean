import E2fs.Pass3.Check

/-! What pass 3 does to each directory. A directory is as pass 2 left it, or its `..` and its parent
agree, or its parent is not one that names it. The walk up the tree never leaves a loop: a directory
is done before its parent is looked at, and the second pass over the path starts at one that is
done. -/
namespace E2fs.Pass3
open SortedTable Function List

def IsDir (ctx : Ctx) (d : Nat) : Prop := ctx.inodeDirMap d = true

instance (ctx : Ctx) (d : Nat) : Decidable (IsDir ctx d) := inferInstanceAs (Decidable (_ = true))

def parentOf (ctx : Ctx) (d : Nat) : Nat := ((entry ctx.db d).map DirInfo.parent).getD 0

/-- What pass 2 leaves: each directory but the root has an entry in its recorded parent and in no
other directory. -/
structure Recorded (env : Env) (c : Ctx) : Prop where
  sorted : Sorted DirInfo.ino c.db.array
  few : c.db.array.length < 2 ^ 31
  row : ∀ d, IsDir c d → ∃ dir, entry c.db d = some dir
  zero : ¬ IsDir c 0
  root : IsDir c ext2RootIno
  parent : ∀ d, IsDir c d → parentOf c d = 0 ∨ IsDir c (parentOf c d)
  named : ∀ p d, IsDir c d → d ≠ ext2RootIno → ((p, d) ∈ c.entries ↔ p ≠ 0 ∧ parentOf c d = p)
  dotdot : ∀ d dir, IsDir c d → entry c.db d = some dir → c.dotdot d = dir.dotdot
  lookup : ∀ l ∈ c.lookup, IsDir c l ∧ l ≠ ext2RootIno ∧ parentOf c l = ext2RootIno
  lost : c.lostAndFound = 0 ∨ c.lookup = some c.lostAndFound
  new : env.newInode ≠ 0 ∧ ¬ IsDir c env.newInode

section States

variable (c ctx : Ctx) (d : Nat)

def want : Nat := if parentOf c d = 0 then ctx.lostAndFound else parentOf c d

structure Fresh : Prop where
  row : entry ctx.db d = entry c.db d
  dotdot : ctx.dotdot d = c.dotdot d

structure Good : Prop where
  row : entry ctx.db d = some ⟨d, want c ctx d, want c ctx d⟩
  there : want c ctx d ≠ 0
  dotdot : ctx.dotdot d = want c ctx d
  named : (want c ctx d, d) ∈ ctx.entries

structure Bad : Prop where
  parent : parentOf c d ≠ 0
  wrong : parentOf ctx d ≠ parentOf c d
  done : ctx.inodeDoneMap d = true
  row : ∃ dir, entry ctx.db d = some dir

structure Made : Prop where
  row : entry ctx.db d = some ⟨d, ext2RootIno, ext2RootIno⟩
  dotdot : ctx.dotdot d = ext2RootIno
  named : (ext2RootIno, d) ∈ ctx.entries

end States

section Invariant

variable {env : Env} {c ctx : Ctx} {d : Nat}

theorem parentOf_of_row {dir : DirInfo} (row : entry ctx.db d = some dir) :
    parentOf ctx d = dir.parent := by
  rw [parentOf, row]
  rfl

theorem Good.parent_eq (good : Good c ctx d) : parentOf ctx d = want c ctx d :=
  parentOf_of_row good.row

theorem Fresh.parent_eq (fresh : Fresh c ctx d) : parentOf ctx d = parentOf c d := by
  rw [parentOf, fresh.row]
  rfl

theorem Good.not_bad (good : Good c ctx d) : ¬ Bad c ctx d := fun bad => by
  have is := good.parent_eq
  rw [want, if_neg bad.parent] at is
  exact bad.wrong is

structure Inv (env : Env) (c ctx : Ctx) : Prop where
  wf : WellFormed ctx.db
  room : ctx.lookup = none → ctx.db.array.length < 2 ^ 31
  dirs : ∀ d, IsDir ctx d ↔ IsDir c d ∨ d ≠ 0 ∧ d = ctx.lostAndFound
  root : ctx.inodeDoneMap ext2RootIno = true ∧ ∃ dir, entry ctx.db ext2RootIno = some dir
  cases : ∀ d, IsDir c d → d ≠ ext2RootIno → Fresh c ctx d ∨ Good c ctx d ∨ Bad c ctx d
  made : ∀ d, d ≠ 0 → d = ctx.lostAndFound → ¬ IsDir c d → Made ctx d
  settled : ∀ d, IsDir c d → d ≠ ext2RootIno → ctx.inodeDoneMap d = true → parentOf c d = 0 →
    Good c ctx d
  only : ∀ p d, IsDir c d → d ≠ ext2RootIno → parentOf c d ≠ 0 → (p, d) ∈ ctx.entries →
    p = parentOf c d
  keep : ∀ e ∈ c.entries, e ∈ ctx.entries
  lost : ctx.lostAndFound = 0 ∧ ctx.lookup = c.lookup ∨ ctx.lostAndFound ≠ 0 ∧
    ctx.lookup = some ctx.lostAndFound ∧
    (c.lookup = some ctx.lostAndFound ∨ c.lookup = none ∧ ctx.lostAndFound = env.newInode)

/- A directory that is not done yet has a row, and its parent is a directory. -/
theorem Inv.climbable (inv : Inv env c ctx) (rec : Recorded env c) (dir : IsDir ctx d)
    (open_ : ctx.inodeDoneMap d = false) :
    (∃ row, entry ctx.db d = some row) ∧ (parentOf ctx d = 0 ∨ IsDir ctx (parentOf ctx d)) := by
  have notRoot : d ≠ ext2RootIno := by
    rintro rfl
    rw [inv.root.1] at open_
    cases open_
  by_cases old : IsDir c d
  · rcases inv.cases d old notRoot with fresh | good | bad
    · rw [fresh.row, fresh.parent_eq]
      refine ⟨rec.row d old, (rec.parent d old).imp id fun is => (inv.dirs _).mpr (.inl is)⟩
    · refine ⟨⟨_, good.row⟩, .inr ?_⟩
      rw [good.parent_eq]
      have there := good.there
      rw [want] at there ⊢
      split_ifs at there with none_
      · rw [if_pos none_]
        exact (inv.dirs _).mpr (.inr ⟨there, rfl⟩)
      · rw [if_neg none_]
        exact (inv.dirs _).mpr (.inl ((rec.parent d old).resolve_left none_))
    · rw [bad.done] at open_
      cases open_
  · obtain ⟨nonzero, is⟩ := ((inv.dirs d).mp dir).resolve_left old
    have made := inv.made d nonzero is old
    refine ⟨⟨_, made.row⟩, .inr ?_⟩
    rw [parentOf_of_row made.row]
    exact (inv.dirs _).mpr (.inl rec.root)

structure Later (env : Env) (c ctx ctx' : Ctx) : Prop where
  inv : Inv env c ctx'
  bad : ∀ d, IsDir c d → d ≠ ext2RootIno → Bad c ctx d → Bad c ctx' d
  good : ∀ d, IsDir c d → d ≠ ext2RootIno → Good c ctx d → Good c ctx' d
  done : ∀ d, ctx.inodeDoneMap d = true → ctx'.inodeDoneMap d = true
  lost : ctx.lostAndFound ≠ 0 → ctx'.lostAndFound = ctx.lostAndFound
  order : ∀ j d, inoAt ctx.db j = some d → ∃ j', j ≤ j' ∧ inoAt ctx'.db j' = some d
  still : c.lookup ≠ none → ∀ j, inoAt ctx'.db j = inoAt ctx.db j
  length : ctx'.db.array.length + (if ctx'.lookup = none then 1 else 0) ≤
    ctx.db.array.length + if ctx.lookup = none then 1 else 0

theorem Later.refl (inv : Inv env c ctx) : Later env c ctx ctx :=
  ⟨inv, fun _ _ _ is => is, fun _ _ _ is => is, fun _ is => is, fun _ => rfl,
    fun j _ is => ⟨j, le_refl _, is⟩, fun _ _ => rfl, le_refl _⟩

theorem Later.trans {ctx' ctx'' : Ctx} (first : Later env c ctx ctx')
    (second : Later env c ctx' ctx'') : Later env c ctx ctx'' where
  inv := second.inv
  bad := fun d dir other is => second.bad d dir other (first.bad d dir other is)
  good := fun d dir other is => second.good d dir other (first.good d dir other is)
  done := fun d is => second.done d (first.done d is)
  lost := fun some_ => by
    have is := first.lost some_
    exact (second.lost (is ▸ some_)).trans is
  order := fun j d is => by
    obtain ⟨j', le, is'⟩ := first.order j d is
    obtain ⟨j'', le', is''⟩ := second.order j' d is'
    exact ⟨j'', le.trans le', is''⟩
  still := fun some_ j => (second.still some_ j).trans (first.still some_ j)
  length := second.length.trans first.length

end Invariant

section Mark

variable {env : Env} {c ctx : Ctx} {ino : Nat}

def mark (ctx : Ctx) (ino : Nat) : Ctx :=
  { ctx with inodeDoneMap := Function.update ctx.inodeDoneMap ino true }

theorem mark_done (ctx : Ctx) (ino d : Nat) :
    (mark ctx ino).inodeDoneMap d = true ↔ d = ino ∨ ctx.inodeDoneMap d = true := by
  change update ctx.inodeDoneMap ino true d = true ↔ _
  rcases eq_or_ne d ino with rfl | other
  · simp
  · simp [other]

theorem Inv.marked (inv : Inv env c ctx) (parent : parentOf ctx ino ≠ 0) :
    Later env c ctx (mark ctx ino) where
  inv := { inv with
    root := ⟨(mark_done ctx ino _).mpr (.inr inv.root.1), inv.root.2⟩
    cases :=
      fun d dir notRoot => (inv.cases d dir notRoot).imp (fun fresh => ⟨fresh.row, fresh.dotdot⟩)
      fun either => either.imp (fun good => { good with }) fun bad =>
        ⟨bad.parent, bad.wrong, (mark_done ctx ino d).mpr (.inr bad.done), bad.row⟩
    made :=
      fun d nonzero is new => ⟨(inv.made d nonzero is new).row, (inv.made d nonzero is new).dotdot,
      (inv.made d nonzero is new).named⟩
    settled := fun d dir notRoot done none_ => by
      have good : Good c ctx d := by
        rcases (mark_done ctx ino d).mp done with rfl | old
        · rcases inv.cases d dir notRoot with fresh | good | bad
          · exact absurd (fresh.parent_eq.trans none_) parent
          · exact good
          · exact absurd none_ bad.parent
        · exact inv.settled d dir notRoot old none_
      exact { good with } }
  bad :=
    fun d _ _ bad => ⟨bad.parent, bad.wrong, (mark_done ctx ino d).mpr (.inr bad.done), bad.row⟩
  good := fun d _ _ good => { good with }
  done := fun d is => (mark_done ctx ino d).mpr (.inr is)
  lost := fun _ => rfl
  order := fun j _ is => ⟨j, le_refl _, is⟩
  still := fun _ _ => rfl
  length := le_refl _

end Mark

section LostAndFound

variable {env : Env} {c ctx : Ctx} {d : Nat}

/- Without lost+found only directories with a recorded parent are in order. -/
theorem Good.parent_of_lost (good : Good c ctx d) (none_ : ctx.lostAndFound = 0) :
    parentOf c d ≠ 0 := fun is => by
  have there := good.there
  rw [want, if_pos is] at there
  exact there none_

theorem want_of_parent {ctx' : Ctx} (some_ : parentOf c d ≠ 0) : want c ctx' d = want c ctx d := by
  rw [want, want, if_neg some_, if_neg some_]

theorem Good.found {ctx' : Ctx} (good : Good c ctx d) (none_ : ctx.lostAndFound = 0)
    (row : entry ctx'.db d = entry ctx.db d) (dotdot : ctx'.dotdot d = ctx.dotdot d)
    (keep : ∀ e ∈ ctx.entries, e ∈ ctx'.entries) : Good c ctx' d := by
  have same : want c ctx' d = want c ctx d := want_of_parent (good.parent_of_lost none_)
  refine ⟨?_, ?_, ?_, ?_⟩
  · rw [same, row, good.row]
  · rw [same]
    exact good.there
  · rw [same, dotdot, good.dotdot]
  · rw [same]
    exact keep _ good.named

theorem Bad.found {ctx' : Ctx} (bad : Bad c ctx d) (row : entry ctx'.db d = entry ctx.db d)
    (done : ctx'.inodeDoneMap = ctx.inodeDoneMap) : Bad c ctx' d := by
  refine ⟨bad.parent, ?_, ?_, ?_⟩
  · rw [parentOf, row]
    exact bad.wrong
  · rw [done]
    exact bad.done
  · rw [row]
    exact bad.row

section

variable (inv : Inv env c ctx) (rec : Recorded env c)
include inv rec

theorem Inv.use {l : Nat} (none_ : ctx.lostAndFound = 0)
    (found : ctx.lookup = some l) : Later env c ctx { ctx with lostAndFound := l } ∧ l ≠ 0 := by
  have lookup : ctx.lookup = c.lookup := (inv.lost.resolve_right fun is => is.1 none_).2
  obtain ⟨dir, notRoot, parent⟩ := rec.lookup l (by rw [← lookup, found]; rfl)
  have nonzero : l ≠ 0 := fun is => rec.zero (is ▸ dir)
  have good : ∀ d, Good c ctx d → Good c { ctx with lostAndFound := l } d := fun d good =>
    good.found none_ rfl rfl fun _ is => is
  have bad : ∀ d, Bad c ctx d → Bad c { ctx with lostAndFound := l } d :=
    fun d bad => bad.found rfl rfl
  refine ⟨⟨{ inv with dirs := ?_, cases := ?_, made := ?_, settled := ?_, lost := ?_ },
    fun d _ _ => bad d, fun d _ _ => good d,
    fun _ is => is, fun some_ => absurd none_ some_, fun j _ is => ⟨j, le_refl _, is⟩, fun _ _ =>
      rfl, le_refl _⟩, nonzero⟩
  · intro d
    refine (inv.dirs d).trans
      ⟨fun is => .inl (is.resolve_right fun both => both.1 (both.2.trans none_)), ?_⟩
    rintro (is | ⟨-, rfl⟩)
    · exact .inl is
    · exact .inl dir
  · intro d isDir other
    exact (inv.cases d isDir other).imp (fun fresh => ⟨fresh.row, fresh.dotdot⟩)
      (Or.imp (good d) (bad d))
  · rintro d - rfl new
    exact absurd dir new
  · intro d isDir other done is
    exact good d (inv.settled d isDir other done is)
  · exact .inr ⟨nonzero, found, .inl (by rw [← lookup, found])⟩

theorem Inv.make (none_ : ctx.lostAndFound = 0) (absent : ctx.lookup = none) :
    Later env c ctx (makeLostAndFound env ctx) ∧
      ∀ d, IsDir c d → entry (makeLostAndFound env ctx).db d = entry ctx.db d := by
  have lookup : ctx.lookup = c.lookup := (inv.lost.resolve_right fun is => is.1 none_).2
  obtain ⟨nonzero, new⟩ := rec.new
  obtain ⟨wf, length, order, rows⟩ :=
    addDirInfo_spec inv.wf (inv.room absent) env.moved env.newInode ext2RootIno
  have row : ∀ d, IsDir c d → entry (makeLostAndFound env ctx).db d = entry ctx.db d :=
      fun d dir => by
    refine (rows d).trans (if_neg ?_)
    rintro rfl
    exact new dir
  have dotdot : ∀ d, IsDir c d → (makeLostAndFound env ctx).dotdot d = ctx.dotdot d :=
      fun d dir => by
    refine update_of_ne ?_ ..
    rintro rfl
    exact new dir
  have good : ∀ d, IsDir c d → Good c ctx d → Good c (makeLostAndFound env ctx) d :=
      fun d dir good =>
    good.found none_ (row d dir) (dotdot d dir) fun _ is => mem_cons_of_mem _ is
  have bad : ∀ d, IsDir c d → Bad c ctx d → Bad c (makeLostAndFound env ctx) d :=
    fun d dir bad => bad.found (row d dir) rfl
  refine ⟨⟨⟨wf, nofun, ?_, ⟨inv.root.1, ?_⟩, ?_, ?_, ?_, ?_, ?_, ?_⟩, fun d dir _ => bad d dir,
    fun d dir _ => good d dir, fun _ is => is, fun some_ => absurd none_ some_, order, ?_, ?_⟩, row⟩
  · intro d
    change update ctx.inodeDirMap env.newInode true d = true ↔ _ ∨ _ ∧ d = env.newInode
    rcases eq_or_ne d env.newInode with rfl | other
    · simp [nonzero]
    · rw [update_of_ne other]
      refine (inv.dirs d).trans
        ⟨fun is => .inl (is.resolve_right fun both => both.1 (both.2.trans none_)), fun is => ?_⟩
      exact .inl (is.resolve_right fun both => other both.2)
  · rw [row _ rec.root]
    exact inv.root.2
  · intro d dir other
    exact (inv.cases d dir other).imp
      (fun fresh => ⟨(row d dir).trans fresh.row, (dotdot d dir).trans fresh.dotdot⟩)
        (Or.imp (good d dir) (bad d dir))
  · rintro d - rfl -
    exact ⟨(rows _).trans (if_pos rfl), update_self .., mem_cons_self ..⟩
  · intro d dir other done is
    exact good d dir (inv.settled d dir other done is)
  · intro p d dir other some_ mem
    rcases mem_cons.mp mem with is | old
    · injection is with _ is
      exact absurd dir (is ▸ new)
    · exact inv.only p d dir other some_ old
  · exact fun e mem => mem_cons_of_mem _ (inv.keep e mem)
  · exact .inr ⟨nonzero, rfl, .inr ⟨by rw [← lookup, absent], rfl⟩⟩
  · exact fun some_ => absurd (by rw [← lookup, absent]) some_
  · rw [absent]
    exact length

theorem Inv.found :
    let ctx' := getLostAndFound env ctx
    Later env c ctx ctx' ∧ ctx'.lostAndFound ≠ 0 ∧ ∀ d, IsDir c d →
        entry ctx'.db d = entry ctx.db d := by
  rw [getLostAndFound]
  split_ifs with some_
  · exact ⟨.refl inv, some_, fun _ _ => rfl⟩
  have none_ := not_not.mp some_
  split
  · rename_i l found
    obtain ⟨later, nonzero⟩ := inv.use rec none_ found
    exact ⟨later, nonzero, fun _ _ => rfl⟩
  · rename_i absent
    obtain ⟨later, row⟩ := inv.make rec none_ absent
    exact ⟨later, rec.new.1, row⟩

end

end LostAndFound

end E2fs.Pass3
