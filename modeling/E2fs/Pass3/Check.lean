import E2fs.Pass3.DirInfo

/-! e2fsck pass 3 (pass3.c): each directory is followed up to the root, and directories without a
parent are linked into lost+found. Every question is answered yes. -/
namespace E2fs.Pass3

def ext2RootIno : Nat := 2

/- `lookup` is the directory that `lost+found` in the root names. On the disk there are the `..`
entries, and the other entries as pairs of a directory and the inode it names. -/
structure Ctx where
  db : Db
  inodeDirMap : Nat → Bool
  inodeDoneMap : Nat → Bool
  inodeLoopDetect : Nat → Bool
  lostAndFound : Nat
  lookup : Option Nat
  dotdot : Nat → Nat
  entries : List (Nat × Nat)

/- The inode that `ext2fs_new_inode` finds, and whether the table is moved when it grows. -/
structure Env where
  newInode : Nat
  moved : Bool

section Model

variable (env : Env)

def makeLostAndFound (ctx : Ctx) : Ctx :=
  let ino := env.newInode
  { ctx with
    inodeDirMap := Function.update ctx.inodeDirMap ino true
    dotdot := Function.update ctx.dotdot ino ext2RootIno
    entries := (ext2RootIno, ino) :: ctx.entries
    db := addDirInfo env.moved ctx.db ino ext2RootIno
    lookup := some ino
    lostAndFound := ino }

def getLostAndFound (ctx : Ctx) : Ctx :=
  if ctx.lostAndFound ≠ 0 then ctx
  else
    match ctx.lookup with
    | some ino => { ctx with lostAndFound := ino }
    | none => makeLostAndFound env ctx

def reconnectFile (ctx : Ctx) (ino : Nat) : Ctx :=
  let ctx := getLostAndFound env ctx
  { ctx with entries := (ctx.lostAndFound, ino) :: ctx.entries }

def fixDotdot (ctx : Ctx) (ino parent : Nat) : Ctx :=
  { ctx with
    dotdot := Function.update ctx.dotdot ino parent
    db := dirInfoSetParent (dirInfoSetDotdot ctx.db ino parent) ino ctx.lostAndFound }

/- The loop of `check_directory`, and whether every directory on the way was in the table. -/
def climb (dir : Nat) : Nat → Ctx → Nat → Bool → Nat → Option (Ctx × Bool)
  | 0, _, _, _, _ => none
  | fuel + 1, ctx, ino, loopPass, parentCount =>
    if ctx.inodeDoneMap ino then some (ctx, true)
    else
      let ctx := { ctx with inodeDoneMap := Function.update ctx.inodeDoneMap ino true }
      match dirInfoGetParent ctx.db ino with
      | none => some (ctx, false)
      | some parent =>
        if parent = 0 ∨ (loopPass && ctx.inodeLoopDetect parent) then
          let ctx := reconnectFile env ctx ino
          some (fixDotdot ctx ino ctx.lostAndFound, true)
        else if loopPass then
          let ctx := { ctx with inodeLoopDetect := Function.update ctx.inodeLoopDetect parent true }
          climb dir fuel ctx parent true parentCount
        else if parentCount > 2048 then
          climb dir fuel { ctx with inodeLoopDetect := fun _ => false } dir true (parentCount + 1)
        else climb dir fuel ctx parent false (parentCount + 1)

/- Each round marks a directory or is the last but one. -/
def checkDirectory (ctx : Ctx) (dir : Nat) : Option Ctx :=
  (climb env dir (ctx.db.array.length + 2) ctx dir false 0).map fun (ctx, found) =>
    match found, dirInfoGetDotdot ctx.db dir, dirInfoGetParent ctx.db dir with
    | true, some dotdot, some parent => if dotdot ≠ parent then fixDotdot ctx dir parent else ctx
    | _, _, _ => ctx

/- The table may grow while it is walked through. -/
def scan : Nat → Nat → Ctx → Option Ctx
  | 0, _, _ => none
  | fuel + 1, i, ctx =>
    match ctx.db.array[i]? with
    | none => some ctx
    | some dir =>
      let ctx := { ctx with db := { ctx.db with lastLookup := some i } }
      if ctx.inodeDirMap dir.ino then (checkDirectory env ctx dir.ino).bind (scan fuel (i + 1))
      else scan fuel (i + 1) ctx

def e2fsckPass3 (ctx : Ctx) : Option Ctx :=
  let ctx := { ctx with inodeDoneMap := Function.update (fun _ => false) ext2RootIno true }
  (scan env (ctx.db.array.length + 2) 0 ctx).map (getLostAndFound env)

end Model

end E2fs.Pass3
