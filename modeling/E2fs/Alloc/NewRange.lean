import E2fs.Alloc.Filsys
import E2fs.Lib.Loop

/-! lib/ext2fs/alloc.c: the search for a run of free blocks. -/
namespace E2fs.Alloc
open Word Generic Bitmap Loop

/- `EXT2_NEWRANGE_FIXED_GOAL` and `EXT2_NEWRANGE_MIN_LENGTH`; a flag word with other
bits is refused. -/
structure NewrangeFlags where
  fixedGoal : Bool
  minLength : Bool

inductive RangeError where
  | invalidArgument
  | blockAllocFail
  | einval
  deriving DecidableEq, Repr

structure Scan where
  start : Nat
  looped : Bool
  deriving DecidableEq

/- The result is the run `[start, end)`. -/
abbrev ScanRound := Round Scan (Except RangeError (Nat × Nat))

section Search

variable (sb : Super) (map : GenericBitmap64) (flags : NewrangeFlags) (goal len : Nat)

/- A run has been looked at and is too short. -/
def tryNext (stop : Nat) (looped : Bool) : ScanRound :=
  if flags.fixedGoal then .done (.error .blockAllocFail)
  else if stop ≥ sb.blocksCount then
    if looped then .done (.error .blockAllocFail)
    else .again ⟨sb.firstDataBlock, true⟩
  else .again ⟨stop, looped⟩

def tryRun (start : Nat) (looped : Bool) : ScanRound :=
  if flags.fixedGoal ∧ start ≠ goal then .done (.error .blockAllocFail)
  else
    let b := min (sub64 (add64 start len) 1) (sb.blocksCount - 1)
    match ext2fsFindFirstSetGenericBmap map start b with
    | .error .einval => .done (.error .einval)
    | .error .enoent => measured start (b + 1) looped
    | .ok stop => measured start stop looped
where
  measured (start stop : Nat) (looped : Bool) : ScanRound :=
    if ¬ flags.minLength ∨ sub64 stop start ≥ len then .done (.ok (start, stop))
    else tryNext sb flags stop looped

def scanRound (s : Scan) : ScanRound :=
  if s.looped ∧ ¬ s.start ≤ goal then .done (.error .blockAllocFail)
  else
    match ext2fsFindFirstZeroGenericBmap map s.start (sb.blocksCount - 1) with
    | .error .enoent =>
      if flags.fixedGoal ∨ s.start = sb.firstDataBlock then .done (.error .blockAllocFail)
      -- `looped` is not set here
      else .again ⟨sb.firstDataBlock, s.looped⟩
    | .error .einval => .done (.error .einval)
    | .ok start => tryRun sb map flags goal len start s.looped

end Search

def ext2fsClearBlockUninit (fs : Filsys) (group : Nat) : Filsys :=
  if group ≥ fs.super.groupDescCount ∨ ¬ fs.super.hasGroupDescCsum ∨ ¬ (fs.group group).blockUninit
  then fs
  else bgBlockUninitClear fs group

/- `for (b = start; b < end; b += s_blocks_per_group)`, at most `end - start` rounds. -/
def clearGroups : Nat → Filsys → Nat → Nat → Filsys
  | 0, fs, _, _ => fs
  | rounds + 1, fs, b, stop =>
    if b < stop then
      clearGroups rounds (ext2fsClearBlockUninit fs (groupOfBlk2 fs.super b))
        (add64 b fs.super.blocksPerGroup) stop
    else fs

/- A goal of zero or outside the file system stands for its first block. -/
def normalGoal (sb : Super) (goal : Nat) : Nat :=
  if goal = 0 ∨ goal ≥ sb.blocksCount then sb.firstDataBlock else goal

def finishRange (fs : Filsys) :
    Except RangeError (Nat × Nat) → Except RangeError (Filsys × Nat × Nat)
  | .error code => .error code
  | .ok (start, stop) =>
    .ok (clearGroups (stop - start) fs start stop, start, sub64 stop start)

def searchRange (fuel : Nat) (fs : Filsys) (flags : NewrangeFlags) (goal len : Nat)
    (map : GenericBitmap64) : Option (Except RangeError (Filsys × Nat × Nat)) :=
  let goal := normalGoal fs.super goal
  (runLoop (scanRound fs.super map flags goal len) fuel ⟨goal, false⟩).map (finishRange fs)

/- e2fsck/pass1.c. The callback is taken out while it runs. -/
def e2fsckNewRange (fuel : Nat) (fs : Filsys) (ctx : E2fsck) (flags : NewrangeFlags)
    (goal len : Nat) : Option (Except RangeError (Filsys × Nat × Nat)) :=
  searchRange fuel fs flags goal len (ctx.blockFoundMap.getD fs.blockMap)

/- `map` is null or a bitmap of the caller. -/
def ext2fsNewRange (fuel : Nat) (fs : Filsys) (flags : NewrangeFlags) (goal len : Nat)
    (map : Option GenericBitmap64) : Option (Except RangeError (Filsys × Nat × Nat)) :=
  if len = 0 then some (.error .invalidArgument)
  else
    match map, fs.ctx with
    | some map, _ => searchRange fuel fs flags goal len map
    | none, none => searchRange fuel fs flags goal len fs.blockMap
    | none, some ctx =>
      (e2fsckNewRange fuel fs ctx flags goal len).map fun result =>
        match result with
        | .error code => .error code
        | .ok (fs, start, n) => .ok (clearGroups n fs start (add64 start n), start, n)

end E2fs.Alloc
