import E2fs.Lib.Endian
import E2fs.Journal.Load

/-! Fast commits in recovery: `fc_do_one_pass` of e2fsck/recovery.c over the fast-commit
area, with `ext4_fc_replay_scan` and `ext4_fc_replay` of e2fsck/journal.c and the record
format of lib/ext2fs/fast_commit.h. -/
namespace E2fs.FastCommit
open Word BigEndian LittleEndian Jbd2

/- The tags; every other number is unknown. -/
inductive FcTag where
  | addRange
  | delRange
  | creat
  | link
  | unlink
  | inode
  | pad
  | tail
  | head
  | unknown
  deriving DecidableEq, Repr

def fcTag : Nat → FcTag
  | 1 => .addRange
  | 2 => .delRange
  | 3 => .creat
  | 4 => .link
  | 5 => .unlink
  | 6 => .inode
  | 7 => .pad
  | 8 => .tail
  | 9 => .head
  | _ => .unknown

/- `struct ext4_fc_tl *`: a position in a block. The value follows the four bytes of
tag and length. -/
structure FcTl where
  block : Block
  pos : Nat

def FcTl.tag (tl : FcTl) : FcTag := fcTag (le16 tl.block tl.pos)

def FcTl.len (tl : FcTl) : Nat := le16 tl.block (tl.pos + 2)

def FcTl.field (tl : FcTl) (off : Nat) : Nat := le32 tl.block (tl.pos + 4 + off)

/- `fc_for_each_tl` from a position on; a record has at least four bytes. -/
def tlsFrom (blocksize : Nat) (b : Block) : Nat → Nat → List FcTl
  | 0, _ => []
  | fuel + 1, pos =>
    if pos < blocksize - 1 then
      ⟨b, pos⟩ :: tlsFrom blocksize b fuel (pos + 4 + le16 b (pos + 2))
    else []

def blockTls (blocksize : Nat) (b : Block) : List FcTl := tlsFrom blocksize b blocksize 0

/- `struct e2fsck_fc_replay_state` without the extent list. -/
structure FcReplayState where
  replayNumTags : Nat
  replayExpectedOff : Nat
  currentPass : PassType
  curTag : Nat
  crc : Nat
  deriving DecidableEq

def zeroState : FcReplayState := ⟨0, 0, .scan, 0, 0⟩

inductive FcError where
  | efscorrupted
  | efsbadcrc
  | eopnotsupp
  | einval
  | ecanceled
  | failed
  deriving DecidableEq, Repr

/- `JBD2_FC_REPLAY_CONTINUE`, `JBD2_FC_REPLAY_STOP` or a negative number. -/
inductive FcRet where
  | more
  | stop
  | error (code : FcError)
  deriving DecidableEq, Repr

section Scan

variable (crc : Crc) (expectedTid : Nat)

/- `jbd2_chksum` over the first bytes of a record. -/
def chksum (sum : Nat) (tl : FcTl) (len : Nat) : Nat :=
  crc.crc32c sum len fun i => tl.block (tl.pos + i)

/- One record of the scan. An extent in an ADD_RANGE record has the right size, so
decoding it does not fail. -/
def scanTl (st : FcReplayState) (tl : FcTl) : FcReplayState × FcRet :=
  let counted := { st with curTag := st.curTag + 1, crc := chksum crc st.crc tl (4 + tl.len) }
  match tl.tag with
  | .addRange | .delRange | .link | .unlink | .creat | .inode | .pad => (counted, .more)
  | .tail =>
    let sum := chksum crc st.crc tl 8
    let st := { st with curTag := st.curTag + 1, crc := 0 }
    if tl.field 0 = expectedTid ∧ tl.field 4 = sum then
      ({ st with replayNumTags := st.curTag }, .more)
    else (st, if st.replayNumTags ≠ 0 then .stop else .error .efsbadcrc)
  | .head =>
    if tl.field 0 ≠ 0 then (st, .error .eopnotsupp)
    else if tl.field 4 ≠ expectedTid then (st, .error .einval)
    else (counted, .more)
  | .unknown => (st, if st.replayNumTags ≠ 0 then .stop else .error .ecanceled)

def scanTls : List FcTl → FcReplayState → FcReplayState × FcRet
  | [], st => (st, .more)
  | tl :: rest, st =>
    match scanTl crc expectedTid st tl with
    | (st, .more) => scanTls rest st
    | out => out

def scanBlock (blocksize : Nat) (st : FcReplayState) (bh : Block) (off : Nat) :
    FcReplayState × FcRet :=
  if off ≠ st.replayExpectedOff then (st, .error .efscorrupted)
  else scanTls crc expectedTid (blockTls blocksize bh)
    { st with replayExpectedOff := st.replayExpectedOff + 1 }

def ext4FcReplayScan (blocksize : Nat) (st : FcReplayState) (bh : Block) (off : Nat) :
    FcReplayState × FcRet :=
  if st.replayExpectedOff = 0 then
    if fcTag (le16 bh 0) ≠ .head then (zeroState, .stop)
    else scanBlock crc expectedTid blocksize zeroState bh off
  else scanBlock crc expectedTid blocksize st bh off

end Scan

inductive Handler where
  | linkAndCreate
  | unlink
  | addExtent
  | delRange
  | inode
  deriving DecidableEq, Repr

/-- What replay calls: the preparation (reading the bitmaps and marking the file
system), the handlers, flushing the extent list at a TAIL, and the summary at the end.
They work on a file system of any kind and may fail. -/
structure FcHandlers (σ : Type) where
  prepare : σ → σ × Option FcError
  call : Handler → σ → FcTl → σ × Option FcError
  flushExtents : σ → σ
  summary : σ → σ

/-- Replay in progress; `handed` records the calls of the handlers. -/
structure FcReplayRun (σ : Type) where
  state : FcReplayState
  fs : σ
  handed : List (Handler × FcTl)

section Replay

variable {σ : Type} (h : FcHandlers σ)

def replayDone (pass : PassType) (run : FcReplayRun σ) : FcReplayRun σ × FcRet :=
  if run.state.currentPass ≠ pass then (run, .stop)
  else ({ run with fs := h.summary run.fs }, .stop)

def callHandler (handler : Handler) (run : FcReplayRun σ) (tl : FcTl) :
    FcReplayRun σ × Option FcError :=
  let out := h.call handler run.fs tl
  ({ run with fs := out.1, handed := run.handed ++ [(handler, tl)] }, out.2)

def replayTl (run : FcReplayRun σ) (tl : FcTl) : FcReplayRun σ × Option FcError :=
  match tl.tag with
  | .creat | .link => callHandler h .linkAndCreate run tl
  | .unlink => callHandler h .unlink run tl
  | .addRange => callHandler h .addExtent run tl
  | .delRange => callHandler h .delRange run tl
  | .inode => callHandler h .inode run tl
  | .tail => ({ run with fs := h.flushExtents run.fs }, none)
  | .pad | .head => (run, none)
  | .unknown => (run, some .ecanceled)

def replayTls (pass : PassType) : List FcTl → FcReplayRun σ → FcReplayRun σ × FcRet
  | [], run => (run, .more)
  | tl :: rest, run =>
    if run.state.replayNumTags = 0 then replayDone h pass run
    else
      let st := { run.state with replayNumTags := run.state.replayNumTags - 1 }
      match replayTl h { run with state := st } tl with
      | (run, some code) => (run, .error code)
      | (run, none) => replayTls pass rest run

def ext4FcReplay (crc : Crc) (blocksize : Nat) (pass : PassType) (run : FcReplayRun σ) (bh : Block)
    (off expectedTid : Nat) : FcReplayRun σ × FcRet :=
  if pass = .scan then
    let out :=
      ext4FcReplayScan crc expectedTid blocksize { run.state with currentPass := .scan } bh off
    ({ run with state := out.1 }, out.2)
  else if run.state.replayNumTags = 0 then replayDone h pass run
  else if run.state.currentPass ≠ pass then
    match h.prepare run.fs with
    | (fs, some code) =>
      ({ run with fs := fs, state := { run.state with currentPass := pass } }, .error code)
    | (fs, none) =>
      replayTls h pass (blockTls blocksize bh)
        { run with fs := fs, state := { run.state with currentPass := pass } }
  else replayTls h pass (blockTls blocksize bh) run

/- The loop of `fc_do_one_pass`, which goes up to `j_fc_last` itself. -/
def fcLoop (crc : Crc) (j : JournalT) (blocks : Nat → Block) (pass : PassType) (expectedTid : Nat) :
    Nat → Nat → FcReplayRun σ → FcReplayRun σ × Option FcError
  | 0, _, run => (run, none)
  | fuel + 1, nextFcBlock, run =>
    if nextFcBlock ≤ j.fcLast then
      -- `jread` takes an `unsigned int` and refuses blocks behind the journal
      if nextFcBlock % 2 ^ 32 ≥ j.totalLen then (run, some .efscorrupted)
      else
        match ext4FcReplay h crc j.blocksize pass run (blocks (nextFcBlock % 2 ^ 32))
          (nextFcBlock - j.fcFirst) expectedTid with
        | (run, .error code) => (run, some code)
        | (run, .stop) => (run, none)
        | (run, .more) => fcLoop crc j blocks pass expectedTid fuel (nextFcBlock + 1) run
    else (run, none)

def fcDoOnePass (crc : Crc) (j : JournalT) (blocks : Nat → Block) (expectedTid : Nat)
    (pass : PassType) (run : FcReplayRun σ) : FcReplayRun σ × Option FcError :=
  fcLoop h crc j blocks pass expectedTid (j.fcLast + 1 - j.fcFirst) j.fcFirst run

/- The two passes of `jbd2_journal_recover`; an error in the first ends recovery. -/
def fcRecover (crc : Crc) (j : JournalT) (blocks : Nat → Block) (expectedTid : Nat) (fs : σ) :
    FcReplayRun σ × Option FcError :=
  match fcDoOnePass h crc j blocks expectedTid .scan ⟨zeroState, fs, []⟩ with
  | (run, some code) => (run, some code)
  | (run, none) => fcDoOnePass h crc j blocks expectedTid .replay run

end Replay

end E2fs.FastCommit
