import E2fs.Lib.Device
import E2fs.Lib.Run

/-! Open files, `fileio.c`: one block of the file is buffered, with the physical block it belongs
to; reads, writes and truncation go through the buffer or behind it. -/
namespace E2fs.FileIo
open Device List Function

section Hashmap

/- `hashmap.c`: buckets, with the newest entry first. -/
structure Hashmap where
  signedChar : Bool
  size : Nat
  entries : Nat → List (List UInt8 × Nat)

def djb2Hash (signed : Bool) (key : List UInt8) : UInt32 :=
  key.foldl (fun hash c => (hash <<< 5) + hash +
    (if signed && 128 ≤ c then c.toUInt32 + 0xFFFFFF00 else c.toUInt32)) 5381

def Hashmap.bucket (h : Hashmap) (key : List UInt8) : Nat :=
  (djb2Hash h.signedChar key).toNat % h.size

def hashmapAdd (h : Hashmap) (key : List UInt8) (data : Nat) : Hashmap :=
  { h with
    entries := Function.update h.entries (h.bucket key) ((key, data) :: h.entries (h.bucket key)) }

def hashmapLookup (h : Hashmap) (key : List UInt8) : Option Nat :=
  (h.entries (h.bucket key)).lookup key

def hashmapCreate (signedChar : Bool) : Hashmap := ⟨signedChar, 4096, fun _ => []⟩

theorem lookup_add (h : Hashmap) (key key' : List UInt8) (data : Nat) :
    hashmapLookup (hashmapAdd h key data) key' = if key' = key then some data
    else hashmapLookup h key' := by
  change (update h.entries (h.bucket key) ((key, data) :: h.entries (h.bucket key))
    (h.bucket key')).lookup key' = _
  by_cases own : key' = key
  · rw [if_pos own, own, update_self, lookup_cons_self]
  rw [if_neg own]
  by_cases bucket : h.bucket key' = h.bucket key
  · rw [bucket, update_self, lookup_cons, beq_eq_false_iff_ne.mpr own, hashmapLookup, bucket]
  · rw [update_of_ne bucket, hashmapLookup]

end Hashmap

section Map

/- What `ext2fs_bmap2` finds for a block: where it is, and whether it was never written. -/
structure Mapped where
  phys : Nat
  uninit : Bool
  deriving DecidableEq, Repr

abbrev BlockMap := List (Nat × Mapped)

def BlockMap.set (map : BlockMap) (block : Nat) (m : Mapped) : BlockMap :=
  (block, m) :: map.filter fun e => e.1 ≠ block

def BlockMap.cut (map : BlockMap) (start : Nat) : BlockMap := map.filter fun e => e.1 < start

variable {map : BlockMap} {block other start : Nat} {m : Mapped}

theorem lookup_filter (p : Nat → Bool) (map : BlockMap) (block : Nat) :
    (map.filter fun e => p e.1).lookup block = if p block then map.lookup block else none := by
  induction map with
  | nil => exact (ite_self none).symm
  | cons e map ih =>
    obtain ⟨key, m⟩ := e
    rw [filter_cons, lookup_cons]
    by_cases own : block = key
    · rw [own] at ih ⊢
      by_cases keep : p key = true
      · rw [if_pos keep, lookup_cons_self, if_pos keep, beq_self_eq_true]
      · rw [if_neg keep, ih, if_neg keep, if_neg keep]
    · have apart := beq_eq_false_iff_ne.mpr own
      rw [apart]
      by_cases keep : p key = true
      · rw [if_pos keep, lookup_cons, apart, ih]
      · rw [if_neg keep, ih]

@[simp] theorem lookup_set_same : (map.set block m).lookup block = some m := lookup_cons_self

theorem lookup_set_other (apart : other ≠ block) :
    (map.set block m).lookup other = map.lookup other := by
  rw [BlockMap.set, lookup_cons, beq_eq_false_iff_ne.mpr apart,
    lookup_filter fun key => decide (key ≠ block)]
  exact if_pos (decide_eq_true apart)

theorem lookup_cut : (map.cut start).lookup block = if block < start then map.lookup block
    else none := by
  rw [BlockMap.cut, lookup_filter fun key => decide (key < start)]
  simp only [decide_eq_true_eq]

end Map

/- Which blocks the allocator takes: one for the data and some for the tree that maps it. Blocks of
the tree are also taken when a block is set, and given back when the file is cut. With bigalloc a
block of a cluster in use can be taken for the data; that is left out. -/
structure Allocator where
  pick : (Nat → Bool) → BlockMap → Nat → Option (Nat × List Nat)
  nodes : (Nat → Bool) → BlockMap → Nat → List Nat
  drop : (Nat → Bool) → BlockMap → Nat → List Nat
  pick_free : ∀ used map block b tree, pick used map block = some (b, tree) → b ≠ 0 ∧ used b = false
  drop_apart : ∀ used map start p, p ∈ drop used map start → ∀ block m, map.lookup block = some m →
    m.phys ≠ p

structure Env where
  alloc : Allocator
  sha512 : List UInt8 → List UInt8

structure Filsys where
  blocksize : Nat
  blocks : Nat → Content
  used : Nat → Bool
  shareDup : Bool
  blockShaMap : Hashmap

/- `struct ext2_file`, with what is needed of its inode. -/
structure File where
  map : BlockMap
  extents : Bool
  size : Nat
  pos : Nat
  blockno : Nat
  physblock : Nat
  buf : Content
  valid : Bool
  dirty : Bool

/-- A block that was written, and what was mapped at its place in the file then. -/
structure Write where
  blockno : Nat
  phys : Nat
  mapped : Option Mapped

structure State where
  fs : Filsys
  file : File
  writes : List Write

section Bmap

variable (env : Env) (s : State)

def tooBig (block : Nat) : Bool :=
  let perBlock := s.fs.blocksize / 4
  2 ^ 32 - 1 ≤ block ∨ s.file.extents = false ∧
    perBlock + perBlock * perBlock + perBlock * perBlock * perBlock + 12 ≤ block

/- `ext2fs_bmap2` without flags. -/
def bmapGet (block : Nat) : Option (Nat × Bool) :=
  if tooBig s block then none
  else some (match s.file.map.lookup block with
    | some m => (m.phys, m.uninit)
    | none => (0, false))

/- With `BMAP_SET`. -/
def bmapSet (block phys : Nat) : Option State :=
  if tooBig s block then none
  else
    let tree := env.alloc.nodes s.fs.used s.file.map block
    some { s with
      fs := { s.fs with used := fun p => s.fs.used p || tree.contains p }
      file := { s.file with map := s.file.map.set block ⟨phys, false⟩, physblock := phys } }

/- With `BMAP_ALLOC`: a new block is zeroed. -/
def bmapAlloc (block : Nat) : Option State :=
  if tooBig s block then none
  else match s.file.map.lookup block with
    | some m => some { s with file := { s.file with physblock := m.phys } }
    | none => (env.alloc.pick s.fs.used s.file.map block).map fun (b, tree) =>
      { s with
        fs := { s.fs with
          used := fun p => s.fs.used p || p == b || tree.contains p
          blocks := Function.update s.fs.blocks b zeros }
        file := { s.file with map := s.file.map.set block ⟨b, false⟩, physblock := b } }

/- `ext2fs_punch` to the end of the file. -/
def punch (start : Nat) : State :=
  let gone := (s.file.map.filter fun e => start ≤ e.1).filterMap fun e =>
    (s.file.map.lookup e.1).map Mapped.phys
  let tree := env.alloc.drop s.fs.used s.file.map start
  { s with
    fs := { s.fs with used := fun p => s.fs.used p && !gone.contains p && !tree.contains p }
    file := { s.file with map := s.file.map.cut start } }

def writeBlk (blockno phys : Nat) (content : Content) : State :=
  { s with
    fs := { s.fs with blocks := Function.update s.fs.blocks phys content }
    writes := s.writes ++ [⟨blockno, phys, s.file.map.lookup blockno⟩] }

end Bmap

section Calls

variable (env : Env) (s : State)

def initBlock : Option State :=
  if s.file.physblock ≠ 0 ∧ s.file.extents then
    (bmapGet s s.file.blockno).bind fun found =>
      if found.2 then bmapSet env s s.file.blockno s.file.physblock else some s
  else some s

def allocBlock : Option State :=
  if s.file.physblock = 0 then bmapAlloc env s s.file.blockno else some s

def writeBuffer : State :=
  let s := writeBlk s s.file.blockno s.file.physblock s.file.buf
  { s with file := { s.file with dirty := false } }

def fileFlush : Option State :=
  if s.file.valid ∧ s.file.dirty then ((initBlock env s).bind (allocBlock env)).map writeBuffer
    else some s

def syncBufferPosition : Option State :=
  let b := s.file.pos / s.fs.blocksize
  if b ≠ s.file.blockno then
    (fileFlush env s).map fun s => { s with file := { s.file with valid := false, blockno := b } }
  else some s

/- With `dontfill` the buffer keeps what it has. -/
def loadBuffer (dontfill : Bool) : Option State :=
  if s.file.valid then some s
  else (bmapGet s s.file.blockno).map fun (phys, uninit) =>
    { s with file := { s.file with
      physblock := phys
      buf := if dontfill then s.file.buf else if phys ≠ 0 ∧ uninit = false then s.fs.blocks phys
        else zeros
      valid := true } }

def advance (c : Nat) : State := { s with file := { s.file with pos := s.file.pos + c } }

end Calls

def readLoop (env : Env) : Nat → State → Nat → Option (State × List UInt8)
  | 0, s, _ => some (s, [])
  | fuel + 1, s, wanted =>
    if s.file.pos < s.file.size ∧ 0 < wanted then
      ((syncBufferPosition env s).bind fun s => loadBuffer s false).bind fun s =>
        let start := s.file.pos % s.fs.blocksize
        let c := min (min (s.fs.blocksize - start) wanted) (s.file.size - s.file.pos)
        (readLoop env fuel (advance s c) (wanted - c)).map fun (s', rest) =>
          (s', bytesAt s.file.buf start c ++ rest)
    else some (s, [])

def fileRead (env : Env) (s : State) (wanted : Nat) : Option (State × List UInt8) :=
  readLoop env wanted s wanted

section Write

variable (env : Env) (s : State)

def zeroPastOffset (offset : Nat) : Option State :=
  let off := offset % s.fs.blocksize
  if off = 0 then some s
  else (syncBufferPosition env s).bind fun s =>
    (bmapGet s (offset / s.fs.blocksize)).map fun (blk, uninit) =>
      if blk = 0 ∨ uninit then s
      else writeBlk s (offset / s.fs.blocksize) blk
        (patch (s.fs.blocks blk) off (s.fs.blocksize - off) zeros)

def fileSetSize2 (size : Nat) : Option State :=
  if size ≠ 0 ∧ tooBig s ((size - 1) / s.fs.blocksize) then none
  else
    let truncateBlock := (size + s.fs.blocksize - 1) / s.fs.blocksize
    let oldTruncate := (s.file.size + s.fs.blocksize - 1) / s.fs.blocksize
    (zeroPastOffset env { s with file := { s.file with size := size } } size).map fun s =>
      if oldTruncate ≤ truncateBlock then s else punch env s truncateBlock

def fillBuffer (start : Nat) (data : List UInt8) : State :=
  { s with file := { s.file with
    dirty := true, buf := patch s.file.buf start data.length fun j => data.getD j 0 } }

/- With `EXT2_FLAG_SHARE_DUP` a block with the same content is taken, if there is one. -/
def chooseBlock : Option State :=
  if s.file.physblock ≠ 0 then some s
  else if s.fs.shareDup then
    let sha := env.sha512 (bytesAt s.file.buf 0 s.fs.blocksize)
    match hashmapLookup s.fs.blockShaMap sha with
    | some old => bmapSet env s s.file.blockno old
    | none => (bmapAlloc env s s.file.blockno).map fun s =>
      { s with fs := { s.fs with blockShaMap := hashmapAdd s.fs.blockShaMap sha s.file.physblock } }
  else bmapAlloc env s s.file.blockno

end Write

def writeLoop (env : Env) : Nat → State → List UInt8 → Option State
  | 0, s, _ => some s
  | fuel + 1, s, data =>
    if data = [] then some s
    else (syncBufferPosition env s).bind fun s =>
      let start := s.file.pos % s.fs.blocksize
      let c := min (s.fs.blocksize - start) data.length
      (loadBuffer s (c = s.fs.blocksize)).bind fun s =>
          (chooseBlock env (fillBuffer s start (data.take c))).bind fun s =>
        writeLoop env fuel (advance s c) (data.drop c)

def fileWrite (env : Env) (s : State) (data : List UInt8) : Option State :=
  (writeLoop env data.length s data).bind fun s =>
    if data ≠ [] ∧ s.file.size < s.file.pos then fileSetSize2 env s s.file.pos else some s

inductive Whence where
  | set
  | cur
  | end_
  deriving DecidableEq, Repr

def fileLlseek (s : State) (whence : Whence) (offset : Nat) : State :=
  let pos := match whence with
    | .set => offset % 2 ^ 64
    | .cur => (s.file.pos + offset) % 2 ^ 64
    | .end_ => (s.file.size + offset) % 2 ^ 64
  { s with file := { s.file with pos := pos } }

def openFile (map : BlockMap) (extents : Bool) (size : Nat) : File :=
  ⟨map, extents, size, 0, 0, 0, zeros, false, false⟩

def fileReopen (env : Env) (s : State) : Option State :=
  (fileFlush env s).map fun s => { s with file := openFile s.file.map s.file.extents s.file.size }

end E2fs.FileIo
