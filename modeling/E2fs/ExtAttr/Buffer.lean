import E2fs.Lib.Memory

/-! Extended attributes in a buffer: `write_xattrs_to_buffer` and `read_xattrs_from_buffer` of
lib/ext2fs/ext_attr.c with the layout of ext2_ext_attr.h. Addresses count from the first entry
of the buffer. -/
namespace E2fs.ExtAttr
open Memory

def extAttrSize (size : Nat) : Nat := (size + 3) / 4 * 4

def extAttrLen (nameLen : Nat) : Nat := (nameLen + 3 + 16) / 4 * 4

/- `value_size`, an `unsigned int`. -/
def valueSize (valueLen : Nat) : Nat := (valueLen + 3) % 2 ^ 32 / 4 * 4

def bytes (s : String) : List UInt8 := s.toList.map fun c => UInt8.ofNat c.toNat

def cstr (l : List UInt8) : List UInt8 := l.takeWhile (· ≠ 0)

def eaNames : List (Nat × List UInt8) :=
  [(10, bytes "gnu."), (3, bytes "system.posix_acl_default"), (2, bytes "system.posix_acl_access"),
    (8, bytes "system.richacl"), (6, bytes "security."), (4, bytes "trusted."),
    (7, bytes "system."),
    (1, bytes "user.")]

/- `find_ea_prefix`; without one nothing is put in front. -/
def findEaPrefix (index : Nat) : List UInt8 :=
  match eaNames.find? (·.1 == index) with
  | some e => e.2
  | none => []

/-- `struct ext2_xattr`. The names are C strings; `value` has the length `value_len`. -/
structure Xattr where
  nameIndex : Nat
  name : List UInt8
  shortName : List UInt8
  value : List UInt8
  eaIno : Nat
  deriving DecidableEq, Repr

inductive Errcode where
  | eaBadNameLen
  | eaBadValueSize
  | eaBadValueOffset
  | badEaBlockNum
  | badEaHash
  | badEaHeader
  | eaInodeCorrupted
  | inodeCorrupted
  | badInode
  | extAttrCsumInvalid
  | eaNoSpace
  | filesystemCorrupted
  | blockAllocFail
  | outside
  deriving DecidableEq, Repr

/-- An inode as the reader sees it that looks for the value of an attribute there. -/
structure EaInode where
  inlineData : Bool
  eaInodeFl : Bool
  linksCount : Nat
  content : List UInt8
  hash : UInt32
  mtime : Nat
  generation : Nat

/-- The file system around an inode with attributes. There is no inode 0. -/
structure Context where
  signedChar : Bool
  eaInode : Bool
  inode : Nat → Option EaInode
  no_zero : inode 0 = none
  ino : Nat
  generation : Nat

section Hash

def hashWord (hash word : UInt32) : UInt32 := (hash <<< 16) ^^^ (hash >>> 16) ^^^ word

/- The bytes of the name are of type `char`, which is signed or not. -/
def hashChar (signed : Bool) (hash : UInt32) (c : UInt8) : UInt32 :=
  (hash <<< 5) ^^^ (hash >>> 27) ^^^
    (if signed && 128 ≤ c then c.toUInt32 ||| 0xffffff00 else c.toUInt32)

def extAttrHashEntry (signed : Bool) (m : Mem) (e data : Int) : UInt32 :=
  let hash := (readBytes m (e + 16) (load m e 1)).foldl (hashChar signed) 0
  if load m (e + 4) 4 = 0 ∧ load m (e + 8) 4 ≠ 0 then
    (List.range ((load m (e + 8) 4 + 3) % 2 ^ 32 / 4)).foldl
      (fun hash (i : Nat) => hashWord hash (UInt32.ofNat (load m (data + (4 * i : Nat)) 4))) hash
  else hash

def extAttrHashEntry2 (ctx : Context) (m : Mem) (e data : Int) : Except Errcode UInt32 :=
  let hash := extAttrHashEntry ctx.signedChar m e data
  if load m (e + 4) 4 = 0 then .ok hash
  else
    match ctx.inode (load m (e + 4) 4) with
    | none => .error .badInode
    | some inode => .ok (hashWord hash inode.hash)

end Hash

section Write

variable (ctx : Context) (valueOffsetCorrection : Nat) (writeHash : Bool)

/-- The writer between two attributes: the next entry, and the beginning of the values so far.
`values` records where values were copied to. -/
structure WriteState where
  mem : Mem
  entry : Nat
  stop : Int
  values : List (Int × Nat)

def fillEntry (m : Mem) (e : Int) (x : Xattr) : Mem :=
  let m := store m e 1 x.shortName.length
  let m := store m (e + 1) 1 x.nameIndex
  let m := store m (e + 8) 4 x.value.length
  let m := store m (e + 4) 4 x.eaIno
  writeBytes m (e + 16) (x.shortName.take (load m e 1))

def placeValue (st : WriteState) (x : Xattr) : WriteState :=
  if x.eaIno ≠ 0 then { st with mem := store st.mem (st.entry + 2) 2 0 }
  else
    let stop := st.stop - valueSize x.value.length
    let m := store st.mem (st.entry + 2) 2 ((stop + valueOffsetCorrection) % 2 ^ 16).toNat
    { st with
      mem := writeBytes m stop x.value, stop, values := st.values ++ [(stop, x.value.length)] }

def writeXattr (st : WriteState) (x : Xattr) : Except Errcode WriteState :=
  let e := st.entry
  let st := placeValue valueOffsetCorrection { st with mem := fillEntry st.mem e x } x
  match if writeHash || x.eaIno ≠ 0 then extAttrHashEntry2 ctx st.mem e st.stop else .ok 0 with
  | .error code => .error code
  | .ok hash =>
    let m := store st.mem (e + 12) 4 hash.toNat
    let next := e + extAttrLen (load m e 1)
    .ok { st with mem := store m next 4 0, entry := next }

def writeXattrs : List Xattr → WriteState → Except Errcode WriteState
  | [], st => .ok st
  | x :: attrs, st => do
    let st ← writeXattr ctx valueOffsetCorrection writeHash st x
    writeXattrs attrs st

def writeXattrsToBuffer (attrs : List Xattr) (entriesStart : Mem) (storageSize : Nat) :
    Except Errcode WriteState :=
  writeXattrs ctx valueOffsetCorrection writeHash attrs
    ⟨zero entriesStart 0 storageSize, 0, storageSize, []⟩

end Write

section Read

variable (ctx : Context) (m : Mem) (storageSize valueStart : Nat)

/- The first loop: the entries and the end of the list. -/
def findEnd : Nat → Nat → Nat → Except Errcode (List Nat × Nat)
  | 0, e, _ => .ok ([], e)
  | fuel + 1, e, remain =>
    if 16 ≤ remain ∧ load m e 4 ≠ 0 then
      let nameLen := load m e 1
      if remain - 16 < extAttrSize nameLen then .error .eaBadNameLen
      else
        match findEnd fuel (e + extAttrLen nameLen) (remain - 16 - extAttrSize nameLen) with
        | .ok (entries, stop) => .ok (e :: entries, stop)
        | .error code => .error code
    else .ok ([], e)

/- Subtraction of `unsigned int`. -/
def sub32 (a b : Nat) : Nat := if b ≤ a then a - b else 2 ^ 32 + a - b

/- The value of an entry and the space that is left. A sum that does not fit into an
`unsigned int` leads outside of the buffer. -/
def readValue (stop e remain : Nat) : Except Errcode (List UInt8 × Nat) :=
  let offs := load m (e + 2) 2
  let inum := load m (e + 4) 4
  let size := load m (e + 8) 4
  if inum = 0 then
    if remain < size then .error .eaBadValueSize
    else if storageSize + valueStart < (offs + size) % 2 ^ 32 then .error .eaBadValueOffset
    else if 0 < size ∧ offs < stop + 4 + valueStart then .error .eaBadValueOffset
    else if storageSize + valueStart < offs + size then .error .outside
    else .ok (readBytes m (offs - valueStart) size, remain - size)
  else if offs ≠ 0 then .error .eaBadValueOffset
  else if 64 * 1024 < size then .error .eaBadValueSize
  else
    match ctx.inode inum with
    | none => .error .badInode
    | some inode =>
      if inode.inlineData ∨ ¬ inode.eaInodeFl ∨ inode.linksCount = 0 then .error .eaInodeCorrupted
      else if inode.content.length ≠ size then .error .eaBadValueSize
      else .ok (inode.content, remain)

/- The check of the hash, which lets old references to inodes pass. -/
def checkHash (e : Nat) : Except Errcode Unit :=
  let inum := load m (e + 4) 4
  if load m (e + 12) 4 = 0 then .ok ()
  else do
    let hash ← extAttrHashEntry2 ctx m e ((load m (e + 2) 2 : Nat) - (valueStart : Int))
    if load m (e + 12) 4 = hash.toNat then .ok ()
    else
      match ctx.inode inum with
      | none => .error .badInode
      | some child =>
        if child.mtime ≠ ctx.ino ∨ child.generation ≠ ctx.generation then .error .badEaHash
        else .ok ()

def readXattr (stop e remain : Nat) : Except Errcode (Xattr × Nat) :=
  let nameLen := load m e 1
  let index := load m (e + 1) 1
  let remain := sub32 (remain - 16) (extAttrSize nameLen)
  let shortName := cstr (readBytes m (e + 16) nameLen)
  if ctx.eaInode = false ∧ load m (e + 4) 4 ≠ 0 then .error .badEaBlockNum
  else do
    let (value, remain) ← readValue ctx m storageSize valueStart stop e remain
    checkHash ctx m valueStart e
    .ok (⟨index, findEaPrefix index ++ shortName, shortName, value, load m (e + 4) 4⟩, remain)

/- The second loop. It can come behind the entries of the first one only when `remain` has
wrapped around, and then the next word must end the list. -/
def readXattrs (stop : Nat) : List Nat → Nat → Except Errcode (List Xattr)
  | [], remain =>
    if remain < 16 ∨ (stop + 4 ≤ storageSize ∧ load m stop 4 = 0) then .ok [] else .error .outside
  | e :: entries, remain =>
    if remain < 16 then .ok []
    else do
      let (x, remain) ← readXattr ctx m storageSize valueStart stop e remain
      let attrs ← readXattrs stop entries remain
      .ok (x :: attrs)

def readXattrsFromBuffer : Except Errcode (List Xattr) := do
  let (entries, stop) ← findEnd m storageSize 0 storageSize
  readXattrs ctx m storageSize valueStart stop entries storageSize

end Read

end E2fs.ExtAttr
