import E2fs.Lib.Word
import E2fs.ExtAttr.Handle

/-! Changing the attributes of an inode: `ext2fs_xattr_get`, `ext2fs_xattr_set` and
`ext2fs_xattr_remove` of lib/ext2fs/ext_attr.c, in raw mode and on a file system without
the ea_inode feature. -/
namespace E2fs.ExtAttr
open Memory Word

def CString : Type := { s : List UInt8 // 0 ∉ s }

def findEaIndex (fullname : List UInt8) : List UInt8 × Nat :=
  match eaNames.find? fun e => e.2.isPrefixOf fullname with
  | some e => (fullname.drop e.2.length, e.1)
  | none => (fullname, 0)

def xattrGet (h : Handle) (key : List UInt8) : Option (List UInt8) :=
  (h.attrs.find? (·.name = key)).map (·.value)

/- `memcmp` of strings of one length, not greater. -/
def memcmpLe : List UInt8 → List UInt8 → Bool
  | a :: s, b :: t => if a < b then true else if b < a then false else memcmpLe s t
  | _, _ => true

def xattrFindPosition (attrs : List Xattr) (shortname : List UInt8) (nameIdx : Nat) : Nat :=
  attrs.findIdx fun x =>
    if nameIdx < x.nameIndex then true
    else if x.nameIndex < nameIdx then false
    else if shortname.length < x.shortName.length then true
    else if x.shortName.length < shortname.length then false
    else memcmpLe shortname x.shortName

/- `xattr_update_entry` for an entry that has a name. The length becomes an `unsigned int`. -/
def xattrUpdateEntry (x : Xattr) (index : Nat) (value : List UInt8) : Xattr :=
  { x with nameIndex := index, value := value.take (value.length % 2 ^ 32), eaIno := 0 }

def spaceUsed (attrs : List Xattr) : Int :=
  (attrs.map fun x => (extAttrLen x.shortName.length : Int) +
    if x.eaIno ≠ 0 then 0 else (extAttrSize x.value.length : Int)).sum

def givesBack (nameLen : Nat) (old : Xattr) : Int :=
  (extAttrLen nameLen : Int) + if old.eaIno ≠ 0 then 0 else (extAttrSize old.value.length : Int)

def addNew (h : Handle) (name value : List UInt8) (newIdx : Nat) (addToIbody : Bool) : Handle :=
  let (shortname, nameIdx) := findEaIndex name
  let x := xattrUpdateEntry ⟨nameIdx, name, shortname, [], 0⟩ nameIdx value
  ⟨h.attrs.insertIdx newIdx x, if addToIbody then h.ibodyCount + 1 else h.ibodyCount⟩

/- `xattr_array_update`. What is needed is an `int`. -/
def xattrArrayUpdate (h : Handle) (name value : List UInt8) (ibodyFree blockFree : Int)
    (oldIdx : Option Nat) : Except Errcode Handle :=
  let (shortname, nameIdx) := findEaIndex name
  let needed : Int := toInt32 (extAttrLen shortname.length + extAttrSize value.length)
  match oldIdx with
  | none =>
    if needed ≤ ibodyFree then .ok (addNew h name value h.ibodyCount true)
    else if blockFree < needed then .error .eaNoSpace
    else
      let block := h.attrs.drop h.ibodyCount
      .ok (addNew h name value (xattrFindPosition block shortname nameIdx + h.ibodyCount) false)
  | some i =>
    match h.attrs[i]? with
    | none => .error .filesystemCorrupted
    | some old =>
      let back := givesBack shortname.length old
      let x := xattrUpdateEntry old nameIdx value
      if i < h.ibodyCount then
        if needed ≤ ibodyFree + back then .ok ⟨h.attrs.set i x, h.ibodyCount⟩
        else if blockFree < needed then .error .eaNoSpace
        else
          -- from the inode to the block, where the entries are sorted
          let block := h.attrs.drop h.ibodyCount
          let newIdx := xattrFindPosition block shortname nameIdx + h.ibodyCount - 1
          .ok ⟨(h.attrs.eraseIdx i).insertIdx newIdx x, h.ibodyCount - 1⟩
      else if needed ≤ ibodyFree then
        -- from the block to the end of those in the inode
        .ok ⟨(h.attrs.eraseIdx i).insertIdx h.ibodyCount x, h.ibodyCount + 1⟩
      else if blockFree + back < needed then .error .eaNoSpace
      else .ok ⟨h.attrs.set i x, h.ibodyCount⟩

section Calls

variable (fs : EaFs) (alloc : Option fs.FreeBlock)

/- The space in the inode that is free, with the fields that a write would add. -/
def ibodyFree (d : Disk) (h : Handle) : Int :=
  if 128 < fs.inodeSize then
    let inode := readInodeFull fs d
    let extra := if extraIsize inode = 0 then
        (if fs.wantExtraIsize = 0 then 4 else fs.wantExtraIsize) else extraIsize inode
    fs.inodeSize - 128 - extra - 4 * 2 - spaceUsed (h.attrs.take h.ibodyCount)
  else 0

def blockFree (h : Handle) : Int := fs.blocksize - 32 - 4 - spaceUsed (h.attrs.drop h.ibodyCount)

def systemData : List UInt8 := bytes "system.data"

/- The handle that is to be written; `none` when nothing changes. -/
def xattrSetHandle (d : Disk) (h : Handle) (name value : List UInt8) :
    Except Errcode (Option Handle) :=
  let oldIdx := h.attrs.findIdx? (·.name = name)
  let same := (h.attrs.find? (·.name = name)).any fun x => x.eaIno = 0 ∧ x.value = value
  if same then .ok none
  else if name = systemData then
    -- inline data can only go to the inode
    if oldIdx.any (h.ibodyCount ≤ ·) then .error .filesystemCorrupted
    else (xattrArrayUpdate h name value (ibodyFree fs d h) 0 oldIdx).map some
  else (xattrArrayUpdate h name value (ibodyFree fs d h) (blockFree fs h) oldIdx).map some

def xattrSet (d : Disk) (h : Handle) (name value : List UInt8) : Except Errcode (Disk × Handle) :=
  match xattrSetHandle fs d h name value with
  | .error code => .error code
  | .ok none => .ok (d, h)
  | .ok (some h') =>
    match xattrsWrite fs alloc d h' with
    | .error code => .error code
    | .ok (d', _) => .ok (d', h')

def xattrRemove (d : Disk) (h : Handle) (key : List UInt8) : Except Errcode (Disk × Handle) :=
  match h.attrs.findIdx? (·.name = key) with
  | none => .ok (d, h)
  | some i =>
    let h' :
      Handle := ⟨h.attrs.eraseIdx i, if i < h.ibodyCount then h.ibodyCount - 1 else h.ibodyCount⟩
    match xattrsWrite fs alloc d h' with
    | .error code => .error code
    | .ok (d', _) => .ok (d', h')

end Calls

inductive Op where
  | set (name : CString) (value : List UInt8)
  | remove (key : CString)

def step (fs : EaFs) (alloc : Option fs.FreeBlock) (st : Disk × Handle) : Op →
    Except Errcode (Disk × Handle)
  | .set name value => xattrSet fs alloc st.1 st.2 name.1 value
  | .remove key => xattrRemove fs alloc st.1 st.2 key.1

def runOps (fs : EaFs) (st : Disk × Handle) : List (Op × Option fs.FreeBlock) →
    Except Errcode (Disk × Handle)
  | [] => .ok st
  | (op, alloc) :: ops => do
    let st ← step fs alloc st op
    runOps fs st ops

end E2fs.ExtAttr
