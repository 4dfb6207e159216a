import E2fs.Lib.Run
import E2fs.Lib.SortedTable
import E2fs.Lib.Word

/-! Inode link counts, `icount.c`: one or two bitmaps with a sorted list, or a full map. A call that
uses an index outside an array has no result. -/
namespace E2fs.LinkCount
open Word

structure El where
  ino : Nat
  count : Nat

/- `struct ext2_icount`. `list` has the elements in use, `count` of them in an array of `size`;
`last_lookup` is the index of the element it points to. -/
structure Icount where
  single : Nat → Bool
  multiple : Option (Nat → Bool)
  size : Nat
  numInodes : Nat
  cursor : Nat
  list : List El
  lastLookup : Option Nat
  fullmap : Option (List Nat)

def Icount.count (icount : Icount) : Nat := icount.list.length

inductive Errcode where
  | invalidArgument
  | noMemory
  deriving DecidableEq, Repr

def icount16Xlate (x : Nat) : Nat := if 65500 < x then 65500 else x

section List

/- The estimate of how many elements will be needed is made in a `float`. -/
variable (estimate : Nat → Nat → Nat → Nat)

def newSize (icount : Icount) : Nat :=
  let new := match icount.list.getLast? with
    | none => 0
    | some el => estimate icount.count icount.numInodes el.ino % 2 ^ 32
  if new < (icount.size + 100) % 2 ^ 32 then (icount.size + 100) % 2 ^ 32 else new

def makeRoom (icount : Icount) : Icount :=
  if icount.size ≤ icount.count then { icount with size := newSize estimate icount } else icount

def putEl (icount : Icount) (ino : Nat) (pos : Int) : Option (Icount × Option Nat) :=
  if toInt32 icount.count - pos < 0 then some (icount, none)
  else if pos < 0 ∨ icount.size ≤ icount.count then none
  else
    let list := icount.list.take pos.toNat ++ ⟨ino, 0⟩ :: icount.list.drop pos.toNat
    some ({ icount with list := list, lastLookup := some pos.toNat }, some pos.toNat)

def insertIcountEl (icount : Icount) (ino : Nat) (pos : Int) : Option (Icount × Option Nat) :=
  match icount.lastLookup with
  | none => putEl (makeRoom estimate icount) ino pos
  | some i => (icount.list[i]?).bind fun el =>
    if el.ino = ino then some (icount, some i) else putEl (makeRoom estimate icount) ino pos

inductive Found where
  | el (mid : Nat)
  | nowhere (low : Int)

def search (list : List El) (ino : Nat) : Nat → Int → Int → Option Found
  | 0, _, _ => none
  | fuel + 1, low, high =>
    if low ≤ high then
      let mid := (low.toNat + high.toNat) / 2
      (list[mid]?).bind fun el =>
        if ino = el.ino then some (.el mid)
        else if ino < el.ino then search list ino fuel low (mid - 1)
        else search list ino fuel (mid + 1) high
    else some (.nowhere low)

def isPastEnd (icount : Icount) (ino : Nat) : Bool :=
  match icount.list.getLast? with
  | none => true
  | some el => el.ino < ino

/- Behind the cursor the element is searched for, and created where the search ended. -/
def searchIcountEl (icount : Icount) (ino : Nat) (create : Bool) : Option (Icount × Option Nat) :=
  (search icount.list ino (icount.count + 1) 0 (toInt32 icount.count - 1)).bind fun
    | .el mid => some ({ icount with cursor := mid + 1 }, some mid)
    | .nowhere low => if create then insertIcountEl estimate icount ino low else some (icount, none)

def getIcountEl (icount : Icount) (ino : Nat) (create : Bool) : Option (Icount × Option Nat) :=
  if create && isPastEnd icount ino then insertIcountEl estimate icount ino (toInt32 icount.count)
  else if icount.count = 0 then some (icount, none)
  else
    let cursor := if icount.count ≤ icount.cursor then 0 else icount.cursor
    (icount.list[cursor]?).bind fun el =>
      if ino = el.ino then some ({ icount with cursor := cursor + 1 }, some cursor)
      else searchIcountEl estimate { icount with cursor := cursor } ino create

def setEl (icount : Icount) (i count : Nat) : Option Icount :=
  (icount.list[i]?).map fun el =>
    { icount with list := icount.list.set i { el with count := count } }

def setInodeCount (icount : Icount) (ino count : Nat) : Option (Icount × Except Errcode Unit) :=
  match icount.fullmap with
  | some map =>
    if ino < map.length then
      some ({ icount with fullmap := some (map.set ino (icount16Xlate count)) }, .ok ())
    else none
  | none => (getIcountEl estimate icount ino true).bind fun
    | (icount, none) => some (icount, .error .noMemory)
    | (icount, some i) => (setEl icount i count).map fun icount => (icount, .ok ())

def getInodeCount (icount : Icount) (ino : Nat) : Option (Icount × Nat) :=
  match icount.fullmap with
  | some map => (map[ino]?).map fun count => (icount, count)
  | none => (getIcountEl estimate icount ino false).bind fun
    | (icount, none) => some (icount, 0)
    | (icount, some i) => (icount.list[i]?).map fun el => (icount, el.count)

end List

section Calls

variable (estimate : Nat → Nat → Nat → Nat)

def mark (bitmap : Nat → Bool) (ino : Nat) (bit : Bool) : Nat → Bool :=
  Function.update bitmap ino bit

def markSingle (icount : Icount) (ino : Nat) (bit : Bool) : Icount :=
  { icount with single := mark icount.single ino bit }

def markMultiple (icount : Icount) (ino : Nat) (bit : Bool) : Icount :=
  { icount with multiple := icount.multiple.map fun bitmap => mark bitmap ino bit }

/- What a call returns: an error, or the value it stores through its pointer. -/
abbrev Result := Except Errcode (Option Nat)

def icountFetch (icount : Icount) (ino : Nat) : Option (Icount × Result) :=
  if ino = 0 ∨ icount.numInodes < ino then some (icount, .error .invalidArgument)
  else if icount.fullmap.isNone && icount.single ino then some (icount, .ok (some 1))
  else if icount.fullmap.isNone && (icount.multiple.any fun bitmap => !bitmap ino) then
    some (icount, .ok (some 0))
  else (getInodeCount estimate icount ino).map fun (icount, val) =>
    (icount, .ok (some (icount16Xlate val)))

def incrementTo (icount : Icount) (ino currValue : Nat) : Option (Icount × Result) :=
  (setInodeCount estimate icount ino currValue).map fun
    | (icount, .error _) => (icount, .error .noMemory)
    | (icount, .ok ()) => (markMultiple icount ino true, .ok (some (icount16Xlate currValue)))

def icountIncrement (icount : Icount) (ino : Nat) : Option (Icount × Result) :=
  if ino = 0 ∨ icount.numInodes < ino then some (icount, .error .invalidArgument)
  else
    match icount.fullmap with
    | some map => (map[ino]?).map fun count =>
      ({ icount with fullmap := some (map.set ino (icount16Xlate (count + 1))) },
        .ok (some (icount16Xlate (icount16Xlate (count + 1)))))
    | none =>
      if icount.single ino then
        (setInodeCount estimate icount ino 2).map fun
          | (icount, .error _) => (icount, .error .noMemory)
          | (icount, .ok ()) => (markMultiple (markSingle icount ino false) ino true, .ok (some 2))
      else if icount.multiple.any fun bitmap => !bitmap ino then
        some (markSingle icount ino true, .ok (some 1))
      else (getInodeCount estimate icount ino).bind fun (icount, currValue) =>
        incrementTo estimate icount ino (currValue + 1)

def decrementTo (icount : Icount) (ino currValue : Nat) : Option (Icount × Result) :=
  (setInodeCount estimate icount ino currValue).map fun
    | (icount, .error _) => (icount, .error .noMemory)
    | (icount, .ok ()) =>
      let icount := if currValue = 1 then markSingle icount ino true else icount
      (if currValue = 0 then markMultiple icount ino false else icount,
        .ok (some (icount16Xlate currValue)))

def setZero (icount : Icount) (ino : Nat) : Option Icount :=
  if icount.multiple.isSome then some (markMultiple icount ino false)
  else (setInodeCount estimate icount ino 0).map Prod.fst

def icountDecrement (icount : Icount) (ino : Nat) : Option (Icount × Result) :=
  if ino = 0 ∨ icount.numInodes < ino then some (icount, .error .invalidArgument)
  else
    match icount.fullmap with
    | some map => (map[ino]?).map fun count =>
      if count = 0 then (icount, .error .invalidArgument)
      else ({ icount with fullmap := some (map.set ino (count - 1)) },
        .ok (some (icount16Xlate (count - 1))))
    | none =>
      if icount.single ino then
        (setZero estimate (markSingle icount ino false) ino).map fun icount =>
          (icount, .ok (some 0))
      else if icount.multiple.any fun bitmap =>
        !bitmap ino then some (icount, .error .invalidArgument)
      else (getInodeCount estimate icount ino).bind fun (icount, currValue) =>
        if currValue = 0 then some (icount, .error .invalidArgument)
        else decrementTo estimate icount ino (currValue - 1)

def icountStore (icount : Icount) (ino count : Nat) : Option (Icount × Result) :=
  if ino = 0 ∨ icount.numInodes < ino then some (icount, .error .invalidArgument)
  else if icount.fullmap.isSome then
    (setInodeCount estimate icount ino count).map fun (icount, result) =>
      (icount, result.map fun _ => none)
  else if count = 1 then some (markMultiple (markSingle icount ino true) ino false, .ok none)
  else if count = 0 then
    (setZero estimate (markSingle icount ino false) ino).map fun icount => (icount, .ok none)
  else (setInodeCount estimate icount ino count).map fun
    | (icount, .error _) => (icount, .error .noMemory)
    | (icount, .ok ()) => (markMultiple (markSingle icount ino false) ino true, .ok none)

inductive Op where
  | store (ino count : Nat)
  | increment (ino : Nat)
  | decrement (ino : Nat)
  | fetch (ino : Nat)
  deriving DecidableEq, Repr

def Op.ino : Op → Nat
  | .store ino _ | .increment ino | .decrement ino | .fetch ino => ino

def call (icount : Icount) : Op → Option (Icount × Result)
  | .store ino count => icountStore estimate icount ino count
  | .increment ino => icountIncrement estimate icount ino
  | .decrement ino => icountDecrement estimate icount ino
  | .fetch ino => icountFetch estimate icount ino

def step (icount : Icount) (op : Op) : Icount × Option Result :=
  match call estimate icount op with
  | some (icount', result) => (icount', some result)
  | none => (icount, none)

end Calls

/- `EXT2_ICOUNT_OPT_INCREMENT` adds the second bitmap, with `EXT2_ICOUNT_OPT_FULLMAP` there is only
the map. -/
inductive Rep where
  | bitmap
  | bitmaps
  | fullmap
  deriving DecidableEq, Repr

/- `ext2fs_create_icount2`; the list starts with the inodes of the hint. The size of the full map is
computed in an `unsigned`, in bytes. -/
def createIcount2 (rep : Rep) (numInodes size : Nat) (hint : List Nat) : Icount :=
  let none_ := fun _ => false
  match rep with
  | .bitmap => ⟨none_, none, size, numInodes, 0, hint.map fun ino => ⟨ino, 0⟩, none, none⟩
  | .bitmaps => ⟨none_, some none_, size, numInodes, 0, hint.map fun ino => ⟨ino, 0⟩, none, none⟩
  | .fullmap =>
    ⟨none_, none, 0, numInodes, 0, [], none, some (List.replicate (2 * numInodes % 2 ^ 32 / 2) 0)⟩

end E2fs.LinkCount
