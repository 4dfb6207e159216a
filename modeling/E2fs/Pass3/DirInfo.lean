import E2fs.Lib.SortedTable

/-! The table of directories of e2fsck, dirinfo.c: an array sorted by inode number. -/
namespace E2fs.Pass3
open SortedTable List Option Nat

structure DirInfo where
  ino : Nat
  dotdot : Nat
  parent : Nat
  deriving DecidableEq

structure Db where
  array : List DirInfo
  lastLookup : Option Nat

section Table

def inoAt (db : Db) (i : Nat) : Option Nat := (db.array[i]?).map DirInfo.ino

/- The indices are 32 bits wide, and so is their sum. -/
def search (array : List DirInfo) (ino : Nat) : Nat → Nat → Nat → Option Nat
  | 0, _, _ => none
  | fuel + 1, low, high =>
    if low < high then
      let mid := (low + high) % 2 ^ 32 / 2
      if mid = low ∨ mid = high then none
      else
        match array[mid]? with
        | none => none
        | some dir =>
          if ino = dir.ino then some mid
          else if ino < dir.ino then search array ino fuel low mid
          else search array ino fuel mid high
    else none

def getDirInfo (db : Db) (ino : Nat) : Option Nat :=
  match db.lastLookup with
  | some i => if inoAt db i = some ino then some i else find
  | none => find
where
  find : Option Nat :=
    let high := db.array.length - 1
    if inoAt db 0 = some ino then some 0
    else if inoAt db high = some ino then some high
    else search db.array ino db.array.length 0 high

def info (db : Db) (ino : Nat) : Option DirInfo := (getDirInfo db ino).bind fun i => db.array[i]?

def dirInfoGetParent (db : Db) (ino : Nat) : Option Nat := (info db ino).map DirInfo.parent

def dirInfoGetDotdot (db : Db) (ino : Nat) : Option Nat := (info db ino).map DirInfo.dotdot

def change (f : DirInfo → DirInfo) (db : Db) (ino : Nat) : Db :=
  match getDirInfo db ino with
  | none => db
  | some i => { db with array := db.array.modify i f }

def dirInfoSetParent (db : Db) (ino parent : Nat) : Db :=
  change (fun dir => { dir with parent := parent }) db ino

def dirInfoSetDotdot (db : Db) (ino dotdot : Nat) : Db :=
  change (fun dir => { dir with dotdot := dotdot }) db ino

/- Where a row that is not the last one goes: down from the last row to the first that is not
smaller. -/
def place (array : List DirInfo) (ino : Nat) : Nat → Nat
  | 0 => 0
  | i + 1 => if (array[i]?).any (·.ino < ino) then i + 1 else place array ino i

/- If the array was moved when it grew, `last_lookup` is forgotten. -/
def addDirInfo (moved : Bool) (db : Db) (ino parent : Nat) : Db :=
  let dir : DirInfo := ⟨ino, parent, parent⟩
  let lastLookup := if moved then none else db.lastLookup
  if (db.array.getLast?).any (·.ino ≥ ino) then
    let i := place db.array ino (db.array.length - 1)
    if inoAt db i = some ino then ⟨db.array.set i dir, lastLookup⟩
    else ⟨db.array.take i ++ dir :: db.array.drop i, lastLookup⟩
  else ⟨db.array ++ [dir], lastLookup⟩

end Table

section Spec

variable {db : Db} {ino : Nat}

/-- Sorted, and few enough rows for the sum of two indices. -/
structure WellFormed (db : Db) : Prop where
  sorted : Sorted DirInfo.ino db.array
  few : db.array.length ≤ 2 ^ 31

def entry (db : Db) (ino : Nat) : Option DirInfo := row DirInfo.ino db.array ino

variable {i : Nat} {dir : DirInfo}

theorem WellFormed.entry_at (wf : WellFormed db) (at_ : db.array[i]? = some dir) :
    entry db dir.ino = some dir := wf.sorted.row_get at_

theorem entry_ino (is : entry db ino = some dir) : dir.ino = ino := by
  have := find?_some is
  simpa using this

theorem entry_index (is : entry db ino = some dir) : ∃ i : Nat, db.array[i]? = some dir :=
  getElem?_of_mem (mem_of_find?_eq_some is)

theorem search_none (wf : WellFormed db) (fuel low high : Nat) (enough : high - low ≤ fuel)
    (within : high < db.array.length) (between : ∀ (i : Nat) (dir : DirInfo),
      db.array[i]? = some dir → dir.ino = ino → low < i ∧ i < high)
    (none_ : search db.array ino fuel low high = none) :
    ∀ (i : Nat) (dir : DirInfo), db.array[i]? = some dir → dir.ino ≠ ino := by
  induction fuel generalizing low high with
  | zero =>
    intro i dir at_ is
    have := between i dir at_ is
    omega
  | succ fuel ih =>
    intro i dir at_ is
    obtain ⟨above, below⟩ := between i dir at_ is
    have few := wf.few
    rw [search, if_pos (by omega)] at none_
    have mid : (low + high) % 2 ^ 32 / 2 = (low + high) / 2 := by
      rw [mod_eq_of_lt (by omega)]
    simp only [mid] at none_
    rw [if_neg (by omega)] at none_
    have lt : (low + high) / 2 < db.array.length := by omega
    rw [getElem?_eq_getElem lt] at none_
    have here := getElem?_eq_getElem lt
    generalize db.array[(low + high) / 2] = middle at none_ here
    dsimp only at none_
    split at none_
    · cases none_
    rename_i other
    split_ifs at none_ with less
    · refine ih low _ (by omega) (by omega) (fun j d atj isj => ?_) none_ i dir at_ is
      refine ⟨(between j d atj isj).1, ?_⟩
      by_contra behind
      have := wf.sorted.le_of_le (not_lt.mp behind) here atj
      omega
    · refine ih _ high (by omega) within (fun j d atj isj => ?_) none_ i dir at_ is
      refine ⟨?_, (between j d atj isj).2⟩
      by_contra before
      have := wf.sorted.le_of_le (not_lt.mp before) atj here
      omega

theorem search_some {fuel low high : Nat} (found : search db.array ino fuel low high = some i) :
    inoAt db i = some ino := by
  induction fuel generalizing low high with
  | zero => cases found
  | succ fuel ih =>
    rw [search] at found
    dsimp only at found
    split at found
    · split at found
      · cases found
      split at found
      · cases found
      rename_i dir at_
      split at found
      · rename_i is
        cases found
        rw [inoAt, at_, is]
        rfl
      · split at found
        · exact ih found
        · exact ih found
    · cases found

theorem getDirInfo_some (found : getDirInfo db ino = some i) : inoAt db i = some ino := by
  have direct : ∀ i, getDirInfo.find db ino = some i → inoAt db i = some ino := by
    intro i found
    rw [getDirInfo.find] at found
    split at found
    · cases found
      assumption
    · split at found
      · cases found
        assumption
      · exact search_some found
  rw [getDirInfo] at found
  split at found
  · split at found
    · cases found
      assumption
    · exact direct i found
  · exact direct i found

theorem getDirInfo_none (wf : WellFormed db) (none_ : getDirInfo db ino = none) :
    entry db ino = none := by
  have direct : getDirInfo.find db ino = none := by
    rw [getDirInfo] at none_
    split at none_
    · split at none_
      · cases none_
      · exact none_
    · exact none_
  rw [getDirInfo.find] at direct
  split at direct
  · cases direct
  rename_i notFirst
  split at direct
  · cases direct
  rename_i notLast
  have absent : ∀ (i : Nat) (dir : DirInfo), db.array[i]? = some dir → dir.ino ≠ ino := by
    rcases Nat.eq_zero_or_pos db.array.length with empty | some_
    · intro i dir at_
      rw [length_eq_zero_iff.mp empty] at at_
      cases at_
    · refine search_none wf _ 0 _ (by omega) (by omega) (fun i dir at_ is => ?_) direct
      have lt := (List.getElem?_eq_some_iff.mp at_).1
      have here : inoAt db i = some ino := by rw [inoAt, at_, ← is]; rfl
      have low : i ≠ 0 := fun same => notFirst (same ▸ here)
      have high : i ≠ db.array.length - 1 := fun same => notLast (same ▸ here)
      omega
  refine row_eq_none.mpr fun dir mem => ?_
  obtain ⟨i, at_⟩ := getElem?_of_mem mem
  exact absent i dir at_

theorem getDirInfo_cases (wf : WellFormed db) (ino : Nat) :
    getDirInfo db ino = none ∧ entry db ino = none ∨
      ∃ i dir, getDirInfo db ino = some i ∧ db.array[i]? = some dir ∧ dir.ino = ino ∧
      entry db ino = some dir := by
  rcases found : getDirInfo db ino with _ | i
  · exact .inl ⟨rfl, getDirInfo_none wf found⟩
  obtain ⟨dir, at_, is⟩ := map_eq_some_iff.mp (getDirInfo_some found)
  exact .inr ⟨i, dir, rfl, at_, is, is ▸ wf.entry_at at_⟩

theorem info_eq (wf : WellFormed db) (ino : Nat) : info db ino = entry db ino := by
  rcases getDirInfo_cases wf ino with ⟨none_, is⟩ | ⟨i, dir, found, at_, -, is⟩
  · rw [info, none_, is]
    rfl
  · rw [info, found, is]
    exact at_

theorem change_spec {f : DirInfo → DirInfo} (wf : WellFormed db)
    (keeps : ∀ dir, (f dir).ino = dir.ino) (ino : Nat) :
    WellFormed (change f db ino) ∧ (change f db ino).array.length = db.array.length ∧
      (∀ i, inoAt (change f db ino) i = inoAt db i) ∧
      ∀ d, entry (change f db ino) d = if d = ino then (entry db d).map f else entry db d := by
  rcases getDirInfo_cases wf ino with ⟨none_, is⟩ | ⟨i, dir, found, at_, rfl, is⟩
  · have same : change f db ino = db := by rw [change, none_]
    rw [same]
    refine ⟨wf, rfl, fun _ => rfl, fun d => ?_⟩
    split_ifs with same
    · rw [same, is]
      rfl
    · rfl
  have modified : change f db dir.ino = { db with array := db.array.set i (f dir) } := by
    rw [change, found]
    dsimp only
    rw [modify_eq_set_getElem?, at_]
    rfl
  rw [modified]
  obtain ⟨sorted, rows⟩ := wf.sorted.set at_ (keeps dir)
  refine ⟨⟨sorted, by simpa using wf.few⟩, length_set, fun j => ?_, fun d => ?_⟩
  · rw [inoAt, inoAt]
    by_cases same : i = j
    · subst same
      have lt := (List.getElem?_eq_some_iff.mp at_).1
      rw [getElem?_set_self lt, at_, map_some, map_some, keeps]
    · rw [getElem?_set_ne same]
  · refine (rows d).trans ?_
    split_ifs with same
    · rw [same, is]
      rfl
    · rfl

theorem place_spec (sorted : Sorted DirInfo.ino db.array) {n : Nat} {last : DirInfo}
    (at_ : db.array[n]? = some last)
    (le : ino ≤ last.ino) : ∃ dir, db.array[place db.array ino n]? = some dir ∧ ino ≤ dir.ino ∧
      ∀ j < place db.array ino n, ∀ d, db.array[j]? = some d → d.ino < ino := by
  induction n generalizing last with
  | zero => exact ⟨last, at_, le, nofun⟩
  | succ n ih =>
    have lt : n < db.array.length := by
      have := (List.getElem?_eq_some_iff.mp at_).1
      omega
    have before := getElem?_eq_getElem lt
    generalize db.array[n] = dir at before
    rw [place, before]
    by_cases small : dir.ino < ino
    · rw [if_pos (by simpa using small)]
      refine ⟨last, at_, le, fun j ltj d atj => ?_⟩
      exact (sorted.le_of_le (le_of_lt_succ ltj) atj before).trans_lt small
    · rw [if_neg (by simpa using small)]
      exact ih before (by omega)

/-- The table with a row for a number. No row moves to the front. -/
structure Added (db : Db) (dir : DirInfo) (db' : Db) : Prop where
  wf : WellFormed db'
  length : db'.array.length ≤ db.array.length + 1
  later : ∀ j d, inoAt db j = some d → ∃ j', j ≤ j' ∧ inoAt db' j' = some d
  entry : ∀ d, entry db' d = if d = dir.ino then some dir else entry db d

theorem added_at (wf : WellFormed db) (room : db.array.length < 2 ^ 31)
    (place : Place DirInfo.ino db.array dir.ino i)
    (lastLookup : Option Nat) :
    Added db dir ⟨db.array.take i ++ dir :: db.array.drop i, lastLookup⟩ := by
  obtain ⟨sorted, rows⟩ := wf.sorted.insert place
  have take := length_take_of_le place.le
  have length : (db.array.take i ++ dir :: db.array.drop i).length = db.array.length + 1 :=
    length_put place.le
  refine ⟨⟨sorted, length.trans_le room⟩, length.le, fun j d at' => ?_, rows⟩
  by_cases early : j < i
  · refine ⟨j, le_refl _, ?_⟩
    rw [inoAt, getElem?_append_left (by omega), getElem?_take, if_pos early]
    exact at'
  · refine ⟨j + 1, le_succ j, ?_⟩
    rw [inoAt, getElem?_append_right (by omega), take, show j + 1 - i = (j - i) + 1 by omega,
      getElem?_cons_succ, getElem?_drop, show i + (j - i) = j by omega]
    exact at'

theorem addDirInfo_spec (wf : WellFormed db) (room : db.array.length < 2 ^ 31) (moved : Bool)
    (ino parent : Nat) : Added db ⟨ino, parent, parent⟩ (addDirInfo moved db ino parent) := by
  rw [addDirInfo]
  dsimp only
  split
  · rename_i behind
    rcases is : db.array.getLast? with _ | last
    · simp [is] at behind
    have le : ino ≤ last.ino := by simpa [is] using behind
    have at_ : db.array[db.array.length - 1]? = some last := by rw [← getLast?_eq_getElem?, is]
    obtain ⟨dir, here, above, below⟩ := place_spec wf.sorted at_ le
    generalize place db.array ino (db.array.length - 1) = i at here below
    have lt := (List.getElem?_eq_some_iff.mp here).1
    split
    · rename_i same
      have ino_ : dir.ino = ino := by simpa [inoAt, here] using same
      obtain ⟨sorted, rows⟩ := wf.sorted.set here (b := ⟨ino, parent, parent⟩) ino_.symm
      refine ⟨⟨sorted, by simpa using wf.few⟩, by simp, fun j d at' => ⟨j, le_refl _, ?_⟩,
        fun d => ?_⟩
      · rw [inoAt] at at' ⊢
        by_cases other : i = j
        · subst other
          rw [here] at at'
          simpa [lt, ino_] using at'
        · simpa [getElem?_set_ne other] using at'
      · exact ino_ ▸ rows d
    · rename_i different
      have strict : ino < dir.ino := by
        rcases lt_or_ge ino dir.ino with lt' | ge
        · exact lt'
        · exact absurd (by rw [inoAt, here, map_some, show dir.ino = ino by omega]) different
      exact added_at wf room ⟨lt.le, fun j d atj lt => below j lt d atj,
        fun j d atj ge => strict.trans_le (wf.sorted.le_of_le ge here atj)⟩ _
  · rename_i last
    have place := Place.end (wf.sorted.lt_of_last (k := ino) fun dir is => by simpa [is] using last)
    have behind := @added_at db _ ⟨ino, parent, parent⟩ wf room place
    simpa only [take_length, drop_length] using behind _

end Spec

end E2fs.Pass3
