import Mathlib.Data.List.InsertIdx
import E2fs.ExtAttr.HandleSound
import E2fs.ExtAttr.Update

/-! What an update does to the two parts of a handle: one entry is new, one may be gone, and
both parts still have room. -/
namespace E2fs.ExtAttr
open Memory Word List Option

section Names

theorem findEaPrefix_of_mem {e : Nat × List UInt8} (mem : e ∈ eaNames) :
    findEaPrefix e.1 = e.2 := by
  revert e
  decide

theorem findEaIndex_spec {name : List UInt8} (clean : 0 ∉ name) :
    name = findEaPrefix (findEaIndex name).2 ++ (findEaIndex name).1 ∧
      (findEaIndex name).2 < 256 ∧ 0 ∉ (findEaIndex name).1 := by
  unfold findEaIndex
  split
  · rename_i e found
    have mem := mem_of_find?_eq_some found
    have starts : e.2.isPrefixOf name = true := by simpa using find?_some found
    obtain ⟨rest, rfl⟩ := isPrefixOf_iff_prefix.mp starts
    have small : ∀ e ∈ eaNames, e.1 < 256 := by decide
    rw [findEaPrefix_of_mem mem, drop_left]
    exact ⟨rfl, small e mem, fun bad => clean (mem_append_right _ bad)⟩
  · exact ⟨rfl, by simp, clean⟩

end Names

section Sizes

theorem sizes_perm {xs ys : List Xattr} {x : Xattr} (perm : xs.Perm (x :: ys)) :
    entriesSize xs = x.entrySize + entriesSize ys ∧ valuesSize xs = x.room + valuesSize ys := by
  exact ⟨(perm.map _).sum_eq, (perm.map _).sum_eq⟩

theorem spaceUsed_eq (xs : List Xattr) : spaceUsed xs = (entriesSize xs + valuesSize xs : Nat) := by
  induction xs with
  | nil => rfl
  | cons x xs ih =>
    rw [spaceUsed] at ih ⊢
    rw [map_cons, sum_cons, ih, entriesSize_cons, valuesSize_cons, Xattr.entrySize, Xattr.room]
    split <;> push_cast <;> ring

end Sizes

section Lists

variable {α : Type}

theorem insertIdx_append_right (a b : List α) (k : Nat) (x : α) :
    (a ++ b).insertIdx (a.length + k) x = a ++ b.insertIdx k x := by
  induction a with
  | nil => simp
  | cons y a ih =>
    rw [length_cons, show a.length + 1 + k = (a.length + k) + 1 by omega, cons_append,
      insertIdx_succ_cons, ih, cons_append]

end Lists

def xattrFor (name value : List UInt8) : Xattr :=
  ⟨(findEaIndex name).2, name, (findEaIndex name).1, value, 0⟩

/-- An attribute of a handle that calls have built. -/
structure Xattr.Plain (fs : EaFs) (x : Xattr) : Prop where
  split : x = xattrFor x.name x.value
  clean : 0 ∉ x.name
  short : x.shortName.length < 256
  shown : x.name = [] → x.value = [] → fs.blocksize < 2 ^ 16

/- What becomes of the two parts: an entry `x` goes to one of them, and an old one of the
same name, if there is one, is taken out. -/
inductive Updated (x : Xattr) (needed ibodyFree blockFree : Int) (ib bl ib' bl' : List Xattr) : Prop
  | newIbody (fits : needed ≤ ibodyFree) (ibody : ib'.Perm (x :: ib)) (block : bl' = bl)
      (fresh : ∀ y ∈ ib ++ bl, y.name ≠ x.name)
  | newBlock (fits : needed ≤ blockFree) (ibody : ib' = ib) (block : bl'.Perm (x :: bl))
      (fresh : ∀ y ∈ ib ++ bl, y.name ≠ x.name)
  | inIbody (old : Xattr) (rest : List Xattr) (name : old.name = x.name)
      (fits : needed ≤ ibodyFree + givesBack x.shortName.length old)
      (before : ib.Perm (old :: rest)) (ibody : ib'.Perm (x :: rest)) (block : bl' = bl)
  | toBlock (old : Xattr) (name : old.name = x.name) (fits : needed ≤ blockFree)
      (before : ib.Perm (old :: ib')) (block : bl'.Perm (x :: bl))
  | toIbody (old : Xattr) (name : old.name = x.name) (fits : needed ≤ ibodyFree)
      (before : bl.Perm (old :: bl')) (ibody : ib'.Perm (x :: ib))
  | inBlock (old : Xattr) (rest : List Xattr) (name : old.name = x.name)
      (fits : needed ≤ blockFree + givesBack x.shortName.length old)
      (before : bl.Perm (old :: rest)) (block : bl'.Perm (x :: rest)) (ibody : ib' = ib)

section ArrayUpdate

variable {fs : EaFs} {ib bl : List Xattr} {name value : List UInt8} {free free' : Int} {h' : Handle}

theorem xattrFindPosition_le (attrs : List Xattr) (shortname : List UInt8) (nameIdx : Nat) :
    xattrFindPosition attrs shortname nameIdx ≤ attrs.length := findIdx_le_length

theorem updateEntry_eq {old : Xattr} (plain : old.Plain fs) (same : old.name = name)
    (small : value.length < 2 ^ 30) :
    xattrUpdateEntry old (findEaIndex name).2 value = xattrFor name value := by
  rw [xattrUpdateEntry, Nat.mod_eq_of_lt (by omega), take_length, plain.split, same]
  rfl

theorem addNew_eq (h : Handle) (newIdx : Nat) (addToIbody : Bool) (small : value.length < 2 ^ 30) :
    addNew h name value newIdx addToIbody = ⟨h.attrs.insertIdx newIdx (xattrFor name value),
      if addToIbody then h.ibodyCount + 1 else h.ibodyCount⟩ := by
  unfold addNew xattrUpdateEntry
  simp only [Nat.mod_eq_of_lt (show value.length < 2 ^ 32 by omega), take_length]
  rfl

theorem xattrArrayUpdate_cases (plain : ∀ x ∈ ib ++ bl, x.Plain fs) (small : value.length < 2 ^ 30)
    (ok : xattrArrayUpdate ⟨ib ++ bl, ib.length⟩ name value free free'
      ((ib ++ bl).findIdx? (·.name = name)) = .ok h') : ∃ ib' bl', h' = ⟨ib' ++ bl', ib'.length⟩ ∧
      Updated (xattrFor name value)
      (toInt32 (extAttrLen (findEaIndex name).1.length + extAttrSize value.length))
        free free' ib bl ib' bl' := by
  unfold xattrArrayUpdate at ok
  have position := xattrFindPosition_le bl (findEaIndex name).1 (findEaIndex name).2
  cases found : (ib ++ bl).findIdx? (·.name = name) with
  | none =>
    have fresh : ∀ y ∈ ib ++ bl, y.name ≠ name := fun y mem => by
      simpa using findIdx?_eq_none_iff.mp found y mem
    rw [found] at ok
    dsimp only at ok
    split at ok
    · rename_i fits
      cases ok
      rw [addNew_eq _ _ _ small]
      refine ⟨ib ++ [xattrFor name value], bl, ?_, .newIbody fits perm_append_comm rfl fresh⟩
      have insert := insertIdx_append_right ib bl 0 (xattrFor name value)
      rw [add_zero, insertIdx_zero] at insert
      simp [insert]
    · split at ok
      · cases ok
      rename_i fits
      cases ok
      rw [addNew_eq _ _ _ small, drop_left]
      refine ⟨ib, _, ?_, .newBlock (not_lt.mp fits) rfl (perm_insertIdx _ _ position) fresh⟩
      rw [add_comm, insertIdx_append_right]
      rfl
  | some i =>
    obtain ⟨lt, same, -⟩ := findIdx?_eq_some_iff_getElem.mp found
    have same : (ib ++ bl)[i].name = name := by simpa using same
    have known := plain _ (getElem_mem lt)
    rw [found] at ok
    dsimp only at ok
    rw [getElem?_eq_getElem lt] at ok
    dsimp only at ok
    rw [updateEntry_eq known same small] at ok
    split at ok
    · rename_i inside
      have old : (ib ++ bl)[i] = ib[i] := getElem_append_left inside
      rw [old] at same ok
      have taken := (getElem_cons_eraseIdx_perm inside).symm
      split at ok
      · rename_i fits
        cases ok
        refine ⟨_, bl, ?_, .inIbody _ _ same fits taken (set_perm_cons_eraseIdx inside _) rfl⟩
        rw [set_append, if_pos inside, length_set]
      · split at ok
        · cases ok
        rename_i fits
        cases ok
        rw [drop_left]
        have length := length_eraseIdx_of_lt inside
        refine ⟨_, _, ?_, .toBlock _ same (not_lt.mp fits) taken (perm_insertIdx _ _ position)⟩
        rw [eraseIdx_append_of_lt_length inside, ← insertIdx_append_right, length]
        congr 2
        omega
    · rename_i outside
      have inside : i - ib.length < bl.length := by
        rw [length_append] at lt
        omega
      have old : (ib ++ bl)[i] = bl[i - ib.length] := getElem_append_right (by omega)
      rw [old] at same ok
      have taken := (getElem_cons_eraseIdx_perm inside).symm
      split at ok
      · rename_i fits
        cases ok
        refine ⟨ib ++ [xattrFor name value], _, ?_, .toIbody _ same fits taken perm_append_comm⟩
        have insert :=
          insertIdx_append_right ib (bl.eraseIdx (i - ib.length)) 0 (xattrFor name value)
        rw [add_zero, insertIdx_zero] at insert
        rw [eraseIdx_append_of_length_le (by omega), insert]
        simp
      · split at ok
        · cases ok
        rename_i fits
        cases ok
        refine ⟨ib, _, ?_,
          .inBlock _ _ same (not_lt.mp fits) taken (set_perm_cons_eraseIdx inside _) rfl⟩
        rw [set_append, if_neg outside]

end ArrayUpdate

section Lookup

def valueOf (attrs : List Xattr) (key : List UInt8) : Option (List UInt8) :=
  (attrs.find? (·.name = key)).map (·.value)

theorem valueOf_cons (x : Xattr) (attrs : List Xattr) (key : List UInt8) :
    valueOf (x :: attrs) key = if x.name = key then some x.value else valueOf attrs key := by
  unfold valueOf
  by_cases same : x.name = key <;> simp [same]

variable {attrs : List Xattr}

theorem valueOf_eq_some_iff (names : (attrs.map (·.name)).Nodup) {key value : List UInt8} :
    valueOf attrs key = some value ↔ ∃ x ∈ attrs, x.name = key ∧ x.value = value := by
  induction attrs with
  | nil => simp [valueOf]
  | cons y attrs ih =>
    rw [map_cons, nodup_cons] at names
    rw [valueOf_cons, exists_mem_cons_iff]
    by_cases same : y.name = key
    · rw [if_pos same, some_inj, and_iff_right same, or_iff_left]
      rintro ⟨x, mem, name, -⟩
      exact names.1 (mem_map.mpr ⟨x, mem, name.trans same.symm⟩)
    · rw [if_neg same, ih names.2, or_iff_right fun found => same found.1]

theorem valueOf_perm {attrs' : List Xattr} (perm : attrs'.Perm attrs)
    (names : (attrs.map (·.name)).Nodup) (key : List UInt8) :
    valueOf attrs' key = valueOf attrs key := by
  have names' : (attrs'.map (·.name)).Nodup := (perm.map _).nodup_iff.mpr names
  apply ext
  intro value
  simp only [valueOf_eq_some_iff names', valueOf_eq_some_iff names, perm.mem_iff]

theorem valueOf_of_fresh {key : List UInt8} (fresh : ∀ x ∈ attrs, x.name ≠ key) :
    valueOf attrs key = none := by
  rw [valueOf, map_eq_none_iff, find?_eq_none]
  intro x mem
  simpa using fresh x mem

end Lookup

section Kept

variable {fs : EaFs} {d : Disk} {ib bl ib' bl' : List Xattr}

/-- The state between two calls: attributes with different names, in two parts with room for
them. -/
structure Kept (fs : EaFs) (d : Disk) (ib bl : List Xattr) : Prop where
  plain : ∀ x ∈ ib ++ bl, x.Plain fs
  names : ((ib ++ bl).map (·.name)).Nodup
  ibody : ib ≠ [] → ¬ noSpace fs (setExtraIsize fs (readInodeFull fs d)) ∧
    entriesSize ib + valuesSize ib + 4 ≤ ibodySize fs (setExtraIsize fs (readInodeFull fs d))
  block : entriesSize bl + valuesSize bl + 4 ≤ fs.blocksize - 32

theorem Updated.perm {x : Xattr} {needed free free' : Int}
    (updated : Updated x needed free free' ib bl ib' bl') :
    ∃ others, (ib' ++ bl').Perm (x :: others) ∧
    (((ib ++ bl).Perm others ∧ ∀ y ∈ others, y.name ≠ x.name) ∨
        ∃ old, old.name = x.name ∧ (ib ++ bl).Perm (old :: others)) := by
  cases updated with
  | newIbody fits ibody block fresh =>
    subst block
    exact ⟨ib ++ bl', ibody.append_right bl', .inl ⟨Perm.refl _, fresh⟩⟩
  | newBlock fits ibody block fresh =>
    subst ibody
    exact ⟨ib' ++ bl, (block.append_left ib').trans perm_middle, .inl ⟨Perm.refl _, fresh⟩⟩
  | inIbody old rest name fits before ibody block =>
    subst block
    exact ⟨rest ++ bl', ibody.append_right bl', .inr ⟨old, name, before.append_right bl'⟩⟩
  | toBlock old name fits before block =>
    exact ⟨ib' ++ bl, (block.append_left ib').trans perm_middle,
      .inr ⟨old, name, before.append_right bl⟩⟩
  | toIbody old name fits before ibody =>
    exact ⟨ib ++ bl', ibody.append_right bl',
      .inr ⟨old, name, (before.append_left ib).trans perm_middle⟩⟩
  | inBlock old rest name fits before block ibody =>
    subst ibody
    exact ⟨ib' ++ rest, (block.append_left ib').trans perm_middle,
      .inr ⟨old, name, (before.append_left ib').trans perm_middle⟩⟩

theorem Updated.values {x : Xattr} {needed free free' : Int}
    (updated : Updated x needed free free' ib bl ib' bl') (plain : ∀ y ∈ ib ++ bl, y.Plain fs)
    (names : ((ib ++ bl).map (·.name)).Nodup) (own : x.Plain fs) :
    (∀ y ∈ ib' ++ bl', y.Plain fs) ∧ ((ib' ++ bl').map (·.name)).Nodup ∧
    ∀ key, valueOf (ib' ++ bl') key =
        if x.name = key then some x.value else valueOf (ib ++ bl) key := by
  obtain ⟨others, perm, before⟩ := updated.perm
  have fresh : ∀ y ∈ others, y.name ≠ x.name := by
    rcases before with ⟨-, fresh⟩ | ⟨old, same, before⟩
    · exact fresh
    · rw [(before.map _).nodup_iff, map_cons, nodup_cons] at names
      intro y mem name
      exact names.1 (mem_map.mpr ⟨y, mem, name.trans same.symm⟩)
  have some_of : ∀ y ∈ others, y ∈ ib ++ bl := by
    rcases before with ⟨before, -⟩ | ⟨old, -, before⟩
    · exact fun y mem => before.mem_iff.mpr mem
    · exact fun y mem => before.mem_iff.mpr (mem_cons_of_mem _ mem)
  have names' : ((x :: others).map (·.name)).Nodup := by
    rw [map_cons, nodup_cons]
    refine ⟨fun mem => ?_, ?_⟩
    · obtain ⟨y, mem, name⟩ := mem_map.mp mem
      exact fresh y mem name
    · rcases before with ⟨before, -⟩ | ⟨old, -, before⟩
      · exact (before.map _).nodup_iff.mp names
      · rw [(before.map _).nodup_iff, map_cons, nodup_cons] at names
        exact names.2
  refine ⟨fun y mem => ?_, (perm.map _).nodup_iff.mpr names', fun key => ?_⟩
  · rcases mem_cons.mp (perm.mem_iff.mp mem) with rfl | mem
    · exact own
    · exact plain y (some_of y mem)
  · rw [valueOf_perm perm names', valueOf_cons]
    split_ifs with other
    · rfl
    · rcases before with ⟨before, -⟩ | ⟨old, same, before⟩
      · rw [valueOf_perm before.symm names]
      · rw [valueOf_perm before ((before.map _).nodup_iff.mp names), valueOf_cons,
          if_neg (same ▸ other)]

end Kept

end E2fs.ExtAttr
