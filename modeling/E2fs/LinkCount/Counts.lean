import E2fs.LinkCount.Icount

/-! The counts that the bitmaps, the list and the full map stand for. Looking for an element keeps
the list sorted and the counts as they are; setting one changes one count. -/
namespace E2fs.LinkCount
open SortedTable Word List Option

section List

variable {icount icount' : Icount} {ino p q : Nat} {l : List El}

def listCount (l : List El) (ino : Nat) : Nat := ((row El.ino l ino).map El.count).getD 0

/-- A sorted list inside its array, and a pointer to an element of it. -/
structure Good (icount : Icount) : Prop where
  sorted : Sorted El.ino icount.list
  room : icount.count ≤ icount.size
  last : ∀ i, icount.lastLookup = some i → i < icount.count

structure Kept (icount icount' : Icount) : Prop where
  single : icount'.single = icount.single
  multiple : icount'.multiple = icount.multiple
  numInodes : icount'.numInodes = icount.numInodes
  fullmap : icount'.fullmap = icount.fullmap

theorem Kept.refl (icount : Icount) : Kept icount icount := ⟨rfl, rfl, rfl, rfl⟩

theorem Kept.trans {icount'' : Icount} (first : Kept icount icount')
    (second : Kept icount' icount'') : Kept icount icount'' :=
  ⟨second.single.trans first.single, second.multiple.trans first.multiple,
    second.numInodes.trans first.numInodes, second.fullmap.trans first.fullmap⟩

/- The sum of the indices is unsigned. -/
theorem search_eq (fuel : Nat) (low high : Int) : search l ino fuel low high =
    SortedTable.search El.ino l ino (fun low high => some ((low.toNat + high.toNat) / 2)) .el
      .nowhere fuel low high := by
  induction fuel generalizing low high with
  | zero => rfl
  | succ fuel ih =>
    rw [search, SortedTable.search, bind_some]
    simp only [ih]

structure Got (icount : Icount) (ino : Nat) (create : Bool) (icount' : Icount)
    (found : Option Nat) : Prop where
  good : Good icount'
  kept : Kept icount icount'
  counts : ∀ k, listCount icount'.list k = listCount icount.list k
  same : create = false → icount'.list = icount.list
  el : ∀ i, found = some i → ∃ el, icount'.list[i]? = some el ∧ el.ino = ino
  absent : found = none → create = false ∧ row El.ino icount.list ino = none

variable (estimate : Nat → Nat → Nat → Nat)

section

variable (good : Good icount) (small : icount.count < 2 ^ 31)
include good small

theorem makeRoom_good :
    let icount' := makeRoom estimate icount
    Good icount' ∧ Kept icount icount' ∧ icount'.list = icount.list ∧
        icount.count < icount'.size := by
  have room := good.room
  rw [makeRoom]
  split
  · have wide : icount.size + 100 ≤ newSize estimate icount := by
      have fits : (icount.size + 100) % 2 ^ 32 = icount.size + 100 := Nat.mod_eq_of_lt (by omega)
      have atLeast : ∀ n, icount.size + 100 ≤ if n < icount.size + 100 then icount.size + 100
          else n := by
        intro n
        split <;> omega
      rw [newSize, fits]
      exact atLeast _
    exact ⟨⟨good.sorted, show icount.count ≤ newSize estimate icount by omega, good.last⟩,
      ⟨rfl, rfl, rfl, rfl⟩, rfl, show icount.count < newSize estimate icount by omega⟩
  · exact ⟨good, Kept.refl icount, rfl, by omega⟩

theorem putEl_got (room : icount.count < icount.size)
    (place : Place El.ino icount.list ino p) :
    ∃ icount' found, putEl icount ino p = some (icount', found) ∧
      Got icount ino true icount' found := by
  have le : p ≤ icount.count := place.le
  rw [putEl, toInt32_eq small, if_neg (by omega), if_neg (by omega), Int.toNat_natCast]
  have sorted := (good.sorted.insert (a := ⟨ino, 0⟩) place).1
  have length : (icount.list.take p ++ (⟨ino, 0⟩ : El) :: icount.list.drop p).length =
    icount.count + 1 := length_put le
  refine ⟨_, _, rfl, ⟨sorted, ?_, ?_⟩, ⟨rfl, rfl, rfl, rfl⟩,
    good.sorted.counted_put El.count place rfl, nofun, ?_, nofun⟩
  · exact length.le.trans (by exact room)
  · rintro i is
    cases is
    exact (Nat.lt_succ_of_le le).trans_eq length.symm
  · rintro i is
    cases is
    exact ⟨⟨ino, 0⟩, get_put le, rfl⟩

theorem insertIcountEl_got (place : Place El.ino icount.list ino p) :
    ∃ icount' found, insertIcountEl estimate icount ino p = some (icount', found) ∧
    Got icount ino true icount' found := by
  obtain ⟨goodRoom, kept, list, room⟩ := makeRoom_good estimate good small
  have count :
    (makeRoom estimate icount).count = icount.count := by rw [Icount.count, list, Icount.count]
  have place' : Place El.ino (makeRoom estimate icount).list ino p := by rwa [list]
  obtain ⟨icount', found, is, got⟩ := putEl_got goodRoom (by rwa [count]) (by rwa [count]) place'
  have got' : Got icount ino true icount' found :=
    ⟨got.good, kept.trans got.kept, list ▸ got.counts, nofun, got.el,
      fun none => absurd (got.absent none).1 (by simp)⟩
  rw [insertIcountEl]
  rcases last : icount.lastLookup with _ | i
  · exact ⟨icount', found, is, got'⟩
  obtain ⟨el, at_⟩ :
    ∃ el, icount.list[i]? = some el := ⟨_, List.getElem?_eq_getElem (good.last i last)⟩
  dsimp only
  rw [at_, bind_some]
  by_cases own : el.ino = ino
  · rw [if_pos own]
    refine ⟨icount, some i, rfl, good, Kept.refl _, fun _ => rfl, nofun, ?_, nofun⟩
    rintro k same
    cases same
    exact ⟨_, at_, own⟩
  · rw [if_neg own]
    exact ⟨icount', found, is, got'⟩

end

theorem searchIcountEl_got (ino : Nat) (good : Good icount) (small : icount.count < 2 ^ 31)
    (create : Bool) :
    ∃ icount' found, searchIcountEl estimate icount ino create = some (icount', found) ∧
      Got icount ino create icount' found := by
  obtain ⟨found, is, right⟩ :=
    good.sorted.search_spec (m := fun low high => some ((low.toNat + high.toNat) / 2))
    Found.el Found.nowhere ino fun _ _ _ _ => rfl
  rw [searchIcountEl, toInt32_eq small, search_eq]
  rw [Icount.count, is, bind_some]
  rcases right with ⟨mid, el, rfl, at_, own⟩ | ⟨p, rfl, place⟩
  · refine ⟨_, _, rfl, { good with }, ⟨rfl, rfl, rfl, rfl⟩, fun _ => rfl, fun _ => rfl, ?_, nofun⟩
    rintro i same
    cases same
    exact ⟨el, at_, own⟩
  · cases create with
    | true => exact insertIcountEl_got estimate good small place
    | false =>
      exact ⟨icount, none, rfl, good, Kept.refl _, fun _ => rfl, fun _ => rfl, nofun,
        fun _ => ⟨rfl, place.absent⟩⟩

theorem isPastEnd_place (good : Good icount) (past : isPastEnd icount ino = true) :
    Place El.ino icount.list ino icount.count := by
  refine Place.end (good.sorted.lt_of_last fun el last => ?_)
  simpa [isPastEnd, last] using past

theorem getIcountEl_got (ino : Nat) (good : Good icount) (small : icount.count < 2 ^ 31)
    (create : Bool) :
    ∃ icount' found, getIcountEl estimate icount ino create = some (icount', found) ∧
      Got icount ino create icount' found := by
  rw [getIcountEl]
  by_cases append : (create && isPastEnd icount ino) = true
  · obtain ⟨rfl, past⟩ := Bool.and_eq_true_iff.mp append
    rw [if_pos append, toInt32_eq small]
    exact insertIcountEl_got estimate good small (isPastEnd_place good past)
  rw [if_neg append]
  by_cases empty : icount.count = 0
  · have nil := eq_nil_of_length_eq_zero empty
    have search : create = false := by
      cases create with
      | false => rfl
      | true => exact absurd (by rw [isPastEnd, nil]; rfl) append
    rw [if_pos empty]
    refine ⟨icount, none, rfl, good, Kept.refl _, fun _ => rfl, fun _ => rfl, nofun,
      fun _ => ⟨search, ?_⟩⟩
    rw [nil]
    rfl
  rw [if_neg empty]
  have inside : (if icount.count ≤ icount.cursor then 0 else icount.cursor) < icount.count := by
    split <;> omega
  generalize (if icount.count ≤ icount.cursor then 0 else icount.cursor) = cursor at inside
  have at_ := List.getElem?_eq_getElem inside
  dsimp only
  rw [at_, bind_some]
  by_cases own : ino = icount.list[cursor].ino
  · rw [if_pos own]
    refine ⟨_, _, rfl, { good with }, ⟨rfl, rfl, rfl, rfl⟩, fun _ => rfl, fun _ => rfl, ?_, nofun⟩
    rintro i same
    cases same
    exact ⟨_, at_, own.symm⟩
  · rw [if_neg own]
    have moved : Good { icount with cursor := cursor } := { good with }
    obtain ⟨icount', found, is, got⟩ := searchIcountEl_got estimate ino moved small create
    exact ⟨icount', found, is, got.good, { got.kept with }, got.counts, got.same, got.el,
      got.absent⟩

/- A count is set in the list, with an element for it if there was none. -/
theorem setInodeCount_list (good : Good icount) (small : icount.count < 2 ^ 31)
    (list : icount.fullmap = none)
    (ino count : Nat) :
    ∃ icount', setInodeCount estimate icount ino count = some (icount', .ok ()) ∧ Good icount' ∧
      Kept icount icount' ∧ ∀ k, listCount icount'.list k = if k = ino then count
      else listCount icount.list k := by
  obtain ⟨icount1, found, is, got⟩ := getIcountEl_got estimate ino good small true
  simp only [setInodeCount, list, is, bind_some]
  rcases found with _ | i
  · exact absurd (got.absent rfl).1 (by simp)
  obtain ⟨el, at_, own⟩ := got.el i rfl
  have sorted := (got.good.sorted.set (b := { el with count := count }) at_ rfl).1
  have length : (icount1.list.set i { el with count := count }).length = icount1.list.length :=
    length_set ..
  have set : setEl icount1 i count = some { icount1 with
      list := icount1.list.set i { el with count := count } } := by
    rw [setEl, at_, map_some]
  refine ⟨{ icount1 with list := icount1.list.set i { el with count := count } }, ?_,
    ⟨sorted, ?_, ?_⟩, { got.kept with }, fun k => ?_⟩
  · simp only [set, map_some]
  · exact length.le.trans got.good.room
  · exact fun j is => (got.good.last j is).trans_eq length.symm
  · refine (got.good.sorted.counted_set El.count at_
      (b := { el with count := count }) rfl k).trans ?_
    rw [own]
    exact if_congr Iff.rfl rfl (got.counts k)

theorem getInodeCount_list (good : Good icount) (small : icount.count < 2 ^ 31)
    (list : icount.fullmap = none) (ino : Nat) :
    ∃ icount', getInodeCount estimate icount ino = some (icount', listCount icount.list ino) ∧
      Good icount' ∧ Kept icount icount' ∧ icount'.list = icount.list := by
  obtain ⟨icount', found, is, got⟩ := getIcountEl_got estimate ino good small false
  simp only [getInodeCount, list, is, bind_some]
  refine ⟨icount', ?_, got.good, got.kept, got.same rfl⟩
  cases found with
  | none =>
    rw [listCount, (got.absent rfl).2]
    rfl
  | some i =>
    obtain ⟨el, at_, own⟩ := got.el i rfl
    have count : listCount icount'.list el.ino = el.count :=
      got.good.sorted.counted_get El.count at_
    rw [← got.counts, ← own, count]
    simp [at_]

end List

end E2fs.LinkCount
