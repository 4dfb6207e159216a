import E2fs.LinkCount.Counts

/-! All representations of link counts against one map from inodes to counts. The bitmaps with the
list agree with it; the full map has no slot for the last inode. -/
namespace E2fs.LinkCount
open SortedTable Run List Function Option

abbrev Plain := Nat → Nat

def Plain.put (m : Plain) (ino count : Nat) : Plain := fun k => if k = ino then count else m k

theorem Plain.put_self (m : Plain) (ino : Nat) : m.put ino (m ino) = m := by
  funext k
  rw [Plain.put]
  split_ifs with is
  · rw [is]
  · rfl

def Plain.step (m : Plain) : Op → Plain × Result
  | .store ino count => (m.put ino count, .ok none)
  | .increment ino => (m.put ino (m ino + 1), .ok (some (m ino + 1)))
  | .decrement ino =>
    if m ino = 0 then (m, .error .invalidArgument)
      else (m.put ino (m ino - 1), .ok (some (m ino - 1)))
  | .fetch ino => (m, .ok (some (m ino)))

/-- A call on an inode that exists, after which its count is at most 65500. -/
def Within (numInodes : Nat) (m : Plain) (op : Op) : Prop :=
  0 < op.ino ∧ op.ino ≤ numInodes ∧ (m.step op).1 op.ino ≤ 65500

/-- The list has fewer elements than an `int` counts. -/
def Small (icount : Icount) (_ : Op) : Prop := icount.count < 2 ^ 31

def HasSlot (icount : Icount) (op : Op) : Prop :=
  ∀ map, icount.fullmap = some map → op.ino < map.length

/-- No index was outside its array, the call returned what the map returns, and the list
is sorted. -/
def Right (icount : Icount) (result : Option Result) (want : Result) : Prop :=
  result = some want ∧ Sorted El.ino icount.list

section Lists

variable {icount icount' : Icount} {m : Plain} {n ino c : Nat} {s : Bool} {mu : Option Bool}
  (estimate : Nat → Nat → Nat → Nat)

def shown (single : Bool) (multiple : Option Bool) (count : Nat) : Nat :=
  if single then 1 else if multiple = some false then 0 else count

structure Lists (n : Nat) (icount : Icount) (m : Plain) : Prop where
  good : Good icount
  list : icount.fullmap = none
  num : icount.numInodes = n
  counts : ∀ k, shown (icount.single k) (icount.multiple.map (· k)) (listCount icount.list k) = m k
  le : ∀ k, m k ≤ 65500

/-- What a call made of the bits and the count of an inode; nothing else changed. -/
structure Touch (icount icount' : Icount) (ino : Nat) (s : Bool) (mu : Option Bool) (c : Nat) :
    Prop where
  good : Good icount'
  list : icount'.fullmap = none
  num : icount'.numInodes = icount.numInodes
  single : icount'.single = Function.update icount.single ino s
  multiple : ∀ k, icount'.multiple.map (· k) = if k = ino then mu else icount.multiple.map (· k)
  count : ∀ k, listCount icount'.list k = if k = ino then c else listCount icount.list k

theorem Lists.touch (lists : Lists n icount m) (ino : Nat) :
    Touch icount icount ino (icount.single ino) (icount.multiple.map (· ino))
    (listCount icount.list ino) where
  __ := lists
  num := rfl
  single := (update_eq_self ..).symm
  multiple := by
    intro k
    split_ifs with is
    · rw [is]
    · rfl
  count := by
    intro k
    split_ifs with is
    · rw [is]
    · rfl

section

variable (touch : Touch icount icount' ino s mu c)
include touch

theorem Touch.markSingle (bit : Bool) :
    Touch icount (LinkCount.markSingle icount' ino bit) ino bit mu c where
  __ := touch
  good := { touch.good with }
  single := by
    show Function.update icount'.single ino bit = _
    rw [touch.single, update_idem]

theorem Touch.markMultiple (bit : Bool) :
    Touch icount (LinkCount.markMultiple icount' ino bit) ino s (mu.map fun _ => bit) c where
  __ := touch
  good := { touch.good with }
  multiple := by
    intro k
    have before := touch.multiple k
    have own := touch.multiple ino
    rw [if_pos rfl] at own
    show (icount'.multiple.map fun bitmap => mark bitmap ino bit).map (· k) = _
    rw [Option.map_map]
    by_cases is : k = ino
    · rw [if_pos is, ← own, Option.map_map, is]
      refine Option.map_congr fun bitmap _ => ?_
      simp [mark]
    · rw [if_neg is] at before ⊢
      rw [← before]
      refine Option.map_congr fun bitmap _ => ?_
      simp [mark, is]

theorem Touch.setCount (small : icount'.count < 2 ^ 31) (count : Nat) :
    ∃ icount'', setInodeCount estimate icount' ino count = some (icount'', .ok ()) ∧
      Touch icount icount'' ino s mu count := by
  obtain ⟨icount'', is, good, kept, counts⟩ :=
    setInodeCount_list estimate touch.good small touch.list ino count
  refine ⟨icount'', is, good, kept.fullmap.trans touch.list, kept.numInodes.trans touch.num,
    kept.single.trans touch.single, fun k => kept.multiple ▸ touch.multiple k, fun k => ?_⟩
  have before := touch.count k
  rw [counts]
  split_ifs with ne
  · rfl
  · rwa [if_neg ne] at before

theorem Touch.getCount (small : icount'.count < 2 ^ 31) :
    ∃ icount'', getInodeCount estimate icount' ino = some (icount'', c) ∧
      Touch icount icount'' ino s mu c ∧ icount''.count < 2 ^ 31 := by
  obtain ⟨icount'', is, good, kept, same⟩ :=
    getInodeCount_list estimate touch.good small touch.list ino
  have own := touch.count ino
  rw [if_pos rfl] at own
  refine ⟨icount'', own ▸ is, ⟨good, kept.fullmap.trans touch.list, kept.numInodes.trans touch.num,
    kept.single.trans touch.single, fun k => kept.multiple ▸ touch.multiple k, same ▸ touch.count⟩,
    ?_⟩
  rw [Icount.count, same]
  exact small

theorem Touch.lists (lists : Lists n icount m) {v : Nat} (value : shown s mu c = v)
    (le : v ≤ 65500) : Lists n icount' (m.put ino v) where
  __ := touch
  num := touch.num.trans lists.num
  counts := by
    intro k
    rw [touch.single, touch.multiple, touch.count, Plain.put]
    by_cases is : k = ino
    · rw [is, update_self, if_pos rfl, if_pos rfl, if_pos rfl, value]
    · rw [update_of_ne is, if_neg is, if_neg is, if_neg is]
      exact lists.counts k
  le := by
    intro k
    rw [Plain.put]
    split
    · exact le
    · exact lists.le k

end

theorem xlate_of_le {x : Nat} (le : x ≤ 65500) : icount16Xlate x = x := if_neg (Nat.not_lt.mpr le)

theorem any_iff : (icount.multiple.any fun bitmap => !bitmap ino) = true ↔
    icount.multiple.map (· ino) = some false := by
  cases icount.multiple with
  | none => simp
  | some bitmap => simp

theorem Touch.setZero (touch : Touch icount icount' ino false mu c) (small : icount'.count < 2 ^ 31)
    (same : icount'.multiple.map (· ino) = mu) :
    ∃ icount'' mu' c', setZero estimate icount' ino = some icount'' ∧
      Touch icount icount'' ino false mu' c' ∧ shown false mu' c' = 0 := by
  rw [LinkCount.setZero]
  cases is : icount'.multiple with
  | some bitmap =>
    refine ⟨_, _, _, if_pos rfl, touch.markMultiple false, ?_⟩
    rw [is] at same
    rw [← same]
    rfl
  | none =>
    obtain ⟨icount'', set, touch'⟩ := touch.setCount estimate small 0
    refine ⟨icount'', mu, 0, ?_, touch', ?_⟩
    · rw [if_neg (by simp), set]
      rfl
    · rw [shown]
      simp

/- After a decrement a count of one is in the first bitmap, and one of zero in neither. -/
theorem Touch.settle (touch : Touch icount icount' ino s mu c) (single : s = false)
    (some_ : mu ≠ some false) : ∃ s' mu', Touch icount
      (if c = 0 then LinkCount.markMultiple (if c = 1 then LinkCount.markSingle icount' ino true
        else icount') ino false
        else if c = 1 then LinkCount.markSingle icount' ino true else icount') ino s' mu' c ∧
        shown s' mu' c = c := by
  by_cases zero : c = 0
  · rw [if_pos zero, if_neg (by omega)]
    refine ⟨s, _, touch.markMultiple false, ?_⟩
    rw [single, zero]
    cases mu <;> rfl
  rw [if_neg zero]
  by_cases one : c = 1
  · rw [if_pos one]
    exact ⟨true, mu, touch.markSingle true, one.symm⟩
  · rw [if_neg one]
    refine ⟨s, mu, touch, ?_⟩
    rw [shown, single, if_neg (by simp), if_neg some_]

theorem Lists.state (lists : Lists n icount m) (ino : Nat) :
    (icount.single ino = true ∧ m ino = 1) ∨
      icount.single ino = false ∧ ((icount.multiple.map (· ino) = some false ∧ m ino = 0) ∨
          icount.multiple.map (· ino) ≠ some false ∧ listCount icount.list ino = m ino) := by
  have own := lists.counts ino
  rw [shown] at own
  rw [← Bool.not_eq_true]
  split_ifs at own with single zero
  · exact .inl ⟨single, own.symm⟩
  · exact .inr ⟨single, .inl ⟨zero, own.symm⟩⟩
  · exact .inr ⟨single, .inr ⟨zero, own⟩⟩

theorem shown_marked {α : Type} (mu : Option α) (v : Nat) :
    shown false (mu.map fun _ => true) v = v := by
  cases mu <;> rfl

section

variable (lists : Lists n icount m) (small : icount.count < 2 ^ 31) (valid : ¬ (ino = 0 ∨ n < ino))
include lists small valid

theorem Lists.fetch :
    ∃ icount', icountFetch estimate icount ino = some (icount', .ok (some (m ino))) ∧
    Lists n icount' m := by
  have le := lists.le ino
  rw [icountFetch, lists.num, if_neg valid, lists.list, isNone_none, Bool.true_and, Bool.true_and]
  rcases lists.state ino with ⟨single, own⟩ | ⟨single, ⟨zero, own⟩ | ⟨zero, count⟩⟩
  · rw [if_pos single, own]
    exact ⟨icount, rfl, lists⟩
  all_goals rw [single, if_neg Bool.false_ne_true]
  · rw [if_pos (any_iff.mpr zero), own]
    exact ⟨icount, rfl, lists⟩
  · rw [if_neg (mt any_iff.mp zero)]
    obtain ⟨icount', is, touch, _⟩ := (lists.touch ino).getCount estimate small
    rw [is, map_some, count]
    dsimp only
    rw [xlate_of_le le]
    have lists' := touch.lists lists (lists.counts ino) le
    rw [Plain.put_self] at lists'
    exact ⟨icount', rfl, lists'⟩

theorem Lists.increment (le : m ino + 1 ≤ 65500) : ∃ icount',
      icountIncrement estimate icount ino = some (icount', .ok (some (m ino + 1))) ∧
      Lists n icount' (m.put ino (m ino + 1)) := by
  have touch := lists.touch ino
  rw [icountIncrement, lists.num, if_neg valid, lists.list]
  dsimp only
  rcases lists.state ino with ⟨single, own⟩ | ⟨single, ⟨zero, own⟩ | ⟨zero, count⟩⟩
  · obtain ⟨icount1, is, touch1⟩ := touch.setCount estimate small 2
    have touch2 := (touch1.markSingle false).markMultiple true
    rw [if_pos single, is, map_some, own]
    exact ⟨_, rfl, touch2.lists lists (shown_marked _ 2) (by decide)⟩
  all_goals rw [single, if_neg Bool.false_ne_true]
  · rw [if_pos (any_iff.mpr zero), own]
    exact ⟨_, rfl, (touch.markSingle true).lists lists rfl (by decide)⟩
  · rw [if_neg (mt any_iff.mp zero)]
    obtain ⟨icount1, is1, touch1, small1⟩ := touch.getCount estimate small
    obtain ⟨icount2, is2, touch2⟩ := touch1.setCount estimate small1 (m ino + 1)
    rw [single] at touch2
    rw [is1, bind_some, count, incrementTo, is2, map_some, xlate_of_le le]
    exact ⟨_, rfl, (touch2.markMultiple true).lists lists (shown_marked _ _) le⟩

theorem Lists.decrement :
    ∃ icount', icountDecrement estimate icount ino = some (icount', (m.step (.decrement ino)).2) ∧
      Lists n icount' (m.step (.decrement ino)).1 := by
  have le := lists.le ino
  have touch := lists.touch ino
  rw [icountDecrement, lists.num, if_neg valid, lists.list, Plain.step]
  dsimp only
  rcases lists.state ino with ⟨single, own⟩ | ⟨single, ⟨zero, own⟩ | ⟨zero, count⟩⟩
  · obtain ⟨icount1, mu', c', is, touch1, zero⟩ :=
      (touch.markSingle false).setZero estimate small rfl
    rw [if_pos single, is, map_some, own]
    exact ⟨icount1, rfl, touch1.lists lists zero (Nat.zero_le _)⟩
  all_goals rw [single, if_neg Bool.false_ne_true]
  · rw [if_pos (any_iff.mpr zero), own]
    exact ⟨icount, rfl, lists⟩
  · rw [if_neg (mt any_iff.mp zero)]
    obtain ⟨icount1, is1, touch1, small1⟩ := touch.getCount estimate small
    rw [is1, bind_some, count]
    by_cases none : m ino = 0
    · rw [if_pos none, if_pos none]
      have lists' := touch1.lists lists (lists.counts ino) le
      rw [Plain.put_self] at lists'
      exact ⟨icount1, rfl, lists'⟩
    rw [if_neg none, if_neg none]
    have le' : m ino - 1 ≤ 65500 := by omega
    obtain ⟨icount2, is2, touch2⟩ := touch1.setCount estimate small1 (m ino - 1)
    obtain ⟨s', mu', touch3, value⟩ := touch2.settle single zero
    rw [decrementTo, is2, map_some]
    rw [xlate_of_le le']
    exact ⟨_, rfl, touch3.lists lists value le'⟩

theorem Lists.store {count : Nat} (le : count ≤ 65500) : ∃ icount',
      icountStore estimate icount ino count = some (icount', .ok none) ∧
      Lists n icount' (m.put ino count) := by
  have touch := lists.touch ino
  rw [icountStore, lists.num, if_neg valid, lists.list, if_neg (by simp)]
  by_cases one : count = 1
  · rw [if_pos one, one]
    exact ⟨_, rfl, ((touch.markSingle true).markMultiple false).lists lists rfl (by decide)⟩
  rw [if_neg one]
  by_cases none : count = 0
  · obtain ⟨icount1, mu', c', is, touch1, zero⟩ :=
      (touch.markSingle false).setZero estimate small rfl
    rw [if_pos none, is, map_some, none]
    exact ⟨icount1, rfl, touch1.lists lists zero (Nat.zero_le _)⟩
  · rw [if_neg none]
    obtain ⟨icount1, is, touch1⟩ := touch.setCount estimate small count
    have touch2 := (touch1.markSingle false).markMultiple true
    rw [is, map_some]
    exact ⟨_, rfl, touch2.lists lists (shown_marked _ _) le⟩

end

theorem Lists.call (lists : Lists n icount m) {op : Op} (small : Small icount op)
    (within : Within n m op) :
    ∃ icount', call estimate icount op = some (icount', (m.step op).2) ∧
    Lists n icount' (m.step op).1 := by
  obtain ⟨pos, le, few⟩ := within
  have valid : ¬ (op.ino = 0 ∨ n < op.ino) := by omega
  cases op with
  | store ino count =>
    have few' : count ≤ 65500 := by simpa [Plain.step, Plain.put, Op.ino] using few
    exact lists.store estimate small valid few'
  | increment ino =>
    have few' : m ino + 1 ≤ 65500 := by simpa [Plain.step, Plain.put, Op.ino] using few
    exact lists.increment estimate small valid few'
  | decrement ino => exact lists.decrement estimate small valid
  | fetch ino => exact lists.fetch estimate small valid

end Lists

section Full

variable {icount icount' : Icount} {m : Plain} {n : Nat} {map : List Nat}
  (estimate : Nat → Nat → Nat → Nat)

structure Full (n : Nat) (icount : Icount) (map : List Nat) (m : Plain) : Prop where
  sorted : Sorted El.ino icount.list
  is : icount.fullmap = some map
  num : icount.numInodes = n
  counts : ∀ k, map.getD k 0 = m k
  le : ∀ k, m k ≤ 65500

section

variable (full : Full n icount map m)
include full

theorem Full.set {ino count : Nat} (slot : ino < map.length) (le : count ≤ 65500) :
    Full n { icount with fullmap := some (map.set ino count) } (map.set ino count)
    (m.put ino count) where
  __ := full
  is := rfl
  counts := by
    intro k
    rw [Plain.put, getD_eq_getElem?_getD, getElem?_set]
    by_cases is : k = ino
    · rw [if_pos is.symm, if_pos is, if_pos slot]
      rfl
    · rw [if_neg (Ne.symm is), if_neg is, ← full.counts, getD_eq_getElem?_getD]
  le := by
    intro k
    rw [Plain.put]
    split
    · exact le
    · exact full.le k

theorem Full.slot {ino : Nat} (slot : ino < map.length) : map[ino]? = some (m ino) := by
  rw [← full.counts, getD_eq_getElem?_getD, getElem?_eq_getElem slot]
  rfl

/- With a full map a call uses the slot of its inode. -/
theorem Full.call_eq {op : Op} (within : Within n m op) :
    LinkCount.call estimate icount op = (map[op.ino]?).map fun count => match op with
      | .store ino new =>
        ({ icount with fullmap := some (map.set ino (icount16Xlate new)) }, .ok none)
      | .increment ino =>
        ({ icount with fullmap := some (map.set ino (icount16Xlate (count + 1))) },
        .ok (some (icount16Xlate (icount16Xlate (count + 1)))))
      | .decrement ino =>
        if count = 0 then (icount, .error .invalidArgument)
        else ({ icount with fullmap := some (map.set ino (count - 1)) },
          .ok (some (icount16Xlate (count - 1))))
      | .fetch _ => (icount, .ok (some (icount16Xlate count))) := by
  obtain ⟨pos, le, _⟩ := within
  have valid : ¬ (op.ino = 0 ∨ icount.numInodes < op.ino) := by
    rw [full.num]
    omega
  cases op with
  | store ino new =>
    simp only [Op.ino] at valid ⊢
    simp only [LinkCount.call, icountStore, if_neg valid, full.is, isSome_some, if_true,
      setInodeCount]
    by_cases slot : ino < map.length
    · rw [if_pos slot, getElem?_eq_getElem slot]
      rfl
    · rw [if_neg slot, getElem?_eq_none (Nat.le_of_not_lt slot)]
      rfl
  | increment ino | decrement ino =>
    simp only [Op.ino] at valid ⊢
    simp only [LinkCount.call, icountIncrement, icountDecrement, if_neg valid, full.is]
  | fetch ino =>
    simp only [Op.ino] at valid ⊢
    simp only [LinkCount.call, icountFetch, if_neg valid, full.is, isNone_some, Bool.false_and,
      Bool.false_eq_true, if_false, getInodeCount, Option.map_map]
    rfl

theorem Full.call {op : Op} (within : Within n m op) (slot : op.ino < map.length) :
    ∃ icount' map', call estimate icount op = some (icount', (m.step op).2) ∧
    Full n icount' map' (m.step op).1 := by
  have few := within.2.2
  have small := full.le op.ino
  rw [full.call_eq estimate within, full.slot slot, map_some]
  cases op with
  | store ino count =>
    have few' : count ≤ 65500 := by simpa [Plain.step, Plain.put, Op.ino] using few
    dsimp only
    rw [xlate_of_le few']
    exact ⟨_, _, rfl, full.set slot few'⟩
  | increment ino =>
    have few' : m ino + 1 ≤ 65500 := by simpa [Plain.step, Plain.put, Op.ino] using few
    dsimp only [Op.ino]
    rw [xlate_of_le few', xlate_of_le few']
    exact ⟨_, _, rfl, full.set slot few'⟩
  | decrement ino =>
    change ∃ _ _, some (if m ino = 0 then _ else _) = _ ∧ _
    rw [Plain.step]
    by_cases none : m ino = 0
    · rw [if_pos none, if_pos none]
      exact ⟨icount, map, rfl, full⟩
    · have few' := (Nat.sub_le _ 1).trans small
      rw [if_neg none, if_neg none, xlate_of_le few']
      exact ⟨_, _, rfl, full.set slot few'⟩
  | fetch ino =>
    rw [xlate_of_le small]
    exact ⟨icount, map, rfl, full⟩

/- Without a slot every call uses an index outside the map. -/
theorem Full.call_outside {op : Op} (within : Within n m op) (out : ¬ op.ino < map.length) :
    LinkCount.call estimate icount op = none := by
  rw [full.call_eq estimate within, getElem?_eq_none (Nat.le_of_not_lt out), map_none]

end

end Full

section Runs

variable (estimate : Nat → Nat → Nat → Nat)

/- Whatever the representation, it holds the counts of the map. -/
def Agrees (n : Nat) (icount : Icount) (m : Plain) : Prop :=
  Lists n icount m ∨ ∃ map, Full n icount map m

variable {icount : Icount} {op : Op}

theorem step_of_call {icount' : Icount} {result : Result}
    (is : call estimate icount op = some (icount', result)) :
    step estimate icount op = (icount', some result) := by
  rw [step, is]

theorem Agrees.step {n : Nat} {m : Plain} (agrees : Agrees n icount m) (small : Small icount op)
    (within : Within n m op) (slot : HasSlot icount op) :
    Right (step estimate icount op).1 (step estimate icount op).2 (m.step op).2 ∧
      Agrees n (step estimate icount op).1 (m.step op).1 := by
  rcases agrees with lists | ⟨map, full⟩
  · obtain ⟨icount', is, lists'⟩ := lists.call estimate small within
    rw [step_of_call estimate is]
    exact ⟨⟨rfl, lists'.good.sorted⟩, .inl lists'⟩
  · obtain ⟨icount', map', is, full'⟩ := full.call estimate within (slot map full.is)
    rw [step_of_call estimate is]
    exact ⟨⟨rfl, full'.sorted⟩, .inr ⟨map', full'⟩⟩

theorem Agrees.outside {n : Nat} {m : Plain} (agrees : Agrees n icount m)
    (within : Within n m op) (noSlot : ¬ HasSlot icount op) :
    ¬ Right (LinkCount.step estimate icount op).1 (LinkCount.step estimate icount op).2
      (m.step op).2 := by
  rcases agrees with lists | ⟨map, full⟩
  · exact absurd (fun map is => by rw [lists.list] at is; cases is) noSlot
  · have out : ¬ op.ino < map.length := fun slot => noSlot fun map' is => by
      rw [full.is] at is
      rwa [← Option.some.inj is]
    rw [LinkCount.step, full.call_outside estimate within out]
    exact fun right => nomatch right.1

theorem createIcount2_agrees (rep : Rep) (n : Nat) {size : Nat} {hint : List Nat}
    (sorted : hint.Pairwise (· < ·))
    (room : hint.length ≤ size) : Agrees n (createIcount2 rep n size hint) fun _ => 0 := by
  have rows : Sorted El.ino (hint.map fun ino => ⟨ino, 0⟩) := pairwise_map.mpr sorted
  have zero : ∀ k, listCount (hint.map fun ino => ⟨ino, 0⟩) k = 0 := fun k => by
    rw [listCount]
    rcases is : row El.ino (hint.map fun ino => ⟨ino, 0⟩) k with _ | el
    · rfl
    obtain ⟨ino, _, rfl⟩ := mem_map.mp (mem_of_find?_eq_some is)
    rfl
  have inside : (hint.map fun ino => (⟨ino, 0⟩ : El)).length ≤ size := by rwa [length_map]
  cases rep with
  | bitmap =>
    exact .inl ⟨⟨rows, inside, by rintro _ ⟨⟩⟩, rfl, rfl, fun k => zero k, fun _ => Nat.zero_le _⟩
  | bitmaps =>
    exact .inl ⟨⟨rows, inside, by rintro _ ⟨⟩⟩, rfl, rfl, fun k => rfl, fun _ => Nat.zero_le _⟩
  | fullmap =>
    refine .inr ⟨_, List.Pairwise.nil, rfl, rfl, fun k => ?_, fun _ => Nat.zero_le _⟩
    rw [getD_eq_getElem?_getD, getElem?_replicate]
    split <;> rfl

end Runs

/-- For each representation and any hint, a run of calls on inodes that exist, with no count above
65500 and a list that an `int` counts, returns what one map of counters returns, uses no index
outside an array and keeps the list sorted, exactly when the full map has a slot for each inode. -/
theorem icount_counts_iff (estimate : Nat → Nat → Nat → Nat) (rep : Rep) (numInodes size : Nat)
    (hint : List Nat) (ops : List Op) (sorted : hint.Pairwise (· < ·)) (room : hint.length ≤ size)
    (within : Along (fun m op => (Plain.step m op).1) (Within numInodes) (fun _ => 0) ops)
    (small : Along (fun icount op => (step estimate icount op).1) Small
      (createIcount2 rep numInodes size hint) ops) :
    Answers (step estimate) Plain.step Right (createIcount2 rep numInodes size hint)
    (fun _ => 0) ops ↔
      Along (fun icount op => (step estimate icount op).1) HasSlot
        (createIcount2 rep numInodes size hint) ops := by
  refine answers_iff (Agrees numInodes) ?_ ?_ (createIcount2_agrees rep numInodes sorted room) ops
    small within
  · intro icount m op agrees few may slot
    exact agrees.step estimate few may slot
  · intro icount m op agrees _ may noSlot
    exact agrees.outside estimate may noSlot

def sampleOps : List Op :=
  [.increment 11, .increment 11, .store 5 1, .increment 5, .decrement 11, .fetch 11, .store 5 0,
    .decrement 5, .fetch 5]

theorem sample_counts_right :
    Answers (step fun _ _ _ => 0) Plain.step Right (createIcount2 .bitmap 12 2 [5])
    (fun _ => 0) sampleOps ∧
      Answers (step fun _ _ _ => 0) Plain.step Right (createIcount2 .fullmap 12 0 [])
      (fun _ => 0) sampleOps := by
  have within : Along (fun m op => (Plain.step m op).1) (Within 12) (fun _ => 0) sampleOps := by
    unfold sampleOps Along Within
    decide
  constructor
  · refine (icount_counts_iff _ .bitmap 12 2 [5] sampleOps (by simp) (by decide) within ?_).mpr ?_
    · unfold sampleOps Along Small
      decide
    · have free : ∀ {icount : Icount} {op : Op}, icount.fullmap = none → HasSlot icount op :=
        fun none map is => absurd (none.symm.trans is) (Option.some_ne_none map).symm
      exact ⟨free rfl, free rfl, free rfl, free rfl, free rfl, free rfl, free rfl, free rfl,
        free rfl, trivial⟩
  · refine (icount_counts_iff _ .fullmap 12 0 [] sampleOps (by simp) (by decide) within ?_).mpr ?_
    · unfold sampleOps Along Small
      decide
    · refine ⟨?_, ?_, ?_, ?_, ?_, ?_, ?_, ?_, ?_, trivial⟩ <;> rintro map is <;> cases is <;> decide

/- The first link of the last inode: its count is behind the end of the full map. -/
theorem last_inode_has_no_slot :
    (step (fun _ _ _ => 0) (createIcount2 .fullmap 12 0 []) (.increment 12)).2 = none ∧
      (Plain.step (fun _ => 0) (.increment 12)).2 = .ok (some 1) := by
  decide +kernel

end E2fs.LinkCount
