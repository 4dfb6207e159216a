import Mathlib.Tactic

/-! Tables kept sorted by key: what a row says about lookups, and what inserting a row at its place
or changing one does to them. -/
namespace E2fs.SortedTable
open List Option Nat

variable {α κ : Type} [LinearOrder κ] {key : α → κ} {l front rest : List α} {a b : α} {i : Nat}
  {k : κ}

def Sorted (key : α → κ) (l : List α) : Prop := l.Pairwise fun a b => key a < key b

def row (key : α → κ) (l : List α) (k : κ) : Option α := l.find? fun a => key a = k

theorem row_eq_none : row key l k = none ↔ ∀ a ∈ l, key a ≠ k := by
  simp [row]

theorem row_middle (others : ∀ c ∈ front, key c ≠ key a) :
    row key (front ++ a :: rest) k = if k = key a then some a else row key (front ++ rest) k := by
  unfold row
  rw [find?_append, find?_append, find?_cons]
  by_cases is : k = key a
  · have none : front.find? (fun c => key c = k) = none := by
      rw [find?_eq_none]
      intro c mem
      simpa [is] using others c mem
    rw [none, if_pos is, none_or, decide_eq_true is.symm]
  · rw [if_neg is, decide_eq_false (Ne.symm is)]

theorem Sorted.lt_middle (sorted : Sorted key (front ++ a :: rest)) : ∀ c ∈ front, key c < key a :=
  fun c mem =>
  (pairwise_append.mp sorted).2.2 c mem a (mem_cons_self ..)

theorem around (at_ : l[i]? = some a) : l = l.take i ++ a :: l.drop (i + 1) := by
  obtain ⟨lt, is⟩ := List.getElem?_eq_some_iff.mp at_
  rw [← is, cons_getElem_drop_succ, take_append_drop]

/-- The place of a key: smaller ones in front of it, greater ones behind. -/
structure Place (key : α → κ) (l : List α) (k : κ) (p : Nat) : Prop where
  le : p ≤ l.length
  low : ∀ (i : Nat) a, l[i]? = some a → i < p → key a < k
  high : ∀ (i : Nat) a, l[i]? = some a → p ≤ i → k < key a

theorem Place.absent {p : Nat} (place : Place key l k p) : row key l k = none := by
  refine row_eq_none.mpr fun a mem same => ?_
  obtain ⟨i, at_⟩ := getElem?_of_mem mem
  rcases lt_or_ge i p with lt | ge
  · exact absurd same (place.low i a at_ lt).ne
  · exact absurd same (place.high i a at_ ge).ne'

theorem Place.end (all : ∀ a ∈ l, key a < k) : Place key l k l.length :=
  ⟨le_refl _, fun _ a at_ _ => all a (mem_of_getElem? at_),
    fun _ _ at_ ge => absurd (List.getElem?_eq_some_iff.mp at_).1 (Nat.not_lt.mpr ge)⟩

theorem length_put (le : i ≤ l.length) : (l.take i ++ a :: l.drop i).length = l.length + 1 := by
  rw [length_append, length_cons, length_take_of_le le, length_drop]
  omega

theorem get_put (le : i ≤ l.length) : (l.take i ++ a :: l.drop i)[i]? = some a := by
  have take := length_take_of_le le
  rw [getElem?_append_right take.le, take, Nat.sub_self]
  rfl

/- A binary search with indices of type `int`. The middle of two indices is computed by
the program. -/
def search {β : Type} (key : α → κ) (l : List α) (k : κ) (middle : Int → Int → Option Nat)
    (hit : Nat → β) (miss : Int → β) : Nat → Int → Int → Option β
  | 0, _, _ => none
  | fuel + 1, low, high =>
    if low ≤ high then
      (middle low high).bind fun mid => (l[mid]?).bind fun a =>
        if k = key a then some (hit mid)
        else if k < key a then search key l k middle hit miss fuel low (mid - 1)
        else search key l k middle hit miss fuel (mid + 1) high
    else some (miss low)

/-- A row with the key, or the place where it is missing. -/
def Right {β : Type} (key : α → κ) (l : List α) (k : κ) (hit : Nat → β) (miss : Int → β)
    (found : β) : Prop :=
  (∃ mid a, found = hit mid ∧ l[mid]? = some a ∧ key a = k) ∨ ∃ n : Nat, found = miss n ∧
    Place key l k n

/- What the rows count for a key, if a missing row counts nothing. -/
def counted (key : α → κ) (value : α → Nat) (l : List α) (k : κ) : Nat :=
  ((row key l k).map value).getD 0

section

variable (sorted : Sorted key l)
include sorted

theorem Sorted.row_get (at_ : l[i]? = some a) : row key l (key a) = some a := by
  rw [around at_] at sorted ⊢
  rw [row_middle fun c mem => (sorted.lt_middle c mem).ne, if_pos rfl]

theorem Sorted.set (at_ : l[i]? = some a) (same : key b = key a) :
    Sorted key (l.set i b) ∧ ∀ k, row key (l.set i b) k = if k = key a then some b
    else row key l k := by
  have is := around at_
  have lt : i < l.length := (List.getElem?_eq_some_iff.mp at_).1
  have set : l.set i b = l.take i ++ b :: l.drop (i + 1) :=
    set_eq_take_append_cons_drop.trans (if_pos lt)
  rw [is] at sorted
  rw [set]
  have apart := sorted.lt_middle
  constructor
  · rw [Sorted, pairwise_append, pairwise_cons] at sorted ⊢
    simpa only [mem_cons, forall_eq_or_imp, same] using sorted
  · intro k
    rw [row_middle fun c mem => (same ▸ apart c mem).ne, same]
    conv_rhs => rw [is, row_middle fun c mem => (apart c mem).ne]
    split <;> rfl

theorem Sorted.insert (place : Place key l (key a) i) : Sorted key (l.take i ++ a :: l.drop i) ∧
      ∀ k, row key (l.take i ++ a :: l.drop i) k = if k = key a then some a else row key l k := by
  have front : ∀ c ∈ l.take i, key c < key a := by
    intro c mem
    obtain ⟨j, lt, is⟩ := mem_take_iff_getElem.mp mem
    exact place.low j c (List.getElem?_eq_some_iff.mpr ⟨by omega, is⟩) (by omega)
  have rest : ∀ c ∈ l.drop i, key a < key c := by
    intro c mem
    obtain ⟨j, at_⟩ := getElem?_of_mem mem
    rw [getElem?_drop] at at_
    exact place.high _ c at_ (Nat.le_add_right i j)
  constructor
  · rw [← take_append_drop i l, Sorted, pairwise_append] at sorted
    rw [Sorted, pairwise_append]
    obtain ⟨first, second, across⟩ := sorted
    refine ⟨first, pairwise_cons.mpr ⟨rest, second⟩,
      fun c mem => forall_mem_cons.mpr ⟨front c mem, across c mem⟩⟩
  · intro k
    rw [row_middle fun c mem => (front c mem).ne, take_append_drop]

theorem Sorted.lt_of_lt {j : Nat} (lt : i < j) (ati : l[i]? = some a) (atj : l[j]? = some b) :
    key a < key b := by
  obtain ⟨lti, rfl⟩ := List.getElem?_eq_some_iff.mp ati
  obtain ⟨ltj, rfl⟩ := List.getElem?_eq_some_iff.mp atj
  exact pairwise_iff_getElem.mp sorted i j lti ltj lt

theorem Sorted.le_of_le {j : Nat} (le : i ≤ j) (ati : l[i]? = some a) (atj : l[j]? = some b) :
    key a ≤ key b := by
  rcases eq_or_lt_of_le le with rfl | lt
  · rw [some.inj (ati.symm.trans atj)]
  · exact (sorted.lt_of_lt lt ati atj).le

theorem Sorted.lt_of_last (last : ∀ a, l.getLast? = some a → key a < k) : ∀ a ∈ l, key a < k := by
  intro a mem
  obtain ⟨i, at_⟩ := getElem?_of_mem mem
  have lt := (List.getElem?_eq_some_iff.mp at_).1
  have atLast : l[l.length - 1]? = some l[l.length - 1] := getElem?_eq_getElem (by omega)
  exact (sorted.le_of_le (le_sub_one_of_lt lt) at_ atLast).trans_lt
    (last _ (getLast?_eq_getElem?.trans atLast))

/- The search keeps the place of the key between its bounds. -/
theorem Sorted.search_from {β : Type} {middle : Int → Int → Option Nat} (hit : Nat → β)
    (miss : Int → β)
    (half : ∀ p q : Nat, p ≤ q → q < l.length → middle p q = some ((p + q) / 2)) (fuel : Nat)
    {p q : Nat} (order : p ≤ q)
    (end_ : q ≤ l.length) (enough : q - p < fuel)
    (low : ∀ (i : Nat) a, l[i]? = some a → i < p → key a < k)
    (high : ∀ (i : Nat) a, l[i]? = some a → q ≤ i → k < key a) :
    ∃ found, search key l k middle hit miss fuel p (q - 1) = some found ∧
    Right key l k hit miss found := by
  induction fuel generalizing p q with
  | zero => omega
  | succ fuel ih =>
    rw [search]
    by_cases some_ : (p : Int) ≤ (q : Int) - 1
    · rw [if_pos some_, show (q : Int) - 1 = (q - 1 : Nat) by omega,
        half p (q - 1) (by omega) (by omega), bind_some]
      generalize is : (p + (q - 1)) / 2 = m
      have lt : m < l.length := by omega
      have at_ := getElem?_eq_getElem lt
      rw [at_, bind_some]
      split_ifs with own less
      · exact ⟨_, rfl, .inl ⟨m, l[m], rfl, at_, own.symm⟩⟩
      · refine ih (p := p) (q := m) (by omega) (by omega) (by omega) low fun i a ati ge => ?_
        exact less.trans_le (sorted.le_of_le ge at_ ati)
      · have more : key l[m] < k := lt_of_le_of_ne (not_lt.mp less) (Ne.symm own)
        have next :=
          ih (p := m + 1) (q := q) (by omega) end_ (by omega) (fun i a ati before => ?_) high
        · rw [show ((q - 1 : Nat) : Int) = (q : Int) - 1 by omega]
          exact_mod_cast next
        · exact (sorted.le_of_le (le_of_lt_succ before) ati at_).trans_lt more
    · rw [if_neg some_]
      obtain rfl : p = q := by omega
      exact ⟨_, rfl, .inr ⟨p, rfl, end_, low, high⟩⟩

theorem Sorted.search_spec {β : Type} {m : Int → Int → Option Nat} (hit : Nat → β) (miss : Int → β)
    (k : κ) (half : ∀ p q : Nat, p ≤ q → q < l.length → m p q = some ((p + q) / 2)) :
    ∃ found, search key l k m hit miss (l.length + 1) 0 (l.length - 1) = some found ∧
    Right key l k hit miss found :=
  sorted.search_from hit miss half _ (Nat.zero_le _) (le_refl _) (lt_succ_self _)
    (fun _ _ _ lt => absurd lt (Nat.not_lt_zero _))
    fun _ _ at_ ge => absurd (List.getElem?_eq_some_iff.mp at_).1 (Nat.not_lt.mpr ge)

variable (value : α → Nat)

theorem Sorted.counted_get (at_ : l[i]? = some a) : counted key value l (key a) = value a := by
  rw [counted, sorted.row_get at_]
  rfl

theorem Sorted.counted_set (at_ : l[i]? = some a) (same : key b = key a) (k : κ) :
    counted key value (l.set i b) k = if k = key a then value b else counted key value l k := by
  rw [counted, (sorted.set at_ same).2]
  split <;> rfl

/- A row that counts nothing changes no count. -/
theorem Sorted.counted_put (place : Place key l (key a) i) (zero : value a = 0) (k : κ) :
    counted key value (l.take i ++ a :: l.drop i) k = counted key value l k := by
  rw [counted, (sorted.insert place).2]
  split_ifs with is
  · rw [is, counted, place.absent]
    exact zero
  · rfl

end

end E2fs.SortedTable
