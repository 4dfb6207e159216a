import E2fs.Lib.Comparator
import E2fs.Lib.Run
import E2fs.Lib.Word

/-! resize/extent.c: a table that translates old locations to new ones. The growing of the array
is left out, and the interpolation is any position between the bounds. -/
namespace E2fs.Resize
open Comparator Word Run List

structure Entry where
  oldLoc : Nat
  newLoc : Nat
  size : Nat

structure ExtentTable where
  list : List Entry
  sorted : Bool

def createExtentTable : ExtentTable := ⟨[], true⟩

def addExtentEntry (t : ExtentTable) (old new : Nat) : ExtentTable :=
  match t.list.getLast? with
  | none => { t with list := [⟨old, new, 1⟩] }
  | some ent =>
    -- coalesce with the last entry
    if add64 ent.oldLoc ent.size = old ∧ add64 ent.newLoc ent.size = new then
      { t with list := t.list.dropLast ++ [{ ent with size := ent.size + 1 }] }
    else ⟨t.list ++ [⟨old, new, 1⟩], t.sorted && decide (add64 ent.oldLoc ent.size ≤ old)⟩

/- The difference is returned as an `int`. -/
def extentCmp (a b : Entry) : Int := toInt32 (sub64 a.oldLoc b.oldLoc)

/-- What the code relies on: a `qsort` that sorts if it is given an order, and an interpolation
between the bounds. -/
structure Env where
  qsort : (Entry → Entry → Int) → List Entry → List Entry
  interpolate : List Entry → Nat → Nat → Nat → Nat
  sorts : Sorts qsort
  inside :
    ∀ l x low high, low ≤ high → low ≤ interpolate l x low high ∧ interpolate l x low high ≤ high

def search (env : Env) (l : List Entry) (x : Nat) : Nat → Nat → Nat → Option Nat
  | 0, _, _ => none
  | fuel + 1, low, high =>
    if low < high then
      let mid := env.interpolate l x low (high - 1)
      (l[mid]?).bind fun ent =>
        if ent.oldLoc ≤ x ∧
          x < add64 ent.oldLoc ent.size then some (add64 ent.newLoc (sub64 x ent.oldLoc))
        else if x < ent.oldLoc then search env l x fuel low mid
        else search env l x fuel (mid + 1) high
    else some 0

inductive Op where
  | add (old new : Nat)
  | translate (x : Nat)

/- A call and its answer; there is fuel for every entry. -/
def step (env : Env) (t : ExtentTable) : Op → ExtentTable × Option Nat
  | .add old new => (addExtentEntry t old new, none)
  | .translate x =>
    let t := if t.sorted then t else ⟨env.qsort extentCmp t.list, true⟩
    (t, search env t.list x (t.list.length + 1) 0 t.list.length)

def want (m : Nat → Option Nat) : Op → (Nat → Option Nat) × Option Nat
  | .add old new => (Function.update m old (some new), none)
  | .translate x => (m, some ((m x).getD 0))

/-- A location is added once. -/
def Fresh (m : Nat → Option Nat) : Op → Prop
  | .add old new => m old = none ∧ old < 2 ^ 48 ∧ new < 2 ^ 64
  | .translate _ => True

/-- Whatever is sorted is less than `2 ^ 31` apart. -/
def Near (t : ExtentTable) : Op → Prop
  | .add _ _ => True
  | .translate _ => t.sorted = false → ∀ a ∈ t.list, ∀ b ∈ t.list, a.oldLoc < b.oldLoc + 2 ^ 31

def Entry.Holds (e : Entry) (x : Nat) : Prop := e.oldLoc ≤ x ∧ x < e.oldLoc + e.size

def Gives (l : List Entry) (x y : Nat) : Prop :=
  ∃ e ∈ l, e.Holds x ∧ add64 e.newLoc (x - e.oldLoc) = y

/-- The entries are the runs of the translation, and no two of them meet. -/
structure Stands (t : ExtentTable) (m : Nat → Option Nat) : Prop where
  bound : ∀ e ∈ t.list, 0 < e.size ∧ e.oldLoc + e.size ≤ 2 ^ 48
  apart : t.list.Pairwise fun a b => a.oldLoc + a.size ≤ b.oldLoc ∨ b.oldLoc + b.size ≤ a.oldLoc
  sorted : t.sorted = true → (t.list.map (·.oldLoc)).Pairwise (· < ·)
  gives : ∀ x y, m x = some y ↔ Gives t.list x y

variable {env : Env} {t : ExtentTable} {m : Nat → Option Nat} {l : List Entry} {x : Nat}

/- The search keeps the place of the location between its bounds. -/
theorem search_spec (bound : ∀ e ∈ l, e.oldLoc + e.size ≤ 2 ^ 48)
    (sorted : l.Pairwise fun a b => a.oldLoc + a.size ≤ b.oldLoc) (fuel : Nat)
    {low high : Nat} (end_ : high ≤ l.length) (enough : high - low < fuel)
    (outside : ∀ i, (lt : i < l.length) → l[i].Holds x → low ≤ i ∧ i < high) :
    ∃ y, search env l x fuel low high = some y ∧ (Gives l x y ∨ (∀ z, ¬ Gives l x z) ∧ y = 0) := by
  induction fuel generalizing low high with
  | zero => omega
  | succ fuel ih =>
    rw [search]
    by_cases some_ : low < high
    · rw [if_pos some_]
      obtain ⟨ge, le⟩ := env.inside l x low (high - 1) (by omega)
      generalize env.interpolate l x low (high - 1) = mid at ge le
      have lt : mid < l.length := by omega
      have word := bound l[mid] (getElem_mem lt)
      have order := pairwise_iff_getElem.mp sorted
      simp only [List.getElem?_eq_getElem lt, Option.bind_some]
      rw [add64_eq (by omega)]
      by_cases hit : l[mid].oldLoc ≤ x ∧ x < l[mid].oldLoc + l[mid].size
      · rw [if_pos hit, sub64_eq hit.1 (by omega)]
        exact ⟨_, rfl, .inl ⟨l[mid], getElem_mem lt, hit, rfl⟩⟩
      rw [if_neg hit]
      by_cases less : x < l[mid].oldLoc
      · rw [if_pos less]
        refine ih (by omega) (by omega) fun i lt_i holds => ⟨(outside i lt_i holds).1, ?_⟩
        by_contra ge_i
        rcases eq_or_lt_of_le (Nat.le_of_not_lt ge_i) with rfl | after
        · exact hit holds
        · have := order mid i lt lt_i after
          have := holds.1
          omega
      · rw [if_neg less]
        refine ih end_ (by omega) fun i lt_i holds => ⟨?_, (outside i lt_i holds).2⟩
        by_contra lt_mid
        rcases eq_or_lt_of_le (show i ≤ mid by omega) with rfl | before
        · exact hit holds
        · have := order i mid lt_i lt before
          have := holds.2
          omega
    · rw [if_neg some_]
      refine ⟨0, rfl, .inr ⟨?_, rfl⟩⟩
      rintro z ⟨e, mem, holds, -⟩
      obtain ⟨i, lt, rfl⟩ := mem_iff_getElem.mp mem
      have := outside i lt holds
      omega

/- Close locations are compared as they should be. -/
theorem extentCmp_eq {a b : Entry} (word : b.oldLoc < 2 ^ 48)
    (near : a.oldLoc < b.oldLoc + 2 ^ 31) (near' : b.oldLoc < a.oldLoc + 2 ^ 31) :
    extentCmp a b = (a.oldLoc : Int) - b.oldLoc := by
  unfold extentCmp toInt32 sub64
  rw [Int.bmod_def]
  omega

section

variable (stands : Stands t m)
include stands

section

variable {old new : Nat} (fresh : m old = none)
include fresh

theorem Stands.update (grows : ∀ x y, Gives l x y ↔ Gives t.list x y ∨ x = old ∧ new = y)
    (x y : Nat) : Function.update m old (some new) x = some y ↔ Gives l x y := by
  rw [grows, ← stands.gives]
  by_cases is : x = old
  · subst is
    simp [fresh]
  · simp [is]

theorem Stands.free : ∀ e ∈ t.list, ¬ e.Holds old := by
  intro e mem holds
  have given := (stands.gives old _).mpr ⟨e, mem, holds, rfl⟩
  rw [fresh] at given
  cases given

variable (low : old < 2 ^ 48)
include low

theorem Stands.append (word : new < 2 ^ 64) {flag : Bool}
    (sorted : flag = true → t.sorted = true ∧ ∀ e ∈ t.list, e.oldLoc < old) :
    Stands ⟨t.list ++ [⟨old, new, 1⟩], flag⟩ (Function.update m old (some new)) := by
  refine ⟨?_, ?_, fun on => ?_, stands.update fresh fun x y => ?_⟩
  · exact forall_mem_append.mpr ⟨stands.bound, by simpa using low⟩
  · refine pairwise_append.mpr ⟨stands.apart, pairwise_singleton _ _, fun a mem b is => ?_⟩
    have pos := (stands.bound a mem).1
    have apart := stands.free fresh a mem
    obtain rfl := mem_singleton.mp is
    unfold Entry.Holds at apart
    dsimp only
    omega
  · obtain ⟨before, less⟩ := sorted on
    rw [map_append, pairwise_append]
    exact ⟨stands.sorted before, pairwise_singleton _ _, by simpa using less⟩
  · have self : add64 new 0 = new := add64_eq word
    simp only [Gives, mem_append, mem_singleton, or_and_right, exists_or, exists_eq_left,
      Entry.Holds]
    refine or_congr Iff.rfl ⟨?_, ?_⟩
    · rintro ⟨here, rfl⟩
      obtain rfl : x = old := by omega
      rw [Nat.sub_self, self]
      exact ⟨rfl, rfl⟩
    · rintro ⟨rfl, rfl⟩
      rw [Nat.sub_self, self]
      exact ⟨by omega, rfl⟩

theorem Stands.grow {front : List Entry} {ent : Entry} (is : t.list = front ++ [ent])
    (next : ent.oldLoc + ent.size = old) (joins : add64 ent.newLoc ent.size = new) :
    Stands { t with list := front ++ [{ ent with size := ent.size + 1 }] }
    (Function.update m old (some new)) := by
  have bound := stands.bound
  have apart := stands.apart
  have free := stands.free fresh
  rw [is, forall_mem_append] at bound free
  rw [is, pairwise_append] at apart
  refine ⟨?_, ?_, by simpa [is] using stands.sorted, stands.update fresh fun x y => ?_⟩
  · exact forall_mem_append.mpr ⟨bound.1, by simp only [mem_singleton, forall_eq]; omega⟩
  · refine pairwise_append.mpr ⟨apart.1, pairwise_singleton _ _, fun a mem b is => ?_⟩
    have pos := (bound.1 a mem).1
    have apart_old := free.1 a mem
    have apart_ent := apart.2.2 a mem ent (by simp)
    obtain rfl := mem_singleton.mp is
    unfold Entry.Holds at apart_old
    dsimp only
    omega
  · have value : ent.oldLoc + ent.size - ent.oldLoc = ent.size := by omega
    rw [is]
    simp only [Gives, mem_append, mem_singleton, or_and_right, exists_or, exists_eq_left,
      Entry.Holds, or_assoc]
    refine or_congr Iff.rfl ⟨?_, ?_⟩
    · rintro ⟨here, rfl⟩
      rcases lt_or_ge x old with lt | ge
      · exact .inl ⟨by omega, rfl⟩
      · obtain rfl : x = old := by omega
        exact .inr ⟨rfl, by rw [← joins, ← next, value]⟩
    · rintro (⟨here, rfl⟩ | ⟨rfl, rfl⟩)
      · exact ⟨by omega, rfl⟩
      · exact ⟨by omega, by rw [← joins, ← next, value]⟩

theorem addExtentEntry_stands (word : new < 2 ^ 64) :
    Stands (addExtentEntry t old new) (Function.update m old (some new)) := by
  unfold addExtentEntry
  rcases eq_nil_or_concat' t.list with empty | ⟨front, ent, is⟩
  · have first : Stands ⟨t.list ++ [⟨old, new, 1⟩], t.sorted⟩ _ :=
      stands.append fresh low word fun on => ⟨on, by simp [empty]⟩
    simpa [empty] using first
  have bound := stands.bound ent (by simp [is])
  have last : t.list.getLast? = some ent := by simp [is]
  rw [last]
  dsimp only
  rw [add64_eq (by omega)]
  split_ifs with joins
  · rw [is, dropLast_concat]
    exact stands.grow fresh low is joins.1 joins.2
  · refine stands.append fresh low word fun on => ?_
    rw [Bool.and_eq_true, decide_eq_true_iff] at on
    have sorted := stands.sorted on.1
    rw [is, map_append, pairwise_append] at sorted
    rw [is, forall_mem_append]
    refine ⟨on.1, fun e mem => ?_, by simp only [mem_singleton, forall_eq]; omega⟩
    have := sorted.2.2 _ (mem_map_of_mem mem) ent.oldLoc (by simp)
    omega

end

theorem sort_stands (near : ∀ a ∈ t.list, ∀ b ∈ t.list, a.oldLoc < b.oldLoc + 2 ^ 31) :
    Stands ⟨env.qsort extentCmp t.list, true⟩ m := by
  have compares : Compares extentCmp (·.oldLoc) t.list := by
    intro a ha b hb
    have := stands.bound b hb
    rw [extentCmp_eq (by omega) (near a ha b hb) (near b hb a ha)]
    beta_reduce
    omega
  obtain ⟨perm, sorted⟩ := compares.sorted env.sorts
  have apart := (perm.pairwise_iff fun {a b} => Or.symm).mpr stands.apart
  refine ⟨fun e mem => stands.bound e (perm.mem_iff.mp mem), apart, fun _ => ?_, fun x y => ?_⟩
  · rw [pairwise_map]
    refine (apart.and sorted).imp_of_mem fun {a b} ha hb ⟨apart, le⟩ => ?_
    have := stands.bound a (perm.mem_iff.mp ha)
    have := stands.bound b (perm.mem_iff.mp hb)
    omega
  · rw [stands.gives]
    simp only [Gives, perm.mem_iff]

theorem translate_spec (near : Near t (.translate x)) :
    (step env t (.translate x)).2 = some ((m x).getD 0) ∧
    Stands (step env t (.translate x)).1 m := by
  have sorted : ∃ l, (if t.sorted then t else ⟨env.qsort extentCmp t.list, true⟩) = ⟨l, true⟩ ∧
      Stands ⟨l, true⟩ m := by
    cases on : t.sorted with
    | true => exact ⟨t.list, by rw [if_pos rfl, ← on], by rwa [← on]⟩
    | false => exact ⟨_, rfl, sort_stands stands (near on)⟩
  obtain ⟨l, is, stands'⟩ := sorted
  rw [step, is]
  refine ⟨?_, stands'⟩
  have order : l.Pairwise fun a b => a.oldLoc + a.size ≤ b.oldLoc := by
    have := (stands'.apart.and (pairwise_map.mp (stands'.sorted rfl)))
    refine this.imp_of_mem fun {a b} ha hb both => ?_
    omega
  obtain ⟨y, found, gives | ⟨nothing, rfl⟩⟩ :=
    @search_spec env l x (fun e mem => (stands'.bound e mem).2) order
    (l.length + 1) 0 l.length (le_refl _) (Nat.lt_succ_self _) fun i lt _ => ⟨Nat.zero_le i, lt⟩
  · rw [found, (stands'.gives x y).mpr gives, Option.getD_some]
  · have none_ : m x = none := Option.eq_none_iff_forall_ne_some.mpr fun z is =>
      nothing z ((stands'.gives x z).mp is)
    rw [found, none_, Option.getD_none]

end

/-- With locations that are added once, and close to each other where they have to be sorted, the
table translates as it should. -/
theorem translates_near (env : Env) (ops : List Op)
    (fresh : Along (fun m op => (want m op).1) Fresh (fun _ => none) ops)
    (near : Along (fun t op => (step env t op).1) Near createExtentTable ops) :
    Answers (step env) want (fun _ out wanted => out = wanted) createExtentTable (fun _ => none)
      ops := by
  refine (answers_iff Stands ?_ (fun _ _ _ _ is _ not => absurd is not) ?_ ops near fresh).mpr near
  · intro t m op stands _ fresh near
    cases op with
    | add old new => exact ⟨rfl, addExtentEntry_stands stands fresh.1 fresh.2.1 fresh.2.2⟩
    | translate x => exact translate_spec stands near
  · exact ⟨by simp [createExtentTable], List.Pairwise.nil,
      fun _ => List.Pairwise.nil, by simp [Gives, createExtentTable]⟩

/- A sort that keeps to its contract, and the lowest position for the interpolation, which the code
takes for a location below all others. -/
def lowEnv : Env where
  qsort := sortBy
  interpolate _ _ low _ := low
  sorts := sorts_sortBy
  inside _ _ _ _ le := ⟨le_refl _, le⟩

theorem translates_near_on_three :
    Answers (step lowEnv) want (fun _ out wanted => out = wanted) createExtentTable (fun _ => none)
      [.add 5 100, .add 6 101, .add 1 50, .translate 6, .translate 2] := by
  refine translates_near lowEnv _ ?_ ?_
  · simp [Along, Fresh, want]
  · simp [Along, Near, step, createExtentTable, addExtentEntry, add64_eq]

/-- Two locations more than `2 ^ 31` apart are sorted the wrong way round, and the first one is not
found. -/
theorem far_location_lost :
    ¬ Answers (step lowEnv) want (fun _ out wanted => out = wanted) createExtentTable
      (fun _ => none) [.add (2 ^ 31 + 1) 7, .add 0 9, .translate 0] := by
  rintro ⟨-, -, answer, -⟩
  have lost :
    (step lowEnv (step lowEnv (step lowEnv createExtentTable (.add (2 ^ 31 + 1) 7)).1 (.add 0 9)).1
      (.translate 0)).2 = some 0 := by decide +kernel
  rw [lost] at answer
  cases answer

end E2fs.Resize
