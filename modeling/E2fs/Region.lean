import E2fs.Bitmap.Rb
import E2fs.Lib.Run
import Mathlib.Order.CompletePartialOrder

/-! e2fsck/region.c: ranges in use, kept in a linked list. An element has an address, and
`last` is one of these or null. -/
namespace E2fs.Region
open Word Run List

structure RegionEl where
  addr : Nat
  start : Nat
  stop : Nat
  deriving DecidableEq

structure RegionStruct where
  min : Nat
  max : Nat
  allocated : List RegionEl
  last : Option Nat

def regionCreate (min max : Nat) : RegionStruct := ⟨min, max, [], none⟩

/- The element `r` ends where the range begins: it grows, up to the next one at most. The result
is a conflict, or the list and what `last` is set to. -/
def growEnd (new r : RegionEl) : List RegionEl → Option (List RegionEl × Option Nat)
  | [] => some ([{ r with stop := new.stop }], none)
  | next :: rest =>
    if next.start < new.stop then none
    else if new.stop = next.start then
      some ({ r with stop := next.stop } :: rest, if rest = [] then some r.addr else none)
    else some ({ r with stop := new.stop } :: next :: rest, none)

/- The loop over the list, from an element on. `new` is only linked in where none can grow. -/
def search (new : RegionEl) : List RegionEl → Option (List RegionEl × Option Nat)
  | [] => some ([new], some new.addr)
  | r :: rest =>
    if (r.start ≤ new.start ∧ new.start < r.stop) ∨ (r.start < new.stop ∧ new.stop ≤ r.stop) ∨
        (new.start ≤ r.start ∧ r.stop ≤ new.stop) then none
    else if new.stop = r.start then some ({ r with start := new.start } :: rest, none)
    else if new.start = r.stop then growEnd new r rest
    else if new.start < r.start then some (new :: r :: rest, none)
    else (search new rest).map fun (els, last) => (r :: els, last)

def lastEl (region : RegionStruct) : Option RegionEl :=
  match region.allocated.dropWhile fun el => region.last ≠ some el.addr with
  | [last] => some last
  | _ => none

def searchList (region : RegionStruct) (new : RegionEl) : RegionStruct × Int :=
  match search new region.allocated with
  | none => (region, 1)
  | some (els, last) => ({ region with allocated := els, last := last.or region.last }, 0)

/- The two shortcuts through `last`, and the search. -/
def place (region : RegionStruct) (new : RegionEl) : RegionStruct × Int :=
  match lastEl region with
  | none => searchList region new
  | some last =>
    if last.stop = new.start then
      ({ region with
          allocated := region.allocated.dropLast ++ [{ last with stop := new.stop }] }, 0)
    else if last.stop < new.start then
      ({ region with allocated := region.allocated ++ [new], last := some new.addr }, 0)
    else searchList region new

def regionAllocate (mem : Rb.Allocator) (region : RegionStruct) (start : Nat) (n : Int) :
    RegionStruct × Int :=
  let stop := offset64 start n
  if start < region.min ∨ region.max < stop then (region, -1)
  else if n = 0 then (region, 1)
  else place region ⟨mem.fresh (region.allocated.map (·.addr)), start, stop⟩

/-- A request for at least one position, with an end that is an address. -/
structure Request where
  start : Nat
  n : Int
  pos : 1 ≤ n
  word : start + n < 2 ^ 64

def step (mem : Rb.Allocator) (region : RegionStruct) (call : Request) : RegionStruct × Int :=
  regionAllocate mem region call.start call.n

section Spec

open Classical in
/-- The bookkeeping: the positions in use, and the answer. -/
noncomputable def book (min max : Nat) (used : Set Nat) (call : Request) :
    Set Nat × Int × Set Nat :=
  let range := Set.Ico call.start (call.start + call.n.toNat)
  if ¬ range ⊆ Set.Ico min max then (used, -1, used)
  else if Disjoint used range then (used ∪ range, 0, used ∪ range)
  else (used, 1, used)

def Covered (els : List RegionEl) (p : Nat) : Prop := ∃ el ∈ els, el.start ≤ p ∧ p < el.stop

/-- The elements lie in `[low, max)`, none is empty, and each ends before the next one begins. -/
def Apart (max : Nat) : Nat → List RegionEl → Prop
  | _, [] => True
  | low, el :: rest =>
    low ≤ el.start ∧ el.start < el.stop ∧ el.stop ≤ max ∧ Apart max (el.stop + 1) rest

structure Kept (min max : Nat) (region : RegionStruct) (used : Set Nat) : Prop where
  low : region.min = min
  high : region.max = max
  apart : Apart max min region.allocated
  last : region.last = region.allocated.getLast?.map (·.addr)
  distinct : (region.allocated.map (·.addr)).Nodup
  covered : ∀ p, p ∈ used ↔ Covered region.allocated p

end Spec

@[simp] theorem covered_nil (p : Nat) : Covered [] p ↔ False := by simp [Covered]

@[simp] theorem covered_cons (el : RegionEl) (els : List RegionEl) (p : Nat) :
    Covered (el :: els) p ↔ (el.start ≤ p ∧ p < el.stop) ∨ Covered els p := by
  simp [Covered]

variable {top low : Nat} {new r r' : RegionEl} {els before rest : List RegionEl}

theorem Apart.of_mem (apart : Apart top low els) {el : RegionEl} (mem : el ∈ els) :
    low ≤ el.start ∧ el.start < el.stop := by
  induction els generalizing low with
  | nil => cases mem
  | cons r rest ih =>
    obtain ⟨above, filled, -, later⟩ := apart
    rcases mem_cons.mp mem with rfl | there
    · exact ⟨above, filled⟩
    · have := ih later there
      omega

theorem Apart.low_le (apart : Apart top low els) {p : Nat} (covered : Covered els p) : low ≤ p := by
  obtain ⟨el, mem, from_, -⟩ := covered
  exact (apart.of_mem mem).1.trans from_

/-- What a search leaves that found a place. -/
structure Placed (top low : Nat) (new : RegionEl) (els els' : List RegionEl) (last : Option Nat) :
    Prop where
  apart : Apart top low els'
  last : els'.getLast?.map (·.addr) = last.or (els.getLast?.map (·.addr))
  addrs : List.Subperm (els'.map (·.addr)) (new.addr :: els.map (·.addr))
  covered : ∀ p, Covered els' p ↔ Covered els p ∨ (new.start ≤ p ∧ p < new.stop)
  free : ∀ p, Covered els p → ¬ (new.start ≤ p ∧ p < new.stop)

/-- Either the range meets a position that is taken, or it is placed. -/
def Answer (top low : Nat) (new : RegionEl) (els : List RegionEl) :
    Option (List RegionEl × Option Nat) → Prop
  | none => ∃ p, Covered els p ∧ new.start ≤ p ∧ p < new.stop
  | some (els', last) => Placed top low new els els' last

theorem Placed.grow (same : r'.addr = r.addr) (apart : Apart top low (r' :: rest))
    (covered : ∀ p,
      (Covered (r' :: rest) p ↔ Covered (r :: rest) p ∨ (new.start ≤ p ∧ p < new.stop)) ∧
      (Covered (r :: rest) p → ¬ (new.start ≤ p ∧ p < new.stop))) :
    Placed top low new (r :: rest) (r' :: rest) none where
  apart := apart
  last := by cases rest <;> simp [same]
  addrs := by simpa [same] using (sublist_cons_self ..).subperm
  covered p := (covered p).1
  free p := (covered p).2

theorem growEnd_spec (filled : new.start < new.stop) (le : new.stop ≤ top)
    (apart : Apart top low (r :: rest))
    (touches : new.start = r.stop) : Answer top low new (r :: rest) (growEnd new r rest) := by
  obtain ⟨low_le, r_filled, r_le, later⟩ := apart
  have longer : r.start < new.stop := by omega
  cases rest with
  | nil =>
    refine Placed.grow rfl ⟨low_le, longer, le, trivial⟩ fun p => ?_
    grind [covered_cons, covered_nil]
  | cons next rest =>
    obtain ⟨next_low, next_filled, next_le, beyond⟩ := later
    have after : ∀ p, Covered rest p → next.stop < p := fun p => beyond.low_le
    rw [growEnd]
    by_cases conflict : next.start < new.stop
    · rw [if_pos conflict]
      exact ⟨next.start, by simp [next_filled], by omega, conflict⟩
    rw [if_neg conflict]
    by_cases joins : new.stop = next.start
    · rw [if_pos joins]
      refine ⟨⟨low_le, by dsimp only; omega, next_le, beyond⟩, ?_, ?_, fun p => ?_, fun p => ?_⟩
      · cases rest <;> simp
      · exact (((sublist_cons_self ..).cons_cons _).cons _).subperm
      · grind [covered_cons]
      · grind [covered_cons]
    · rw [if_neg joins]
      refine Placed.grow rfl ⟨low_le, longer, le, ?_, next_filled, next_le, beyond⟩ fun p => ?_
      · dsimp only
        omega
      · grind [covered_cons]

theorem search_spec (filled : new.start < new.stop) (le : new.stop ≤ top) (above : low ≤ new.start)
    (apart : Apart top low els) : Answer top low new els (search new els) := by
  induction els generalizing low with
  | nil => exact ⟨⟨above, filled, le, trivial⟩, rfl, Subperm.refl _, by simp, by simp⟩
  | cons r rest ih =>
    have whole := apart
    obtain ⟨low_le, r_filled, r_le, later⟩ := apart
    have beyond : ∀ p, Covered rest p → r.stop < p := fun p => later.low_le
    rw [search]
    split_ifs with conflict before touches first
    · refine ⟨max r.start new.start, ?_⟩
      rw [covered_cons]
      omega
    · refine Placed.grow rfl ⟨above, by dsimp only; omega, r_le, later⟩ fun p => ?_
      grind [covered_cons]
    · exact growEnd_spec filled le whole touches
    · refine ⟨⟨above, filled, le, ⟨by omega, r_filled, r_le, later⟩⟩, rfl, Subperm.refl _, ?_, ?_⟩
      · intro p
        rw [covered_cons, or_comm]
      · grind [covered_cons]
    · have answer := ih (by omega) later
      cases result : search new rest with
      | none =>
        rw [result] at answer
        obtain ⟨p, there, inside⟩ := answer
        exact ⟨p, (covered_cons ..).mpr (.inr there), inside⟩
      | some found =>
        rw [result] at answer
        refine ⟨⟨low_le, r_filled, r_le, answer.apart⟩, ?_, ?_, fun p => ?_, fun p => ?_⟩
        · obtain ⟨els', last⟩ := found
          have same := answer.last
          rw [getLast?_cons, getLast?_cons]
          cases last <;> cases h1 : els'.getLast? <;> cases h2 : rest.getLast? <;> simp_all
        · exact ((subperm_cons r.addr).mpr answer.addrs).trans (Perm.swap ..).subperm
        · rw [covered_cons, covered_cons, answer.covered p, or_assoc]
        · have := answer.free p
          grind [covered_cons]

/- Behind the last element the search comes to the end of the list. -/
theorem search_behind {last : RegionEl} (apart : Apart top low (before ++ [last]))
    (behind : last.stop ≤ new.start) (filled : new.start < new.stop) :
    search new (before ++ [last]) = (search new [last]).map fun (els, end_) =>
    (before ++ els, end_) := by
  induction before generalizing low with
  | nil => simp
  | cons r before ih =>
    obtain ⟨-, r_filled, -, later⟩ := apart
    have := later.of_mem (show last ∈ before ++ [last] by simp)
    rw [cons_append, search, if_neg (by omega), if_neg (by omega), if_neg (by omega),
      if_neg (by omega), ih later]
    cases search new [last] <;> simp

section

variable {min max : Nat} {region : RegionStruct} {used : Set Nat} (kept : Kept min max region used)
include kept

theorem Kept.lastEl_eq : lastEl region = region.allocated.getLast? := by
  have here := kept.last
  have distinct := kept.distinct
  rcases eq_nil_or_concat' region.allocated with empty | ⟨before, last, is⟩
  · simp [lastEl, empty]
  rw [is] at distinct here
  rw [map_append, nodup_append] at distinct
  have others : ∀ el ∈ before, region.last ≠ some el.addr := by
    intro el mem
    have := distinct.2.2 _ (mem_map_of_mem mem) _ (mem_singleton_self _)
    simpa [here] using this.symm
  have cut : region.allocated.dropWhile (fun el => region.last ≠ some el.addr) = [last] := by
    rw [is, dropWhile_append_of_pos (by simpa using others)]
    simp [here]
  rw [lastEl, cut, is, getLast?_concat]

theorem place_eq (filled : new.start < new.stop) : place region new = searchList region new := by
  unfold place searchList
  rw [kept.lastEl_eq]
  rcases eq_nil_or_concat' region.allocated with empty | ⟨before, last, is⟩
  · simp [empty]
  have last_filled := kept.apart.of_mem (show last ∈ region.allocated by simp [is])
  have apart := kept.apart
  rw [is] at apart ⊢
  rw [getLast?_concat]
  dsimp only
  split_ifs with touches behind
  · have grows : search new [last] = growEnd new last [] := by
      rw [search, if_neg (by omega), if_neg (by omega), if_pos touches.symm]
    rw [search_behind apart touches.le filled, grows]
    simp [growEnd]
  · have links : search new [last] = some ([last, new], some new.addr) := by
      rw [search, if_neg (by omega), if_neg (by omega), if_neg (by omega), if_neg (by omega),
        search]
      rfl
    rw [search_behind apart behind.le filled, links]
    simp
  · rfl

theorem step_spec (mem : Rb.Allocator) (call : Request) :
    let out := step mem region call
    let want := book min max used call
    out.2 = want.2.1 ∧ Kept min max out.1 want.2.2 ∧ want.1 = want.2.2 := by
  obtain ⟨start, n, pos, word⟩ := call
  have stop : offset64 start n = start + n.toNat := by
    unfold offset64
    omega
  have outside : ¬ Set.Ico start (start + n.toNat) ⊆ Set.Ico min max ↔
      start < min ∨ max < start + n.toNat := by
    rw [Set.Ico_subset_Ico_iff (by omega)]
    omega
  simp only [step, book, regionAllocate, stop, outside, kept.low, kept.high]
  by_cases leaves : start < min ∨ max < start + n.toNat
  · rw [if_pos leaves, if_pos leaves]
    exact ⟨rfl, kept, rfl⟩
  rw [if_neg leaves, if_neg leaves, if_neg (by omega)]
  generalize new_is :
    (⟨mem.fresh (region.allocated.map (·.addr)), start, start + n.toNat⟩ : RegionEl) = new
  obtain ⟨rfl, fresh, last⟩ : new.start = start ∧ new.addr ∉ region.allocated.map (·.addr) ∧
      start + n.toNat = new.stop := by
    rw [← new_is]
    exact ⟨rfl, mem.unused _, rfl⟩
  have filled : new.start < new.stop := by omega
  rw [last, place_eq kept filled, searchList]
  have answer := search_spec filled (show new.stop ≤ max by omega) (by omega) kept.apart
  cases found : search new region.allocated with
  | none =>
    rw [found] at answer
    obtain ⟨p, there, inside⟩ := answer
    rw [if_neg (Set.not_disjoint_iff.mpr ⟨p, (kept.covered p).mpr there, inside⟩)]
    exact ⟨rfl, kept, rfl⟩
  | some result =>
    rw [found] at answer
    have free : Disjoint used (Set.Ico new.start new.stop) :=
      Set.disjoint_left.mpr fun p there => answer.free p ((kept.covered p).mp there)
    rw [if_pos free]
    obtain ⟨addrs, perm, sub⟩ := answer.addrs
    have distinct := perm.nodup_iff.mp (sub.nodup (nodup_cons.mpr ⟨fresh, kept.distinct⟩))
    refine ⟨rfl, ⟨kept.low, kept.high, answer.apart, ?_, distinct, fun p => ?_⟩, rfl⟩
    · rw [kept.last]
      exact answer.last.symm
    · rw [answer.covered p, ← kept.covered p]
      rfl

end

/-- Along every sequence of calls the answers are those of the bookkeeping, and the list stays in
order, with `last` at its end. -/
theorem region_allocate_exact (mem : Rb.Allocator) (min max : Nat) (calls : List Request) :
    Answers (step mem) (book min max)
    (fun region ret want => ret = want.1 ∧ Kept min max region want.2)
      (regionCreate min max) ∅ calls := by
  have start : Kept min max (regionCreate min max) ∅ :=
    ⟨rfl, rfl, trivial, rfl, nodup_nil, by simp [regionCreate]⟩
  generalize regionCreate min max = region, (∅ : Set Nat) = used at start
  induction calls generalizing region used with
  | nil => trivial
  | cons call calls ih =>
    obtain ⟨same, kept, is⟩ := step_spec start mem call
    exact ⟨⟨same, kept⟩, ih _ _ (is ▸ kept)⟩

end E2fs.Region
