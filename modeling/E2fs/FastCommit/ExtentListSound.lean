import E2fs.Bitmap.Clusters
import E2fs.FastCommit.Sorting

/-! What one replayed range does to the list and to the bitmap. -/
namespace E2fs.FastCommit
open Word Comparator Rb Generic List Nat

def Extent.Holds (e : Extent) (l : Nat) : Prop := e.lblk ≤ l ∧ l < e.lblk + e.len

/- The list maps a logical block to a physical one, with an uninit flag. -/
def Maps (xs : List Extent) (l p u : Nat) : Prop :=
  ∃ e ∈ xs, e.Holds l ∧ p = e.pblk + (l - e.lblk) ∧ u = e.uninit

/-- Sorted and disjoint, no empty extent, and all logical blocks below `2 ^ 32`. -/
structure ListWf (xs : List Extent) : Prop where
  ordered : xs.Pairwise fun a b => a.lblk + a.len ≤ b.lblk
  filled : ∀ e ∈ xs, 0 < e.len
  below : ∀ e ∈ xs, e.lblk + e.len ≤ 2 ^ 32
  short : ∀ e ∈ xs, e.len < 2 ^ 32

def physOf (e : Extent) : Set Nat := Set.Ico e.pblk (e.pblk + e.len)

def InMap (bm : GenericBitmap64) (e : Extent) : Prop :=
  Covers bm.bounds bm.clusterBits e.pblk e.len

/- `e` is what is left of `f` after cutting. -/
structure Piece (e f : Extent) : Prop where
  low : f.lblk ≤ e.lblk
  high : e.lblk + e.len ≤ f.lblk + f.len
  phys : e.pblk = f.pblk + (e.lblk - f.lblk)
  flags : e.flags = f.flags

@[simp] theorem maps_nil (l p u : Nat) : Maps [] l p u ↔ False := by simp [Maps]

@[simp] theorem maps_cons (e : Extent) (xs : List Extent) (l p u : Nat) : Maps (e :: xs) l p u ↔
      (e.Holds l ∧ p = e.pblk + (l - e.lblk) ∧ u = e.uninit) ∨ Maps xs l p u := by
  simp [Maps]

theorem maps_append (xs ys : List Extent) (l p u : Nat) : Maps (xs ++ ys) l p u ↔
    Maps xs l p u ∨ Maps ys l p u := by
  simp [Maps, or_and_right, exists_or]

variable {xs : List Extent} {e add : Extent} {bm : GenericBitmap64}

theorem mem_live : e ∈ live xs ↔ e ∈ xs ∧ e.len ≠ 0 := by
  simp [live]

theorem maps_live (xs : List Extent) (l p u : Nat) : Maps (live xs) l p u ↔ Maps xs l p u := by
  refine exists_congr fun e => ?_
  rw [mem_live, and_assoc]
  refine and_congr_right fun _ => and_iff_right_of_imp fun rest zero => ?_
  obtain ⟨low, high⟩ := rest.1
  omega

theorem maps_perm {ys : List Extent} (perm : xs.Perm ys) (l p u : Nat) :
    Maps xs l p u ↔ Maps ys l p u := by
  simp only [Maps, perm.mem_iff]

theorem Piece.inMap {f : Extent} (piece : Piece e f) (filled : 0 < e.len) (inside : InMap bm f) :
    InMap bm e := by
  obtain ⟨low, high, phys, -⟩ := piece
  refine ⟨filled, lt_of_le_of_lt ?_ inside.short, le_trans inside.low ?_,
    le_trans ?_ inside.high, le_trans ?_ inside.word⟩
  · omega
  · simp only [shiftRight_eq_div_pow]
    exact Nat.div_le_div_right (by omega)
  · simp only [shiftRight_eq_div_pow]
    exact Nat.div_le_div_right (by omega)
  · omega

section Ends

variable {e : Extent}

theorem exEnd_eq (filled : 0 < e.len) (below : e.lblk + e.len ≤ 2 ^ 32) :
    exEnd e = e.lblk + e.len - 1 := by
  rw [exEnd, add64_eq (by omega), sub64_eq (by omega) (by omega)]

theorem exPend_eq (filled : 0 < e.len) (word : e.pblk + e.len < 2 ^ 64) :
    exPend e = e.pblk + e.len - 1 := by
  rw [exPend, add64_eq (by omega), sub64_eq (by omega) (by omega)]

end Ends

/-- The operation's own range: at least one block, below `2 ^ 32`. -/
structure RangeWf (ex : Extent) : Prop where
  filled : 0 < ex.len
  short : ex.len < 2 ^ 32
  below : ex.lblk + ex.len ≤ 2 ^ 32

/- No extent that sticks out of the range on the right loses `2 ^ 31` blocks or
more: the source keeps that number in an `int`. -/
def Narrow (ex : Extent) (xs : List Extent) : Prop :=
  ∀ e ∈ xs, e.lblk < ex.lblk + ex.len → ex.lblk + ex.len < e.lblk + e.len →
    ex.lblk + ex.len - e.lblk < 2 ^ 31

theorem live_append (xs ys : List Extent) : live (xs ++ ys) = live xs ++ live ys := by
  simp [live]

theorem ListWf.tail (wf : ListWf (e :: xs)) : ListWf xs :=
  ⟨wf.ordered.of_cons, fun x hx => wf.filled x (by simp [hx]),
    fun x hx => wf.below x (by simp [hx]), fun x hx => wf.short x (by simp [hx])⟩

def before (add e : Extent) : Extent := { e with len := min e.len (add.lblk - e.lblk) }

def behind (add e : Extent) : Extent :=
  let skip := add.lblk + add.len - e.lblk
  ⟨e.pblk + skip, e.lblk + skip, e.len - skip, e.flags⟩

/-- The entries that the hole-making loop leaves of one extent: an empty one if the range
covers it. -/
def remnants (add e : Extent) : List Extent :=
  if (behind add e).len = 0 then [before add e]
  else if (before add e).len = 0 then [behind add e]
  else [before add e, behind add e]

theorem mem_remnants {x : Extent} : x ∈ live (remnants add e) ↔
    (x = before add e ∨ x = behind add e) ∧ x.len ≠ 0 := by
  rw [mem_live, remnants]
  refine and_congr_left fun filled => ?_
  split_ifs <;> aesop

theorem remnants_beyond (filled : 0 < e.len) (beyond : add.lblk + add.len ≤ e.lblk) :
    remnants add e = [e] := by
  have skip : add.lblk + add.len - e.lblk = 0 := by omega
  have front : add.lblk - e.lblk = 0 := by omega
  simp [remnants, before, behind, skip, front, filled.ne']

theorem remnants_piece {x : Extent} (left : x ∈ live (remnants add e)) :
    Piece x e ∧ (x.lblk + x.len ≤ add.lblk ∨ add.lblk + add.len ≤ x.lblk) := by
  obtain ⟨rfl | rfl, filled⟩ := mem_remnants.mp left
  · simp only [before] at filled ⊢
    exact ⟨⟨le_refl _, by simp only; omega, by simp, rfl⟩, .inl (by omega)⟩
  · simp only [behind] at filled ⊢
    exact ⟨⟨by simp, by simp only; omega, by simp, rfl⟩, .inr (by omega)⟩

theorem remnants_ordered (add e : Extent) :
    (live (remnants add e)).Pairwise fun a b => a.lblk + a.len ≤ b.lblk := by
  refine Pairwise.sublist filter_sublist ?_
  unfold remnants
  split_ifs <;> simp [before, behind]
  omega

theorem maps_remnants (l p u : Nat) :
    Maps (remnants add e) l p u ↔ Maps [e] l p u ∧ ¬ add.Holds l := by
  rw [← maps_live]
  simp only [Maps, mem_remnants, mem_singleton, exists_eq_left]
  constructor
  · rintro ⟨x, ⟨rfl | rfl, -⟩, ⟨low, high⟩, rfl, rfl⟩
    · simp only [before] at low high ⊢
      refine ⟨⟨⟨by omega, by omega⟩, trivial, rfl⟩, fun held => ?_⟩
      have := held.1
      omega
    · simp only [behind] at low high ⊢
      refine ⟨⟨⟨by omega, by omega⟩, by omega, rfl⟩, fun held => ?_⟩
      have := held.2
      omega
  · rintro ⟨⟨⟨low, high⟩, rfl, rfl⟩, free⟩
    rw [Extent.Holds, not_and_or] at free
    rcases free with front | back
    · refine ⟨before add e, ⟨.inl rfl, ?_⟩, ⟨low, ?_⟩, rfl, rfl⟩ <;> simp only [before] <;> omega
    · refine ⟨behind add e, ⟨.inr rfl, ?_⟩, ⟨?_, ?_⟩, ?_, rfl⟩ <;> simp only [behind] <;> omega

theorem maps_flatMap (f : Extent → List Extent) (l p u : Nat) :
    Maps (xs.flatMap f) l p u ↔ ∃ e ∈ xs, Maps (f e) l p u := by
  simp only [Maps, mem_flatMap]
  constructor
  · rintro ⟨x, ⟨e, he, hx⟩, at_⟩
    exact ⟨e, he, x, hx, at_⟩
  · rintro ⟨e, he, x, hx, at_⟩
    exact ⟨x, ⟨e, he, hx⟩, at_⟩

/- The list as a whole: pieces of the old extents outside the range, in order. -/
theorem maps_left (l p u : Nat) : Maps (xs.flatMap (remnants add)) l p u ↔
    Maps xs l p u ∧ ¬ add.Holds l := by
  simp only [maps_flatMap, maps_remnants, maps_cons, maps_nil, or_false]
  simp only [Maps, ← and_assoc, exists_and_right]

theorem live_left : live (xs.flatMap (remnants add)) = xs.flatMap fun e => live (remnants add e) :=
  filter_flatMap

theorem left_pieces {x : Extent} (left : x ∈ live (xs.flatMap (remnants add))) :
    (∃ f ∈ xs, Piece x f) ∧ (x.lblk + x.len ≤ add.lblk ∨ add.lblk + add.len ≤ x.lblk) := by
  rw [live_left, mem_flatMap] at left
  obtain ⟨f, hf, left⟩ := left
  obtain ⟨piece, outside⟩ := remnants_piece left
  exact ⟨⟨f, hf, piece⟩, outside⟩

theorem left_ordered (wf : ListWf xs) :
    (live (xs.flatMap (remnants add))).Pairwise fun a b => a.lblk + a.len ≤ b.lblk := by
  rw [live_left, pairwise_flatMap]
  refine ⟨fun e _ => remnants_ordered add e, wf.ordered.imp fun gap x hx y hy => ?_⟩
  have first := (remnants_piece hx).1.high
  have second := (remnants_piece hy).1.low
  omega

theorem cutFront_eq (range : RangeWf add) (short : e.len < 2 ^ 32) (word : e.pblk + e.len < 2 ^ 64)
    (meets : e.lblk < add.lblk + add.len) (sticks : add.lblk + add.len < e.lblk + e.len)
    (narrow : add.lblk + add.len - e.lblk < 2 ^ 31) : cutFront add e = behind add e := by
  have filled := range.filled
  have below := range.below
  have offset : sub64 (add64 (exEnd add) 1) e.lblk = add.lblk + add.len - e.lblk := by
    rw [exEnd_eq filled below, add64_eq (by omega), sub64_eq (by omega) (by omega)]
    omega
  simp only [cutFront, behind, offset, toInt32_eq narrow]
  rw [offset64_eq (by omega), offset64_eq (by omega), drop32_eq (by omega) short]

theorem cutTail_eq (range : RangeWf add) (meets : add.lblk < e.lblk + e.len)
    (front : e.lblk < add.lblk) :
    { e with len := sub64 add.lblk e.lblk % 2 ^ 32 } = before add e := by
  have below := range.below
  have filled := range.filled
  rw [sub64_eq front.le (by omega), mod_eq_of_lt (by omega), before, min_eq_right (by omega)]

def Touches (add e : Extent) : Prop := e.lblk < add.lblk + add.len ∧ add.lblk < e.lblk + e.len

instance : Decidable (Touches add e) := inferInstanceAs (Decidable (_ ∧ _))

def touchedPhys (add : Extent) (xs : List Extent) : Set Nat :=
  {p | ∃ e ∈ xs, Touches add e ∧ p ∈ physOf e}

/- The loop's `break`: the extents from here on lie behind the range. -/
theorem cutHole_beyond (alloc : Allocator) (range : RangeWf add) (wf : ListWf xs)
    (beyond : ∀ e ∈ xs, add.lblk + add.len ≤ e.lblk) : cutHole alloc add xs bm = (xs, bm) := by
  cases xs with
  | nil => rfl
  | cons e rest =>
    have filled := wf.filled e mem_cons_self
    have behind := beyond e mem_cons_self
    have := range.filled
    rw [cutHole, exEnd_eq filled (wf.below e mem_cons_self), exEnd_eq range.filled range.below,
      if_neg (by omega), if_pos (by omega)]

/-- One turn of the loop, with the rest of it, whether or not the source stops there. -/
theorem cutHole_cons {rest : List Extent} (alloc : Allocator) (range : RangeWf add)
    (wf : ListWf (e :: rest)) (word : e.pblk + e.len < 2 ^ 64) (narrow : Narrow add (e :: rest)) :
    cutHole alloc add (e :: rest) bm =
      let out := cutHole alloc add rest
        (if Touches add e then ext2fsUnmarkBlockBitmapRange2 alloc bm e.pblk e.len else bm)
      (remnants add e ++ out.1, out.2) := by
  have filled := wf.filled e mem_cons_self
  have below := wf.below e mem_cons_self
  have := range.filled
  have stop : ∀ bm, add.lblk + add.len ≤ e.lblk + e.len → cutHole alloc add rest bm = (rest, bm) :=
    fun bm ends => cutHole_beyond alloc range wf.tail fun f hf =>
      ends.trans (rel_of_pairwise_cons wf.ordered hf)
  have front : e.lblk < add.lblk + add.len → add.lblk + add.len < e.lblk + e.len →
      cutFront add e = behind add e := fun meets sticks =>
    cutFront_eq range (wf.short e mem_cons_self) word meets sticks
      (narrow e mem_cons_self meets sticks)
  rw [cutHole, exEnd_eq filled below, exEnd_eq range.filled range.below]
  by_cases early : e.lblk + e.len ≤ add.lblk
  · have whole : before add e = e := by rw [before, min_eq_left (by omega)]
    have off : ¬ Touches add e := fun touches => by have := touches.2; omega
    rw [if_pos (by omega), if_neg off, remnants, whole, if_pos (by simp only [behind]; omega)]
    rfl
  rw [if_neg (by omega)]
  by_cases beyond : add.lblk + add.len ≤ e.lblk
  · have off : ¬ Touches add e := fun touches => by have := touches.1; omega
    rw [if_pos (by omega), if_neg off, remnants_beyond filled beyond, stop bm (by omega)]
    rfl
  have touches : Touches add e := ⟨by omega, by omega⟩
  rw [if_neg (by omega), if_pos touches]
  generalize ext2fsUnmarkBlockBitmapRange2 alloc bm e.pblk e.len = bm'
  dsimp only
  by_cases sticks : add.lblk + add.len < e.lblk + e.len
  · have some_behind : (behind add e).len ≠ 0 := by simp only [behind]; omega
    rw [stop bm' (by omega), front (by omega) sticks, remnants, if_neg some_behind]
    by_cases left : e.lblk < add.lblk
    · -- case 2: a piece on each side
      rw [if_pos (by omega), cutTail_eq range (by omega) left,
        if_neg (by simp only [before]; omega)]
      rfl
    · -- case 4: the front is cut off
      rw [if_neg (by omega), if_neg (by omega), if_pos (by omega),
        if_pos (by simp only [before]; omega)]
      rfl
  · have none_behind : (behind add e).len = 0 := by simp only [behind]; omega
    rw [remnants, if_pos none_behind, if_neg (by omega)]
    by_cases left : e.lblk < add.lblk
    · -- the tail is cut off
      rw [if_neg (by omega), if_neg (by omega), if_pos left, cutTail_eq range (by omega) left]
      rfl
    · -- case 3: nothing is left
      rw [if_pos (by omega), before, show min e.len (add.lblk - e.lblk) = 0 by omega]
      rfl

/-- What the hole-making loop leaves: the pieces, and the bitmap without the blocks of the
touched extents. -/
structure HoleSpec (add : Extent) (xs : List Extent) (bm : GenericBitmap64)
    (out : List Extent × GenericBitmap64) : Prop where
  list : out.1 = xs.flatMap (remnants add)
  sound : out.2.Sound
  bounds : out.2.bounds = bm.bounds
  cells : out.2.clusterBits = bm.clusterBits
  bits : out.2.bits = bm.bits \ clustersOf bm.clusterBits (touchedPhys add xs)

theorem touchedPhys_cons (add e : Extent) (rest : List Extent) : touchedPhys add (e :: rest) =
    {p | Touches add e ∧ p ∈ physOf e} ∪ touchedPhys add rest := by
  ext p
  simp [touchedPhys]

theorem unmark_touched (alloc : Allocator) (sound : bm.Sound) (inside : InMap bm e)
    {bm' : GenericBitmap64} (step : (if Touches add e
      then ext2fsUnmarkBlockBitmapRange2 alloc bm e.pblk e.len else bm) = bm') :
    bm'.bounds = bm.bounds ∧ bm'.clusterBits = bm.clusterBits ∧ bm'.Sound ∧
      bm'.bits = bm.bits \ clustersOf bm.clusterBits {p | Touches add e ∧ p ∈ physOf e} := by
  by_cases touches : Touches add e
  · rw [if_pos touches] at step
    subst step
    have all : {p | Touches add e ∧ p ∈ physOf e} = physOf e := by
      ext p
      simp [touches]
    rw [all]
    exact unmarkRange2_bits alloc sound inside
  · rw [if_neg touches] at step
    subst step
    simpa [touches, clustersOf] using sound

theorem cutHole_spec (alloc : Allocator) (range : RangeWf add) (bm : GenericBitmap64)
    (wf : ListWf xs) (narrow : Narrow add xs) (inside : ∀ e ∈ xs, InMap bm e) (sound : bm.Sound) :
    HoleSpec add xs bm (cutHole alloc add xs bm) := by
  induction xs generalizing bm with
  | nil => exact ⟨rfl, sound, rfl, rfl, by simp [cutHole, touchedPhys, clustersOf]⟩
  | cons e rest ih =>
    obtain ⟨first, later⟩ := forall_mem_cons.mp inside
    have word := first.word
    have pos : 0 < 2 ^ bm.clusterBits := Nat.two_pow_pos _
    rw [cutHole_cons alloc range wf (by omega) narrow]
    generalize step : (if Touches add e
      then ext2fsUnmarkBlockBitmapRange2 alloc bm e.pblk e.len else bm) = bm'
    obtain ⟨bounds, cells, sound', bits⟩ := unmark_touched alloc sound first step
    have tail := ih bm' wf.tail (fun f hf => narrow f (mem_cons_of_mem _ hf))
      (fun f hf => by simpa only [InMap, bounds, cells] using later f hf) sound'
    refine ⟨?_, tail.sound, tail.bounds.trans bounds, tail.cells.trans cells, ?_⟩
    · exact congrArg (remnants add e ++ ·) tail.list
    · dsimp only
      rw [tail.bits, bits, cells, touchedPhys_cons, clustersOf_union, Set.sdiff_sdiff]

/- The whole logical space as one run: its length does not fit in `e_len`. -/
def Everything (maps : Nat → Nat → Nat → Prop) : Prop :=
  ∃ p u, ∀ l < 2 ^ 32, maps l (p + l) u

theorem continues_iff {a b : Extent} (filled : 0 < a.len) (below : a.lblk + a.len ≤ 2 ^ 32)
    (inside : InMap bm a) :
    continues a b ↔ a.lblk + a.len = b.lblk ∧ a.pblk + a.len = b.pblk ∧ a.uninit = b.uninit := by
  have word := inside.word
  have pos : 0 < 2 ^ bm.clusterBits := Nat.two_pow_pos _
  rw [continues, exEnd_eq filled below, exPend_eq filled (by omega), add64_eq (by omega),
    add64_eq (by omega)]
  constructor <;> rintro ⟨h1, h2, h3⟩ <;> exact ⟨by omega, by omega, h3⟩

theorem mergeFrom_spec (a : Extent) {rest : List Extent}
    (wf : ListWf (a :: rest)) (inside : ∀ e ∈ a :: rest, InMap bm e)
    (partly : ¬ Everything (Maps (a :: rest))) :
    ListWf (mergeFrom a rest) ∧ (∀ e ∈ mergeFrom a rest, InMap bm e ∧ a.lblk ≤ e.lblk) ∧
      ∀ l p u, Maps (mergeFrom a rest) l p u ↔ Maps (a :: rest) l p u := by
  induction rest generalizing a with
  | nil =>
    refine ⟨wf, fun e he => ⟨inside e he, ?_⟩, fun l p u => Iff.rfl⟩
    rw [mem_singleton.mp he]
  | cons b rest ih =>
    obtain ⟨fillA, -, fills⟩ := (forall_mem_cons.mp wf.filled).imp_right forall_mem_cons.mp
    obtain ⟨belowA, belowB, belows⟩ := (forall_mem_cons.mp wf.below).imp_right forall_mem_cons.mp
    obtain ⟨shortA, -, shorts⟩ := (forall_mem_cons.mp wf.short).imp_right forall_mem_cons.mp
    obtain ⟨mapA, mapB, maps⟩ := (forall_mem_cons.mp inside).imp_right forall_mem_cons.mp
    have gap : a.lblk + a.len ≤ b.lblk := rel_of_pairwise_cons wf.ordered (by simp)
    rw [mergeFrom]
    by_cases joined : continues a b
    · rw [if_pos joined]
      obtain ⟨logical, physical, flags⟩ := (continues_iff fillA belowA mapA).mp joined
      -- the sum of the lengths wraps only if the two extents fill the whole space
      have fits : a.len + b.len < 2 ^ 32 := by
        by_contra full
        apply partly
        refine ⟨a.pblk, a.uninit, fun l hl => ?_⟩
        by_cases first : l < a.len
        · exact ⟨a, by simp, ⟨by omega, by omega⟩, by omega, rfl⟩
        · exact ⟨b, by simp, ⟨by omega, by omega⟩, by omega, flags⟩
      rw [mod_eq_of_lt fits]
      have same : ∀ l p u, Maps ({ a with len := a.len + b.len } :: rest) l p u ↔
          Maps (a :: b :: rest) l p u := by
        intro l p u
        simp only [maps_cons, Extent.Holds, ← or_assoc]
        refine or_congr ?_ Iff.rfl
        constructor
        · rintro ⟨held, rfl, rfl⟩
          by_cases first : l < a.lblk + a.len
          · exact .inl ⟨by omega, rfl, rfl⟩
          · exact .inr ⟨by omega, by omega, flags⟩
        · rintro (⟨held, rfl, rfl⟩ | ⟨held, rfl, rfl⟩)
          · exact ⟨by omega, rfl, rfl⟩
          · exact ⟨by omega, by omega, flags.symm⟩
      have wf' : ListWf ({ a with len := a.len + b.len } :: rest) := by
        refine ⟨pairwise_cons.mpr ⟨fun c hc => ?_, wf.ordered.of_cons.of_cons⟩,
          forall_mem_cons.mpr ⟨Nat.add_pos_left fillA _, fills⟩,
          forall_mem_cons.mpr ⟨by dsimp only; omega, belows⟩, forall_mem_cons.mpr ⟨fits, shorts⟩⟩
        have := rel_of_pairwise_cons wf.ordered.of_cons hc
        dsimp only
        omega
      have inside' : ∀ e ∈ ({ a with len := a.len + b.len } :: rest : List Extent), InMap bm e := by
        refine forall_mem_cons.mpr ⟨?_, maps⟩
        have high := mapB.high
        have word := mapB.word
        rw [← physical] at high word
        exact ⟨by simp only; omega, fits, mapA.low, by rwa [← add_assoc], by simp only; omega⟩
      obtain ⟨wf'', inside'', maps'⟩ := ih _ wf' inside' (by
        rintro ⟨p, u, all⟩
        exact partly ⟨p, u, fun l hl => (same _ _ _).mp (all l hl)⟩)
      exact ⟨wf'', inside'', fun l p u => (maps' l p u).trans (same l p u)⟩
    · rw [if_neg joined]
      obtain ⟨wf', inside', maps⟩ := ih b wf.tail (fun e he => inside e (by simp [he])) (by
        rintro ⟨p, u, all⟩
        exact partly ⟨p, u, fun l hl => (maps_cons _ _ _ _ _).mpr (.inr (all l hl))⟩)
      refine ⟨⟨pairwise_cons.mpr ⟨fun c hc => le_trans gap (inside' c hc).2, wf'.ordered⟩,
        forall_mem_cons.mpr ⟨fillA, wf'.filled⟩, forall_mem_cons.mpr ⟨belowA, wf'.below⟩,
        forall_mem_cons.mpr ⟨shortA, wf'.short⟩⟩, forall_mem_cons.mpr ⟨⟨mapA, le_refl _⟩,
        fun e he => ?_⟩, ?_⟩
      · exact ⟨(inside' e he).1, by have := (inside' e he).2; omega⟩
      · intro l p u
        rw [maps_cons, maps, ← maps_cons]

/- Strip, sort and merge, for a list in which something is left to merge. -/
theorem exSortAndMerge_spec {qsort : Qsort} (sorts : Sorts qsort) (bm : GenericBitmap64)
    (some_left : xs = [] ∨ live xs ≠ []) (sortable : xs.length < 2 ∨ Together xs)
    (apart : (live xs).Pairwise Apart) (below : ∀ e ∈ live xs, e.lblk + e.len ≤ 2 ^ 32)
    (inside : ∀ e ∈ live xs, InMap bm e) (partly : ¬ Everything (Maps xs)) :
    ∃ ys, exSortAndMerge qsort xs = some ys ∧ ListWf ys ∧ (∀ e ∈ ys, InMap bm e) ∧
      ∀ l p u, Maps ys l p u ↔ Maps xs l p u := by
  have filled : ∀ e ∈ live xs, 0 < e.len := fun e he => pos_of_ne_zero (mem_live.mp he).2
  rcases some_left with rfl | left
  · exact ⟨[], rfl, ⟨.nil, by simp, by simp, by simp⟩, by simp, fun l p u => Iff.rfl⟩
  by_cases single : xs.length < 2
  · -- the early return: the one extent there is not empty
    obtain ⟨e, rfl⟩ : ∃ e, xs = [e] := by
      match xs, single with
      | [], _ => exact absurd rfl left
      | [e], _ => exact ⟨e, rfl⟩
    have here : live [e] = [e] := by
      by_cases zero : e.len = 0
      · exact absurd (by simp [live, zero]) left
      · simp [live, zero]
    rw [here] at filled below inside
    refine ⟨[e], by rw [exSortAndMerge, if_pos single], ⟨pairwise_singleton _ _, filled, below,
      fun x hx => (inside x hx).short⟩, inside, fun l p u => Iff.rfl⟩
  · rw [exSortAndMerge, if_neg single]
    have perm := (kept_perm sorts (sortable.resolve_left single)).2
    generalize (qsort exLenCompar xs).takeWhile (fun e => decide (e.len ≠ 0)) = kept at perm
    obtain ⟨perm', ordered⟩ := qsort_exCompar sorts
      (fun e he => filled e (perm.mem_iff.mp he)) ((perm.pairwise_iff fun h => h.symm).mpr apart)
    have mem : ∀ e, e ∈ qsort exCompar kept ↔ e ∈ live xs := fun e =>
      perm'.mem_iff.trans perm.mem_iff
    have same : ∀ l p u, Maps (qsort exCompar kept) l p u ↔ Maps xs l p u := fun l p u =>
      (maps_perm (perm'.trans perm) l p u).trans (maps_live xs l p u)
    simp only
    cases sorted : qsort exCompar kept with
    | nil =>
      rw [sorted] at mem
      exact absurd (eq_nil_iff_forall_not_mem.mpr fun e he => by simpa using (mem e).mpr he) left
    | cons a rest =>
      rw [sorted] at mem same ordered
      have wf : ListWf (a :: rest) := ⟨ordered, fun e he => filled e ((mem e).mp he),
        fun e he => below e ((mem e).mp he), fun e he => (inside e ((mem e).mp he)).short⟩
      obtain ⟨wf', inside', maps⟩ := mergeFrom_spec a wf (fun e he => inside e ((mem e).mp he)) (by
          rintro ⟨p, u, all⟩
          exact partly ⟨p, u, fun l hl => (same _ _ _).mp (all l hl)⟩)
      exact ⟨_, rfl, wf', fun e he => (inside' e he).1, fun l p u =>
        (maps l p u).trans (same l p u)⟩

theorem markAll_spec (alloc : Allocator) (xs : List Extent) (bm : GenericBitmap64)
    (sound : bm.Sound) (inside : ∀ e ∈ xs, InMap bm e) :
    (markAll alloc xs bm).bounds = bm.bounds ∧ (markAll alloc xs bm).clusterBits = bm.clusterBits ∧
      (markAll alloc xs bm).Sound ∧ (markAll alloc xs bm).bits =
        bm.bits ∪ clustersOf bm.clusterBits {p | ∃ e ∈ xs, p ∈ physOf e} := by
  induction xs generalizing bm with
  | nil => simpa [markAll, clustersOf] using sound
  | cons e rest ih =>
    obtain ⟨bounds, cells, sound', bits⟩ := markRange2_bits alloc sound (inside e (by simp))
    have step : markAll alloc (e :: rest) bm =
        markAll alloc rest (ext2fsMarkBlockBitmapRange2 alloc bm e.pblk e.len) := rfl
    rw [step]
    obtain ⟨bounds', cells', sound'', bits'⟩ := ih _ sound' (fun f hf => by
      have := inside f (by simp [hf])
      simpa only [InMap, bounds, cells] using this)
    refine ⟨bounds'.trans bounds, cells'.trans cells, sound'', ?_⟩
    have split : {p | ∃ f ∈ e :: rest, p ∈ physOf f} =
        Set.Ico e.pblk (e.pblk + e.len) ∪ {p | ∃ f ∈ rest, p ∈ physOf f} := by
      ext p
      simp [physOf]
    rw [bits', bits, cells, split, clustersOf_union, Set.union_assoc]

end E2fs.FastCommit
