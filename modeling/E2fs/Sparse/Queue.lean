import E2fs.Sparse.Image

/-! The list of backed blocks when blocks come in order: a block goes to the end, in front of empty
ones that start where it does, and may be merged with its neighbours. Its bytes are laid over
those of the others. -/
namespace E2fs.Sparse
open Memory Device List Option

section Place

variable {s : SparseFile} {init post : List BackedBlock} {a b new : BackedBlock} {blockSize : Nat}

theorem mergeAt_two : mergeAt blockSize (init ++ a :: b :: post) init.length =
    match mergeBb blockSize a b with
    | some m => (init ++ m :: post, true)
    | none => (init ++ a :: b :: post, false) := by
  have second : (init ++ a :: b :: post)[init.length + 1]? = some b := by
    rw [getElem?_append_right (by omega), Nat.add_sub_cancel_left]
    rfl
  have taken : (init ++ a :: b :: post).take init.length = init := take_left
  have dropped : (init ++ a :: b :: post).drop (init.length + 2) = post := by
    rw [drop_append, drop_eq_nil_of_le (by omega), Nat.add_sub_cancel_left]
    rfl
  rw [mergeAt, getElem?_append_right (le_refl _), Nat.sub_self, second]
  cases merged : mergeBb blockSize a b <;> simp [merged, taken, dropped]

theorem mergeAt_end : mergeAt blockSize (init ++ [a]) init.length = (init ++ [a], false) := by
  have second : (init ++ [a])[init.length + 1]? = none := getElem?_eq_none (by simp)
  rw [mergeAt, second]
  split <;> simp_all

def Sorted (l : List BackedBlock) : Prop := l.Pairwise fun a b => a.block ≤ b.block

/- `a` is the last block in front of the place of `new`, which is never the first place. -/
structure Place (l : List BackedBlock) (new : BackedBlock) (init : List BackedBlock)
    (a : BackedBlock) (post : List BackedBlock) : Prop where
  split : l = init ++ a :: post
  front : a.block < new.block ∨ init = []
  behind : ∀ bb ∈ post, new.block ≤ bb.block

theorem exists_place {l : List BackedBlock} (sorted : Sorted (a :: l)) (new : BackedBlock) :
    ∃ init b post, Place (a :: l) new init b post := by
  induction l generalizing a with
  | nil => exact ⟨[], a, [], rfl, .inr rfl, nofun⟩
  | cons b rest ih =>
    have later : Sorted (b :: rest) := sorted.of_cons
    by_cases early : b.block < new.block
    · obtain ⟨init, c, post, split, front, behind⟩ := ih later
      refine ⟨a :: init, c, post, congrArg (cons a) split, .inl ?_, behind⟩
      rcases front with front | rfl
      · exact front
      · cases split
        exact early
    · refine ⟨[], a, b :: rest, rfl, .inr rfl, forall_mem_cons.mpr ⟨by omega, fun bb mem => ?_⟩⟩
      have := rel_of_pairwise_cons later mem
      omega

theorem Place.searchFrom_le (place : Place s.blocks new init a post) :
    searchFrom s new.block ≤ init.length := by
  rw [searchFrom]
  split
  · split
    · rename_i p last there
      split
      · by_contra far
        rw [place.split, append_cons, getElem?_append_right (by simp; omega)] at there
        have := place.behind last (mem_of_getElem? there)
        omega
      · exact Nat.zero_le _
    · exact Nat.zero_le _
  · exact Nat.zero_le _

section

variable (sorted : Sorted s.blocks) (place : Place s.blocks new init a post)
include sorted place

theorem Place.le_last : ∀ bb ∈ init ++ [a], bb.block ≤ a.block := by
  rw [place.split, Sorted, pairwise_append] at sorted
  intro bb mem
  rw [mem_append, mem_singleton] at mem
  rcases mem with mem | rfl
  · exact sorted.2.2 bb mem a mem_cons_self
  · exact le_refl _

/- Where the search starts does not matter. -/
theorem Place.found : searchFrom s new.block +
    ((s.blocks.drop (searchFrom s new.block + 1)).takeWhile fun bb => bb.block < new.block).length =
      init.length := by
  have start := place.searchFrom_le
  generalize searchFrom s new.block = i at start ⊢
  have rest : s.blocks.drop (i + 1) = (init ++ [a]).drop (i + 1) ++ post := by
    rw [place.split, append_cons, drop_append_of_le_length (by simp; omega)]
  have all : ∀ bb ∈ (init ++ [a]).drop (i + 1), decide (bb.block < new.block) = true := by
    intro bb mem
    rcases place.front with lt | rfl
    · exact decide_eq_true ((place.le_last sorted bb (mem_of_mem_drop mem)).trans_lt lt)
    · simp at mem
  have none : post.takeWhile (fun bb => decide (bb.block < new.block)) = [] := by
    cases post with
    | nil => rfl
    | cons b rest =>
      have := place.behind b mem_cons_self
      exact takeWhile_cons_of_neg (by simpa using this)
  rw [rest, takeWhile_append_of_pos all, none]
  simp
  omega

theorem Place.queueBb (le : a.block ≤ new.block) : queueBb s new =
    let result := mergeAt s.blockSize
      (mergeAt s.blockSize (init ++ a :: new :: post) (init.length + 1)).1 init.length
    { s with
      blocks := result.1
      lastUsed := some (if result.2 then init.length else init.length + 1) } := by
  have found := place.found sorted
  have taken : s.blocks.take (init.length + 1) ++ new :: s.blocks.drop (init.length + 1) =
      init ++ a :: new :: post := by
    rw [place.split, take_length_add_append, drop_length_add_append]
    simp
  rcases head : s.blocks with _ | ⟨first, tail⟩
  · simpa [head] using place.split
  have mem : first ∈ init ++ [a] := by
    have is := head.symm.trans place.split
    cases init <;> cases is <;> simp
  have notFirst := Nat.not_lt.mpr ((place.le_last sorted first mem).trans le)
  rw [Sparse.queueBb, head]
  simp only [if_neg notFirst, ← head, found, taken]

end

end Place

section Laid

/- The bytes of a backed block; a value has none, `sparse_import_segment` does not see them. -/
def BackedBlock.source (file : List UInt8) (bb : BackedBlock) : Option Content :=
  match bb.backing with
  | .data bytes => some bytes
  | .fd offset => some fun j => file.getD (offset + j) 0
  | .fill _ => none

def lay (file : List UInt8) (blockSize : Nat) (c : Content) (bb : BackedBlock) : Content :=
  match bb.source file with
  | some bytes => patch c (bb.block * blockSize) bb.len bytes
  | none => c

def laid (file : List UInt8) (blockSize : Nat) (l : List BackedBlock) : Content :=
  l.foldl (lay file blockSize) zeros

variable {file : List UInt8} {bb : BackedBlock} {blockSize : Nat}

theorem laid_append (file : List UInt8) (blockSize : Nat) (l l' : List BackedBlock) :
    laid file blockSize (l ++ l') = l'.foldl (lay file blockSize) (laid file blockSize l) :=
  foldl_append

theorem lay_fill {val : Nat} (is : bb.backing = .fill val) (blockSize : Nat) (c : Content) :
    lay file blockSize c bb = c := by
  simp only [lay, BackedBlock.source, is]

theorem lay_empty {l : List BackedBlock} (empty : ∀ bb ∈ l, bb.len = 0) (c : Content) :
    l.foldl (lay file blockSize) c = c := by
  induction l with
  | nil => rfl
  | cons bb rest ih =>
    rw [forall_mem_cons] at empty
    have same : lay file blockSize c bb = c := by
      rw [lay, empty.1]
      split
      · exact patch_none
      · rfl
    rw [foldl_cons, same, ih empty.2]

end Laid

section Merging

variable {file : List UInt8} {blockSize : Nat} {l l' l'' : List BackedBlock}

def Covers (blockSize b : Nat) (bb : BackedBlock) : Bool :=
  bb.block ≤ b ∧ b < bb.block + bb.len / blockSize

/- The blocks end in front of block `cur` of the image and of byte `p` of the file. They are apart
if no two start at one block. -/
structure Listing (strict : Prop) (blockSize cur p : Nat) (l : List BackedBlock) : Prop where
  sorted : Sorted l
  chain : strict → l.Pairwise fun a b => a.block < b.block ∧ a.block + a.len / blockSize ≤ b.block
  ends : ∀ bb ∈ l, bb.block + bb.len / blockSize ≤ cur
  whole : ∀ bb ∈ l, blockSize ∣ bb.len
  behind : ∀ bb ∈ l, ∀ offset, bb.backing = .fd offset → offset + bb.len ≤ p

def Grown (old bb : BackedBlock) : Prop :=
  bb = old ∨ (∃ val, old.backing = .fill val) ∧ ∃ k, bb = { old with len := old.len + k }

/- What does not change when blocks with one value are merged. -/
structure Merges (file : List UInt8) (blockSize : Nat) (l l' : List BackedBlock) : Prop where
  listing : ∀ {strict : Prop} {cur p}, Listing strict blockSize cur p l →
    Listing strict blockSize cur p l' ∧
      ∀ b, l'.countP (Covers blockSize b) = l.countP (Covers blockSize b)
  bytes : laid file blockSize l' = laid file blockSize l
  origin : ∀ bb ∈ l', ∃ old ∈ l, Grown old bb

theorem Merges.refl (file : List UInt8) (blockSize : Nat) (l : List BackedBlock) :
    Merges file blockSize l l :=
  ⟨fun listing => ⟨listing, fun _ => rfl⟩, rfl, fun bb mem => ⟨bb, mem, .inl rfl⟩⟩

theorem Merges.trans (first : Merges file blockSize l l') (second : Merges file blockSize l' l'') :
    Merges file blockSize l l'' where
  listing := fun listing => by
    obtain ⟨listing', cover⟩ := first.listing listing
    obtain ⟨listing'', cover'⟩ := second.listing listing'
    exact ⟨listing'', fun b => (cover' b).trans (cover b)⟩
  bytes := second.bytes.trans first.bytes
  origin := fun bb mem => by
    obtain ⟨mid, there, grown⟩ := second.origin bb mem
    obtain ⟨old, here, grown'⟩ := first.origin mid there
    refine ⟨old, here, ?_⟩
    rcases grown with rfl | ⟨fill, k, rfl⟩
    · exact grown'
    rcases grown' with rfl | ⟨fill', k', rfl⟩
    · exact .inr ⟨fill, k, rfl⟩
    · exact .inr ⟨fill', k' + k, by rw [← add_assoc]⟩

theorem merges_fill {x y : List BackedBlock} {a b : BackedBlock} {val val' : Nat}
    (left : a.backing = .fill val) (right : b.backing = .fill val')
    (joins : a.block + a.len / blockSize = b.block) : Merges file blockSize (x ++ a :: b :: y)
      (x ++ { a with len := a.len + b.len } :: y) where
  listing := fun {strict cur p} listing => by
    obtain ⟨sorted, chain, ends, whole, behind⟩ := listing
    simp only [Sorted, pairwise_append, pairwise_cons, forall_mem_cons, forall_mem_append]
      at sorted chain ends whole behind
    have longer : (a.len + b.len) / blockSize = a.len / blockSize + b.len / blockSize :=
      Nat.add_div_of_dvd_right whole.2.1
    refine ⟨⟨?_, fun strict => ?_, ?_, ?_, ?_⟩, fun q => ?_⟩
    · simp only [Sorted, pairwise_append, pairwise_cons, forall_mem_cons]
      exact ⟨sorted.1, ⟨sorted.2.1.1.2, sorted.2.1.2.2⟩, fun c mem =>
        ⟨(sorted.2.2 c mem).1, (sorted.2.2 c mem).2.2⟩⟩
    · obtain ⟨front, ⟨⟨-, own⟩, next, rest⟩, cross⟩ := chain strict
      simp only [pairwise_append, pairwise_cons, forall_mem_cons, longer, ← add_assoc, joins]
      exact ⟨front, ⟨fun c mem => ⟨(own c mem).1, (next c mem).2⟩, rest⟩, fun c mem =>
        ⟨(cross c mem).1, (cross c mem).2.2⟩⟩
    · simp only [forall_mem_append, forall_mem_cons, longer, ← add_assoc, joins]
      exact ⟨ends.1, ends.2.2⟩
    · simp only [forall_mem_append, forall_mem_cons]
      exact ⟨whole.1, dvd_add whole.2.1 whole.2.2.1, whole.2.2.2⟩
    · simp only [forall_mem_append, forall_mem_cons]
      exact ⟨behind.1, fun offset is => Backing.noConfusion (left.symm.trans is), behind.2.2.2⟩
    · simp only [countP_append, countP_cons, Covers, decide_eq_true_eq]
      rw [longer]
      generalize a.len / blockSize = k, b.len / blockSize = k' at joins ⊢
      split_ifs <;> omega
  bytes := by
    have longer : ({ a with len := a.len + b.len } : BackedBlock).backing = .fill val := left
    simp only [laid_append, foldl_cons, lay_fill left, lay_fill right, lay_fill longer]
  origin := by
    simp only [forall_mem_append, forall_mem_cons]
    refine ⟨fun bb mem => ⟨bb, by simp [mem], .inl rfl⟩,
      ⟨a, by simp, .inr ⟨⟨val, left⟩, b.len, rfl⟩⟩, fun bb mem => ⟨bb, by simp [mem], .inl rfl⟩⟩

/- Only values are merged, if the parts of the file are apart. -/
theorem mergeAt_merges (file : List UInt8) (x y : List BackedBlock) {a : BackedBlock}
    (apart : ∀ b ∈ y.head?, ∀ offset offset', a.backing = .fd offset → b.backing = .fd offset' →
      offset + a.len ≠ offset') (small : a.block + a.len / blockSize < 2 ^ 32) :
    ∃ a' y', (mergeAt blockSize (x ++ a :: y) x.length).1 = x ++ a' :: y' ∧
      a'.backing = a.backing ∧ Merges file blockSize (x ++ a :: y) (x ++ a' :: y') := by
  cases y with
  | nil => exact ⟨a, [], by rw [mergeAt_end], rfl, .refl _ _ _⟩
  | cons b y =>
    rw [mergeAt_two]
    cases merged : mergeBb blockSize a b with
    | none => exact ⟨a, b :: y, rfl, rfl, .refl _ _ _⟩
    | some m =>
      rw [mergeBb, ite_none_right_eq_some, Nat.mod_eq_of_lt small, mergeable] at merged
      obtain ⟨⟨joins, same⟩, is⟩ := merged
      obtain rfl := some_inj.mp is
      suffices values : (∃ val, a.backing = .fill val) ∧ ∃ val, b.backing = .fill val by
        obtain ⟨⟨val, left⟩, val', right⟩ := values
        exact ⟨_, y, rfl, rfl, merges_fill left right joins⟩
      cases left : a.backing with
      | data bytes => simp [left] at same
      | fill val =>
        cases right : b.backing with
        | fill val' => exact ⟨⟨val, rfl⟩, val', rfl⟩
        | data bytes | fd offset => simp [left, right] at same
      | fd offset =>
        cases right : b.backing with
        | fd offset' =>
          exact absurd (by simpa [left, right] using same) (apart b rfl _ _ left right)
        | data bytes | fill val => simp [left, right] at same

end Merging

section Add

variable {strict : Prop} {file : List UInt8} {s : SparseFile} {new : BackedBlock}
  {blockSize cur p p' : Nat} {pre post : List BackedBlock}

theorem queueBb_sizes (s : SparseFile) (new : BackedBlock) :
    (queueBb s new).blockSize = s.blockSize := by
  rw [queueBb]
  split
  · rfl
  · split <;> rfl

structure Queued (strict : Prop) (s : SparseFile) (cur p : Nat) : Prop where
  pos : 0 < s.blockSize
  list : Listing strict s.blockSize cur p s.blocks

structure Next (strict : Prop) (s : SparseFile) (cur p p' : Nat) (new : BackedBlock) : Prop where
  block : new.block = cur
  small : cur + new.len / s.blockSize < 2 ^ 32
  whole : s.blockSize ∣ new.len
  le : p ≤ p'
  fd : ∀ offset, new.backing = .fd offset → p < offset ∧ offset + new.len ≤ p'
  front : strict → ∀ bb ∈ s.blocks, bb.block < cur

theorem sparseFileNew_queued (strict : Prop) (pos : 0 < blockSize) (len : Nat) :
    Queued strict (sparseFileNew blockSize len) 0 0 :=
  ⟨pos, .nil, fun _ => .nil, nofun, nofun, nofun⟩

/- What adding a block leaves: the invariant, and its bytes over the others. -/
structure Added (strict : Prop) (file : List UInt8) (s s' : SparseFile) (new : BackedBlock)
    (cur p' : Nat) : Prop where
  queued : Queued strict s' (cur + new.len / s.blockSize) p'
  blockSize : s'.blockSize = s.blockSize
  len : s'.len = s.len
  bytes : laid file s.blockSize s'.blocks =
    lay file s.blockSize (laid file s.blockSize s.blocks) new
  origin : ∀ bb ∈ s'.blocks, ∃ old ∈ new :: s.blocks, Grown old bb
  cover : ∀ b, s'.blocks.countP (Covers s.blockSize b) =
    s.blocks.countP (Covers s.blockSize b) + if Covers s.blockSize b new then 1 else 0

section

variable (queued : Queued strict s cur p) (next : Next strict s cur p p' new)
  (split : s.blocks = pre ++ post) (late : ∀ bb ∈ post, new.block ≤ bb.block)
include queued next split late

theorem Queued.insert :
    Listing strict s.blockSize (cur + new.len / s.blockSize) p' (pre ++ new :: post) := by
  obtain ⟨sorted, chain, ends, whole, behind⟩ := queued.list
  have front := next.front
  rw [split] at sorted chain ends whole behind front
  simp only [Sorted, pairwise_append, forall_mem_append] at sorted chain ends whole behind front
  have same := next.block
  refine ⟨?_, fun strict => ?_, ?_, ?_, ?_⟩
  · simp only [Sorted, pairwise_append, pairwise_cons, forall_mem_cons]
    exact ⟨sorted.1, ⟨late, sorted.2.1⟩, fun bb mem =>
      ⟨same ▸ (Nat.le_add_right _ _).trans (ends.1 bb mem), sorted.2.2 bb mem⟩⟩
  · have none : post = [] := eq_nil_iff_forall_not_mem.mpr fun bb mem => by
      have := (front strict).2 bb mem
      have := late bb mem
      omega
    subst none
    refine pairwise_append.mpr ⟨(chain strict).1, pairwise_singleton _ _, fun bb mem x only => ?_⟩
    rw [mem_singleton.mp only, same]
    exact ⟨(front strict).1 bb mem, ends.1 bb mem⟩
  · simp only [forall_mem_append, forall_mem_cons, same]
    exact ⟨fun bb mem => (ends.1 bb mem).trans (Nat.le_add_right _ _), le_refl _,
      fun bb mem => (ends.2 bb mem).trans (Nat.le_add_right _ _)⟩
  · simp only [forall_mem_append, forall_mem_cons]
    exact ⟨whole.1, next.whole, whole.2⟩
  · simp only [forall_mem_append, forall_mem_cons]
    exact ⟨fun bb mem offset is => (behind.1 bb mem offset is).trans next.le,
      fun offset is => (next.fd offset is).2,
      fun bb mem offset is => (behind.2 bb mem offset is).trans next.le⟩

/- The blocks behind the place start where the new one does, so they are empty. -/
theorem Queued.laid_insert : laid file s.blockSize (pre ++ new :: post) =
    lay file s.blockSize (laid file s.blockSize s.blocks) new := by
  have empty : ∀ bb ∈ post, bb.len = 0 := fun bb mem => by
    have there : bb ∈ s.blocks := split ▸ mem_append_right _ mem
    obtain ⟨k, is⟩ := queued.list.whole bb there
    have ends := queued.list.ends bb there
    have := late bb mem
    have := next.block
    rw [is, Nat.mul_div_cancel_left _ queued.pos] at ends
    rw [is, show k = 0 by omega, Nat.mul_zero]
  rw [split, laid_append, laid_append, foldl_cons, lay_empty empty, lay_empty empty]

theorem Queued.added {s' : SparseFile}
    (merges : Merges file s.blockSize (pre ++ new :: post) s'.blocks)
    (size : s'.blockSize = s.blockSize) (len : s'.len = s.len) :
    Added strict file s s' new cur p' := by
  obtain ⟨list, cover⟩ := merges.listing (queued.insert next split late)
  refine ⟨⟨size ▸ queued.pos, size ▸ list⟩, size, len,
    merges.bytes.trans (queued.laid_insert next split late), fun bb mem => ?_, fun b => ?_⟩
  · obtain ⟨old, there, grown⟩ := merges.origin bb mem
    refine ⟨old, ?_, grown⟩
    rw [split]
    simpa [or_left_comm] using there
  · rw [cover, split]
    simp only [countP_append, countP_cons]
    omega

end

theorem Queued.add (queued : Queued strict s cur p) (next : Next strict s cur p p' new) :
    Added strict file s (queueBb s new) new cur p' := by
  rcases head : s.blocks with _ | ⟨first, rest⟩
  · have is : queueBb s new = { s with blocks := [new] } := by rw [queueBb, head]
    rw [is]
    exact @Queued.added _ file _ _ _ _ _ [] [] queued next head nofun _ (.refl _ _ _) rfl rfl
  have sorted := queued.list.sorted
  obtain ⟨init, a, post, place⟩ := exists_place (head ▸ sorted) new
  rw [← head] at place
  have mem : a ∈ s.blocks := by rw [place.split]; simp
  have ends := queued.list.ends a mem
  have split : s.blocks = (init ++ [a]) ++ post := by rw [place.split, append_cons]
  -- the next one is a part of the file in front of the new one
  obtain ⟨new', post', is, backing, merges⟩ := @mergeAt_merges s.blockSize file (init ++ [a]) post
    new (fun b there offset offset' own other => by
      have :=
        queued.list.behind b (by rw [split]; exact mem_append_right _ (mem_of_mem_head? there))
        offset' other
      have := next.fd offset own
      omega) (by have := next.small; rwa [next.block])
  rw [length_append, length_singleton, append_assoc, singleton_append, append_assoc,
    singleton_append] at is
  obtain ⟨a', post'', is', -, merges'⟩ := @mergeAt_merges s.blockSize file init (new' :: post') a
    (fun b there offset offset' own other => by
      cases there
      have := queued.list.behind a mem offset own
      have := next.fd offset' (backing ▸ other)
      omega) (ends.trans_lt ((Nat.le_add_right _ _).trans_lt next.small))
  rw [place.queueBb sorted (next.block ▸ (Nat.le_add_right _ _).trans ends), is]
  refine queued.added next split place.behind ?_ rfl rfl
  dsimp only
  rw [is']
  rw [append_assoc init [a] (new' :: post')] at merges
  exact merges.trans merges'

end Add

end E2fs.Sparse
