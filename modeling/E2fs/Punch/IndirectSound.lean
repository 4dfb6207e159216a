import E2fs.Punch.Indirect

/-! What `ind_punch` does to the pointer tree of a file. The file is cut into pieces:
one pointer with all below it, a row of pointers, the levels of the inode. For every
piece the same facts are proved, and neighbouring pieces are put together. -/
namespace E2fs.Punch
open Word BlockTree Option Prod
open List hiding lookup

/- Entry `i` of a row of pointers of level `k` is looked at when the row is punched
with this start and count. -/
def Visited (n k start count i : Nat) : Prop :=
  i * n ^ k < add64 start count ∧ start < (i + 1) * n ^ k

instance (n k start count i : Nat) : Decidable (Visited n k start count i) :=
  inferInstanceAs (Decidable (_ ∧ _))

/- Position `r` below a pointer of level `k` is removed. At each level the window is
moved to the entry: the start stops at zero, the count wraps around. -/
def Selected (n : Nat) : Nat → Nat → Nat → Nat → Prop
  | 0, _, _, _ => True
  | k + 1, start, count, r =>
    Visited n k start count (r / n ^ k) ∧
      Selected n k (start - r / n ^ k * n ^ k) (sub64 count (r / n ^ k * n ^ k)) (r % n ^ k)

/- The indirect blocks below a pointer that are read and written back. -/
def reached {n : Nat} (d : Disk n) : Nat → Nat → Nat → Nat → List Nat
  | 0, _, _, _ => []
  | k + 1, start, count, p =>
    if p = 0 then []
    else p :: (d.read p).zipIdx.flatMap fun e =>
      if Visited n k start count e.2 then
        reached d k (start - e.2 * n ^ k) (sub64 count (e.2 * n ^ k)) e.1
      else []

/-- A piece of the file: the block at each position before the punch, the positions to
be removed, and its blocks. -/
structure Piece where
  size : Nat
  before : Nat → Nat
  selected : Nat → Prop
  indirects : List Nat
  reached : List Nat
  blocks : List Nat

structure Piece.Wf (P : Piece) : Prop where
  reached_sub : P.reached ⊆ P.indirects
  indirects_sub : P.indirects ⊆ P.blocks
  nodup : P.blocks.Nodup

def Piece.append (P Q : Piece) : Piece where
  size := P.size + Q.size
  before r := if r < P.size then P.before r else Q.before (r - P.size)
  selected r := if r < P.size then P.selected r else Q.selected (r - P.size)
  indirects := P.indirects ++ Q.indirects
  reached := P.reached ++ Q.reached
  blocks := P.blocks ++ Q.blocks

section
variable {n : Nat} (unit : Nat) (sb : Super)

/- Two disks have the same contents in the given blocks. -/
def Agree (bs : List Nat) (d e : Disk n) : Prop := ∀ b ∈ bs, d.read b = e.read b

/-- The piece has been punched. `after` reads the new pointers from a disk, `rel` are
the blocks released, and `pending` of them are not yet taken off the block count. -/
structure Punched (P : Piece) (w w' : Work n) (after : Disk n → Nat → Nat) (rel : List Nat)
    (pending : Nat) : Prop where
  released : w'.released = w.released ++ rel
  nodup : rel.Nodup
  sub : rel ⊆ P.blocks
  frame : ∀ b, b ∉ P.reached → w'.disk.read b = w.disk.read b
  mapping : ∀ d, Agree P.indirects d w'.disk → ∀ r < P.size,
    (P.selected r → after d r = 0) ∧ (¬ P.selected r → after d r = P.before r)
  mem : ∀ d, Agree P.indirects d w'.disk → ∀ b, b ∈ rel ↔
    (∃ r < P.size, P.selected r ∧ P.before r = b ∧ b ≠ 0) ∨
      (b ∈ P.reached ∧ checkZeroBlock (d.read b) = true)
  shrinks : ∀ b, checkZeroBlock (w.disk.read b) = true → checkZeroBlock (w'.disk.read b) = true
  counted : w'.count.total sb + unit * rel.length = w.count.total sb + unit * pending

theorem Punched.skip (P : Piece) (w : Work n) (after : Disk n → Nat → Nat)
    (idle : P.reached = []) (holes : ∀ r < P.size, P.selected r → P.before r = 0)
    (same : ∀ d, Agree P.indirects d w.disk → ∀ r < P.size, after d r = P.before r) :
    Punched unit sb P w w after [] 0 where
  released := by simp
  nodup := nodup_nil
  sub := by simp
  frame b _ := rfl
  mapping d agree r inside :=
    ⟨fun sel => by rw [same d agree r inside, holes r inside sel], fun _ => same d agree r inside⟩
  mem d agree b := by
    rw [idle]
    refine iff_of_false not_mem_nil ?_
    rintro (⟨r, inside, sel, eq, ne⟩ | ⟨⟨⟩, _⟩)
    exact ne (eq.symm.trans (holes r inside sel))
  shrinks b zero := zero
  counted := by simp

theorem Punched.append {P Q : Piece} {w w1 w2 : Work n} {f g : Disk n → Nat → Nat}
    {relP relQ : List Nat} {x y : Nat} (wf : P.Wf) (wfQ : Q.Wf)
    (disjoint : ∀ b ∈ P.blocks, b ∉ Q.blocks)
    (left : Punched unit sb P w w1 f relP x) (right : Punched unit sb Q w1 w2 g relQ y) :
    Punched unit sb (P.append Q) w w2 (fun d r => if r < P.size then f d r else g d (r - P.size))
      (relP ++ relQ) (x + y) := by
  have agreeP : ∀ d, Agree (P.indirects ++ Q.indirects) d w2.disk →
      Agree P.indirects d w1.disk := by
    intro d agree b hb
    rw [agree b (by simp [hb])]
    refine right.frame b fun hr => ?_
    exact disjoint b (wf.indirects_sub hb) (wfQ.indirects_sub (wfQ.reached_sub hr))
  have agreeQ : ∀ d, Agree (P.indirects ++ Q.indirects) d w2.disk → Agree Q.indirects d w2.disk :=
    fun d agree b hb => agree b (by simp [hb])
  constructor
  · rw [right.released, left.released, append_assoc]
  · refine nodup_append.mpr ⟨left.nodup, right.nodup, ?_⟩
    rintro a ha b hb rfl
    exact disjoint a (left.sub ha) (right.sub hb)
  · exact append_subset.mpr
      ⟨fun _ h => mem_append_left _ (left.sub h), fun _ h => mem_append_right _ (right.sub h)⟩
  · intro b hb
    simp only [Piece.append, mem_append, not_or] at hb
    rw [right.frame b hb.2, left.frame b hb.1]
  · intro d agree r inside
    simp only [Piece.append] at inside agree ⊢
    split_ifs with h
    · exact left.mapping d (agreeP d agree) r h
    · exact right.mapping d (agreeQ d agree) (r - P.size) (by omega)
  · intro d agree b
    simp only [Piece.append] at agree ⊢
    rw [mem_append, left.mem d (agreeP d agree), right.mem d (agreeQ d agree)]
    rw [mem_append, or_and_right, or_or_or_comm]
    refine or_congr_left ⟨?_, ?_⟩
    · rintro (⟨r, inside, sel, eq⟩ | ⟨r, inside, sel, eq⟩)
      · exact ⟨r, by omega, by simp [inside, sel], by simpa [inside] using eq⟩
      · exact ⟨P.size + r, by omega, by simpa using sel, by simpa using eq⟩
    · rintro ⟨r, inside, sel, eq⟩
      by_cases h : r < P.size
      · simp only [h, if_true] at sel eq
        exact .inl ⟨r, h, sel, eq⟩
      · simp only [h, if_false] at sel eq
        exact .inr ⟨r - P.size, by omega, sel, eq⟩
  · exact fun b zero => right.shrinks b (left.shrinks b zero)
  · have first := left.counted
    have second := right.counted
    rw [length_append, mul_add, mul_add]
    omega

end

section
variable {n : Nat} (d0 : Disk n)

def entryPiece (start count k i p : Nat) : Piece where
  size := n ^ k
  before := lookup d0 k p
  selected r := Visited n k start count i ∧
    Selected n k (start - i * n ^ k) (sub64 count (i * n ^ k)) r
  indirects := indirects d0 k p
  reached := if Visited n k start count i then
    reached d0 k (start - i * n ^ k) (sub64 count (i * n ^ k)) p else []
  blocks := blocks d0 k p

def entriesPiece (start count k i : Nat) (ps : List Nat) : Piece where
  size := ps.length * n ^ k
  before := entriesLookup d0 k ps
  selected r := Visited n k start count (i + r / n ^ k) ∧
    Selected n k (start - (i + r / n ^ k) * n ^ k) (sub64 count ((i + r / n ^ k) * n ^ k))
      (r % n ^ k)
  indirects := ps.flatMap (indirects d0 k)
  reached := (ps.zipIdx i).flatMap fun e => (entryPiece d0 start count k e.2 e.1).reached
  blocks := ps.flatMap (blocks d0 k)

theorem entriesPiece_cons (start count k i p : Nat) (ps : List Nat) (pos : 0 < n) :
    entriesPiece d0 start count k i (p :: ps) =
      (entryPiece d0 start count k i p).append (entriesPiece d0 start count k (i + 1) ps) := by
  have width : 0 < n ^ k := Nat.pow_pos pos
  rw [entriesPiece]
  congr 1
  · simp [entryPiece, entriesPiece]
    ring
  · funext r
    exact entriesLookup_cons d0 k p ps r pos
  · funext r
    by_cases inside : r < (entryPiece d0 start count k i p).size
    · rw [if_pos inside]
      simp only [entryPiece] at inside ⊢
      rw [Nat.div_eq_of_lt inside, Nat.mod_eq_of_lt inside, add_zero]
    · rw [if_neg inside]
      simp only [entryPiece, entriesPiece] at inside ⊢
      have le : n ^ k ≤ r := Nat.le_of_not_lt inside
      have step : i + r / n ^ k = i + 1 + (r - n ^ k) / n ^ k := by
        rw [Nat.div_eq_sub_div width le]
        omega
      rw [step, Nat.mod_eq_sub_mod le]

theorem reached_subset (k start count p : Nat) : reached d0 k start count p ⊆ indirects d0 k p := by
  induction k generalizing start count p with
  | zero => simp [reached]
  | succ k ih =>
    by_cases hole : p = 0
    · simp [hole, reached]
    simp only [reached, indirects, if_neg hole]
    refine cons_subset_cons p ?_
    intro b hb
    obtain ⟨⟨q, j⟩, hq, below⟩ := mem_flatMap.mp hb
    split at below
    · exact mem_flatMap.mpr ⟨q, fst_mem_of_mem_zipIdx hq, ih _ _ _ below⟩
    · simp at below

theorem entryPiece_wf (start count k i p : Nat) (nodup : (blocks d0 k p).Nodup) :
    (entryPiece d0 start count k i p).Wf where
  reached_sub := by
    simp only [entryPiece]
    split
    · exact reached_subset d0 k _ _ p
    · simp
  indirects_sub := indirects_subset_blocks d0 k p
  nodup := nodup

theorem entriesPiece_wf (start count k i : Nat) (ps : List Nat)
    (nodup : (ps.flatMap (blocks d0 k)).Nodup) : (entriesPiece d0 start count k i ps).Wf where
  reached_sub b hb := by
    obtain ⟨⟨q, j⟩, hq, below⟩ := mem_flatMap.mp hb
    refine mem_flatMap.mpr ⟨q, fst_mem_of_mem_zipIdx hq, ?_⟩
    simp only [entryPiece] at below
    split at below
    · exact reached_subset d0 k _ _ q below
    · simp at below
  indirects_sub b hb := by
    obtain ⟨q, hq, below⟩ := mem_flatMap.mp hb
    exact mem_flatMap.mpr ⟨q, hq, indirects_subset_blocks d0 k q below⟩
  nodup := nodup

theorem entryPiece_succ {start count k i p : Nat} (ne : p ≠ 0)
    (visited : Visited n (k + 1) start count i) : entryPiece d0 start count (k + 1) i p =
      { entriesPiece d0 (start - i * n ^ (k + 1)) (sub64 count (i * n ^ (k + 1))) k 0
          (d0.read p) with
        indirects := p :: (d0.read p).flatMap (indirects d0 k)
        reached := p :: (entriesPiece d0 (start - i * n ^ (k + 1))
          (sub64 count (i * n ^ (k + 1))) k 0 (d0.read p)).reached
        blocks := p :: (d0.read p).flatMap (blocks d0 k) } := by
  simp only [entryPiece, entriesPiece, if_pos visited]
  congr 1
  · rw [d0.length_read, pow_succ, mul_comm]
  · funext r
    exact lookup_succ d0 k p r ne
  · funext r
    simp [visited, Selected]
  · simp [indirects, ne]
  · simp [reached, ne]
  · simp [blocks, ne]

end

section
variable {n : Nat} {unit : Nat} {sb : Super} (d0 : Disk n)

variable {start count k p i : Nat} {w : Work n} {ps : List Nat} {hugeFileFl : Bool}

/- An indirect block whose row has been punched and written back: it stays when a
pointer is left in it, and is released otherwise. -/
theorem Punched.of_row {w1 : Work n} {buf rel : List Nat} (ne : p ≠ 0)
    (visited : Visited n (k + 1) start count i) (nodup : (blocks d0 (k + 1) p).Nodup)
    (legal : p < sb.blocksCount) (len : buf.length = n)
    (kept : checkZeroBlock (w.disk.read p) = true → checkZeroBlock buf = true)
    (row : Punched unit sb (entriesPiece d0 (start - i * n ^ (k + 1))
      (sub64 count (i * n ^ (k + 1))) k 0 (d0.read p)) w w1 (fun d =>
      entriesLookup d k buf) rel 0) :
    ∃ rel', Punched unit sb (entryPiece d0 start count (k + 1) i p) w
      (if checkZeroBlock buf then blockAllocStats sb p { w1 with disk := w1.disk.write p buf }
        else { w1 with disk := w1.disk.write p buf })
      (fun d => lookup d (k + 1) (if checkZeroBlock buf then 0 else p)) rel'
      (if checkZeroBlock buf then 1 else 0) := by
  have parts :
      p ∉ (d0.read p).flatMap (blocks d0 k) ∧ ((d0.read p).flatMap (blocks d0 k)).Nodup := by
    simpa [blocks, ne] using nodup
  have wf := entriesPiece_wf d0 (start - i * n ^ (k + 1)) (sub64 count (i * n ^ (k + 1))) k 0
    (d0.read p) parts.2
  have fresh : p ∉ rel := fun h => parts.1 (row.sub h)
  have keeps : ∀ b, b ≠ p → (w1.disk.write p buf).read b = w1.disk.read b :=
    fun b hb => w1.disk.read_write_other p buf hb
  have shrinks : ∀ b, checkZeroBlock (w.disk.read b) = true →
      checkZeroBlock ((w1.disk.write p buf).read b) = true := by
    intro b zero
    by_cases own : b = p
    · rw [own, w1.disk.read_write_same p buf len]
      exact kept (own ▸ zero)
    · rw [keeps b own]
      exact row.shrinks b zero
  have below : ∀ d, Agree (p :: (d0.read p).flatMap (indirects d0 k)) d (w1.disk.write p buf) →
      d.read p = buf ∧ Agree ((d0.read p).flatMap (indirects d0 k)) d w1.disk := by
    intro d agree
    refine ⟨?_, fun b hb => ?_⟩
    · rw [agree p (by simp), w1.disk.read_write_same p buf len]
    · rw [agree b (by simp [hb]), keeps b]
      rintro rfl
      exact parts.1 (wf.indirects_sub hb)
  rw [entryPiece_succ d0 ne visited]
  by_cases zero : checkZeroBlock buf = true
  · have holes : ∀ q ∈ buf, q = 0 := by simpa [checkZeroBlock] using zero
    refine ⟨rel ++ [p], ?_⟩
    simp only [zero, if_true, blockAllocStats, Nat.not_le.mpr legal, if_false]
    constructor
    · simp [row.released]
    · exact nodup_append.mpr ⟨row.nodup, by simp, by
        rintro a ha b hb rfl
        exact fresh (by simpa using mem_singleton.mp hb ▸ ha)⟩
    · exact append_subset.mpr ⟨fun _ h => mem_cons_of_mem _ (row.sub h), by simp⟩
    · intro b hb
      simp only [mem_cons, not_or] at hb
      rw [keeps b hb.1, row.frame b hb.2]
    · intro d agree r inside
      have old := row.mapping d (below d agree).2 r inside
      rw [entriesLookup_of_zero d k buf r holes] at old
      simpa using old
    · intro d agree b
      have inner := row.mem d (below d agree).2 b
      rw [mem_append, inner, mem_singleton]
      have own : b = p → checkZeroBlock (d.read b) = true := by
        rintro rfl
        rw [(below d agree).1, zero]
      rw [mem_cons, or_and_right, and_iff_left_of_imp own]
      exact or_assoc.trans (or_congr_right or_comm)
    · exact shrinks
    · have count := row.counted
      simp only [length_append, length_singleton, mul_add]
      omega
  · refine ⟨rel, ?_⟩
    simp only [zero]
    constructor
    · exact row.released
    · exact row.nodup
    · exact fun b hb => mem_cons_of_mem _ (row.sub hb)
    · intro b hb
      simp only [mem_cons, not_or] at hb
      rw [← row.frame b hb.2]
      exact keeps b hb.1
    · intro d agree r inside
      have old := row.mapping d (below d agree).2 r inside
      simpa [lookup_succ d k p r ne, (below d agree).1] using old
    · intro d agree b
      rw [row.mem d (below d agree).2 b]
      have own : ¬ (b = p ∧ checkZeroBlock (d.read b) = true) := by
        rintro ⟨rfl, hz⟩
        rw [(below d agree).1] at hz
        exact zero hz
      rw [mem_cons, or_and_right, or_iff_right own]
    · exact shrinks
    · simpa using row.counted

/- What is needed of a row before it is punched: its blocks are distinct and legal,
and its indirect blocks are on the disk as they were at first. -/
structure RowReady (sb : Super) (k : Nat) (ps : List Nat) (w : Work n) : Prop where
  nodup : (ps.flatMap (blocks d0 k)).Nodup
  legal : ∀ b ∈ ps.flatMap (blocks d0 k), b < sb.blocksCount
  agree : Agree (ps.flatMap (indirects d0 k)) w.disk d0

theorem RowReady.tail (ready : RowReady d0 sb k (p :: ps) w) : RowReady d0 sb k ps w where
  nodup := (nodup_append.mp ready.nodup).2.1
  legal b hb := ready.legal b (mem_append_right _ hb)
  agree b hb := ready.agree b (mem_append_right _ hb)

theorem RowReady.head (ready : RowReady d0 sb k (p :: ps) w) : RowReady d0 sb k [p] w where
  nodup := by simpa using (nodup_append.mp ready.nodup).1
  legal b hb := ready.legal b (mem_append_left _ (by simpa using hb))
  agree b hb := ready.agree b (mem_append_left _ (by simpa using hb))

theorem Punched.skip_entry (agree : Agree (indirects d0 k p) w.disk d0)
    (idle : p = 0 ∨ ¬ Visited n k start count i) :
    Punched unit sb (entryPiece d0 start count k i p) w w (fun d => lookup d k p) [] 0 := by
  apply Punched.skip
  · rcases idle with rfl | unvisited
    · cases k <;> simp [entryPiece, reached]
    · simp [entryPiece, unvisited]
  · intro r inside sel
    rcases idle with rfl | unvisited
    · simp [entryPiece]
    · exact absurd sel.1 unvisited
  · intro d same r inside
    exact lookup_congr d0 d k p r fun b hb => (same b hb).trans (agree b hb)

theorem Punched.skip_row (agree : Agree (ps.flatMap (indirects d0 k)) w.disk d0)
    (idle : ∀ j, i ≤ j → ¬ Visited n k start count j) :
    Punched unit sb (entriesPiece d0 start count k i ps) w w (fun d => entriesLookup d k ps)
    [] 0 := by
  apply Punched.skip
  · refine flatMap_eq_nil_iff.mpr ?_
    rintro ⟨q, j⟩ hq
    simp [entryPiece, idle j (le_snd_of_mem_zipIdx hq)]
  · intro r inside sel
    exact absurd sel.1 (idle _ (Nat.le_add_right _ _))
  · intro d same r inside
    exact entriesLookup_congr d0 d k ps r fun b hb => (same b hb).trans (agree b hb)

/- What the handling of one entry that is looked at has to establish. -/
def VisitOk (sb : Super) (unit start count k : Nat)
    (visit : Nat → Nat → Work n → Option (Work n × Bool)) : Prop :=
  ∀ i p w w1 zero, p ≠ 0 → Visited n k start count i → RowReady d0 sb k [p] w →
    visit (i * n ^ k) p w = some (w1, zero) →
    ∃ rel, Punched unit sb (entryPiece d0 start count k i p) w
      (if zero then blockAllocStats sb p w1 else w1)
      (fun d => lookup d k (if zero then 0 else p)) rel (if zero then 1 else 0)

theorem punchEntries_spec {visit : Nat → Nat → Work n → Option (Work n × Bool)}
    (pos : 0 < n) (ok : VisitOk d0 sb unit start count k visit) (i : Nat)
    (w w' : Work n) (ps' : List Nat) (freed : Nat) (ready : RowReady d0 sb k ps w)
    (run : punchEntries sb visit start count (n ^ k) (i * n ^ k) ps w = some (w', ps', freed)) :
    ps'.length = ps.length ∧ (∀ q ∈ ps', q = 0 ∨ q ∈ ps) ∧
      ∃ rel, Punched unit sb (entriesPiece d0 start count k i ps) w w'
        (fun d => entriesLookup d k ps') rel freed := by
  induction ps generalizing i w w' ps' freed with
  | nil =>
    obtain ⟨rfl, rfl, rfl⟩ := run
    refine ⟨rfl, by simp, [], Punched.skip unit sb _ _ _ (by simp [entriesPiece]) ?_ ?_⟩
    · intro r inside
      simp [entriesPiece] at inside
    · intro d _ r inside
      simp [entriesPiece] at inside
  | cons p ps ih =>
    have next : i * n ^ k + n ^ k = (i + 1) * n ^ k := by ring
    have split := nodup_append.mp ready.nodup
    have wfHead := entryPiece_wf d0 start count k i p split.1
    have wfTail := entriesPiece_wf d0 start count k (i + 1) ps split.2.1
    have disjoint : ∀ b ∈ blocks d0 k p, b ∉ ps.flatMap (blocks d0 k) :=
      fun b hb hc => split.2.2 b hb b hc rfl
    -- the entry is handled, then the loop goes on with the rest of the row
    have join : ∀ w1 q x fr rest rel1,
        Punched unit sb (entryPiece d0 start count k i p) w w1 (fun d => lookup d k q) rel1 x →
        punchEntries sb visit start count (n ^ k) ((i + 1) * n ^ k) ps w1 = some (w', rest, fr) →
        ps' = q :: rest → freed = fr + x → q = 0 ∨ q = p →
        ps'.length = (p :: ps).length ∧ (∀ q ∈ ps', q = 0 ∨ q ∈ p :: ps) ∧ ∃ rel,
          Punched unit sb (entriesPiece d0 start count k i (p :: ps)) w w'
            (fun d => entriesLookup d k ps') rel freed := by
      intro w1 q x fr rest rel1 head run eq total entry
      have agree : Agree (ps.flatMap (indirects d0 k)) w1.disk d0 := by
        intro b hb
        rw [head.frame b fun hr => ?_]
        · exact ready.tail.agree b hb
        · exact disjoint b (wfHead.indirects_sub (wfHead.reached_sub hr)) (wfTail.indirects_sub hb)
      obtain ⟨len, kept, rel2, tail⟩ :=
        ih (i + 1) w1 w' rest fr ⟨ready.tail.nodup, ready.tail.legal, agree⟩ run
      subst eq
      refine ⟨by simp [len], ?_, rel1 ++ rel2, ?_⟩
      · exact forall_mem_cons.mpr ⟨entry.imp id fun eq => by simp [eq],
          fun b later => (kept b later).imp id (mem_cons_of_mem _)⟩
      have both := Punched.append unit sb wfHead wfTail disjoint head tail
      rw [← entriesPiece_cons d0 start count k i p ps pos, add_comm x fr, ← total] at both
      convert both using 3 with d r
      exact entriesLookup_cons d k q rest r pos
    rw [punchEntries] at run
    split at run
    · rename_i past
      obtain ⟨rfl, rfl, rfl⟩ := run
      refine ⟨rfl, fun q hq => .inr hq, [], Punched.skip_row d0 ready.agree fun j hj visited => ?_⟩
      have mono : i * n ^ k ≤ j * n ^ k := Nat.mul_le_mul_right _ hj
      exact absurd visited.1 (by omega)
    split at run
    · rename_i idle
      simp only [bind_eq_bind, bind_eq_some_iff, some.injEq, mk.injEq] at run
      obtain ⟨⟨w1, rest, fr⟩, run, rfl, rfl, rfl⟩ := run
      rw [next] at run
      refine join w p 0 _ _ [] (Punched.skip_entry d0 (fun b hb => ready.agree b ?_) ?_) run
        rfl rfl (.inr rfl)
      · exact mem_append_left _ hb
      · refine idle.imp id fun h visited => ?_
        exact absurd visited.2 (by omega)
    · rename_i notPast active
      rw [not_or, not_le] at active
      have visited : Visited n k start count i := ⟨by omega, by omega⟩
      simp only [bind_eq_bind, bind_eq_some_iff] at run
      obtain ⟨⟨w1, zero⟩, handled, run⟩ := run
      obtain ⟨rel1, head⟩ := ok i p w w1 zero active.1 visited ready.head handled
      rw [next] at run
      cases zero with
      | true =>
        simp only [if_true, bind_eq_some_iff, some.injEq, mk.injEq] at run head
        obtain ⟨⟨w2, rest, fr⟩, run, rfl, rfl, rfl⟩ := run
        exact join _ 0 1 _ _ rel1 head run rfl rfl (.inl rfl)
      | false =>
        simp only [Bool.false_eq_true, if_false, bind_eq_some_iff, some.injEq, mk.injEq] at run head
        obtain ⟨⟨w2, rest, fr⟩, run, rfl, rfl, rfl⟩ := run
        exact join _ p 0 _ _ rel1 head run rfl rfl (.inr rfl)

theorem ext2fsIblkSubBlocks_total {c c' : BlockCount} {num : Nat}
    (run : ext2fsIblkSubBlocks sb hugeFileFl c num = some c') :
    c'.total sb + iblkUnit sb hugeFileFl * num = c.total sb := by
  simp only [ext2fsIblkSubBlocks] at run
  split at run
  · cases run
  rename_i enough
  have lo := c.lo_lt
  have hi := c.hi_lt
  cases run
  rw [mul_comm (iblkUnit sb hugeFileFl)]
  unfold BlockCount.total at enough ⊢
  by_cases huge : sb.hugeFile = true <;> simp only [huge, if_true, Bool.false_eq_true, if_false]
    at enough ⊢
  all_goals omega

theorem Punched.settle {P : Piece} {w' : Work n} {after : Disk n → Nat → Nat} {rel : List Nat}
    {freed : Nat} {c : BlockCount}
    (done : Punched (iblkUnit sb hugeFileFl) sb P w w' after rel freed)
    (run : ext2fsIblkSubBlocks sb hugeFileFl w'.count freed = some c) :
    Punched (iblkUnit sb hugeFileFl) sb P w { w' with count := c } after rel 0 := by
  have total := ext2fsIblkSubBlocks_total run
  have counted := done.counted
  exact { done with counted := by simp only; omega }

end

theorem incr_eq (sb : Super) (level : Nat) : incr sb level = sb.addrPerBlock ^ level := by
  have quarter : sb.addrPerBlock = 2 ^ (sb.logBlockSize + 8) := by
    unfold Super.addrPerBlock Super.blocksize
    rw [pow_add]
    omega
  rw [incr, quarter, pow_mul]
  rfl

theorem addrPerBlock_pos (sb : Super) : 0 < sb.addrPerBlock := by
  have := incr_eq sb 1
  rw [pow_one] at this
  rw [← this]
  exact Nat.pow_pos (by decide)

theorem indPunch_spec (sb : Super) (d0 : Disk sb.addrPerBlock) (hugeFileFl : Bool) (k : Nat)
    (start count : Nat) (ps ps' : List Nat) (w w' : Work sb.addrPerBlock) (small : start < 2 ^ 32)
    (ready : RowReady d0 sb k ps w)
    (run : indPunch sb hugeFileFl k start count ps w = some (w', ps')) :
    ps'.length = ps.length ∧ (∀ q ∈ ps', q = 0 ∨ q ∈ ps) ∧ ∃ rel,
      Punched (iblkUnit sb hugeFileFl) sb (entriesPiece d0 start count k 0 ps) w w'
        (fun d => entriesLookup d k ps') rel 0 := by
  induction k generalizing start count ps ps' w w' with
  | zero =>
    simp only [indPunch, bind_eq_bind, bind_eq_some_iff, some.injEq, mk.injEq] at run
    obtain ⟨⟨w1, q, freed⟩, entries, c, settled, rfl, rfl⟩ := run
    have ok :
        VisitOk d0 sb (iblkUnit sb hugeFileFl) start count 0 (fun _ _ w => some (w, true)) := by
      intro i p w w1 zero ne visited ready handled
      cases handled
      refine ⟨[p], ?_⟩
      have legal := ready.legal p (by simp [blocks, ne])
      simp only [if_true, blockAllocStats, Nat.not_le.mpr legal, if_false]
      constructor
      · rfl
      · simp
      · simp [entryPiece, blocks, ne]
      · simp
      · intro d _ r inside
        simp [entryPiece, visited, Selected, lookup]
      · intro d _ b
        simp [entryPiece, visited, Selected, lookup, reached]
        grind
      · simp
      · simp
    rw [incr_eq] at entries
    have spec :=
      punchEntries_spec d0 (addrPerBlock_pos sb) ok 0 w w1 q freed ready (by simpa using entries)
    exact ⟨spec.1, spec.2.1, spec.2.2.imp fun rel done => done.settle settled⟩
  | succ k ih =>
    simp only [indPunch, bind_eq_bind, bind_eq_some_iff, some.injEq, mk.injEq] at run
    obtain ⟨⟨w1, q, freed⟩, entries, c, settled, rfl, rfl⟩ := run
    have ok : VisitOk d0 sb (iblkUnit sb hugeFileFl) start count (k + 1)
        (fun offset b w => (indPunch sb hugeFileFl k
          ((if start > offset then start - offset else 0) % 2 ^ 32) (sub64 count offset)
          (w.disk.read b) w).bind fun out =>
            some ({ out.1 with disk := out.1.disk.write b out.2 }, checkZeroBlock out.2)) := by
      intro i p w w1 zero ne visited ready handled
      obtain ⟨⟨w2, buf⟩, row, eq⟩ := bind_eq_some_iff.mp handled
      obtain ⟨rfl, rfl⟩ := eq
      -- the start is moved without being cut to 32 bits
      have rebased : ∀ off, (if start > off then start - off else 0) % 2 ^ 32 = start - off := by
        intro off
        split <;> omega
      have content := ready.agree p (by simp [indirects, ne])
      rw [rebased, content] at row
      have below : RowReady d0 sb k (d0.read p) w := by
        have nodup := ready.nodup
        have legal := ready.legal
        have agree := ready.agree
        simp only [flatMap_cons, flatMap_nil, append_nil, blocks, indirects, if_neg ne]
          at nodup legal agree
        exact ⟨(nodup_cons.mp nodup).2, fun b hb => legal b (mem_cons_of_mem _ hb),
          fun b hb => agree b (mem_cons_of_mem _ hb)⟩
      obtain ⟨len, kept, rel, done⟩ := ih _ _ _ _ _ _ (by omega) below row
      refine done.of_row d0 ne visited (by simpa using ready.nodup)
        (ready.legal p (by simp [blocks, ne])) (len.trans (d0.length_read p)) fun zero => ?_
      rw [content] at zero
      simp only [checkZeroBlock, List.all_eq_true, beq_iff_eq] at zero ⊢
      exact fun q hq => (kept q hq).elim id (zero q)
    rw [incr_eq] at entries
    have spec :=
      punchEntries_spec d0 (addrPerBlock_pos sb) ok 0 w w1 q freed ready (by simpa using entries)
    exact ⟨spec.1, spec.2.1, spec.2.2.imp fun rel done => done.settle settled⟩

end E2fs.Punch
