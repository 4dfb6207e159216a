import E2fs.Lib.Device

/-! A write-back cache of blocks in front of a device: what the lines and the device hold
together, when lines are filled, written back and dropped, and when the device is written
behind their back. -/
namespace E2fs.BlockCache
open Device Function Nat

structure Line where
  block : Nat
  buf : Content
  dirty : Bool
  used : Bool

/-- A device with lines of `size` bytes; block 0 is at position `base`. -/
structure Store (ι : Type) where
  dev : Content
  base : Nat
  size : Nat
  line : ι → Line

variable {ι : Type}

def Store.pos (s : Store ι) (b : Nat) : Nat := b * s.size + s.base

def Store.write (s : Store ι) (p n : Nat) (new : Content) : Store ι :=
  { s with dev := patch s.dev p n new }

def Store.setLine [DecidableEq ι] (s : Store ι) (i : ι) (l : Line) : Store ι :=
  { s with line := Function.update s.line i l }

def Store.writeBack (s : Store ι) (i : ι) : Store ι :=
  s.write (s.pos (s.line i).block) s.size (s.line i).buf

def Store.Covers (s : Store ι) (i : ι) (q : Nat) : Prop :=
  s.pos (s.line i).block ≤ q ∧ q < s.pos (s.line i).block + s.size

def Store.Absent (s : Store ι) (b : Nat) : Prop := ∀ k, (s.line k).used → (s.line k).block ≠ b

variable {s : Store ι} {R : Nat → Bool → Prop} {E : Nat → Prop} {c : Content} {i : ι}

/-- Together the lines and the device hold `c`. Lines of blocks in `E` do not count, the device
has the bytes of these; what is known of a block and whether it is dirty is `R`. -/
structure Holds (R : Nat → Bool → Prop) (E : Nat → Prop) (s : Store ι) (c : Content) : Prop where
  pos : 0 < s.size
  known : ∀ i, (s.line i).used → R (s.line i).block (s.line i).dirty
  distinct : ∀ i k, (s.line i).used → (s.line k).used → (s.line i).block = (s.line k).block → i = k
  fresh : ∀ i, (s.line i).used → ¬ E (s.line i).block → ∀ j < s.size,
    c (s.pos (s.line i).block + j) = (s.line i).buf j
  clean : ∀ i, (s.line i).used → ¬ E (s.line i).block → (s.line i).dirty = false → ∀ j < s.size,
    s.dev (s.pos (s.line i).block + j) = (s.line i).buf j
  stale : ∀ i, (s.line i).used → E (s.line i).block → (s.line i).dirty = false
  device : ∀ q, (∀ i, (s.line i).used → ¬ E (s.line i).block → ¬ s.Covers i q) → c q = s.dev q

theorem Store.apart (s : Store ι) {a b q : Nat} (ne : a ≠ b) (low : s.pos b ≤ q)
    (high : q < s.pos b + s.size) : q < s.pos a ∨ s.pos a + s.size ≤ q := by
  unfold Store.pos at *
  rcases lt_or_gt_of_ne ne with lt | gt
  · have := Nat.mul_le_mul_right s.size (succ_le_of_lt lt)
    rw [succ_mul] at this
    omega
  · have := Nat.mul_le_mul_right s.size (succ_le_of_lt gt)
    rw [succ_mul] at this
    omega

theorem patch_block_apart {a b j : Nat} {f new : Content} (ne : a ≠ b) (lt : j < s.size) :
    patch f (s.pos a) s.size new (s.pos b + j) = f (s.pos b + j) :=
  patch_apart (s.apart ne (Nat.le_add_right _ _) (Nat.add_lt_add_left lt _))

theorem patch_block_same {b j : Nat} {f new : Content} (lt : j < s.size) :
    patch f (s.pos b) s.size new (s.pos b + j) = new j := patch_add lt

variable [DecidableEq ι]

theorem setLine_same (l : Line) : (s.setLine i l).line i = l := update_self ..

theorem setLine_other {k : ι} (l : Line) (ne : k ≠ i) : (s.setLine i l).line k = s.line k :=
  update_of_ne ne ..

section

variable (holds : Holds R E s c)
include holds

theorem Holds.put (i : ι) (b : Nat) (buf : Content) (dirty : Bool)
    (place : ∀ k, (s.line k).used → ((s.line k).block = b ↔ k = i)) (known : R b dirty)
    (agrees : dirty = false → ∀ j < s.size, s.dev (s.pos b + j) = buf j) :
    Holds R (fun a => E a ∧ a ≠ b) (s.setLine i ⟨b, buf, dirty, true⟩)
    (patch c (s.pos b) s.size buf) := by
  have other {k : ι} (ne : k ≠ i) (used : ((s.setLine i ⟨b, buf, dirty, true⟩).line k).used) :
      (s.line k).used ∧ (s.line k).block ≠ b := by
    rw [setLine_other _ ne] at used
    exact ⟨used, fun is => ne ((place k used).mp is)⟩
  refine ⟨holds.pos, fun k used => ?_, fun k l usedk usedl same => ?_, fun k used counts j lt => ?_,
    fun k used counts clean j lt => ?_, fun k used exempt => ?_, fun q uncovered => ?_⟩
  · by_cases is : k = i
    · rw [is, setLine_same]
      exact known
    · rw [setLine_other _ is]
      exact holds.known k (other is used).1
  · by_cases isk : k = i <;> by_cases isl : l = i
    · rw [isk, isl]
    · rw [isk, setLine_same, setLine_other _ isl] at same
      exact absurd same.symm (other isl usedl).2
    · rw [isl, setLine_same, setLine_other _ isk] at same
      exact absurd same (other isk usedk).2
    · rw [setLine_other _ isk, setLine_other _ isl] at same
      exact holds.distinct k l (other isk usedk).1 (other isl usedl).1 same
  · by_cases is : k = i
    · rw [is, setLine_same]
      exact patch_block_same lt
    · obtain ⟨before, ne⟩ := other is used
      rw [setLine_other _ is] at counts ⊢
      exact Eq.trans (patch_block_apart ne.symm lt)
        (holds.fresh k before (fun e => counts ⟨e, ne⟩) j lt)
  · by_cases is : k = i
    · rw [is, setLine_same] at clean ⊢
      exact agrees clean j lt
    · obtain ⟨before, ne⟩ := other is used
      rw [setLine_other _ is] at counts clean ⊢
      exact holds.clean k before (fun e => counts ⟨e, ne⟩) clean j lt
  · by_cases is : k = i
    · rw [is, setLine_same] at exempt
      exact absurd rfl exempt.2
    · rw [setLine_other _ is] at exempt ⊢
      exact holds.stale k (other is used).1 exempt.1
  · have own : ¬ (s.pos b ≤ q ∧ q < s.pos b + s.size) := by
      have := uncovered i (by rw [setLine_same]) (by rw [setLine_same]; exact fun e => e.2 rfl)
      rw [Store.Covers, setLine_same] at this
      exact this
    rw [patch_apart (by omega)]
    refine holds.device q fun k used counts covers => ?_
    by_cases is : k = i
    · rw [Store.Covers, (place k used).mpr is] at covers
      exact own covers
    · have := uncovered k (by rwa [setLine_other _ is])
        (by rw [setLine_other _ is]; exact fun e => counts e.1)
      rw [Store.Covers, setLine_other _ is] at this
      exact this covers

theorem Holds.drop
    (agrees : (s.line i).used → ¬ E (s.line i).block → ∀ j < s.size,
      s.dev (s.pos (s.line i).block + j) = (s.line i).buf j)
    {l : Line} (unused : l.used = false) : Holds R E (s.setLine i l) c := by
  have kept {k : ι} (used : ((s.setLine i l).line k).used) : (s.setLine i l).line k = s.line k := by
    refine setLine_other l ?_
    rintro rfl
    rw [setLine_same, unused] at used
    cases used
  refine ⟨holds.pos, fun k used => ?_, fun k m usedk usedm same => ?_, fun k used counts j lt => ?_,
    fun k used counts clean j lt => ?_, fun k used exempt => ?_, fun q uncovered => ?_⟩
  · have is := kept used
    rw [is] at used ⊢
    exact holds.known k used
  · have isk := kept usedk
    have ism := kept usedm
    rw [isk, ism] at same
    rw [isk] at usedk
    rw [ism] at usedm
    exact holds.distinct k m usedk usedm same
  · have is := kept used
    rw [is] at used counts ⊢
    exact holds.fresh k used counts j lt
  · have is := kept used
    rw [is] at used counts clean ⊢
    exact holds.clean k used counts clean j lt
  · have is := kept used
    rw [is] at used exempt ⊢
    exact holds.stale k used exempt
  · by_cases own : (s.line i).used ∧ ¬ E (s.line i).block ∧ s.Covers i q
    · obtain ⟨used, counts, low, high⟩ := own
      have lt : q - s.pos (s.line i).block < s.size := by omega
      have is : q = s.pos (s.line i).block + (q - s.pos (s.line i).block) := by omega
      rw [is, holds.fresh i used counts _ lt]
      exact (agrees used counts _ lt).symm
    · refine holds.device q fun k used counts covers => ?_
      have ne : k ≠ i := by
        rintro rfl
        exact own ⟨used, counts, covers⟩
      have := uncovered k (by rwa [setLine_other _ ne]) (by rwa [setLine_other _ ne])
      rw [Store.Covers, setLine_other _ ne] at this
      exact this covers

omit [DecidableEq ι] in
/- The device is written where the lines that count hold the new bytes. -/
theorem Holds.write (p n : Nat) (new : Content)
    (agrees : ∀ i, (s.line i).used → ¬ E (s.line i).block → ∀ j < s.size,
      p ≤ s.pos (s.line i).block + j →
      s.pos (s.line i).block + j < p + n →
      (s.line i).buf j = new (s.pos (s.line i).block + j - p)) :
    Holds R E (s.write p n new) (patch c p n new) where
  __ := holds
  fresh i used counts j lt := patch_eq (agrees i used counts j lt) (holds.fresh i used counts j lt)
  clean i used counts clean j lt :=
    patch_eq (agrees i used counts j lt) (holds.clean i used counts clean j lt)
  device := by
    intro q uncovered
    have same : c q = s.dev q := holds.device q uncovered
    show patch c p n new q = patch s.dev p n new q
    simp only [patch, same]

omit [DecidableEq ι] in
theorem Holds.patch_line (used : (s.line i).used) (counts : ¬ E (s.line i).block) :
    patch c (s.pos (s.line i).block) s.size (s.line i).buf = c := by
  funext q
  by_cases covers : s.Covers i q
  · have lt : q - s.pos (s.line i).block < s.size := by
      obtain ⟨low, high⟩ := covers
      omega
    rw [patch_inside covers.1 covers.2, ← holds.fresh i used counts _ lt,
      Nat.add_sub_cancel' covers.1]
  · rw [Store.Covers] at covers
    exact patch_apart (by omega)

omit [DecidableEq ι] in
theorem Holds.writeBack (used : (s.line i).used) (counts : ¬ E (s.line i).block) :
    Holds R E (s.writeBack i) c := by
  have written := holds.write (s.pos (s.line i).block) s.size (s.line i).buf
    fun k usedk countsk j lt low high => by
      by_cases is : (s.line k).block = (s.line i).block
      · rw [holds.distinct k i usedk used is, Nat.add_sub_cancel_left]
      · have := s.apart (Ne.symm is) (Nat.le_add_right _ j) (Nat.add_lt_add_left lt _)
        omega
  rwa [holds.patch_line used counts] at written

omit [DecidableEq ι] in
theorem Holds.eq_dev (clean : ∀ i, (s.line i).used → (s.line i).dirty = false) : c = s.dev := by
  funext q
  by_cases covered : ∃ i, (s.line i).used ∧ ¬ E (s.line i).block ∧ s.Covers i q
  · obtain ⟨i, used, counts, low, high⟩ := covered
    have lt : q - s.pos (s.line i).block < s.size := by omega
    have is : q = s.pos (s.line i).block + (q - s.pos (s.line i).block) := by omega
    rw [is, holds.fresh i used counts _ lt, holds.clean i used counts (clean i used) _ lt]
  · exact holds.device q fun i used counts covers => covered ⟨i, used, counts, covers⟩

omit [DecidableEq ι] in
/- When the device has all bytes, other lines may count: those that agree with it. -/
theorem Holds.recount (is : c = s.dev) (E' : Nat → Prop)
    (clean : ∀ i, (s.line i).used → (s.line i).dirty = false)
    (agrees : ∀ i, (s.line i).used → ¬ E' (s.line i).block → ∀ j < s.size,
      s.dev (s.pos (s.line i).block + j) = (s.line i).buf j) : Holds R E' s c where
  __ := holds
  fresh := fun i used counts j lt => is ▸ agrees i used counts j lt
  clean := fun i used counts _ j lt => agrees i used counts j lt
  stale := fun i used _ => clean i used
  device := fun q _ => congrFun is q

/- A line is taken out, after its bytes went to the device if it is dirty. -/
theorem Holds.evict (i : ι) {l : Line} (unused : l.used = false) :
    Holds R E ((if (s.line i).dirty && (s.line i).used then s.writeBack i else s).setLine i l)
      c := by
  split_ifs with both
  · obtain ⟨dirty, used⟩ := Bool.and_eq_true_iff.mp both
    have counts : ¬ E (s.line i).block := fun exempt => by
      rw [holds.stale i used exempt] at dirty
      cases dirty
    exact (holds.writeBack used counts).drop (fun _ _ j lt => patch_block_same lt) unused
  · refine holds.drop (fun used counts j lt => holds.clean i used counts ?_ j lt) unused
    rw [used, Bool.and_true, Bool.not_eq_true] at both
    exact both

omit [DecidableEq ι] in
/- A byte of a block that no line has, among those that count, is on the device. -/
theorem Holds.absent {b j : Nat}
    (absent : ∀ k, (s.line k).used → ¬ E (s.line k).block → (s.line k).block ≠ b)
    (lt : j < s.size) : c (s.pos b + j) = s.dev (s.pos b + j) := by
  refine holds.device _ fun k used counts covers => ?_
  have := s.apart (absent k used counts) (Nat.le_add_right _ j) (Nat.add_lt_add_left lt _)
  rw [Store.Covers] at covers
  omega

theorem Holds.reuse (i : ι) (b : Nat) (buf : Content) (dirty : Bool) (absent : s.Absent b)
    (known : R b dirty)
    (agrees : dirty = false → ∀ j < s.size, c (s.pos b + j) = buf j) :
    Holds R (fun a => E a ∧ a ≠ b)
      ((if (s.line i).dirty && (s.line i).used then s.writeBack i else s).setLine i
        ⟨b, buf, dirty, true⟩)
      (patch c (s.pos b) s.size buf) := by
  have evicted := holds.evict i (show (⟨b, buf, false, false⟩ : Line).used = false from rfl)
  generalize is :
    (if (s.line i).dirty && (s.line i).used then s.writeBack i else s) = s' at evicted ⊢
  obtain ⟨size, base, line⟩ : s'.size = s.size ∧ s'.base = s.base ∧ s'.line = s.line := by
    rw [← is]
    split <;> exact ⟨rfl, rfl, rfl⟩
  have free : ∀ k, ((s'.setLine i ⟨b, buf, false, false⟩).line k).used →
      ((s'.setLine i ⟨b, buf, false, false⟩).line k).block ≠ b ∧ k ≠ i := by
    intro k used
    have ne : k ≠ i := by
      rintro rfl
      rw [setLine_same] at used
      cases used
    rw [setLine_other _ ne, line] at used ⊢
    exact ⟨absent k used, ne⟩
  have at_ : (s'.setLine i ⟨b, buf, false, false⟩).pos b = s.pos b := by
    show b * s'.size + s'.base = b * s.size + s.base
    rw [size, base]
  have put := evicted.put i b buf dirty (fun k used => iff_of_false (free k used).1 (free k used).2)
    known fun clean j lt => by
      rw [← evicted.absent (fun k used _ => (free k used).1) lt, at_]
      exact agrees clean j (size ▸ lt)
  have again : (s'.setLine i ⟨b, buf, false, false⟩).setLine i ⟨b, buf, dirty, true⟩ =
      s'.setLine i ⟨b, buf, dirty, true⟩ := by
    simp only [Store.setLine, update_idem]
  rw [at_, again, show (s'.setLine i ⟨b, buf, false, false⟩).size = s.size from size] at put
  exact put

theorem Holds.flush (used : (s.line i).used) (dirty : (s.line i).dirty = true)
    (known : R (s.line i).block false) :
    Holds R E ((s.writeBack i).setLine i { s.line i with dirty := false }) c := by
  have counts : ¬ E (s.line i).block := fun exempt => by
    rw [holds.stale i used exempt] at dirty
    cases dirty
  have place : ∀ k, (s.line k).used → ((s.line k).block = (s.line i).block ↔ k = i) :=
      fun k usedk =>
    ⟨fun same => holds.distinct k i usedk used same, fun is => by rw [is]⟩
  have written := (holds.writeBack used counts).put i (s.line i).block (s.line i).buf false place
    known fun _ j lt => patch_block_same lt
  have same : (fun a => E a ∧ a ≠ (s.line i).block) = E := by
    funext a
    exact propext ⟨And.left, fun exempt => ⟨exempt, fun is => counts (is ▸ exempt)⟩⟩
  have line : ({ s.line i with dirty := false } : Line) =
      ⟨(s.line i).block, (s.line i).buf, false, true⟩ := by
    rw [← used]
  rw [same] at written
  rw [line, ← holds.patch_line used counts]
  exact written

end

end E2fs.BlockCache
