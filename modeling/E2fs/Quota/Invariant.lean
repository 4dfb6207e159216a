import E2fs.Quota.Insert

/-! What a quota file stands for: a map from ids to records. The invariant, and that writing a
record keeps it. -/
namespace E2fs.Quota
open Memory Word
open Function (update update_of_ne update_self)

section Invariant

def IsTree (h : QuotaHandle) (b : Nat) : Prop := b ≠ 0 ∧ ∃ d < 4, ∃ p < 256 ^ d, nodeOf h d p = b

def IsData (h : QuotaHandle) (b : Nat) : Prop := b ≠ 0 ∧ ∃ id : UInt32, home h id = b

def InUse (h : QuotaHandle) (b : Nat) : Prop := IsTree h b ∨ IsData h b

/-- The file holds the map `m`: `F` are the free blocks, `L` the blocks with free entries and
`place` the numbers of the records in their blocks. Offsets of records fit into an `int`. -/
structure Inv (h : QuotaHandle) (m : UInt32 → Option Dqblk) (F L : List Nat)
    (place : UInt32 → Nat) : Prop where
  pool : Pool h (InUse h) F
  partly : Partly h L
  inj : ∀ d < 4, ∀ p < 256 ^ d, ∀ d' < 4, ∀ p' < 256 ^ d', nodeOf h d p ≠ 0 →
    nodeOf h d p = nodeOf h d' p' → d = d' ∧ p = p'
  apart : ∀ b, IsTree h b → ¬ IsData h b
  members : ∀ b, b ∈ L ↔ IsData h b ∧ used (view h b) < 14
  counts : ∀ b, IsData h b → entries (view h b) = used (view h b)
  stored : ∀ id v, m id = some v → v.Used ∧ home h id ≠ 0 ∧ place id < 14 ∧
    slot (view h (home h id)) (place id) = mem2disk id v
  absent : ∀ id, m id = none → home h id = 0
  owned : ∀ b i, IsData h b → i < 14 → slot (view h b) i ≠ blank → ∃ id, home h id = b ∧
    place id = i
  small : ∀ b, IsData h b → b < 2 ^ 21

variable {h : QuotaHandle} {m : UInt32 → Option Dqblk} {F L : List Nat} {place : UInt32 → Nat}

theorem isTree_node {d p : Nat} (lt : d < 4) (small : p < 256 ^ d) (nonzero : nodeOf h d p ≠ 0) :
    IsTree h (nodeOf h d p) := ⟨nonzero, d, lt, p, small, rfl⟩

theorem same_tree (h h' : QuotaHandle) (same : ∀ c, IsTree h c → view h' c = view h c) :
    (∀ d ≤ 4, ∀ p < 256 ^ d, nodeOf h' d p = nodeOf h d p) ∧ (∀ b, IsTree h' b ↔ IsTree h b) ∧
      (∀ id, home h' id = home h id) ∧ (∀ b, IsData h' b ↔ IsData h b) := by
  have nodes := nodeOf_congr h' fun d lt p small nonzero =>
    same _ (isTree_node (h := h) lt small nonzero)
  have homes : ∀ id, home h' id = home h id := fun id => by
    rw [home_eq, home_eq, nodes 4 (le_refl 4) _ (pre_lt id (le_refl 4))]
  refine ⟨nodes, fun b => and_congr_right fun _ => ?_, homes, fun b => and_congr_right fun _ => ?_⟩
  · exact exists_congr fun d => and_congr_right fun lt => exists_congr fun p =>
        and_congr_right fun small => by
      rw [nodes d lt.le p small]
  · simp only [homes]

theorem inUse_congr {h' : QuotaHandle} (trees : ∀ b, IsTree h' b ↔ IsTree h b)
    (datas : ∀ b, IsData h' b ↔ IsData h b) (b : Nat) : InUse h' b ↔ InUse h b :=
  or_congr (trees b) (datas b)

theorem Inv.tree (inv : Inv h m F L place) : Tree h (InUse h) L where
  used d lt p small nonzero := by
    have here := isTree_node lt small nonzero
    exact ⟨.inl here, fun mem => inv.apart _ here ((inv.members _).mp mem).1⟩
  inj := inv.inj

theorem Inv.data_of_mem (inv : Inv h m F L place) {b : Nat} (mem : b ∈ L) : IsData h b :=
  ((inv.members b).mp mem).1

theorem Inv.counted (inv : Inv h m F L place) {b : Nat} (mem : b ∈ L) :
    entries (view h b) = used (view h b) ∧ used (view h b) < 14 :=
  ⟨inv.counts b (inv.data_of_mem mem), ((inv.members b).mp mem).2⟩

theorem mem2disk_not_blank {id : UInt32} {v : Dqblk} (used : v.Used) : mem2disk id v ≠ blank :=
  fun is => (used_stored used).2 ((entryUnused_iff (length_mem2disk id v)).mpr is)

end Invariant

section Insert

variable {h h1 h' : QuotaHandle} {m : UInt32 → Option Dqblk} {F F' L L' : List Nat}
  {place : UInt32 → Nat} {id : UInt32} {path : Nat → Nat} {i : Nat} {old : Buf}

theorem Inserted.data (inserted : Inserted h h1 id (InUse h) F F' L L' 0 path i old)
    (inv : Inv h m F L place) :
    (IsData h (path 4) ∧ old = view h (path 4)) ∨ (¬ InUse h (path 4) ∧ old = getdqbuf) := by
  rcases inserted.took.old_is with ⟨mem, is⟩ | ⟨-, new, is⟩
  · exact .inl ⟨inv.data_of_mem mem, is⟩
  · exact .inr ⟨new, is⟩

variable {b : Nat} {v : Dqblk}

section

variable (inserted : Inserted h h1 id (InUse h) F F' L L' 0 path i old)
include inserted

theorem Inserted.tree_apart (inv : Inv h m F L place) (tree : IsTree h b) : b ≠ path 4 := by
  rintro rfl
  rcases inserted.data inv with ⟨data, -⟩ | ⟨new, -⟩
  · exact inv.apart _ tree data
  · exact new (.inl tree)

theorem Inserted.path_cases {j : Nat} (lt : j < 4) :
    IsTree h (path j) ∧ path j = nodeOf h j (pre id j) ∨ ¬ InUse h (path j) := by
  by_cases zero : nodeOf h j (pre id j) = 0
  · exact .inr (inserted.fresh j (Nat.zero_le j) lt zero)
  · have is := inserted.kept j (Nat.zero_le j) lt zero
    rw [is]
    exact .inl ⟨isTree_node lt (pre_lt id lt.le) zero, rfl⟩

theorem Inserted.path_nonzero {j : Nat} (le : j ≤ 4) :
    path j ≠ 0 := inserted.pool.nonzero (.inl ⟨j, Nat.zero_le j, le, rfl⟩)

section

variable (inv : Inv h m F L place)
include inv

theorem Inserted.isTree (b : Nat) : IsTree h1 b ↔ IsTree h b ∨ ∃ j < 4, b = path j := by
  have nodes := inserted.nodes inv.tree
  constructor
  · rintro ⟨nonzero, d, lt, p, small, is⟩
    rw [nodes d lt.le p small] at is
    by_cases on : p = pre id d
    · rw [if_pos on] at is
      exact .inr ⟨d, lt, is.symm⟩
    · rw [if_neg on] at is
      exact .inl ⟨nonzero, d, lt, p, small, is⟩
  · rintro (⟨nonzero, d, lt, p, small, is⟩ | ⟨j, lt, rfl⟩)
    · refine ⟨nonzero, d, lt, p, small, ?_⟩
      rw [nodes d lt.le p small]
      split_ifs with on
      · subst on
        rw [inserted.kept d (Nat.zero_le d) lt (by rwa [is]), is]
      · exact is
    · refine ⟨inserted.path_nonzero lt.le, j, lt, pre id j, pre_lt id lt.le, ?_⟩
      rw [nodes j lt.le _ (pre_lt id lt.le), if_pos rfl]

theorem Inserted.home (id' : UInt32) : home h1 id' = if id' = id then path 4 else home h id' := by
  have same : pre id' 4 = pre id 4 ↔ id' = id := by
    rw [pre_four, pre_four, UInt32.toNat_inj]
  rw [home_eq, inserted.nodes inv.tree 4 (le_refl 4) _ (pre_lt id' (le_refl 4)), ← home_eq]
  simp only [same]

theorem Inserted.isData (new : Quota.home h id = 0) (b : Nat) :
    IsData h1 b ↔ IsData h b ∨ b = path 4 := by
  constructor
  · rintro ⟨nonzero, id', is⟩
    rw [inserted.home inv] at is
    split at is
    · exact .inr is.symm
    · exact .inl ⟨nonzero, id', is⟩
  · rintro (⟨nonzero, id', is⟩ | rfl)
    · refine ⟨nonzero, id', ?_⟩
      rw [inserted.home inv, if_neg, is]
      rintro rfl
      exact nonzero (is.symm.trans new)
    · exact ⟨inserted.path_nonzero (le_refl 4), id, by rw [inserted.home inv, if_pos rfl]⟩

theorem Inserted.inUse (new : Quota.home h id = 0) (b : Nat) :
    InUse h1 b ↔ (∃ j, 0 ≤ j ∧ j ≤ 4 ∧ b = path j) ∨ InUse h b := by
  rw [InUse, inserted.isTree inv, inserted.isData inv new, InUse]
  have along : (∃ j, 0 ≤ j ∧ j ≤ 4 ∧ b = path j) ↔ (∃ j < 4, b = path j) ∨ b = path 4 := by
    rw [← Nat.exists_lt_succ_right]
    simp [Nat.lt_succ_iff]
  rw [along, or_or_or_comm, or_comm]

theorem Inserted.inj : ∀ d < 4, ∀ p < 256 ^ d, ∀ d' < 4, ∀ p' < 256 ^ d', nodeOf h1 d p ≠ 0 →
    nodeOf h1 d p = nodeOf h1 d' p' → d = d' ∧ p = p' := by
  have nodes := inserted.nodes inv.tree
  -- a node of the path and one beside it
  have beside : ∀ j < 4, ∀ d < 4, ∀ p < 256 ^ d, p ≠ pre id d → path j ≠ nodeOf h d p := by
    intro j lt d lt' p small ne is
    have nonzero : nodeOf h d p ≠ 0 := is ▸ inserted.path_nonzero lt.le
    rcases inserted.path_cases lt with ⟨-, old⟩ | fresh
    · rw [old] at is
      obtain ⟨rfl, rfl⟩ := inv.inj j lt _ (pre_lt id lt.le) d lt' p small (is ▸ nonzero) is
      exact ne rfl
    · exact fresh (is ▸ .inl (isTree_node lt' small nonzero))
  intro d lt p small d' lt' p' small' nonzero is
  rw [nodes d lt.le p small] at is nonzero
  rw [nodes d' lt'.le p' small'] at is
  by_cases on : p = pre id d
  · rw [if_pos on] at is
    by_cases on' : p' = pre id d'
    · rw [if_pos on'] at is
      have same : d = d' := by
        rcases Nat.lt_trichotomy d d' with less | same | more
        · exact absurd is (inserted.distinct d d' (Nat.zero_le d) less lt'.le)
        · exact same
        · exact absurd is.symm (inserted.distinct d' d (Nat.zero_le d') more lt.le)
      subst same
      exact ⟨rfl, on.trans on'.symm⟩
    · rw [if_neg on'] at is
      exact absurd is (beside d lt d' lt' p' small' on')
  · rw [if_neg on] at is nonzero
    by_cases on' : p' = pre id d'
    · rw [if_pos on'] at is
      exact absurd is.symm (beside d' lt' d lt p small on)
    · rw [if_neg on'] at is
      exact inv.inj d lt p small d' lt' p' small' nonzero is

theorem Inserted.apart_data (new : Quota.home h id = 0) : ∀ b, IsTree h1 b → ¬ IsData h1 b := by
  intro b tree data
  rw [inserted.isTree inv] at tree
  rw [inserted.isData inv new] at data
  rcases tree with tree | ⟨j, lt, rfl⟩
  · rcases data with data | is
    · exact inv.apart b tree data
    · exact inserted.tree_apart inv tree is
  · rcases data with data | is
    · rcases inserted.path_cases lt with ⟨tree, -⟩ | fresh
      · exact inv.apart _ tree data
      · exact fresh (.inr data)
    · exact inserted.distinct j 4 (Nat.zero_le j) lt (le_refl 4) is

theorem Inserted.records (data : IsData h b) (ne : b ≠ path 4) :
    SameRecords (view h1 b) (view h b) := by
  by_cases mem : b ∈ L
  · exact inserted.took.others b mem ne
  rw [inserted.same b (.inr data) mem fun j _ le is => ?_]
  · exact SameRecords.refl _
  · rcases lt_or_eq_of_le le with lt | rfl
    · rcases inserted.path_cases lt with ⟨tree, -⟩ | fresh
      · exact inv.apart b (is ▸ tree) data
      · exact fresh (is ▸ .inr data)
    · exact ne is

end

end

theorem record_written (id : UInt32) (v : Dqblk) (lt : i < 14)
    (is : h' = e2fsWrite h (1024 * b + 16 + 72 * i) (mem2disk id v)) :
    (∀ c, c ≠ b → view h' c = view h c) ∧
      (∀ c {p : Int} {w : Nat}, p + w ≤ 16 → load (view h' c) p w = load (view h c) p w) ∧
      ∀ c j, slot (view h' c) j = if c = b ∧ j = i then mem2disk id v else slot (view h c) j := by
  have views := view_record (h := h) (b := b) (length_mem2disk id v) lt
  rw [← is] at views
  have other : ∀ c, c ≠ b → view h' c = view h c := fun c ne => by rw [views, update_of_ne ne]
  refine ⟨other, fun c p w high => ?_, fun c j => ?_⟩ <;> by_cases own : c = b
  · rw [own, views, update_self]
    exact header_writeBytes high
  · rw [other c own]
  · rw [own, views, update_self, slot_writeBytes (length_mem2disk id v)]
    simp only [true_and]
  · rw [other c own, if_neg fun both => own both.1]

theorem Took.slots_written {U : Nat → Prop} (took : Took h h1 U L L' b i old) :
    ∀ j < 14, slot (writeBytes (view h1 b) (16 + 72 * i) (mem2disk id v)) j =
      if j = i then mem2disk id v else slot old j := by
  intro j lt
  rw [slot_writeBytes (length_mem2disk id v)]
  split
  · rfl
  · exact took.slots j lt

theorem Took.filled {U : Nat → Prop} (took : Took h h1 U L L' b i old) (usedv : v.Used) :
    used (writeBytes (view h1 b) (16 + 72 * i) (mem2disk id v)) = used old + 1 := by
  refine used_fill took.lt took.free ?_ fun j lt ne => ?_
  · rw [took.slots_written i took.lt, if_pos rfl]
    exact mem2disk_not_blank usedv
  · rw [took.slots_written j lt, if_neg ne]

/-- The record of a new id was written in a block, which was `old` before and may be new, too. -/
structure Wrote (h h' : QuotaHandle) (id : UInt32) (v : Dqblk) (b i : Nat) (old : Buf) : Prop where
  nonzero : b ≠ 0
  lt : i < 14
  free : slot old i = blank
  was : IsData h b ∧ old = view h b ∨ ¬ IsData h b ∧ old = getdqbuf
  homes : ∀ id', home h' id' = if id' = id then b else home h id'
  datas : ∀ c, IsData h' c ↔ IsData h c ∨ c = b
  slots : ∀ j < 14, slot (view h' b) j = if j = i then mem2disk id v else slot old j
  entries : entries (view h' b) = used old + 1
  used : used (view h' b) = used old + 1
  records : ∀ c, IsData h c → c ≠ b → SameRecords (view h' c) (view h c)

theorem Inserted.wrote (inserted : Inserted h h1 id (InUse h) F F' L L' 0 path i old)
    (inv : Inv h m F L place) (new : Quota.home h id = 0) (usedv : v.Used)
    (is : h' = e2fsWrite h1 (1024 * path 4 + 16 + 72 * i) (mem2disk id v)) :
    Wrote h h' id v (path 4) i old := by
  have took := inserted.took
  obtain ⟨other, headers, written⟩ := record_written id v took.lt is
  obtain ⟨-, -, homes, datas⟩ := same_tree h1 h' fun c tree => other c fun isc =>
    inserted.apart_data inv new c tree ((inserted.isData inv new c).mpr (.inr isc))
  refine ⟨inserted.path_nonzero (le_refl 4), took.lt, took.free, ?_, fun id' => ?_, fun c => ?_,
    fun j lt => ?_, (headers _ (by omega)).trans took.entries, ?_, fun c data ne => ?_⟩
  · exact (inserted.data inv).imp_right fun both => ⟨fun data => both.1 (.inr data), both.2⟩
  · rw [homes, inserted.home inv]
  · rw [datas, inserted.isData inv new]
  · rw [written, took.slots j lt]
    simp only [true_and]
  · rw [is, view_record (length_mem2disk id v) took.lt, update_self]
    exact took.filled usedv
  · rw [other c ne]
    exact inserted.records inv data ne

section Wrote

variable (wrote : Wrote h h' id v b i old) (inv : Inv h m F L place)
include wrote inv

theorem Wrote.members (listed : ∀ c, c ∈ L' ↔ c ∈ L ∧ c ≠ b ∨ c = b ∧ Quota.used old + 1 < 14)
    (c : Nat) : c ∈ L' ↔ IsData h' c ∧ Quota.used (view h' c) < 14 := by
  rw [listed c, wrote.datas c]
  by_cases own : c = b
  · subst own
    rw [wrote.used]
    simp
  · rw [inv.members c]
    simp only [own, or_false, false_and, ne_eq, not_false_eq_true, and_true]
    exact and_congr_right fun data => by rw [used_congr (wrote.records c data own).2]

theorem Wrote.counts {c : Nat} (data : IsData h' c) :
    Quota.entries (view h' c) = Quota.used (view h' c) := by
  by_cases own : c = b
  · rw [own, wrote.entries, wrote.used]
  · have data := ((wrote.datas c).mp data).resolve_right own
    rw [(wrote.records c data own).1, inv.counts c data, used_congr (wrote.records c data own).2]

theorem Wrote.stored (usedv : v.Used) {id' : UInt32} {w : Dqblk}
    (mine : update m id (some v) id' = some w) :
    w.Used ∧ home h' id' ≠ 0 ∧ update place id i id' < 14 ∧
      slot (view h' (home h' id')) (update place id i id') = mem2disk id' w := by
  rw [wrote.homes id']
  by_cases own : id' = id
  · subst own
    rw [update_self] at mine
    cases mine
    rw [if_pos rfl, update_self, wrote.slots i wrote.lt, if_pos rfl]
    exact ⟨usedv, wrote.nonzero, wrote.lt, rfl⟩
  rw [update_of_ne own] at mine
  obtain ⟨usedw, nonzero, lt, stored⟩ := inv.stored id' w mine
  have data : IsData h (home h id') := ⟨nonzero, id', rfl⟩
  rw [if_neg own, update_of_ne own]
  refine ⟨usedw, nonzero, lt, ?_⟩
  by_cases here : home h id' = b
  · rw [here] at data stored ⊢
    obtain ⟨-, isOld⟩ := wrote.was.resolve_right fun fresh => fresh.1 data
    rw [wrote.slots _ lt, if_neg, isOld, stored]
    intro same
    have free := wrote.free
    rw [isOld, ← same, stored] at free
    exact mem2disk_not_blank usedw free
  · rw [(wrote.records _ data here).2 _ lt, stored]

theorem Wrote.owned (new : home h id = 0) {c j : Nat} (data : IsData h' c) (lt : j < 14)
    (busy : slot (view h' c) j ≠ blank) : ∃ id', home h' id' = c ∧ update place id i id' = j := by
  -- the records that were there before
  have known : IsData h c → slot (view h c) j ≠ blank → ∃ id', home h' id' = c ∧
      update place id i id' = j := by
    intro data busy
    obtain ⟨id', isHome, isPlace⟩ := inv.owned c j data lt busy
    have ne : id' ≠ id := by
      rintro rfl
      exact data.1 (isHome.symm.trans new)
    exact ⟨id', by rw [wrote.homes, if_neg ne, isHome], by rw [update_of_ne ne, isPlace]⟩
  by_cases own : c = b
  · subst own
    rw [wrote.slots j lt] at busy
    by_cases mine : j = i
    · subst mine
      exact ⟨id, by rw [wrote.homes, if_pos rfl], update_self _ _ _⟩
    rw [if_neg mine] at busy
    rcases wrote.was with ⟨data, isOld⟩ | ⟨-, isOld⟩
    · exact known data (isOld ▸ busy)
    · rw [isOld, slot_getdqbuf] at busy
      exact absurd rfl busy
  · have data := ((wrote.datas c).mp data).resolve_right own
    rw [(wrote.records c data own).2 j lt] at busy
    exact known data busy

end Wrote

/-- An id comes to the file: the path is there and the record is written in its block. -/
theorem Inv.insert (inv : Inv h m F L place) (new : Quota.home h id = 0) (usedv : v.Used)
    (inserted : Inserted h h1 id (InUse h) F F' L L' 0 path i old) (small : path 4 < 2 ^ 21)
    (is : h' = e2fsWrite h1 (1024 * path 4 + 16 + 72 * i) (mem2disk id v)) :
    Inv h' (update m id (some v)) F' L' (update place id i) := by
  have wrote := inserted.wrote inv new usedv is
  obtain ⟨other, headers, -⟩ := record_written id v wrote.lt is
  obtain ⟨nodes, trees, -, datas⟩ := same_tree h1 h' fun c tree => other c fun isc =>
    inserted.apart_data inv new c tree ((inserted.isData inv new c).mpr (.inr isc))
  refine ⟨?_, ?_, ?_, fun b tree data => ?_, wrote.members inv inserted.took.members,
    fun b => wrote.counts inv, fun id' w => wrote.stored inv usedv, fun id' none => ?_,
    fun b j => wrote.owned inv new, fun b data => ?_⟩
  · refine Pool.of_iff
      (inserted.pool.congr (by rw [is]; rfl) (by rw [is]; rfl) fun c mem => other c ?_) fun c => ?_
    · rintro rfl
      exact inserted.pool.free _ mem (.inl ⟨4, Nat.zero_le 4, le_refl 4, rfl⟩)
    · rw [inUse_congr trees datas, inserted.inUse inv new]
  · exact inserted.took.partly.of_links (by rw [is]; rfl) (fun c _ => headers c (by omega))
      fun c _ => headers c (by omega)
  · intro d lt p below d' lt' p' below' nonzero same
    rw [nodes d lt.le p below] at nonzero same
    rw [nodes d' lt'.le p' below'] at same
    exact inserted.inj inv d lt p below d' lt' p' below' nonzero same
  · exact inserted.apart_data inv new b ((trees b).mp tree) ((datas b).mp data)
  · have ne : id' ≠ id := by
      rintro rfl
      simp at none
    rw [update_of_ne ne] at none
    rw [wrote.homes id', if_neg ne, inv.absent id' none]
  · rcases (wrote.datas b).mp data with data | rfl
    · exact inv.small b data
    · exact small

end Insert

section Overwrite

variable {h h' : QuotaHandle} {m : UInt32 → Option Dqblk} {F L : List Nat} {place : UInt32 → Nat}
  {id : UInt32}

theorem Inv.overwrite {v w : Dqblk} (inv : Inv h m F L place) (mine : m id = some w)
    (usedv : v.Used)
    (is : h' = e2fsWrite h (1024 * home h id + 16 + 72 * place id) (mem2disk id v)) :
    Inv h' (update m id (some v)) F L place := by
  obtain ⟨usedw, nonzero, lt, stored⟩ := inv.stored id w mine
  have data : IsData h (home h id) := ⟨nonzero, id, rfl⟩
  obtain ⟨other, headers, slots⟩ := record_written id v lt is
  obtain ⟨nodes, trees, homes, datas⟩ := same_tree h h' fun c tree => other c fun isc =>
    inv.apart c tree (isc ▸ data)
  have blanks : ∀ b, ∀ j < 14, slot (view h' b) j = blank ↔ slot (view h b) j = blank := by
    intro b j _
    rw [slots b j]
    split_ifs with both
    · rw [both.1, both.2, stored]
      exact iff_of_false (mem2disk_not_blank usedv) (mem2disk_not_blank usedw)
    · rfl
  have counted : ∀ b, used (view h' b) = used (view h b) := fun b => used_of_blanks (blanks b)
  refine ⟨?_, ?_, ?_, fun b tree data => ?_, fun b => ?_, fun b data => ?_, fun id' x mine' => ?_,
    fun id' none => ?_, fun b j data small busy => ?_, fun b data => ?_⟩
  · refine Pool.of_iff (inv.pool.congr (by rw [is]; rfl) (by rw [is]; rfl) fun c mem => other c ?_)
        fun c =>
      inUse_congr trees datas c
    intro own
    exact inv.pool.free c mem (.inr (own ▸ data))
  · exact inv.partly.of_links (by rw [is]; rfl) (fun c _ => headers c (by omega)) fun c _ =>
      headers c (by omega)
  · intro d lt p below d' lt' p' below' nonzero same
    rw [nodes d lt.le p below] at nonzero same
    rw [nodes d' lt'.le p' below'] at same
    exact inv.inj d lt p below d' lt' p' below' nonzero same
  · exact inv.apart b ((trees b).mp tree) ((datas b).mp data)
  · rw [inv.members b, datas b, counted b]
  · rw [counted b, ← inv.counts b ((datas b).mp data)]
    exact headers b (by omega)
  · rw [homes id']
    by_cases mineId : id' = id
    · subst mineId
      rw [update_self] at mine'
      cases mine'
      refine ⟨usedv, nonzero, lt, ?_⟩
      rw [slots, if_pos ⟨rfl, rfl⟩]
    · rw [update_of_ne mineId] at mine'
      obtain ⟨usedx, nonzero', lt', stored'⟩ := inv.stored id' x mine'
      refine ⟨usedx, nonzero', lt', ?_⟩
      rw [slots, if_neg, stored']
      rintro ⟨sameHome, samePlace⟩
      rw [sameHome, samePlace, stored] at stored'
      have := congrArg diskId stored'
      rw [diskId_mem2disk, diskId_mem2disk] at this
      exact mineId this.symm
  · have ne : id' ≠ id := by
      rintro rfl
      simp at none
    rw [update_of_ne ne] at none
    rw [homes id', inv.absent id' none]
  · obtain ⟨id', isHome, isPlace⟩ := inv.owned b j ((datas b).mp data) small fun is =>
      busy ((blanks b j small).mpr is)
    exact ⟨id', (homes id').trans isHome, isPlace⟩
  · exact inv.small b ((datas b).mp data)

end Overwrite

end E2fs.Quota
