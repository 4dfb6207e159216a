import Mathlib.Data.List.TakeWhile
import E2fs.ExtAttr.Buffer

/-! What the writer puts into a buffer is what the reader finds there, when the entries and
the values with their padding have room. -/
namespace E2fs.ExtAttr
open Memory List

section Layout

structure Xattr.Stored (ctx : Context) (x : Xattr) : Prop where
  index_lt : x.nameIndex < 256
  name_eq : x.name = findEaPrefix x.nameIndex ++ x.shortName
  clean : 0 ∉ x.shortName
  short : x.shortName.length < 256
  value_le : x.value.length ≤ 2 ^ 16
  ino_lt : x.eaIno < 2 ^ 32
  inode : x.eaIno ≠ 0 → ctx.eaInode = true ∧ ∃ inode, ctx.inode x.eaIno = some inode ∧
    inode.inlineData = false ∧ inode.eaInodeFl = true ∧ inode.linksCount ≠ 0 ∧
      inode.content = x.value

def Xattr.entrySize (x : Xattr) : Nat := extAttrLen x.shortName.length

def Xattr.room (x : Xattr) : Nat := if x.eaIno ≠ 0 then 0 else extAttrSize x.value.length

def entriesSize (xs : List Xattr) : Nat := (xs.map Xattr.entrySize).sum

def valuesSize (xs : List Xattr) : Nat := (xs.map Xattr.room).sum

@[simp] theorem entriesSize_nil : entriesSize [] = 0 := rfl

@[simp] theorem entriesSize_cons (x : Xattr) (xs : List Xattr) :
    entriesSize (x :: xs) = x.entrySize + entriesSize xs := by simp [entriesSize]

@[simp] theorem valuesSize_nil : valuesSize [] = 0 := rfl

@[simp] theorem valuesSize_cons (x : Xattr) (xs : List Xattr) :
    valuesSize (x :: xs) = x.room + valuesSize xs := by simp [valuesSize]

theorem le_extAttrSize (n : Nat) : n ≤ extAttrSize n ∧ extAttrSize n ≤ n + 3 := by
  unfold extAttrSize
  omega

theorem extAttrSize_pos {n : Nat} (pos : 0 < n) : 4 ≤ extAttrSize n := by
  unfold extAttrSize
  omega

theorem extAttrLen_eq (n : Nat) : extAttrLen n = 16 + extAttrSize n := by
  unfold extAttrLen extAttrSize
  omega

theorem valueSize_eq {n : Nat} (le : n ≤ 2 ^ 16) : valueSize n = extAttrSize n := by
  unfold valueSize extAttrSize
  omega

theorem le_entrySize (x : Xattr) : 16 + x.shortName.length ≤ x.entrySize := by
  have := le_extAttrSize x.shortName.length
  rw [Xattr.entrySize, extAttrLen_eq]
  omega

end Layout

section Hash

variable {ctx : Context} {m m' : Mem} {e data data' : Int}

section

variable (fields : ∀ q, e ≤ q → q < e + 12 → m' q = m q)
  (name : ∀ q, e + 16 ≤ q → q < e + 16 + load m e 1 → m' q = m q)
  (value : load m (e + 4) 4 = 0 → load m (e + 8) 4 ≠ 0 → data' = data ∧ ∀ q, data ≤ q →
    q < data + extAttrSize (load m (e + 8) 4) → m' q = m q)
include fields name value

/- The hash looks at the fields of the entry, at its name and at a value that is there. -/
theorem hashEntry_congr (signed : Bool) :
    extAttrHashEntry signed m' e data' = extAttrHashEntry signed m e data := by
  have len : load m' e 1 = load m e 1 := load_congr fun q low high => fields q low (by omega)
  have inum : load m' (e + 4) 4 = load m (e + 4) 4 :=
    load_congr fun q low high => fields q (by omega) (by omega)
  have size : load m' (e + 8) 4 = load m (e + 8) 4 :=
    load_congr fun q low high => fields q (by omega) (by omega)
  have bytes : readBytes m' (e + 16) (load m e 1) = readBytes m (e + 16) (load m e 1) :=
    readBytes_congr fun q low high => name q low (by omega)
  simp only [extAttrHashEntry, len, inum, size, bytes]
  split_ifs with some
  · obtain ⟨rfl, same⟩ := value some.1 some.2
    apply foldl_ext
    intro hash i mem
    congr 2
    apply load_congr
    intro q low high
    have lt := mem_range.mp mem
    apply same q (by omega)
    unfold extAttrSize
    omega
  · rfl

theorem hashEntry2_congr : extAttrHashEntry2 ctx m' e data' = extAttrHashEntry2 ctx m e data := by
  have inum : load m' (e + 4) 4 = load m (e + 4) 4 :=
    load_congr fun q low high => fields q (by omega) (by omega)
  simp only [extAttrHashEntry2, hashEntry_congr fields name value, inum]

end

end Hash

section Write

variable {ctx : Context} {corr : Nat} {writeHash : Bool}

def Xattr.place (x : Xattr) (stop : Int) : Int := stop - x.room

/-- The descriptor of an attribute whose value is at `place`. -/
structure EntryAt (m : Mem) (corr e : Nat) (x : Xattr) (place : Int) : Prop where
  nameLen : load m e 1 = x.shortName.length
  nameIndex : load m (e + 1) 1 = x.nameIndex
  valueOffs : load m (e + 2) 2 = if x.eaIno ≠ 0 then 0 else ((place + corr) % 2 ^ 16).toNat
  valueInum : load m (e + 4) 4 = x.eaIno
  valueSize : load m (e + 8) 4 = x.value.length
  name : readBytes m (e + 16) x.shortName.length = x.shortName

variable {m : Mem} {e : Nat} {st : WriteState}

theorem EntryAt.congr {m' : Mem} {x : Xattr} {place : Int} (at_ : EntryAt m corr e x place)
    (same : ∀ q, (e : Int) ≤ q → q < e + x.entrySize → q < e + 12 ∨ (e : Int) + 16 ≤ q →
      m' q = m q) :
    EntryAt m' corr e x place := by
  have size := le_entrySize x
  have kept : ∀ off w : Nat, off + w ≤ 12 → load m' (e + off) w = load m (e + off) w :=
      fun off w le =>
    load_congr fun q low high => same q (by omega) (by omega) (by omega)
  refine ⟨?_, ?_, ?_, ?_, ?_, ?_⟩
  · exact (by simpa using kept 0 1 (by omega) : load m' e 1 = load m e 1).trans at_.nameLen
  · exact (kept 1 1 (by omega)).trans at_.nameIndex
  · exact (kept 2 2 (by omega)).trans at_.valueOffs
  · exact (kept 4 4 (by omega)).trans at_.valueInum
  · exact (kept 8 4 (by omega)).trans at_.valueSize
  · refine (readBytes_congr fun q low high => ?_).trans at_.name
    exact same q (by omega) (by omega) (by omega)

theorem fillEntry_apart {e q : Int} {x : Xattr}
    (apart : q < e ∨ e + 16 + x.shortName.length ≤ q) : fillEntry m e x q = m q := by
  unfold fillEntry
  generalize load _ e 1 = n
  have short : (x.shortName.take n).length ≤ x.shortName.length := by simp
  rw [writeBytes_apart (by omega), store_apart (by omega), store_apart (by omega),
    store_apart (by omega), store_apart (by omega)]

theorem fillEntry_fields {e : Int} {x : Xattr} (stored : x.Stored ctx) :
    load (fillEntry m e x) e 1 = x.shortName.length ∧
      load (fillEntry m e x) (e + 1) 1 = x.nameIndex ∧
      load (fillEntry m e x) (e + 4) 4 = x.eaIno ∧
      load (fillEntry m e x) (e + 8) 4 = x.value.length ∧
      readBytes (fillEntry m e x) (e + 16) x.shortName.length = x.shortName := by
  have short := stored.short
  have index := stored.index_lt
  have size := stored.value_le
  have ino := stored.ino_lt
  have len :
    load (store (store (store (store m e 1 x.shortName.length) (e + 1) 1 x.nameIndex) (e + 8) 4
      x.value.length) (e + 4) 4 x.eaIno) e 1 = x.shortName.length := by
    rw [load_store_apart (by omega), load_store_apart (by omega), load_store_apart (by omega),
      load_store_of_lt (by omega)]
  have whole : x.shortName.take x.shortName.length = x.shortName := take_length
  unfold fillEntry
  dsimp only
  rw [len, whole]
  refine ⟨?_, ?_, ?_, ?_, readBytes_writeBytes _ _ _⟩
  · rw [load_writeBytes_apart (by omega), len]
  · rw [load_writeBytes_apart (by omega), load_store_apart (by omega), load_store_apart (by omega),
      load_store_of_lt (by omega)]
  · rw [load_writeBytes_apart (by omega), load_store_of_lt ino]
  · rw [load_writeBytes_apart (by omega), load_store_apart (by omega), load_store_of_lt (by omega)]

def Xattr.Clear (x : Xattr) (e : Nat) (stop : Int) : Prop :=
  x.eaIno = 0 → x.value ≠ [] → (e : Int) + x.entrySize ≤ x.place stop

theorem placeValue_shape (st : WriteState) {x : Xattr} (stored : x.Stored ctx) :
    (placeValue corr st x).entry = st.entry ∧ (placeValue corr st x).stop = x.place st.stop ∧
      (placeValue corr st x).values =
        st.values ++ if x.eaIno ≠ 0 then [] else [(x.place st.stop, x.value.length)] := by
  unfold placeValue Xattr.place Xattr.room
  split
  · simp
  · simp [valueSize_eq stored.value_le]

theorem placeValue_apart {x : Xattr} {q : Int} (stored : x.Stored ctx)
    (entry : q < st.entry + 2 ∨ st.entry + 4 ≤ q)
    (value : q < x.place st.stop ∨ x.place st.stop + x.room ≤ q) :
    (placeValue corr st x).mem q = st.mem q := by
  have fits := le_extAttrSize x.value.length
  unfold placeValue
  unfold Xattr.place Xattr.room at value
  split_ifs with inline
  · exact store_apart (by omega)
  · rw [if_neg inline] at value
    rw [valueSize_eq stored.value_le]
    dsimp only
    rw [writeBytes_apart (by omega), store_apart (by omega)]

theorem placeValue_entry {x : Xattr} (stored : x.Stored ctx) (clear : x.Clear st.entry st.stop) :
    EntryAt (placeValue corr { st with mem := fillEntry st.mem st.entry x } x).mem corr st.entry x
      (x.place st.stop) := by
  obtain ⟨len, index, inum, size, name⟩ := @fillEntry_fields ctx st.mem st.entry x stored
  have short := le_entrySize x
  generalize fillEntry st.mem st.entry x = m at *
  have offset : ∀ v (place : Int), v < 256 ^ 2 →
    v = (if x.eaIno ≠ 0 then 0 else ((place + corr) % 2 ^ 16).toNat) →
      EntryAt (store m (st.entry + 2) 2 v) corr st.entry x place := fun v place lt is =>
    ⟨by rw [load_store_apart (by omega), len], by rw [load_store_apart (by omega), index],
      by rw [load_store_of_lt lt, is], by rw [load_store_apart (by omega), inum],
      by rw [load_store_apart (by omega), size], by rw [readBytes_store_apart (by omega), name]⟩
  unfold placeValue
  by_cases inline : x.eaIno = 0
  · rw [if_neg (not_not.mpr inline), valueSize_eq stored.value_le]
    have place : st.stop - (extAttrSize x.value.length : Int) = x.place st.stop := by
      rw [Xattr.place, Xattr.room, if_neg (not_not.mpr inline)]
    rw [place]
    refine (offset _ _ (by omega) (if_neg (not_not.mpr inline)).symm).congr fun q low high _ =>
      writeBytes_apart ?_
    by_cases empty : x.value = []
    · rw [empty, length_nil]
      omega
    · have := clear inline empty
      omega
  · rw [if_pos inline]
    exact offset 0 _ (by decide) (if_pos inline).symm

theorem room_pos {x : Xattr} (inline : x.eaIno = 0) (some : x.value ≠ []) :
    x.value.length ≤ x.room ∧ 4 ≤ x.room := by
  rw [Xattr.room, if_neg (not_not.mpr inline)]
  exact ⟨(le_extAttrSize _).1, extAttrSize_pos (length_pos_iff.mpr some)⟩

/-- The attribute as a whole: descriptor, value and hash. -/
structure AttrAt (ctx : Context) (m : Mem) (corr e : Nat) (x : Xattr) (place : Int) : Prop extends
    EntryAt m corr e x place where
  value : x.eaIno = 0 → readBytes m place x.value.length = x.value
  hash : load m (e + 12) 4 = 0 ∨ ∃ hash : UInt32, extAttrHashEntry2 ctx m e place = .ok hash ∧
    load m (e + 12) 4 = hash.toNat

theorem EntryAt.hash_congr {m' : Mem} {x : Xattr} {place : Int} (at_ : EntryAt m corr e x place)
    (same : ∀ q, (e : Int) ≤ q → q < e + x.entrySize → q < e + 12 ∨ (e : Int) + 16 ≤ q → m' q = m q)
    (value : x.eaIno = 0 → x.value ≠ [] → ∀ q, place ≤ q → q < place + x.room → m' q = m q) :
    extAttrHashEntry2 ctx m' e place = extAttrHashEntry2 ctx m e place := by
  have size := le_entrySize x
  refine hashEntry2_congr (fun q low high => same q low (by omega) (.inl high))
    (fun q low high => ?_) fun inline some => ⟨rfl, fun q low high => ?_⟩
  · rw [at_.nameLen] at high
    exact same q (by omega) (by omega) (.inr low)
  · rw [at_.valueInum] at inline
    rw [at_.valueSize] at some high
    refine value inline (by intro empty; simp [empty] at some) q low ?_
    rwa [Xattr.room, if_neg (not_not.mpr inline)]

theorem AttrAt.congr {m' : Mem} {x : Xattr} {place : Int} (at_ : AttrAt ctx m corr e x place)
    (same : ∀ q, (e : Int) ≤ q → q < e + x.entrySize → m' q = m q)
    (value : x.eaIno = 0 → x.value ≠ [] → ∀ q, place ≤ q → q < place + x.room → m' q = m q) :
    AttrAt ctx m' corr e x place := by
  have size := le_entrySize x
  refine ⟨at_.toEntryAt.congr fun q low high _ => same q low high, fun inline => ?_, ?_⟩
  · by_cases empty : x.value = []
    · simp [empty]
    · refine (readBytes_congr fun q low high => ?_).trans (at_.value inline)
      have := room_pos inline empty
      exact value inline empty q low (by omega)
  · have field : load m' (e + 12) 4 = load m (e + 12) 4 :=
      load_congr fun q low high => same q (by omega) (by omega)
    rw [field, at_.toEntryAt.hash_congr (fun q low high _ => same q low high) value]
    exact at_.hash

/- The hash can be computed for an entry that refers to an inode, too. -/
theorem hashEntry2_ok {e : Int} {x : Xattr} (data : Int) (stored : x.Stored ctx)
    (inum : load m (e + 4) 4 = x.eaIno) : ∃ hash, extAttrHashEntry2 ctx m e data = .ok hash := by
  unfold extAttrHashEntry2
  by_cases inline : x.eaIno = 0
  · exact ⟨_, by rw [inum, if_pos inline]⟩
  · obtain ⟨-, inode, found, -⟩ := stored.inode inline
    exact ⟨_, by rw [inum, if_neg inline, found]⟩

theorem writeXattr_spec {x : Xattr} (stored : x.Stored ctx) (clear : x.Clear st.entry st.stop) :
    ∃ st', writeXattr ctx corr writeHash st x = .ok st' ∧ st'.entry = st.entry + x.entrySize ∧
      st'.stop = x.place st.stop ∧
      st'.values = st.values ++ (if x.eaIno ≠ 0 then [] else [(x.place st.stop, x.value.length)]) ∧
      EntryAt st'.mem corr st.entry x (x.place st.stop) ∧ load st'.mem st'.entry 4 = 0 ∧
      (∀ q : Int, q < st.entry ∨ (st.entry : Int) + x.entrySize + 4 ≤ q →
        q < x.place st.stop ∨ st.stop ≤ q → st'.mem q = st.mem q) ∧
      ((x.eaIno = 0 → x.value ≠ [] → (st.entry : Int) + x.entrySize + 4 ≤ x.place st.stop) →
        AttrAt ctx st'.mem corr st.entry x (x.place st.stop)) := by
  have size := le_entrySize x
  let filled : WriteState := { st with mem := fillEntry st.mem st.entry x }
  have at_ := @placeValue_entry ctx corr st x stored clear
  obtain ⟨entry, stop, values⟩ := @placeValue_shape ctx corr filled x stored
  have frame : ∀ q : Int, q < st.entry ∨ (st.entry : Int) + x.entrySize ≤ q →
      q < x.place st.stop ∨ st.stop ≤ q → (placeValue corr filled x).mem q = st.mem q := by
    intro q outside away
    rw [@placeValue_apart ctx corr filled x q stored (by dsimp only [filled]; omega)
      (by dsimp only [filled]; rw [Xattr.place] at *; omega)]
    exact fillEntry_apart (by omega)
  have copied : x.eaIno = 0 → x.value ≠ [] →
      readBytes (placeValue corr filled x).mem (x.place st.stop) x.value.length = x.value := by
    intro inline _
    rw [placeValue, if_neg (not_not.mpr inline), valueSize_eq stored.value_le]
    rw [Xattr.place, Xattr.room, if_neg (not_not.mpr inline)]
    exact readBytes_writeBytes _ _ _
  unfold writeXattr
  dsimp only
  generalize placeValue corr { st with mem := fillEntry st.mem st.entry x } x = st1 at *
  obtain ⟨hash, computed, right⟩ : ∃ hash, (if (writeHash || decide (x.eaIno ≠ 0)) = true then
      extAttrHashEntry2 ctx st1.mem st.entry st1.stop else .ok 0) = .ok hash ∧
      (hash = 0 ∨ extAttrHashEntry2 ctx st1.mem st.entry st1.stop = .ok hash) := by
    split
    · obtain ⟨hash, ok⟩ := hashEntry2_ok st1.stop stored at_.valueInum
      exact ⟨hash, ok, .inr ok⟩
    · exact ⟨0, rfl, .inl rfl⟩
  rw [computed]
  have len : load (store st1.mem (st.entry + 12) 4 hash.toNat) st.entry 1 = x.shortName.length := by
    rw [load_store_apart (by omega), at_.nameLen]
  dsimp only
  rw [len, show extAttrLen x.shortName.length = x.entrySize from rfl]
  generalize written :
    store (store st1.mem (st.entry + 12) 4 hash.toNat) ↑(st.entry + x.entrySize) 4 0 = m2
  -- the hash and the word behind the entry are outside of what is described
  have kept : ∀ q : Int, q < st.entry + 12 ∨ (st.entry : Int) + 16 ≤ q →
      q < st.entry + x.entrySize ∨ (st.entry : Int) + x.entrySize + 4 ≤ q → m2 q = st1.mem q := by
    intro q low high
    rw [← written, store_apart (by push_cast; omega), store_apart (by omega)]
  have field : load m2 (st.entry + 12) 4 = hash.toNat := by
    rw [← written, load_store_apart (by push_cast; omega), load_store_of_lt hash.toNat_lt]
  refine ⟨_, rfl, rfl, stop, values, ?_, ?_, fun q outside away => ?_, fun strict => ?_⟩
  · exact at_.congr fun q low high field => kept q field (.inl high)
  · rw [← written]
    exact load_store_of_lt (by decide)
  · dsimp only
    rw [kept q (by omega) (by omega)]
    exact frame q (by omega) away
  · refine ⟨at_.congr fun q low high field => kept q field (.inl high), fun inline => ?_, ?_⟩
    · by_cases empty : x.value = []
      · simp [empty]
      · have away := strict inline empty
        refine (readBytes_congr fun q low high => ?_).trans (copied inline empty)
        exact kept q (by omega) (by omega)
    · have same : extAttrHashEntry2 ctx m2 st.entry (x.place st.stop) =
          extAttrHashEntry2 ctx st1.mem st.entry st1.stop := by
        rw [stop]
        refine at_.hash_congr (fun q low high field => kept q field (.inl high))
          fun inline some q low high => ?_
        have away := strict inline some
        exact kept q (by omega) (by omega)
      rw [field, same]
      rcases right with rfl | right
      · exact .inl rfl
      · exact .inr ⟨hash, right, rfl⟩

/-- The entries and the values have room, with the word behind the last entry. -/
def Fits (xs : List Xattr) (e : Nat) (stop : Int) : Prop :=
  valuesSize xs = 0 ∨ (e : Int) + entriesSize xs + 4 ≤ stop - valuesSize xs

def Laid (ctx : Context) (m : Mem) (corr : Nat) : List Xattr → Nat → Int → Prop
  | [], _, _ => True
  | x :: xs, e, stop => AttrAt ctx m corr e x (x.place stop) ∧
      Laid ctx m corr xs (e + x.entrySize) (x.place stop)

theorem Fits.tail {x : Xattr} {xs : List Xattr} {stop : Int} (fits : Fits (x :: xs) e stop) :
    Fits xs (e + x.entrySize) (x.place stop) := by
  rw [Fits, entriesSize_cons, valuesSize_cons] at fits
  rw [Fits, Xattr.place]
  omega

theorem writeXattrs_laid {xs : List Xattr} (stored : ∀ x ∈ xs, x.Stored ctx)
    (fits : Fits xs st.entry st.stop) : ∃ st', writeXattrs ctx corr writeHash xs st = .ok st' ∧
      st'.entry = st.entry + entriesSize xs ∧ Laid ctx st'.mem corr xs st.entry st.stop ∧
      (load st.mem st.entry 4 = 0 → load st'.mem st'.entry 4 = 0) ∧
      (∀ q : Int, q < st.entry ∨ (st.entry : Int) + entriesSize xs + 4 ≤ q →
        q < st.stop - valuesSize xs ∨ st.stop ≤ q → st'.mem q = st.mem q) ∧ ∀ v ∈ st'.values,
        v ∈ st.values ∨
        (0 < v.2 → (st.entry : Int) + entriesSize xs ≤ v.1 ∧ v.1 + v.2 ≤ st.stop) := by
  induction xs generalizing st with
  | nil =>
    refine ⟨st, rfl, rfl, trivial, id, fun _ _ _ => rfl, fun v mem => .inl mem⟩
  | cons x xs ih =>
    have tail := fits.tail
    rw [Fits, entriesSize_cons, valuesSize_cons] at fits
    have strict : x.eaIno = 0 → x.value ≠ [] →
        (st.entry : Int) + x.entrySize + entriesSize xs + 4 ≤ x.place st.stop - valuesSize xs := by
      intro inline some
      have := room_pos inline some
      rw [Xattr.place]
      omega
    obtain ⟨st1, step, entry, stop, values, -, last, frame, whole⟩ :=
      @writeXattr_spec ctx corr writeHash st x (stored x mem_cons_self)
        (fun inline some => by have := strict inline some; omega)
    have at_ := whole fun inline some => by have := strict inline some; omega
    obtain ⟨st', run, entry', laid, ends, frame', spans⟩ :=
      @ih st1 (fun y mem => stored y (mem_cons_of_mem _ mem)) (by rw [entry, stop]; exact tail)
    rw [entry, stop] at laid frame' spans
    have place : x.place st.stop = st.stop - x.room := rfl
    refine ⟨st', ?_, ?_, ⟨at_.congr (fun q low high => ?_) fun inline some q low high => ?_, laid⟩,
      fun _ => ends last, fun q outside away => ?_, fun v mem => ?_⟩
    · rw [writeXattrs, step]
      exact run
    · rw [entry', entry, entriesSize_cons]
      omega
    · refine frame' q (.inl (by push_cast; omega)) ?_
      omega
    · exact frame' q (.inr (by push_cast; omega)) (by omega)
    · rw [entriesSize_cons, valuesSize_cons] at *
      rw [frame' q (by omega) (by omega)]
      exact frame q (by omega) (by omega)
    · rcases spans v mem with old | new
      · rw [values, mem_append] at old
        rcases old with old | own
        · exact .inl old
        right
        intro pos
        by_cases inline : x.eaIno = 0
        · rw [if_neg (not_not.mpr inline), mem_singleton] at own
          subst own
          have some := length_pos_iff.mp pos
          have := room_pos inline some
          rw [entriesSize_cons]
          omega
        · rw [if_pos inline] at own
          cases own
      · right
        intro pos
        rw [entriesSize_cons]
        omega

end Write

section Read

variable {ctx : Context} {m : Mem} {corr storageSize : Nat}

theorem load_four (m : Mem) (p : Int) :
    load m p 4 = load m p 1 + 256 * load m (p + 1) 1 + 65536 * load m (p + 2) 2 := by
  have two : p + 1 + 1 = p + 2 := by ring
  simp only [load, readBytes_succ, readBytes_zero, ofBytes, two]
  omega

/- The word that ends a list: no name, no index and no offset. -/
def Xattr.Visible (x : Xattr) (corr : Nat) (place : Int) : Prop :=
  ¬ (x.nameIndex = 0 ∧ x.shortName = [] ∧ (x.eaIno ≠ 0 ∨ (place + corr) % 2 ^ 16 = 0))

variable {e : Nat} {xs : List Xattr}

theorem EntryAt.word_eq_zero_iff {x : Xattr} {place : Int} (at_ : EntryAt m corr e x place) :
    load m e 4 = 0 ↔ ¬ x.Visible corr place := by
  rw [load_four, at_.nameLen, at_.nameIndex, at_.valueOffs, Xattr.Visible, not_not,
    ← length_eq_zero_iff]
  by_cases inline : x.eaIno = 0
  · rw [if_neg (not_not.mpr inline)]
    omega
  · rw [if_pos inline]
    omega

def AllVisible (corr : Nat) : List Xattr → Int → Prop
  | [], _ => True
  | x :: xs, stop => x.Visible corr (x.place stop) ∧ AllVisible corr xs (x.place stop)

def entryOffsets : List Xattr → Nat → List Nat
  | [], _ => []
  | x :: xs, e => e :: entryOffsets xs (e + x.entrySize)

theorem findEnd_laid {remain fuel : Nat} {stop : Int}
    (laid : Laid ctx m corr xs e stop) (visible : AllVisible corr xs stop)
    (enough : entriesSize xs ≤ remain) (fuelled : remain ≤ fuel)
    (ends : remain - entriesSize xs < 16 ∨ load m ↑(e + entriesSize xs) 4 = 0) :
    findEnd m fuel e remain = .ok (entryOffsets xs e, e + entriesSize xs) := by
  induction xs generalizing e remain fuel stop with
  | nil =>
    rcases fuel with _ | fuel
    · rfl
    rw [findEnd, if_neg]
    · rfl
    · simp only [entriesSize_nil, add_zero] at ends
      omega
  | cons x xs ih =>
    obtain ⟨at_, laid⟩ := laid
    obtain ⟨visible, rest⟩ := visible
    have len : x.entrySize = 16 + extAttrSize x.shortName.length := extAttrLen_eq _
    rw [entriesSize_cons] at enough ends ⊢
    rcases fuel with _ | fuel
    · omega
    have word : load m e 4 ≠ 0 := fun zero => at_.word_eq_zero_iff.mp zero visible
    rw [findEnd, if_pos ⟨by omega, word⟩, at_.nameLen]
    rw [if_neg (by omega), show extAttrLen x.shortName.length = x.entrySize from rfl,
      ih laid rest (by omega) (by omega) (by
        rw [show e + x.entrySize + entriesSize xs = e + (x.entrySize + entriesSize xs) by omega]
        exact ends.imp_left (by omega))]
    simp only [entryOffsets, Except.ok.injEq, Prod.mk.injEq, true_and]
    omega

theorem cstr_of_clean {l : List UInt8} (clean : 0 ∉ l) : cstr l = l := by
  rw [cstr, takeWhile_eq_self_iff]
  intro b mem
  rw [decide_eq_true_iff]
  rintro rfl
  exact clean mem

/- The bytes that a value takes from the space that the reader counts. -/
def Xattr.counted (x : Xattr) : Nat := if x.eaIno ≠ 0 then 0 else x.value.length

theorem readValue_at {stop remain : Nat} {x : Xattr} {place : Int} (stored : x.Stored ctx)
    (at_ : AttrAt ctx m corr e x place) (small : storageSize + corr ≤ 2 ^ 16)
    (low : 0 ≤ place) (high : place + x.room ≤ storageSize)
    (behind : x.eaIno = 0 → x.value ≠ [] → (stop : Int) + 4 ≤ place) (enough : x.counted ≤ remain) :
    readValue ctx m storageSize corr stop e remain = .ok (x.value, remain - x.counted) := by
  have offs := at_.valueOffs
  have size := stored.value_le
  unfold readValue
  rw [at_.valueInum, at_.valueSize]
  unfold Xattr.counted at enough ⊢
  by_cases inline : x.eaIno = 0
  · rw [if_neg (not_not.mpr inline)] at offs enough ⊢
    by_cases empty : x.value = []
    · simp only [empty, length_nil, add_zero, lt_self_iff_false, false_and, if_false,
        not_lt_zero, if_pos inline, readBytes_zero]
      rw [if_neg (by omega), if_neg (by omega)]
    · have := behind inline empty
      have := room_pos inline empty
      rw [if_pos inline, if_neg (by omega), if_neg (by omega), if_neg (by omega), if_neg (by omega),
        show (load m (e + 2) 2 : Int) - corr = place by omega, at_.value inline]
  · obtain ⟨-, inode, found, plain, flag, links, content⟩ := stored.inode inline
    rw [if_pos inline] at offs ⊢
    rw [if_neg inline, offs]
    simp [found, plain, flag, links, content]
    omega

theorem checkHash_at {x : Xattr} {place : Int} (at_ : AttrAt ctx m corr e x place)
    (exact_ : x.eaIno = 0 → x.value ≠ [] → (load m (e + 2) 2 : Int) - corr = place) :
    checkHash ctx m corr e = .ok () := by
  unfold checkHash
  rcases at_.hash with zero | ⟨hash, computed, field⟩
  · simp [zero]
  have same : extAttrHashEntry2 ctx m e ((load m (e + 2) 2 : Nat) - (corr : Int)) = .ok hash := by
    rw [← computed]
    refine hashEntry2_congr (fun _ _ _ => rfl) (fun _ _ _ => rfl) fun inline some =>
      ⟨exact_ ?_ ?_, fun _ _ _ => rfl⟩
    · rw [← at_.valueInum, inline]
    · rw [at_.valueSize] at some
      intro empty
      simp [empty] at some
  simp only [same, field]
  split <;> simp [bind, Except.bind]

theorem readXattr_at {stop remain : Nat} {x : Xattr} {place : Int} (stored : x.Stored ctx)
    (at_ : AttrAt ctx m corr e x place) (small : storageSize + corr ≤ 2 ^ 16)
    (low : 0 ≤ place) (high : place + x.room ≤ storageSize)
    (behind : x.eaIno = 0 → x.value ≠ [] → (stop : Int) + 4 ≤ place)
    (enough : x.entrySize + x.counted ≤ remain) :
    readXattr ctx m storageSize corr stop e remain = .ok (x, remain - x.entrySize - x.counted) := by
  have len : x.entrySize = 16 + extAttrSize x.shortName.length := extAttrLen_eq _
  have left : sub32 (remain - 16) (extAttrSize x.shortName.length) = remain - x.entrySize := by
    rw [sub32, if_pos (by omega)]
    omega
  have value :=
    readValue_at stored at_ small low high behind (show x.counted ≤ remain - x.entrySize by omega)
  have hash : checkHash ctx m corr e = .ok () := by
    refine checkHash_at at_ fun inline some => ?_
    have offs := at_.valueOffs
    rw [if_neg (not_not.mpr inline)] at offs
    have := room_pos inline some
    omega
  have known : ¬ (ctx.eaInode = false ∧ x.eaIno ≠ 0) := fun ⟨off, inum⟩ => by
    rw [(stored.inode inum).1] at off
    cases off
  simp only [readXattr, at_.nameLen, at_.nameIndex, at_.valueInum, at_.name, left, value, hash,
    if_neg known, cstr_of_clean stored.clean, bind, Except.bind, ← stored.name_eq]

theorem readXattrs_laid {remain last : Nat} {stop : Int}
    (stored : ∀ x ∈ xs, x.Stored ctx) (laid : Laid ctx m corr xs e stop)
    (small : storageSize + corr ≤ 2 ^ 16) (low : valuesSize xs ≤ stop) (high : stop ≤ storageSize)
    (behind : valuesSize xs = 0 ∨ (last : Int) + 4 ≤ stop - valuesSize xs)
    (enough : entriesSize xs + valuesSize xs ≤ remain)
    (ends : remain - entriesSize xs < 16 ∨ (last + 4 ≤ storageSize ∧ load m last 4 = 0)) :
    readXattrs ctx m storageSize corr last (entryOffsets xs e) remain = .ok xs := by
  induction xs generalizing e remain stop with
  | nil =>
    simp only [entriesSize_nil, Nat.sub_zero] at ends
    rw [entryOffsets, readXattrs, if_pos ends]
  | cons x xs ih =>
    obtain ⟨at_, laid⟩ := laid
    rw [entriesSize_cons] at enough ends
    rw [valuesSize_cons] at low behind enough
    have size := le_entrySize x
    have place : x.place stop = stop - x.room := rfl
    have counted : x.counted ≤ x.room := by
      unfold Xattr.counted Xattr.room
      split
      · exact le_refl _
      · exact (le_extAttrSize _).1
    have first := @readXattr_at ctx m corr storageSize e last remain x (x.place stop)
      (stored x mem_cons_self) at_ small (by omega) (by omega) (fun inline some => by
        have := room_pos inline some
        omega) (by omega)
    have rest := @ih (e + x.entrySize) (remain - x.entrySize - x.counted) (x.place stop)
      (fun y mem => stored y (mem_cons_of_mem _ mem)) laid (by omega) (by omega) (by omega)
      (by omega) (ends.imp_left (by omega))
    rw [entryOffsets, readXattrs, if_neg (by omega)]
    simp only [first, rest, bind, Except.bind]

def FitsIn (xs : List Xattr) (storageSize : Nat) : Prop :=
  entriesSize xs ≤ storageSize ∧
    (valuesSize xs = 0 ∨ entriesSize xs + valuesSize xs + 4 ≤ storageSize)

theorem read_of_laid (stored : ∀ x ∈ xs, x.Stored ctx)
    (laid : Laid ctx m corr xs 0 storageSize) (visible : AllVisible corr xs storageSize)
    (small : storageSize + corr ≤ 2 ^ 16) (fits : FitsIn xs storageSize)
    (ends : entriesSize xs + 4 ≤ storageSize → load m (entriesSize xs) 4 = 0) :
    readXattrsFromBuffer ctx m storageSize corr = .ok xs := by
  obtain ⟨entries, values⟩ := fits
  have found := findEnd_laid laid visible entries (le_refl _) (by
    rcases lt_or_ge (storageSize - entriesSize xs) 16 with full | more
    · exact .inl full
    · rw [zero_add]
      exact .inr (ends (by omega)))
  rw [readXattrsFromBuffer, found]
  rw [zero_add]
  refine readXattrs_laid stored laid small (by omega) (le_refl _) (by omega) (by omega) ?_
  rcases lt_or_ge (storageSize - entriesSize xs) 16 with full | more
  · exact .inl full
  · exact .inr ⟨by omega, ends (by omega)⟩

end Read

end E2fs.ExtAttr
