import E2fs.ExtAttr.BufferSound
import E2fs.Lib.Loop

/-! What a buffer is like when the reader accepts it: its attributes can be stored, their
entries have room, and every value lies behind the end of the list. With that, a buffer that
the writer has filled is read back only if everything had room in it. -/
namespace E2fs.ExtAttr
open Memory Loop List

variable {x : Xattr} {entries : List Nat}

section Stored

variable {ctx : Context} {m : Mem} {storageSize corr : Nat}

theorem cstr_clean (l : List UInt8) : 0 ∉ cstr l := by
  intro mem
  have := mem_takeWhile_imp mem
  simp at this

theorem length_cstr_le (l : List UInt8) : (cstr l).length ≤ l.length :=
  (takeWhile_sublist _).length_le

variable {stop remain e left : Nat}

theorem readValue_cases {value : List UInt8}
    (ok : readValue ctx m storageSize corr stop e remain = .ok (value, left)) :
    (load m (e + 4) 4 = 0 ∧ value.length = load m (e + 8) 4 ∧
      load m (e + 2) 2 + load m (e + 8) 4 ≤ storageSize + corr ∧
      (0 < load m (e + 8) 4 → stop + 4 + corr ≤ load m (e + 2) 2)) ∨
    (load m (e + 4) 4 ≠ 0 ∧ value.length ≤ 2 ^ 16 ∧ ∃ inode,
      ctx.inode (load m (e + 4) 4) = some inode ∧
      inode.inlineData = false ∧ inode.eaInodeFl = true ∧ inode.linksCount ≠ 0 ∧
      inode.content = value) := by
  unfold readValue at ok
  by_cases inline : load m (e + 4) 4 = 0
  · simp only [if_pos inline, check_ok] at ok
    obtain ⟨-, -, behind, inside, ⟨⟩⟩ := ok
    refine .inl ⟨inline, length_readBytes _ _ _, by omega, fun pos => ?_⟩
    by_contra before
    exact behind ⟨pos, by omega⟩
  · simp only [if_neg inline, check_ok] at ok
    obtain ⟨-, small, ok⟩ := ok
    rcases found : ctx.inode (load m (e + 4) 4) with _ | inode
    · simp [found] at ok
    simp only [found, check_ok] at ok
    obtain ⟨flags, size, ⟨⟩⟩ := ok
    simp only [not_or, not_not] at flags
    exact .inr ⟨inline, by omega, inode, rfl, by simpa using flags.1, flags.2.1, flags.2.2, rfl⟩

theorem readXattr_cases (ok : readXattr ctx m storageSize corr stop e remain = .ok (x, left)) :
    ∃ value left', readValue ctx m storageSize corr stop e
        (sub32 (remain - 16) (extAttrSize (load m e 1))) = .ok (value, left') ∧
      (load m (e + 4) 4 ≠ 0 → ctx.eaInode = true) ∧
      x = ⟨load m (e + 1) 1,
        findEaPrefix (load m (e + 1) 1) ++ cstr (readBytes m (e + 16) (load m e 1)),
        cstr (readBytes m (e + 16) (load m e 1)), value, load m (e + 4) 4⟩ := by
  obtain ⟨known, ok⟩ := check_ok.mp ok
  obtain ⟨⟨value, left'⟩, found, ok⟩ := bind_ok ok
  obtain ⟨-, -, ⟨⟩⟩ := bind_ok ok
  refine ⟨value, _, found, fun inum => ?_, rfl⟩
  cases feature : ctx.eaInode with
  | true => rfl
  | false => exact absurd ⟨feature, inum⟩ known

theorem readXattr_stored (small : storageSize + corr ≤ 2 ^ 16)
    (ok : readXattr ctx m storageSize corr stop e remain = .ok (x, left)) :
    x.Stored ctx ∧ x.entrySize ≤ extAttrLen (load m e 1) := by
  obtain ⟨value, left', found, feature, rfl⟩ := readXattr_cases ok
  have len : (cstr (readBytes m (e + 16) (load m e 1))).length ≤ load m e 1 :=
    (length_cstr_le _).trans (length_readBytes _ _ _).le
  have byte : load m e 1 < 256 := load_lt m e 1
  refine ⟨⟨load_lt m _ 1, rfl, cstr_clean _, by dsimp only; omega, ?_, load_lt m _ 4,
    fun inum => ?_⟩, ?_⟩
  · rcases readValue_cases found with ⟨-, length, inside, -⟩ | ⟨-, length, -⟩
    · dsimp only
      omega
    · exact length
  · rcases readValue_cases found with ⟨inline, -⟩ | ⟨-, -, inode⟩
    · exact absurd inline inum
    · exact ⟨feature inum, inode⟩
  · rw [Xattr.entrySize, extAttrLen, extAttrLen]
    dsimp only
    omega

def spans (m : Mem) (entries : List Nat) : Nat :=
  (entries.map fun e : Nat => extAttrLen (load m e 1)).sum

theorem findEnd_span {fuel : Nat} (ok : findEnd m fuel e remain = .ok (entries, stop)) :
    stop = e + spans m entries ∧ spans m entries ≤ remain := by
  induction fuel generalizing e remain entries with
  | zero =>
    cases ok
    exact ⟨rfl, Nat.zero_le _⟩
  | succ fuel ih =>
    rw [findEnd] at ok
    split_ifs at ok with more
    · dsimp only at ok
      split at ok
      · cases ok
      rename_i room
      split at ok
      · rename_i rest stop' found
        cases ok
        obtain ⟨stop, inside⟩ := ih found
        have len := extAttrLen_eq (load m e 1)
        simp only [spans, map_cons, sum_cons] at stop inside ⊢
        omega
      · cases ok
    · cases ok
      exact ⟨rfl, Nat.zero_le _⟩

theorem readXattrs_stored {xs : List Xattr} (small : storageSize + corr ≤ 2 ^ 16)
    (ok : readXattrs ctx m storageSize corr stop entries remain = .ok xs) :
    (∀ x ∈ xs, x.Stored ctx) ∧ entriesSize xs ≤ spans m entries := by
  induction entries generalizing remain xs with
  | nil =>
    rw [readXattrs] at ok
    split at ok <;> cases ok
    exact ⟨by simp, Nat.zero_le _⟩
  | cons e entries ih =>
    rw [readXattrs] at ok
    split at ok
    · cases ok
      exact ⟨by simp, Nat.zero_le _⟩
    obtain ⟨out, first, ok⟩ := bind_ok ok
    obtain ⟨rest, found, ⟨⟩⟩ := bind_ok ok
    obtain ⟨stored, size⟩ := readXattr_stored small first
    obtain ⟨all, sizes⟩ := ih found
    refine ⟨forall_mem_cons.mpr ⟨stored, all⟩, ?_⟩
    simp only [spans, map_cons, sum_cons, entriesSize_cons] at sizes ⊢
    omega

theorem accepted_stored {xs : List Xattr} (small : storageSize + corr ≤ 2 ^ 16)
    (ok : readXattrsFromBuffer ctx m storageSize corr = .ok xs) :
    (∀ x ∈ xs, x.Stored ctx) ∧ entriesSize xs ≤ storageSize := by
  obtain ⟨out, found, ok⟩ := bind_ok ok
  obtain ⟨stored, size⟩ := readXattrs_stored small ok
  exact ⟨stored, size.trans (findEnd_span found).2⟩

end Stored

section Described

variable {ctx : Context} {corr : Nat} {writeHash : Bool}

/- The descriptors of a list, whatever the values are. -/
def Described (m : Mem) (corr : Nat) : List Xattr → Nat → Int → Prop
  | [], _, _ => True
  | x :: xs, e, stop => EntryAt m corr e x (x.place stop) ∧
      Described m corr xs (e + x.entrySize) (x.place stop)

/- No value that takes room is placed below an address. -/
def PlacesFrom (low : Int) : List Xattr → Int → Prop
  | [], _ => True
  | x :: xs, stop => (x.eaIno = 0 → x.value ≠ [] → low ≤ x.place stop) ∧
      PlacesFrom low xs (x.place stop)

variable {xs ys : List Xattr} {stop : Int} {st st' : WriteState} {m : Mem}
  {e remain storageSize last : Nat}

theorem PlacesFrom.bound {low : Int} (places : PlacesFrom low xs stop) :
    valuesSize xs = 0 ∨ low ≤ stop - valuesSize xs := by
  induction xs generalizing stop with
  | nil => exact .inl rfl
  | cons x xs ih =>
    obtain ⟨first, rest⟩ := places
    have place : x.place stop = stop - x.room := rfl
    rw [valuesSize_cons]
    rcases ih rest with none | bound
    · by_cases inline : x.eaIno = 0
      · by_cases empty : x.value = []
        · left
          simp [Xattr.room, empty, extAttrSize, none]
        · have := first inline empty
          omega
      · left
        simp [Xattr.room, inline, none]
    · omega

theorem writeXattr_shape (stored : x.Stored ctx)
    (ok : writeXattr ctx corr writeHash st x = .ok st') : st.entry + 16 ≤ st'.entry ∧
      st'.values = st.values ++ (if x.eaIno ≠ 0 then [] else [(x.place st.stop, x.value.length)]) ∧
      ((x.eaIno = 0 → x.value ≠ [] → (st.entry : Int) + 1 ≤ x.place st.stop) →
        st'.entry = st.entry + x.entrySize) := by
  obtain ⟨-, -, values⟩ :=
    @placeValue_shape ctx corr { st with mem := fillEntry st.mem st.entry x } x stored
  have len := (@fillEntry_fields ctx st.mem st.entry x stored).1
  have apart := @placeValue_apart ctx corr { st with mem := fillEntry st.mem st.entry x } x st.entry
    stored (.inl (by dsimp only; omega))
  dsimp only [writeXattr] at ok
  split at ok
  · cases ok
  rename_i hash _
  cases ok
  refine ⟨?_, values, fun clear => ?_⟩
  · dsimp only
    rw [extAttrLen_eq]
    omega
  · dsimp only
    rw [load_store_apart (by omega), Xattr.entrySize, ← len]
    congr 2
    apply load_congr
    intro q low high
    obtain rfl : q = st.entry := by omega
    apply apart
    dsimp only
    by_cases inline : x.eaIno = 0
    · by_cases empty : x.value = []
      · simp only [Xattr.room, empty, extAttrSize]
        simp
        omega
      · exact .inl (by have := clear inline empty; omega)
    · rw [Xattr.room, if_pos inline]
      omega

section

variable (stored : ∀ x ∈ xs, x.Stored ctx) (ok : writeXattrs ctx corr writeHash xs st = .ok st')
include stored ok

theorem writeXattrs_grows : st.entry ≤ st'.entry ∧ ∀ v ∈ st.values, v ∈ st'.values := by
  induction xs generalizing st with
  | nil =>
    cases ok
    exact ⟨le_refl _, fun _ mem => mem⟩
  | cons x xs ih =>
    obtain ⟨st1, step, ok⟩ := bind_ok ok
    obtain ⟨grows, values, -⟩ := writeXattr_shape (stored x mem_cons_self) step
    obtain ⟨le, kept⟩ := ih (fun y mem => stored y (mem_cons_of_mem _ mem)) ok
    exact ⟨by omega, fun v mem => kept v (by rw [values]; exact mem_append_left _ mem)⟩

/- When no value was copied over the entries, they are as they were written. -/
theorem writeXattrs_described (clear : ∀ v ∈ st'.values, 0 < v.2 → (st'.entry : Int) ≤ v.1) :
    Described st'.mem corr xs st.entry st.stop ∧
      (∀ q : Int, q < st.entry → st'.mem q = st.mem q) ∧ PlacesFrom st'.entry xs st.stop := by
  induction xs generalizing st with
  | nil =>
    cases ok
    exact ⟨trivial, fun _ _ => rfl, trivial⟩
  | cons x xs ih =>
    have own := stored x mem_cons_self
    have others : ∀ y ∈ xs, y.Stored ctx := fun y mem => stored y (mem_cons_of_mem _ mem)
    obtain ⟨st1, step, ok⟩ := bind_ok ok
    obtain ⟨grows, values, entry⟩ := writeXattr_shape own step
    obtain ⟨le, kept⟩ := writeXattrs_grows others ok
    have placed : x.eaIno = 0 → x.value ≠ [] → (st'.entry : Int) ≤ x.place st.stop := by
      intro inline some
      refine clear (x.place st.stop, x.value.length) (kept _ ?_) (length_pos_iff.mpr some)
      rw [values, if_neg (not_not.mpr inline)]
      exact mem_append_right _ (mem_singleton_self _)
    have entry := entry fun inline some => by have := placed inline some; omega
    obtain ⟨st2, step', -, stop, -, at_, -, frame, -⟩ :=
      @writeXattr_spec ctx corr writeHash st x own
      (fun inline some => by have := placed inline some; omega)
    obtain rfl : st1 = st2 := by
      rw [step] at step'
      exact Except.ok.inj step'
    obtain ⟨described, below, places⟩ := ih others ok
    rw [entry, stop] at described
    rw [stop] at places
    refine ⟨⟨at_.congr fun q low high _ => below q (by omega), described⟩, fun q low => ?_,
      ⟨placed, places⟩⟩
    rw [below q (by omega)]
    refine frame q (.inl low) ?_
    by_cases inline : x.eaIno = 0
    · by_cases empty : x.value = []
      · have : x.place st.stop = st.stop := by
          simp [Xattr.place, Xattr.room, empty, extAttrSize]
        omega
      · exact .inl (by have := placed inline empty; omega)
    · have : x.place st.stop = st.stop := by
        simp [Xattr.place, Xattr.room, inline]
      omega

end

section

variable (described : Described m corr xs e stop)
include described

theorem Described.congr {m' : Mem}
    (same : ∀ q : Int, e ≤ q → q < e + entriesSize xs → m' q = m q) :
    Described m' corr xs e stop := by
  induction xs generalizing e stop with
  | nil => trivial
  | cons x xs ih =>
    rw [entriesSize_cons] at same
    refine ⟨described.1.congr fun q low high _ => same q low (by omega),
      ih described.2 fun q low high => ?_⟩
    exact same q (by omega) (by omega)

theorem findEnd_described {fuel : Nat}
    (ok : findEnd m fuel e remain = .ok (entries, last)) (all : xs.length ≤ entries.length) :
    AllVisible corr xs stop ∧ e + entriesSize xs ≤ last ∧
    ∃ more, entries = entryOffsets xs e ++ more := by
  induction xs generalizing e fuel remain stop entries with
  | nil =>
    refine ⟨trivial, ?_, entries, rfl⟩
    have := (findEnd_span ok).1
    simp
    omega
  | cons x xs ih =>
    obtain ⟨at_, rest⟩ := described
    cases fuel with
    | zero =>
      cases ok
      simp at all
    | succ fuel =>
      rw [findEnd] at ok
      split_ifs at ok with more
      · dsimp only at ok
        split at ok
        · cases ok
        split at ok
        · rename_i entries' last' found
          cases ok
          rw [at_.nameLen] at found
          obtain ⟨visible, le, tail, same⟩ := ih rest found (by simpa using all)
          refine ⟨⟨?_, visible⟩, ?_, tail, ?_⟩
          · by_contra hidden
            exact more.2 (at_.word_eq_zero_iff.mpr hidden)
          · rw [entriesSize_cons]
            omega
          · rw [same]
            rfl
        · cases ok
      · cases ok
        simp at all

theorem readXattrs_behind {more : List Nat} (places : PlacesFrom 0 xs stop)
    (ok : readXattrs ctx m storageSize corr last (entryOffsets xs e ++ more) remain = .ok ys)
    (all : xs.length ≤ ys.length) : PlacesFrom (last + 4) xs stop := by
  induction xs generalizing e remain stop ys with
  | nil => trivial
  | cons x xs ih =>
    obtain ⟨at_, rest⟩ := described
    rw [entryOffsets, cons_append, readXattrs] at ok
    split at ok
    · cases ok
      simp at all
    obtain ⟨out, first, ok⟩ := bind_ok ok
    obtain ⟨ys', found, ⟨⟩⟩ := bind_ok ok
    refine ⟨fun inline some => ?_, ih rest places.2 found (by simpa using all)⟩
    obtain ⟨value, left', read, -, -⟩ := readXattr_cases first
    have low := places.1 inline some
    have offs := at_.valueOffs
    rw [if_neg (not_not.mpr inline)] at offs
    have pos : 0 < load m (e + 8) 4 := by
      rw [at_.valueSize]
      exact length_pos_iff.mpr some
    rcases readValue_cases read with ⟨-, -, -, behind⟩ | ⟨inum, -⟩
    · omega
    · rw [at_.valueInum] at inum
      exact absurd inline inum

end

theorem readXattrs_length (ok : readXattrs ctx m storageSize corr last entries remain = .ok ys) :
    ys.length ≤ entries.length := by
  induction entries generalizing remain ys with
  | nil =>
    rw [readXattrs] at ok
    split at ok <;> cases ok
    simp
  | cons e entries ih =>
    rw [readXattrs] at ok
    split at ok
    · cases ok
      simp
    obtain ⟨out, -, ok⟩ := bind_ok ok
    obtain ⟨ys', found, ⟨⟩⟩ := bind_ok ok
    simpa using ih found

theorem fits_of_read (described : Described m corr xs 0 storageSize)
    (places : PlacesFrom 0 xs storageSize)
    (ok : readXattrsFromBuffer ctx m storageSize corr = .ok ys) (same : ys.length = xs.length) :
    (valuesSize xs = 0 ∨ entriesSize xs + valuesSize xs + 4 ≤ storageSize) ∧
      AllVisible corr xs storageSize := by
  obtain ⟨⟨entries, last⟩, found, ok⟩ := bind_ok ok
  have long := readXattrs_length ok
  obtain ⟨visible, le, more, rfl⟩ := findEnd_described described found (by omega)
  refine ⟨?_, visible⟩
  have := (readXattrs_behind described places ok (by omega)).bound
  omega

end Described

end E2fs.ExtAttr
