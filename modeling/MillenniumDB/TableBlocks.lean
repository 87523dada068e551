import MillenniumDB.BufferManager

/-!
# Blocks of records

The blocks of the edge table: 170 records of three 64-bit words and a 32-bit record count in
one page, and the file of such blocks that the import writes.
-/

namespace MillenniumDB.Storage

namespace Bytes

/-- The byte at `i`, zero outside the page. -/
def get (b : Bytes) (i : Nat) : Nat := if h : i < MDB_PAGE_SIZE then (b ⟨i, h⟩).toNat else 0

/-- The little-endian number in the `width` bytes from `off` on. -/
def getWord (b : Bytes) (off : Nat) : Nat → Nat
  | 0 => 0
  | width + 1 => b.get off + 256 * b.getWord (off + 1) width

/-- The page with `v` written to the `width` bytes from `off` on. -/
def putWord (b : Bytes) (off width v : Nat) : Bytes := fun i =>
  if off ≤ i.val ∧ i.val < off + width then UInt8.ofNat (v / 256 ^ (i.val - off)) else b i

variable {b b' : Bytes} {off off' width width' v : Nat}

theorem getWord_congr (h : ∀ i, off ≤ i → i < off + width → b.get i = b'.get i) :
    b.getWord off width = b'.getWord off width := by
  induction width generalizing off with
  | zero => rfl
  | succ width ih =>
    rw [getWord, getWord, h off le_rfl (by omega), ih fun i hi hlt => h i (by omega) (by omega)]

theorem getWord_putWord_of_disjoint (h : off' + width' ≤ off ∨ off + width ≤ off') :
    (b.putWord off width v).getWord off' width' = b.getWord off' width' := by
  apply getWord_congr
  intro i hi hlt
  unfold get putWord
  split
  · rw [if_neg (by dsimp only; omega)]
  · rfl

theorem getWord_putWord_self (hoff : off + width ≤ MDB_PAGE_SIZE) (hv : v < 256 ^ width) :
    (b.putWord off width v).getWord off width = v := by
  -- the bytes from the `k`-th on hold the quotient by `256 ^ k`
  have hrest : ∀ m k, k + m = width →
      (b.putWord off width v).getWord (off + k) m = v / 256 ^ k := by
    intro m
    induction m with
    | zero =>
      intro k hk
      rw [getWord, Nat.div_eq_of_lt (by rwa [show k = width by omega])]
    | succ m ih =>
      intro k hk
      have hbyte : (b.putWord off width v).get (off + k) = v / 256 ^ k % 256 := by
        unfold get putWord
        rw [dif_pos (by omega)]
        dsimp only
        rw [if_pos (by omega), show off + k - off = k by omega]
        simp
      rw [getWord, Nat.add_assoc, ih (k + 1) (by omega), hbyte, pow_succ, ← Nat.div_div_eq_div_mul]
      exact Nat.mod_add_div _ _
  have := hrest width 0 (by omega)
  simpa using this

end Bytes

/-- `Record<3>`. -/
abbrev Record := Fin 3 → UInt64

namespace TableBlock

/-- `RandomAccessTableBlock<3>::max_records`. -/
abbrev max_records : Nat := 170

def record_count (b : Bytes) : Nat := b.getWord (3 * 8 * max_records) 4

/-- `operator[]` for a position below `max_records`. -/
def record (b : Bytes) (pos : Nat) : Record :=
  fun i => UInt64.ofNat (b.getWord ((pos * 3 + i) * 8) 8)

def setCount (b : Bytes) (count : Nat) : Bytes := b.putWord (3 * 8 * max_records) 4 count

/-- The three assignments to `records`. -/
def setRecord (b : Bytes) (pos : Nat) (r : Record) : Bytes :=
  ((b.putWord ((pos * 3 + 0) * 8) 8 (r 0).toNat).putWord ((pos * 3 + 1) * 8) 8
    (r 1).toNat).putWord ((pos * 3 + 2) * 8) 8 (r 2).toNat

/-- The bytes after `try_append_record` with room for the record. -/
def appendRecord (b : Bytes) (r : Record) : Bytes :=
  setCount (setRecord b (record_count b) r) (record_count b + 1)

/-- The block holds the records `l`. -/
structure Holds (b : Bytes) (l : List Record) : Prop where
  count : record_count b = l.length
  length_le : l.length ≤ max_records
  get : ∀ i (h : i < l.length), record b i = l[i]

variable {b : Bytes} {r : Record} {l : List Record} {pos pos' count : Nat}

theorem record_count_setCount (h : count ≤ max_records) : record_count (setCount b count) = count :=
  Bytes.getWord_putWord_self (by decide) (by unfold max_records at h; omega)

theorem record_setCount (h : pos < max_records) : record (setCount b count) pos = record b pos := by
  funext i
  have hi := i.isLt
  unfold record setCount max_records at *
  rw [Bytes.getWord_putWord_of_disjoint]
  omega

theorem record_setRecord_self (h : pos < max_records) : record (setRecord b pos r) pos = r := by
  have hlt : ∀ v : UInt64, v.toNat < 256 ^ 8 := fun v => v.toNat_lt
  unfold setRecord max_records at *
  funext i
  match i with
  | ⟨0, _⟩ =>
    show UInt64.ofNat (Bytes.getWord _ ((pos * 3 + 0) * 8) 8) = r 0
    rw [Bytes.getWord_putWord_of_disjoint (by omega), Bytes.getWord_putWord_of_disjoint (by omega),
      Bytes.getWord_putWord_self (show _ ≤ 4096 by omega) (hlt _)]
    simp
  | ⟨1, _⟩ =>
    show UInt64.ofNat (Bytes.getWord _ ((pos * 3 + 1) * 8) 8) = r 1
    rw [Bytes.getWord_putWord_of_disjoint (by omega),
      Bytes.getWord_putWord_self (show _ ≤ 4096 by omega) (hlt _)]
    simp
  | ⟨2, _⟩ =>
    show UInt64.ofNat (Bytes.getWord _ ((pos * 3 + 2) * 8) 8) = r 2
    rw [Bytes.getWord_putWord_self (show _ ≤ 4096 by omega) (hlt _)]
    simp

theorem record_setRecord_of_ne (h : pos' ≠ pos) :
    record (setRecord b pos r) pos' = record b pos' := by
  funext i
  have hi := i.isLt
  unfold record setRecord
  rw [Bytes.getWord_putWord_of_disjoint (by omega), Bytes.getWord_putWord_of_disjoint (by omega),
    Bytes.getWord_putWord_of_disjoint (by omega)]

theorem Holds.append (h : Holds b l) (hroom : l.length < max_records) (r : Record) :
    Holds (appendRecord b r) (l ++ [r]) := by
  have hcount := h.count
  refine ⟨?_, by simpa using Nat.succ_le_of_lt hroom, fun i hi => ?_⟩
  · rw [appendRecord, record_count_setCount (by omega)]
    simp [hcount]
  · rw [List.length_append, List.length_singleton] at hi
    rw [appendRecord, record_setCount (by omega), hcount]
    by_cases hlast : i < l.length
    · rw [record_setRecord_of_ne (by omega), List.getElem_append_left hlast]
      exact h.get i hlast
    · have hi' : i = l.length := by omega
      subst hi'
      rw [record_setRecord_self hroom]
      simp

theorem Holds.nil (h : record_count b = 0) : Holds b [] :=
  ⟨h, by simp, fun i hi => absurd hi (by simp)⟩

theorem record_count_zero : record_count (fun _ => 0) = 0 := by decide

end TableBlock

/-- The writer of the table file: the file and the buffer of the block being filled. -/
structure EdgeTableMemImport where
  file : File
  buffer : Bytes

namespace EdgeTableMemImport

open TableBlock

theorem zeros_past : ∀ i, 0 ≤ i → (fun _ : Nat => (0 : UInt8)) i = 0 := fun _ _ => rfl

/-- The constructor; `new char[]` does not initialise the buffer. -/
def create (uninitialized : Bytes) : EdgeTableMemImport :=
  ⟨⟨0, fun _ => 0, zeros_past⟩, setCount uninitialized 0⟩

def insert_tuple (t : EdgeTableMemImport) (edge : Fin 4 → UInt64) : EdgeTableMemImport :=
  let r : Record := fun i => edge i.castSucc
  if record_count t.buffer < max_records then { t with buffer := appendRecord t.buffer r }
  else
    { file := t.file.write t.file.size t.buffer
      buffer := setCount (setRecord t.buffer 0 r) 1 }

def close (t : EdgeTableMemImport) : File := t.file.write t.file.size t.buffer

def importFile (uninitialized : Bytes) (edges : List (Fin 4 → UInt64)) : File :=
  (edges.foldl insert_tuple (create uninitialized)).close

end EdgeTableMemImport

/-- The records of the block `j` of a table. -/
def blockRecords (rs : List Record) (j : Nat) : List Record :=
  (rs.drop (TableBlock.max_records * j)).take TableBlock.max_records

/-- The file holds the records `rs` in whole blocks. -/
structure File.HoldsRecords (file : File) (rs : List Record) : Prop where
  whole : file.size % MDB_PAGE_SIZE = 0
  blocks : ∀ j, TableBlock.Holds (file.read (j * MDB_PAGE_SIZE)) (blockRecords rs j)
  length_le : rs.length ≤ TableBlock.max_records * max 1 file.count_pages
  le_length : TableBlock.max_records * (file.count_pages - 1) ≤ rs.length

namespace EdgeTableMemImport

open TableBlock

structure Holds (t : EdgeTableMemImport) (k : Nat) (rs : List Record) : Prop where
  size : t.file.size = k * MDB_PAGE_SIZE
  full : max_records * k ≤ rs.length
  written : ∀ j, j < k → TableBlock.Holds (t.file.read (j * MDB_PAGE_SIZE)) (blockRecords rs j)
  buffered : TableBlock.Holds t.buffer (rs.drop (max_records * k))

variable {t : EdgeTableMemImport} {k j : Nat} {rs : List Record} {r : Record}

theorem blockRecords_append (h : max_records * (j + 1) ≤ rs.length) :
    blockRecords (rs ++ [r]) j = blockRecords rs j := by
  unfold blockRecords max_records at *
  rw [List.drop_append_of_le_length (by omega), List.take_append_of_le_length]
  rw [List.length_drop]
  omega

theorem Holds.insert_tuple (h : t.Holds k rs) (edge : Fin 4 → UInt64) :
    ∃ k', (t.insert_tuple edge).Holds k' (rs ++ [fun i => edge i.castSucc]) := by
  have hlength := h.buffered.length_le
  rw [List.length_drop] at hlength
  have hold : ∀ j, j < k → max_records * (j + 1) ≤ rs.length := fun j hj => by
    have := h.full
    have := Nat.mul_le_mul_left max_records (show j + 1 ≤ k by omega)
    omega
  unfold EdgeTableMemImport.insert_tuple
  dsimp only
  rw [h.buffered.count, List.length_drop]
  split
  · next hroom =>
    refine ⟨k, h.size, ?_, fun j hj => ?_, ?_⟩
    · have := h.full
      simp only [List.length_append, List.length_singleton]
      omega
    · rw [blockRecords_append (hold j hj)]
      exact h.written j hj
    · rw [List.drop_append_of_le_length h.full]
      exact h.buffered.append (by rwa [List.length_drop]) _
  · next hfull =>
    -- the block in the buffer is full and goes to the file
    have hfull' : rs.length = max_records * (k + 1) := by
      unfold max_records at *
      have := h.full
      omega
    refine ⟨k + 1, ?_, by simp [hfull'], fun j hj => ?_, ?_⟩
    · simp only [File.write, h.size, MDB_PAGE_SIZE]
      omega
    · rw [blockRecords_append]
      · dsimp only
        rw [h.size]
        by_cases hjk : j = k
        · subst hjk
          have hself := @File.read_flush_self t.file j t.buffer
          rw [File.flush] at hself
          rw [hself, blockRecords, List.take_of_length_le (by rw [List.length_drop]; omega)]
          exact h.buffered
        · have hne := @File.read_flush_of_ne t.file _ _ t.buffer hjk
          rw [File.flush] at hne
          rw [hne]
          exact h.written j (by omega)
      · have := Nat.mul_le_mul_left max_records (show j + 1 ≤ k + 1 by omega)
        omega
    · rw [List.drop_append_of_le_length (by omega), List.drop_of_length_le (by omega),
        List.nil_append]
      refine ⟨?_, show 1 ≤ 170 by omega, fun i hi => ?_⟩
      · rw [record_count_setCount (by decide)]
        rfl
      · have hi' : i = 0 := by simpa using hi
        subst hi'
        rw [record_setCount (by decide), record_setRecord_self (by decide)]
        rfl

theorem Holds.foldl (h : t.Holds k rs) (edges : List (Fin 4 → UInt64)) :
    ∃ k', (edges.foldl EdgeTableMemImport.insert_tuple t).Holds k'
      (rs ++ edges.map fun edge i => edge i.castSucc) := by
  induction edges generalizing t k rs with
  | nil => exact ⟨k, by simpa using h⟩
  | cons edge edges ih =>
    obtain ⟨k', h'⟩ := h.insert_tuple edge
    obtain ⟨k'', h''⟩ := ih h'
    exact ⟨k'', by simpa using h''⟩

theorem Holds.close (h : t.Holds k rs) : t.close.HoldsRecords rs := by
  have hsize : t.close.size = (k + 1) * MDB_PAGE_SIZE := by
    simp only [EdgeTableMemImport.close, File.write, h.size, MDB_PAGE_SIZE]
    omega
  have hcount : t.close.count_pages = k + 1 := by
    rw [File.count_pages, hsize, Nat.mul_div_cancel _ (by decide)]
  have hlength := h.buffered.length_le
  rw [List.length_drop] at hlength
  have hfull := h.full
  refine ⟨?_, fun j => ?_, ?_, ?_⟩
  · rw [hsize]
    exact Nat.mul_mod_left _ _
  · rcases Nat.lt_trichotomy j k with hj | rfl | hj
    · have hne := @File.read_flush_of_ne t.file k j t.buffer (by omega)
      rw [EdgeTableMemImport.close, h.size]
      rw [File.flush] at hne
      rw [hne]
      exact h.written j hj
    · have hself := @File.read_flush_self t.file j t.buffer
      rw [File.flush] at hself
      rw [EdgeTableMemImport.close, h.size, hself, blockRecords,
        List.take_of_length_le (by rw [List.length_drop]; omega)]
      exact h.buffered
    · -- past the end of the file
      have hzero : t.close.read (j * MDB_PAGE_SIZE) = fun _ => 0 := by
        funext i
        apply t.close.byte_past
        have := Nat.mul_le_mul_right MDB_PAGE_SIZE (show k + 1 ≤ j by omega)
        omega
      have hnone : blockRecords rs j = [] := by
        have := Nat.mul_le_mul_left max_records (show k + 1 ≤ j by omega)
        have hlen : rs.length ≤ max_records * j := by
          unfold max_records at *
          omega
        rw [blockRecords, List.drop_of_length_le hlen, List.take_nil]
      rw [hzero, hnone]
      exact .nil record_count_zero
  · rw [hcount]
    unfold max_records at *
    omega
  · rw [hcount]
    simpa using hfull

theorem holdsRecords_importFile (uninitialized : Bytes) (edges : List (Fin 4 → UInt64)) :
    (EdgeTableMemImport.importFile uninitialized edges).HoldsRecords
      (edges.map fun edge i => edge i.castSucc) := by
  have hstart : (create uninitialized).Holds 0 [] :=
    ⟨rfl, by simp, fun j hj => absurd hj (by omega),
      .nil (record_count_setCount (by decide))⟩
  obtain ⟨k, h⟩ := hstart.foldl edges
  exact h.close

end EdgeTableMemImport

theorem File.holdsRecords_of_empty {file : File} (h : file.size = 0) : file.HoldsRecords [] := by
  refine ⟨by simp [h], fun j => ?_, by simp, by simp [File.count_pages, h]⟩
  have hzero : file.read (j * MDB_PAGE_SIZE) = fun _ => 0 := by
    funext i
    exact file.byte_past _ (by omega)
  rw [hzero, blockRecords, List.drop_nil, List.take_nil]
  exact .nil TableBlock.record_count_zero

end MillenniumDB.Storage
