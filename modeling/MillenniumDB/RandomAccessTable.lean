import MillenniumDB.AppendPage
import MillenniumDB.TableBlocks

/-!
# The edge table

`RandomAccessTable` keeps two blocks of its file pinned: the last one, to which records are
appended, and the one of the last lookup.
-/

namespace MillenniumDB.Storage

open TableBlock

variable {n : Nat}

namespace World

variable (w : World n)

/-- A `get_page` call, with the frame it returns. -/
def fetch (file_id : Int) (k : Nat) : Option (Fin n × World n) :=
  (w.manager.get_page file_id k).map fun r => (r.1, w.hand file_id k r)

/-- A block pointer that held the frame `old` is given the page `k`: the new block is made
before the old one unpins its page. -/
def replaceBlock (old : Fin n) (file_id : Int) (k : Nat) : Option (Fin n × World n) :=
  (w.fetch file_id k).bind fun r => (r.2.step (.unpin old)).map fun w => (r.1, w)

def bytes (f : Fin n) : Bytes := (w.manager.buffer_pool f).bytes

/-- `get_page_number`. -/
def page_number (f : Fin n) : Nat :=
  match (w.manager.buffer_pool f).page_id with
  | some p => p.page_number.toNat
  | none => 0

def restart (hn : 0 < n) : World n where
  manager := .init ⟨0, hn⟩ w.manager.flush.files
  content := w.content
  handed := []

end World

structure RandomAccessTable (n : Nat) where
  file_id : Int
  last_block : Fin n
  current_block : Fin n

namespace RandomAccessTable

def create (w : World n) (file_id : Int) : Option (RandomAccessTable n × World n) :=
  (w.fetch file_id (w.manager.last_page_number file_id)).bind fun r =>
    -- important to call buffer manager twice, so pins = 2
    (r.2.fetch file_id (r.2.manager.last_page_number file_id)).map fun r' =>
      (⟨file_id, r.1, r'.1⟩, r'.2)

/-- The first half of `operator[]`: the current block becomes the block `block`. -/
def seek (t : RandomAccessTable n) (w : World n) (block : Nat) :
    Option (RandomAccessTable n × World n) :=
  if w.page_number t.current_block ≠ block then
    (w.replaceBlock t.current_block t.file_id block).map fun r =>
      ({ t with current_block := r.1 }, r.2)
  else some (t, w)

/-- `operator[]`: the record, `none` for a null pointer, and the table and manager left. -/
def lookup (t : RandomAccessTable n) (w : World n) (pos : Nat) :
    Option (Option Record × RandomAccessTable n × World n) :=
  let block := pos / max_records
  let pos_in_block := pos % max_records
  (t.seek w block).map fun r =>
    let b := r.2.bytes r.1.current_block
    (if pos_in_block < record_count b then some (record b pos_in_block) else none, r)

/-- `append_record`, for at most `fuel` rounds of its loop. -/
def append_record : Nat → RandomAccessTable n → World n → Record →
    Option (RandomAccessTable n × World n)
  | 0, _, _, _ => none
  | fuel + 1, t, w, r =>
    let b := w.bytes t.last_block
    if record_count b < max_records then
      (w.step (.modify t.last_block (appendRecord b r))).map fun w => (t, w)
    else
      (w.replaceBlock t.last_block t.file_id (w.manager.files t.file_id).count_pages).bind
        fun next => append_record fuel { t with last_block := next.1 } next.2 r

end RandomAccessTable

/-- What may happen while the table is open: its own calls, a flush, the end of the program
and its next start, and calls on other files. -/
inductive TableOp (n : Nat)
  | lookup (pos : Nat)
  | append (r : Record)
  | flush
  | reopen
  | other (op : Op n)

/-- The call is made for the file, or on a frame that holds a page of it. -/
def Op.about (file_id : Int) (w : World n) : Op n → Bool
  | .get_page id _ | .get_last_page id | .append_page id => id == file_id
  | .modify f _ | .unpin f =>
    match (w.manager.buffer_pool f).page_id with
    | some p => p.file_id == file_id
    | none => false
  | .flush => false

structure TableWorld (n : Nat) where
  world : World n
  table : RandomAccessTable n
  records : List Record

namespace TableWorld

inductive Step : TableWorld n → TableOp n → TableWorld n → Prop
  | lookup {w w' : World n} {t t' : RandomAccessTable n} {rs : List Record} {pos : Nat}
      {result : Option Record} (h : t.lookup w pos = some (result, t', w')) :
      Step ⟨w, t, rs⟩ (.lookup pos) ⟨w', t', rs⟩
  | append {w w' : World n} {t t' : RandomAccessTable n} {rs : List Record} {r : Record}
      (fuel : Nat) (h : t.append_record fuel w r = some (t', w')) :
      Step ⟨w, t, rs⟩ (.append r) ⟨w', t', rs ++ [r]⟩
  | flush {w w' : World n} {t : RandomAccessTable n} {rs : List Record}
      (h : w.step .flush = some w') : Step ⟨w, t, rs⟩ .flush ⟨w', t, rs⟩
  | reopen {w w' : World n} {t t' : RandomAccessTable n} {rs : List Record} (hn : 0 < n)
      (h : RandomAccessTable.create (w.restart hn) t.file_id = some (t', w')) :
      Step ⟨w, t, rs⟩ .reopen ⟨w', t', rs⟩
  | other {w w' : World n} {t : RandomAccessTable n} {rs : List Record} {op : Op n}
      (hop : op.about t.file_id w = false) (h : w.step op = some w') :
      Step ⟨w, t, rs⟩ (.other op) ⟨w', t, rs⟩

/-- A lookup of `pos` gives the record appended there, and a null pointer past the last one. -/
def Finds (tw : TableWorld n) (pos : Nat) : Prop :=
  ∀ result t' w', tw.table.lookup tw.world pos = some (result, t', w') → result = tw.records[pos]?

end TableWorld

/-- The manager holds the records in the blocks of the file, of which `last` is the last. -/
structure Stored (file_id : Int) (last : Nat) (rs : List Record) (w : World n) : Prop where
  coherent : w.manager.Coherent w.content none
  blocks : ∀ j, j < 2 ^ 32 → ∃ b, w.content ⟨file_id, UInt32.ofNat j⟩ = some b ∧
    TableBlock.Holds b (blockRecords rs j)
  length_le : rs.length ≤ max_records * (last + 1)
  le_length : max_records * last ≤ rs.length
  last_lt : last < 2 ^ 32
  le_count : last ≤ (w.manager.files file_id).count_pages
  count_le : (w.manager.files file_id).count_pages ≤ last + 1
  dirty_le : ∀ f p, (w.manager.buffer_pool f).page_id = some p → p.file_id = file_id →
    (w.manager.buffer_pool f).dirty → p.page_number.toNat ≤ last

namespace BufferManager

variable {s s' : BufferManager n} {f g : Fin n} {p : PageId} {file_id id : Int} {k : Nat}

theorem count_pages_flushPage (s : BufferManager n) (f : Fin n) (file_id : Int) :
    (((s.flushPage f).files file_id).count_pages = (s.files file_id).count_pages) ∨
    ∃ p, (s.buffer_pool f).page_id = some p ∧ p.file_id = file_id ∧
      ((s.flushPage f).files file_id).count_pages =
        max (s.files file_id).count_pages (p.page_number.toNat + 1) := by
  cases hp : (s.buffer_pool f).page_id with
  | none => exact .inl (by rw [flushPage_of_none hp])
  | some p =>
    rw [flushPage_of_some hp]
    by_cases hfile : p.file_id = file_id
    · subst hfile
      exact .inr ⟨p, rfl, rfl, by simp [File.count_pages_flush]⟩
    · exact .inl (by simp [Ne.symm hfile])

/-- `evict` writes at most the page of its frame. -/
theorem evict_count_pages (s : BufferManager n) (f : Fin n) (file_id : Int) :
    (((s.evict f).files file_id).count_pages = (s.files file_id).count_pages) ∨
    ∃ p, (s.buffer_pool f).page_id = some p ∧ p.file_id = file_id ∧
      (s.buffer_pool f).dirty ∧ ((s.evict f).files file_id).count_pages =
        max (s.files file_id).count_pages (p.page_number.toNat + 1) := by
  cases hp : (s.buffer_pool f).page_id with
  | none =>
    have heq : s.evict f = s := by simp [BufferManager.evict, flushPage_of_none hp, hp]
    exact .inl (by rw [heq])
  | some p =>
    rw [evict_eq hp]
    dsimp only
    split
    · next hd =>
      rcases count_pages_flushPage s f file_id with h | ⟨q, hq, hfile, h⟩
      · exact .inl h
      · exact .inr ⟨q, hp ▸ hq, hfile, hd, h⟩
    · exact .inl rfl

theorem load_count_pages (s : BufferManager n) (f : Fin n) (p : PageId) (file_id : Int) :
    ((s.load f p).files file_id).count_pages =
      if p.file_id = file_id then max (s.files file_id).count_pages p.page_number.toNat
      else (s.files file_id).count_pages := by
  simp only [BufferManager.load]
  by_cases hfile : p.file_id = file_id
  · subst hfile
    simp [File.count_pages_read_page]
  · simp [hfile, Ne.symm hfile]

theorem evict_of_ne (hg : g ≠ f) : (s.evict f).buffer_pool g = s.buffer_pool g := by
  cases hp : (s.buffer_pool f).page_id with
  | none => simp [BufferManager.evict, flushPage_of_none hp, hp]
  | some p =>
    rw [evict_eq hp]
    dsimp only
    split
    · rw [flushPage_of_some hp]
      simp [hg]
    · rfl

/-- What a `get_page` call leaves of a frame. -/
theorem get_page_frame (h : s.get_page id k = some (f, s')) (g : Fin n) :
    ((s'.buffer_pool g).page_id = (s.buffer_pool g).page_id ∧
      (s'.buffer_pool g).bytes = (s.buffer_pool g).bytes ∧
      (s'.buffer_pool g).dirty = (s.buffer_pool g).dirty ∧
      (s'.buffer_pool g).pins = (s.buffer_pool g).pins + if g = f then 1 else 0) ∨
    (g = f ∧ (s.buffer_pool g).pins = 0 ∧ (s'.buffer_pool g).pins = 1) := by
  rcases get_page_spec rfl h with ⟨-, rfl⟩ | ⟨-, t, ht, hpins, rfl⟩
  · left
    by_cases hg : g = f
    · subst hg
      simp
    · simp [setPage_of_ne _ hg, hg]
  · obtain ⟨usage, hsame⟩ := ht.buffer_pool g
    by_cases hg : g = f
    · subst hg
      refine .inr ⟨rfl, ?_, by simp [BufferManager.load]⟩
      rw [hsame] at hpins
      exact hpins
    · left
      simp [BufferManager.load, hg, evict_of_ne hg, hsame]

end BufferManager

namespace Stored

variable {file_id id : Int} {last k : Nat} {rs : List Record} {w w' : World n} {f g : Fin n}
  {s : BufferManager n}

theorem get_page (h : Stored file_id last rs w) (hget : w.manager.get_page id k = some (f, s))
    (hk : id = file_id → k ≤ last + 1) :
    Stored file_id last rs (w.hand id k (f, s)) ∧
      (w.manager.files file_id).count_pages ≤ (s.files file_id).count_pages := by
  have hcoherent := (h.coherent.get_page rfl hget).1
  have hcut : (UInt32.ofNat k).toNat ≤ k := by
    rw [UInt32.toNat_ofNat']
    exact Nat.mod_le _ _
  have hcount : (w.manager.files file_id).count_pages ≤ (s.files file_id).count_pages ∧
      (s.files file_id).count_pages ≤ last + 1 ∧
      ∀ g p, (s.buffer_pool g).page_id = some p → p.file_id = file_id →
        (s.buffer_pool g).dirty → p.page_number.toNat ≤ last := by
    rcases BufferManager.get_page_spec rfl hget with ⟨-, rfl⟩ | ⟨-, t, ht, -, rfl⟩
    · refine ⟨le_rfl, h.count_le, fun g p hp hfile hd => ?_⟩
      by_cases hg : g = f
      · subst hg
        exact h.dirty_le g p (by simpa using hp) hfile (by simpa using hd)
      · rw [BufferManager.setPage_of_ne _ hg] at hp hd
        exact h.dirty_le g p hp hfile hd
    · have hdirty : ∀ g p, (t.buffer_pool g).page_id = some p → p.file_id = file_id →
          (t.buffer_pool g).dirty → p.page_number.toNat ≤ last := by
        intro g p hp hfile hd
        obtain ⟨usage, hsame⟩ := ht.buffer_pool g
        rw [hsame] at hp hd
        exact h.dirty_le g p hp hfile hd
      have hevict : (t.files file_id).count_pages ≤ ((t.evict f).files file_id).count_pages ∧
          ((t.evict f).files file_id).count_pages ≤ last + 1 := by
        have := h.count_le
        rw [← ht.files] at this
        rcases BufferManager.evict_count_pages t f file_id with hsame | ⟨p, hp, hfile, hd, hmax⟩
        · omega
        · have := hdirty f p hp hfile hd
          omega
      rw [BufferManager.load_count_pages, ← ht.files]
      refine ⟨?_, ?_, fun g p hp hfile hd => ?_⟩
      · split <;> omega
      · split
        · next hfile =>
          have : id = file_id := hfile
          have := hk this
          dsimp only
          omega
        · omega
      · have hg : g ≠ f := by
          rintro rfl
          have hclean := ((h.coherent.of_ticked ht).evict g).2
          simp [BufferManager.load, hclean] at hd
        have hsame : ((t.evict f).load f ⟨id, UInt32.ofNat k⟩).buffer_pool g =
            t.buffer_pool g := by
          simp [BufferManager.load, hg, BufferManager.evict_of_ne hg]
        rw [hsame] at hp hd
        exact hdirty g p hp hfile hd
  exact ⟨⟨hcoherent, h.blocks, h.length_le, h.le_length, h.last_lt,
    h.le_count.trans hcount.1, hcount.2.1, hcount.2.2⟩, hcount.1⟩

theorem of_same (h : Stored file_id last rs w) (hcontent : w'.content = w.content)
    (hpages : w'.manager.pages = w.manager.pages) (hfiles : w'.manager.files = w.manager.files)
    (hpool : ∀ f, (w'.manager.buffer_pool f).page_id = (w.manager.buffer_pool f).page_id ∧
      (w'.manager.buffer_pool f).bytes = (w.manager.buffer_pool f).bytes ∧
      (w'.manager.buffer_pool f).dirty = (w.manager.buffer_pool f).dirty) :
    Stored file_id last rs w' where
  coherent := hcontent ▸ h.coherent.of_same hpages hfiles hpool
  blocks := hcontent ▸ h.blocks
  length_le := h.length_le
  le_length := h.le_length
  last_lt := h.last_lt
  le_count := hfiles ▸ h.le_count
  count_le := hfiles ▸ h.count_le
  dirty_le f p := by
    rw [(hpool f).1, (hpool f).2.2]
    exact h.dirty_le f p

theorem unpin (h : Stored file_id last rs w) (hstep : w.step (.unpin f) = some w') :
    Stored file_id last rs w' ∧ w'.manager.files = w.manager.files ∧
      ∀ g, (w'.manager.buffer_pool g).page_id = (w.manager.buffer_pool g).page_id ∧
        (w'.manager.buffer_pool g).bytes = (w.manager.buffer_pool g).bytes ∧
        (w'.manager.buffer_pool g).dirty = (w.manager.buffer_pool g).dirty ∧
        (w'.manager.buffer_pool g).pins =
          (w.manager.buffer_pool g).pins - if g = f then 1 else 0 := by
  simp only [World.step] at hstep
  split at hstep
  · simp at hstep
  · cases hstep
    have hpool : ∀ g, ((w.manager.setPage f { w.manager.buffer_pool f with
        pins := (w.manager.buffer_pool f).pins - 1 }).buffer_pool g) =
          { w.manager.buffer_pool g with
            pins := (w.manager.buffer_pool g).pins - if g = f then 1 else 0 } := by
      intro g
      by_cases hg : g = f
      · subst hg
        simp
      · simp [BufferManager.setPage_of_ne _ hg, hg]
    refine ⟨h.of_same rfl rfl rfl fun g => ?_, rfl, fun g => ?_⟩
    · simp [hpool g]
    · simp [hpool g]

theorem flush_aux (frames : List (Fin n)) (h : Stored file_id last rs w) :
    let s := frames.foldl (fun s f => if (s.buffer_pool f).dirty then s.flushPage f else s)
      w.manager
    Stored file_id last rs { w with manager := s } ∧
      (w.manager.files file_id).count_pages ≤ (s.files file_id).count_pages ∧
      (∀ g, (s.buffer_pool g).page_id = (w.manager.buffer_pool g).page_id ∧
        (s.buffer_pool g).bytes = (w.manager.buffer_pool g).bytes ∧
        (s.buffer_pool g).pins = (w.manager.buffer_pool g).pins ∧
        ((s.buffer_pool g).dirty → (w.manager.buffer_pool g).dirty)) ∧
      ∀ g ∈ frames, (s.buffer_pool g).dirty = false ∧
        ((w.manager.buffer_pool g).dirty → ∀ p, (w.manager.buffer_pool g).page_id = some p →
          p.file_id = file_id → p.page_number.toNat < (s.files file_id).count_pages) := by
  induction frames generalizing w with
  | nil => exact ⟨h, le_rfl, fun g => ⟨rfl, rfl, rfl, id⟩, fun g hg => by simp at hg⟩
  | cons f frames ih =>
    dsimp only
    rw [List.foldl_cons]
    by_cases hd : (w.manager.buffer_pool f).dirty
    · rw [if_pos hd]
      have hframe : ∀ g, ∃ dirty, (w.manager.flushPage f).buffer_pool g =
          { w.manager.buffer_pool g with dirty } ∧ (dirty → (w.manager.buffer_pool g).dirty) := by
        intro g
        cases hp : (w.manager.buffer_pool f).page_id with
        | none => exact ⟨_, by rw [BufferManager.flushPage_of_none hp], id⟩
        | some p =>
          rw [BufferManager.flushPage_of_some hp]
          by_cases hg : g = f
          · exact ⟨false, by simp [hg], by simp⟩
          · exact ⟨(w.manager.buffer_pool g).dirty, by simp [hg], id⟩
      have hnone : (w.manager.buffer_pool f).page_id ≠ none := h.coherent.dirty f hd
      have hcount : (w.manager.files file_id).count_pages ≤
          ((w.manager.flushPage f).files file_id).count_pages ∧
          ((w.manager.flushPage f).files file_id).count_pages ≤ last + 1 ∧
          ∀ p, (w.manager.buffer_pool f).page_id = some p → p.file_id = file_id →
            p.page_number.toNat < ((w.manager.flushPage f).files file_id).count_pages := by
        have hle := h.count_le
        cases hp : (w.manager.buffer_pool f).page_id with
        | none => exact absurd hp hnone
        | some p =>
          rw [BufferManager.flushPage_of_some hp]
          by_cases hfile : p.file_id = file_id
          · have := h.dirty_le f p hp hfile hd
            subst hfile
            simp only [Function.update_self, File.count_pages_flush]
            refine ⟨by omega, by omega, fun q hq _ => ?_⟩
            cases hq
            omega
          · simp only [ne_eq, Ne.symm hfile, not_false_eq_true, Function.update_of_ne]
            refine ⟨le_rfl, hle, fun q hq hqfile => ?_⟩
            cases hq
            exact absurd hqfile hfile
      have hstored : Stored file_id last rs { w with manager := w.manager.flushPage f } := by
        refine ⟨h.coherent.flushPage f, h.blocks, h.length_le, h.le_length, h.last_lt,
          h.le_count.trans hcount.1, hcount.2.1, fun g p hp hfile hgd => ?_⟩
        obtain ⟨dirty, hg, hgd'⟩ := hframe g
        dsimp only at hp hgd
        rw [hg] at hp hgd
        exact h.dirty_le g p hp hfile (hgd' hgd)
      obtain ⟨hs, hle, hpool, hall⟩ := ih hstored
      refine ⟨hs, hcount.1.trans hle, fun g => ?_, fun g hg => ?_⟩
      · obtain ⟨dirty, hg, hgd⟩ := hframe g
        have := hpool g
        dsimp only at this
        rw [hg] at this
        exact ⟨this.1, this.2.1, this.2.2.1, fun hd => hgd (this.2.2.2 hd)⟩
      · by_cases hgf : g = f
        · subst hgf
          refine ⟨?_, fun _ p hp hfile => (hcount.2.2 p hp hfile).trans_le hle⟩
          by_contra hdirty
          have := (hpool g).2.2.2 (by simpa using hdirty)
          dsimp only at this
          rw [BufferManager.flushPage_dirty hnone] at this
          simp at this
        · have hmem : g ∈ frames := by simpa [hgf] using hg
          obtain ⟨hclean, hcounted⟩ := hall g hmem
          refine ⟨hclean, fun hd p hp hfile => hcounted ?_ p (by simpa using hp) hfile⟩
          dsimp only
          cases hq : (w.manager.buffer_pool f).page_id with
          | none => exact absurd hq hnone
          | some q =>
            rw [BufferManager.flushPage_of_some hq]
            simpa [hgf] using hd
    · rw [if_neg hd]
      obtain ⟨hs, hle, hpool, hall⟩ := ih h
      refine ⟨hs, hle, hpool, fun g hg => ?_⟩
      rcases List.mem_cons.mp hg with rfl | hg
      · refine ⟨?_, fun hgd => absurd hgd hd⟩
        by_contra hdirty
        exact hd ((hpool g).2.2.2 (by simpa using hdirty))
      · exact hall g hg

theorem flush (h : Stored file_id last rs w) :
    Stored file_id last rs { w with manager := w.manager.flush } ∧
      (w.manager.files file_id).count_pages ≤ (w.manager.flush.files file_id).count_pages ∧
      (∀ g, (w.manager.flush.buffer_pool g).page_id = (w.manager.buffer_pool g).page_id ∧
        (w.manager.flush.buffer_pool g).pins = (w.manager.buffer_pool g).pins ∧
        (w.manager.flush.buffer_pool g).dirty = false) ∧
      ∀ g, (w.manager.buffer_pool g).dirty → ∀ p, (w.manager.buffer_pool g).page_id = some p →
        p.file_id = file_id →
        p.page_number.toNat < (w.manager.flush.files file_id).count_pages := by
  obtain ⟨hs, hle, hpool, hall⟩ := h.flush_aux (List.finRange n)
  exact ⟨hs, hle, fun g => ⟨(hpool g).1, (hpool g).2.2.1, (hall g (List.mem_finRange g)).1⟩,
    fun g => (hall g (List.mem_finRange g)).2⟩

theorem restart (h : Stored file_id last rs w) (hn : 0 < n) :
    Stored file_id last rs (w.restart hn) := by
  obtain ⟨hs, hle, hpool, -⟩ := h.flush
  have hcoherent := hs.coherent
  refine ⟨⟨fun p f => ?_, fun f hd => ?_, fun p ht => ?_, fun p f b hp => ?_, fun p b hb _ => ?_⟩,
    h.blocks, h.length_le, h.le_length, h.last_lt, hs.le_count, hs.count_le,
    fun f p hp => ?_⟩
  · simp [World.restart, BufferManager.init, Page.unassigned]
  · simp [World.restart, BufferManager.init, Page.unassigned] at hd
  · exact ⟨(hcoherent.torn p ht).1, rfl⟩
  · simp [World.restart, BufferManager.init] at hp
  · exact hcoherent.stored p b hb fun f _ => (hpool f).2.2
  · simp [World.restart, BufferManager.init, Page.unassigned] at hp

theorem bytes_frame (h : Stored file_id last rs w) {j : Nat} (hj : j < 2 ^ 32)
    (hf : (w.manager.buffer_pool f).page_id = some ⟨file_id, UInt32.ofNat j⟩) :
    TableBlock.Holds (w.bytes f) (blockRecords rs j) := by
  obtain ⟨b, hb, hholds⟩ := h.blocks j hj
  have hpages := (h.coherent.table ⟨file_id, UInt32.ofNat j⟩ f).mpr ⟨by simp, hf⟩
  rw [World.bytes, h.coherent.cached _ f b hpages hb]
  exact hholds

theorem blockRecords_of_lt (h : Stored file_id last rs w) {j : Nat} (hj : last < j) :
    blockRecords rs j = [] := by
  have := Nat.mul_le_mul_left max_records (show last + 1 ≤ j by omega)
  rw [blockRecords, List.drop_of_length_le (h.length_le.trans this), List.take_nil]

theorem blockRecords_last (h : Stored file_id last rs w) :
    blockRecords rs last = rs.drop (max_records * last) := by
  have hle := h.length_le
  apply List.take_of_length_le
  rw [List.length_drop]
  unfold max_records at *
  omega

end Stored

/-- The two blocks of the table are pinned, the last one is the block `last` of the file, and
it is dirty unless the file reaches past it. -/
structure Opened (last : Nat) (t : RandomAccessTable n) (w : World n) : Prop where
  last_block : (w.manager.buffer_pool t.last_block).page_id =
    some ⟨t.file_id, UInt32.ofNat last⟩
  current_block : ∃ j < 2 ^ 32, (w.manager.buffer_pool t.current_block).page_id =
    some ⟨t.file_id, UInt32.ofNat j⟩
  last_pins : 0 < (w.manager.buffer_pool t.last_block).pins
  current_pins : 0 < (w.manager.buffer_pool t.current_block).pins
  same_pins : t.last_block = t.current_block → 2 ≤ (w.manager.buffer_pool t.last_block).pins
  unwritten : (w.manager.files t.file_id).count_pages = last → last = 0 ∨
    (w.manager.buffer_pool t.last_block).dirty

section replaceBlock

variable {file_id : Int} {last k : Nat} {rs : List Record} {w w' : World n} {kept old f : Fin n}

theorem World.fetch_eq {r : Fin n × World n} (h : w.fetch file_id k = some r) :
    ∃ s, w.manager.get_page file_id k = some (r.1, s) ∧ r.2 = w.hand file_id k (r.1, s) := by
  obtain ⟨⟨f, s⟩, hget, rfl⟩ := Option.map_eq_some_iff.mp h
  exact ⟨s, hget, rfl⟩

/-- A block pointer moves from one pinned page of the table to another, while `kept` stays
pinned. -/
theorem Stored.replaceBlock (h : Stored file_id last rs w)
    (hreplace : w.replaceBlock old file_id k = some (f, w')) (hk : k ≤ last + 1)
    (hold : (w.manager.buffer_pool old).page_id ≠ some ⟨file_id, UInt32.ofNat k⟩)
    (hkept : 0 < (w.manager.buffer_pool kept).pins) (hpins : 0 < (w.manager.buffer_pool old).pins)
    (hsame : kept = old → 2 ≤ (w.manager.buffer_pool kept).pins) :
    Stored file_id last rs w' ∧
      (w.manager.files file_id).count_pages ≤ (w'.manager.files file_id).count_pages ∧
      (w'.manager.buffer_pool f).page_id = some ⟨file_id, UInt32.ofNat k⟩ ∧
      (w'.manager.buffer_pool kept).page_id = (w.manager.buffer_pool kept).page_id ∧
      (w'.manager.buffer_pool kept).dirty = (w.manager.buffer_pool kept).dirty ∧
      0 < (w'.manager.buffer_pool kept).pins ∧ 0 < (w'.manager.buffer_pool f).pins ∧
      (kept = f → 2 ≤ (w'.manager.buffer_pool kept).pins) := by
  obtain ⟨⟨f', w₁⟩, hfetch, hrest⟩ := Option.bind_eq_some_iff.mp hreplace
  obtain ⟨w₂, hunpin, heq⟩ := Option.map_eq_some_iff.mp hrest
  cases heq
  obtain ⟨s, hget, hw₁⟩ := World.fetch_eq hfetch
  dsimp only at hget hw₁ hunpin
  subst hw₁
  obtain ⟨hstored, hcount⟩ := h.get_page hget fun _ => hk
  have hf : (s.buffer_pool f').page_id = some ⟨file_id, UInt32.ofNat k⟩ := by
    obtain ⟨hs, hpages⟩ := h.coherent.get_page rfl hget
    exact ((hs.table _ f').mp hpages).2
  obtain ⟨hstored', hfiles, hpool⟩ := hstored.unpin hunpin
  have hfold : f' ≠ old := by
    rintro rfl
    rcases BufferManager.get_page_frame hget f' with ⟨hid, -⟩ | ⟨-, hzero, -⟩
    · exact hold (hid ▸ hf)
    · omega
  have hframe : ∀ g, 0 < (w.manager.buffer_pool g).pins →
      (s.buffer_pool g).page_id = (w.manager.buffer_pool g).page_id ∧
      (s.buffer_pool g).dirty = (w.manager.buffer_pool g).dirty ∧
      (s.buffer_pool g).pins = (w.manager.buffer_pool g).pins + if g = f' then 1 else 0 := by
    intro g hg
    rcases BufferManager.get_page_frame hget g with ⟨hid, -, hd, hp⟩ | ⟨-, hzero, -⟩
    · exact ⟨hid, hd, hp⟩
    · omega
  have hfpins : 0 < (s.buffer_pool f').pins := by
    rcases BufferManager.get_page_frame hget f' with ⟨-, -, -, hp⟩ | ⟨-, -, hone⟩
    · rw [hp, if_pos rfl]
      omega
    · omega
  obtain ⟨hid, hd, hp⟩ := hframe kept hkept
  have hkept' := hpool kept
  have hf' := hpool f'
  simp only [World.hand] at hkept' hf' hfiles
  rw [if_neg hfold] at hf'
  refine ⟨hstored', by rw [hfiles]; exact hcount, hf'.1.trans hf, hkept'.1.trans hid,
    hkept'.2.2.1.trans hd, ?_, by rw [hf'.2.2.2]; omega, fun hkf => ?_⟩
  · rw [hkept'.2.2.2, hp]
    by_cases hko : kept = old
    · have := hsame hko
      rw [if_pos hko]
      omega
    · rw [if_neg hko]
      omega
  · have hko : kept ≠ old := fun hko => hfold (hkf.symm.trans hko)
    rw [hkept'.2.2.2, hp, if_pos hkf, if_neg hko]
    omega

end replaceBlock

theorem toNat_ofNat_of_lt {k : Nat} (h : k < 2 ^ 32) : (UInt32.ofNat k).toNat = k := by
  rw [UInt32.toNat_ofNat', Nat.mod_eq_of_lt h]

theorem World.page_number_of_page_id {w : World n} {f : Fin n} {id : Int} {k : Nat}
    (h : (w.manager.buffer_pool f).page_id = some ⟨id, UInt32.ofNat k⟩) (hk : k < 2 ^ 32) :
    w.page_number f = k := by
  rw [World.page_number, h]
  exact toNat_ofNat_of_lt hk

theorem World.step_modify {w w' : World n} {f : Fin n} {b : Bytes}
    (h : w.step (.modify f b) = some w') : ∃ p, (w.manager.buffer_pool f).page_id = some p ∧
      w' = { w with
        manager := w.manager.setPage f { w.manager.buffer_pool f with bytes := b, dirty := true }
        content := Function.update w.content p (some b) } := by
  simp only [World.step] at h
  split at h
  · simp at h
  · next p hp =>
    split at h
    · simp at h
    · exact ⟨p, hp, (Option.some.inj h).symm⟩

theorem Stored.append {last : Nat} {rs : List Record} {w w' : World n} {f : Fin n} {id : Int}
    {r : Record} (hs : Stored id last rs w)
    (hlast : (w.manager.buffer_pool f).page_id = some ⟨id, UInt32.ofNat last⟩)
    (hcount : record_count (w.bytes f) < max_records)
    (hmodify : w.step (.modify f (appendRecord (w.bytes f) r)) = some w') :
    Stored id last (rs ++ [r]) w' ∧ w'.manager.files = w.manager.files ∧
      (w'.manager.buffer_pool f).dirty = true ∧
      ∀ g, (w'.manager.buffer_pool g).page_id = (w.manager.buffer_pool g).page_id ∧
        (w'.manager.buffer_pool g).pins = (w.manager.buffer_pool g).pins := by
  have hholds := hs.bytes_frame hs.last_lt hlast
  rw [hs.blockRecords_last] at hholds
  have hlen := hholds.count
  rw [List.length_drop] at hlen
  have hle := hs.le_length
  obtain ⟨p, hp, rfl⟩ := World.step_modify hmodify
  have hpid : p = ⟨id, UInt32.ofNat last⟩ := Option.some.inj (hp.symm.trans hlast)
  subst hpid
  refine ⟨⟨hs.coherent.modify hlast _, fun j hj => ?_, ?_, ?_, hs.last_lt, hs.le_count,
    hs.count_le, fun g p hp hfile hd => ?_⟩, rfl, by simp, fun g => ?_⟩
  · by_cases hjl : j = last
    · subst hjl
      refine ⟨_, Function.update_self .., ?_⟩
      have hdrop : blockRecords (rs ++ [r]) j = rs.drop (max_records * j) ++ [r] := by
        rw [blockRecords, List.drop_append_of_le_length hle, List.take_of_length_le]
        rw [List.length_append, List.length_drop, List.length_singleton]
        omega
      rw [hdrop]
      exact hholds.append (by rw [List.length_drop]; omega) r
    · obtain ⟨b, hb, hblock⟩ := hs.blocks j hj
      have hne : (⟨id, UInt32.ofNat j⟩ : PageId) ≠ ⟨id, UInt32.ofNat last⟩ := by
        intro heq
        have hcut : (UInt32.ofNat j).toNat = (UInt32.ofNat last).toNat := by
          rw [(PageId.mk.inj heq).2]
        rw [toNat_ofNat_of_lt hj, toNat_ofNat_of_lt hs.last_lt] at hcut
        exact hjl hcut
      refine ⟨b, (Function.update_of_ne hne ..).trans hb, ?_⟩
      have hsame : blockRecords (rs ++ [r]) j = blockRecords rs j := by
        rcases Nat.lt_or_gt_of_ne hjl with hjl | hjl
        · apply EdgeTableMemImport.blockRecords_append
          exact (Nat.mul_le_mul_left max_records (show j + 1 ≤ last by omega)).trans hle
        · have hpast := Nat.mul_le_mul_left max_records (show last + 1 ≤ j by omega)
          rw [hs.blockRecords_of_lt hjl, blockRecords, List.drop_of_length_le, List.take_nil]
          rw [List.length_append, List.length_singleton]
          unfold max_records at *
          omega
      rw [hsame]
      exact hblock
  · rw [List.length_append, List.length_singleton]
    unfold max_records at *
    omega
  · rw [List.length_append]
    omega
  · by_cases hg : g = f
    · subst hg
      have hpid : p = ⟨id, UInt32.ofNat last⟩ := by
        simpa [hlast] using hp.symm
      rw [hpid]
      exact (toNat_ofNat_of_lt hs.last_lt).le
    · simp only [BufferManager.setPage_of_ne _ hg] at hp hd
      exact hs.dirty_le g p hp hfile hd
  · by_cases hg : g = f
    · subst hg
      simp
    · simp [BufferManager.setPage_of_ne _ hg]

namespace Opened

variable {last : Nat} {rs : List Record} {w w' : World n} {t t' : RandomAccessTable n}

theorem page_number_last (h : Opened last t w) (hs : Stored t.file_id last rs w) :
    w.page_number t.last_block = last :=
  World.page_number_of_page_id h.last_block hs.last_lt

theorem seek (h : Opened last t w) (hs : Stored t.file_id last rs w) {block : Nat}
    (hseek : t.seek w block = some (t', w')) (hblock : block ≤ last + 1)
    (hlt : block < 2 ^ 32) :
    Opened last t' w' ∧ Stored t.file_id last rs w' ∧ t'.file_id = t.file_id ∧
      (w'.manager.buffer_pool t'.current_block).page_id =
        some ⟨t.file_id, UInt32.ofNat block⟩ := by
  obtain ⟨j, hj, hcurrent⟩ := h.current_block
  have hnumber := World.page_number_of_page_id hcurrent hj
  unfold RandomAccessTable.seek at hseek
  rw [hnumber] at hseek
  split at hseek
  · next hne =>
    obtain ⟨⟨f, w₁⟩, hreplace, heq⟩ := Option.map_eq_some_iff.mp hseek
    cases heq
    have hold : (w.manager.buffer_pool t.current_block).page_id ≠
        some ⟨t.file_id, UInt32.ofNat block⟩ := by
      rw [hcurrent]
      intro heq
      have hcut : (UInt32.ofNat j).toNat = (UInt32.ofNat block).toNat := by
        rw [(PageId.mk.inj (Option.some.inj heq)).2]
      rw [toNat_ofNat_of_lt hj, toNat_ofNat_of_lt hlt] at hcut
      exact hne hcut
    obtain ⟨hs', hcount, hf, hkept, hdirty, hpins, hfpins, hsame⟩ :=
      hs.replaceBlock hreplace hblock hold h.last_pins h.current_pins
        h.same_pins
    refine ⟨⟨hkept.trans h.last_block, ⟨block, hlt, hf⟩, hpins, hfpins, hsame, fun heq => ?_⟩,
      hs', rfl, hf⟩
    have hle := hs.le_count
    dsimp only at heq ⊢
    rw [hdirty]
    exact h.unwritten (by omega)
  · next heq =>
    cases hseek
    rw [not_not] at heq
    exact ⟨h, hs, rfl, heq ▸ hcurrent⟩

/-- A round of `append_record` whose last block has room. -/
theorem append_record_room (hs : Stored t.file_id last rs w)
    (hlast : (w.manager.buffer_pool t.last_block).page_id = some ⟨t.file_id, UInt32.ofNat last⟩)
    (hcurrent : ∃ j < 2 ^ 32, (w.manager.buffer_pool t.current_block).page_id =
      some ⟨t.file_id, UInt32.ofNat j⟩)
    (hpins : 0 < (w.manager.buffer_pool t.last_block).pins)
    (hcurrentPins : 0 < (w.manager.buffer_pool t.current_block).pins)
    (hsame : t.last_block = t.current_block → 2 ≤ (w.manager.buffer_pool t.last_block).pins)
    (hlt : record_count (w.bytes t.last_block) < max_records)
    {fuel : Nat} {r : Record} (happend : t.append_record (fuel + 1) w r = some (t', w')) :
    Opened last t' w' ∧ Stored t.file_id last (rs ++ [r]) w' ∧ t'.file_id = t.file_id := by
  rw [RandomAccessTable.append_record, if_pos hlt] at happend
  obtain ⟨w₁, hmodify, heq⟩ := Option.map_eq_some_iff.mp happend
  cases heq
  obtain ⟨hs', hfiles, hdirty, hpool⟩ := hs.append hlast hlt hmodify
  obtain ⟨j, hj, hcurrent⟩ := hcurrent
  refine ⟨?_, hs', rfl⟩
  constructor
  · exact (hpool _).1.trans hlast
  · exact ⟨j, hj, (hpool _).1.trans hcurrent⟩
  · exact (hpool _).2 ▸ hpins
  · exact (hpool _).2 ▸ hcurrentPins
  · exact fun heq => (hpool _).2 ▸ hsame heq
  · exact fun _ => .inr hdirty

/-- The loop of `append_record` goes at most once through a new block. -/
theorem append_record_step (h : Opened last t w) (hs : Stored t.file_id last rs w)
    (hallowed : record_count (w.bytes t.last_block) < max_records ∨
      (w.manager.files t.file_id).count_pages = last + 1 ∧ last + 1 < 2 ^ 32)
    {fuel : Nat} {r : Record} (happend : t.append_record fuel w r = some (t', w')) :
    ∃ last', Opened last' t' w' ∧ Stored t.file_id last' (rs ++ [r]) w' ∧
      t'.file_id = t.file_id := by
  -- the first round
  cases fuel with
  | zero => simp [RandomAccessTable.append_record] at happend
  | succ fuel =>
    by_cases hlt : record_count (w.bytes t.last_block) < max_records
    · exact ⟨last, append_record_room hs h.last_block h.current_block h.last_pins h.current_pins
        h.same_pins hlt happend⟩
    · rw [RandomAccessTable.append_record, if_neg hlt] at happend
      obtain ⟨hcount, hsize⟩ := hallowed.resolve_left hlt
      obtain ⟨⟨f, w₁⟩, hreplace, happend⟩ := Option.bind_eq_some_iff.mp happend
      rw [hcount] at hreplace
      have hold : (w.manager.buffer_pool t.last_block).page_id ≠
          some ⟨t.file_id, UInt32.ofNat (last + 1)⟩ := by
        rw [h.last_block]
        intro heq
        have hcut : (UInt32.ofNat last).toNat = (UInt32.ofNat (last + 1)).toNat := by
          rw [(PageId.mk.inj (Option.some.inj heq)).2]
        rw [toNat_ofNat_of_lt hs.last_lt, toNat_ofNat_of_lt hsize] at hcut
        omega
      obtain ⟨hs', hcount', hf, hkept, -, hpins, hfpins, hsame⟩ :=
        hs.replaceBlock hreplace le_rfl hold h.current_pins h.last_pins
          fun heq => by
            rw [heq]
            exact h.same_pins heq.symm
      -- the full block is left behind
      have hholds := hs.bytes_frame hs.last_lt h.last_block
      rw [hs.blockRecords_last] at hholds
      have hfull : rs.length = max_records * (last + 1) := by
        have hlen := hholds.count
        have hle := hs.length_le
        rw [List.length_drop] at hlen
        unfold max_records at *
        omega
      have hnew : Stored t.file_id (last + 1) rs w₁ := by
        refine ⟨hs'.coherent, hs'.blocks, ?_, hfull.ge, hsize, by omega, ?_,
          fun g p hp hfile hd => ?_⟩
        · rw [hfull]
          exact Nat.mul_le_mul_left _ (by omega)
        · have := hs'.count_le
          omega
        · have := hs'.dirty_le g p hp hfile hd
          omega
      have hempty : record_count (w₁.bytes f) < max_records := by
        have hblock := hnew.bytes_frame hsize hf
        rw [hs.blockRecords_of_lt (by omega)] at hblock
        rw [hblock.count]
        exact show 0 < 170 by omega
      cases fuel with
      | zero => simp [RandomAccessTable.append_record] at happend
      | succ fuel =>
        obtain ⟨k, hk, hcurrent⟩ := h.current_block
        have hsame' : f = t.current_block → 2 ≤ (w₁.manager.buffer_pool f).pins := by
          intro heq
          rw [heq]
          exact hsame heq.symm
        have hroom := append_record_room (t := { t with last_block := f }) hnew hf
          ⟨k, hk, hkept.trans hcurrent⟩ hfpins hpins hsame' hempty happend
        exact ⟨last + 1, hroom⟩

theorem of_pinned (h : Opened last t w)
    (hcount : (w.manager.files t.file_id).count_pages ≤
      (w'.manager.files t.file_id).count_pages)
    (hle : last ≤ (w.manager.files t.file_id).count_pages)
    (hpool : ∀ g j, (w.manager.buffer_pool g).page_id = some ⟨t.file_id, j⟩ →
      0 < (w.manager.buffer_pool g).pins →
      (w'.manager.buffer_pool g).page_id = (w.manager.buffer_pool g).page_id ∧
      (w'.manager.buffer_pool g).dirty = (w.manager.buffer_pool g).dirty ∧
      (w.manager.buffer_pool g).pins ≤ (w'.manager.buffer_pool g).pins) : Opened last t w' := by
  obtain ⟨j, hj, hcurrent⟩ := h.current_block
  obtain ⟨hid, hd, hp⟩ := hpool _ _ h.last_block h.last_pins
  obtain ⟨hid', -, hp'⟩ := hpool _ _ hcurrent h.current_pins
  refine ⟨hid.trans h.last_block, ⟨j, hj, hid'.trans hcurrent⟩, h.last_pins.trans_le hp,
    h.current_pins.trans_le hp', fun heq => (h.same_pins heq).trans hp, fun heq => ?_⟩
  rw [hd]
  exact h.unwritten (by omega)

theorem other (h : Opened last t w) (hs : Stored t.file_id last rs w) {op : Op n}
    (hop : op.about t.file_id w = false) (hstep : w.step op = some w') :
    Opened last t w' ∧ Stored t.file_id last rs w' := by
  have hget : ∀ {id k f s}, id ≠ t.file_id → w.manager.get_page id k = some (f, s) →
      Opened last t (w.hand id k (f, s)) ∧ Stored t.file_id last rs (w.hand id k (f, s)) := by
    intro id k f s hid hget
    obtain ⟨hs', hcount⟩ := hs.get_page hget fun heq => absurd heq hid
    refine ⟨h.of_pinned hcount hs.le_count fun g j _ hpins => ?_, hs'⟩
    rcases BufferManager.get_page_frame hget g with ⟨hid, -, hd, hp⟩ | ⟨-, hzero, -⟩
    · exact ⟨hid, hd, by simp only [World.hand]; omega⟩
    · omega
  cases op with
  | get_page id k =>
    obtain ⟨⟨f, s⟩, hgot, rfl⟩ := Option.map_eq_some_iff.mp hstep
    exact hget (by simpa [Op.about] using hop) hgot
  | get_last_page id =>
    obtain ⟨⟨f, s⟩, hgot, rfl⟩ := Option.map_eq_some_iff.mp hstep
    exact hget (by simpa [Op.about] using hop) hgot
  | append_page id =>
    obtain ⟨⟨f, s⟩, hgot, rfl⟩ := Option.map_eq_some_iff.mp hstep
    exact hget (by simpa [Op.about] using hop) hgot
  | modify f b =>
    obtain ⟨p, hp, rfl⟩ := World.step_modify hstep
    have hfile : p.file_id ≠ t.file_id := by simpa [Op.about, hp] using hop
    have hother : ∀ g q, (w.manager.buffer_pool g).page_id = some q → q.file_id = t.file_id →
        g ≠ f := by
      rintro g q hq hqfile rfl
      rw [hp] at hq
      exact hfile (Option.some.inj hq ▸ hqfile)
    refine ⟨h.of_pinned le_rfl hs.le_count fun g j hj _ => ?_, hs.coherent.modify hp b,
      fun j hj => ?_, hs.length_le, hs.le_length, hs.last_lt, hs.le_count, hs.count_le,
      fun g q hq hqfile hd => ?_⟩
    · simp [BufferManager.setPage_of_ne _ (hother g _ hj rfl)]
    · obtain ⟨c, hc, hholds⟩ := hs.blocks j hj
      have hne : (⟨t.file_id, UInt32.ofNat j⟩ : PageId) ≠ p := by
        rintro rfl
        exact hfile rfl
      exact ⟨c, (Function.update_of_ne hne ..).trans hc, hholds⟩
    · by_cases hg : g = f
      · subst hg
        have hqp : p = q := by simpa [hp] using hq
        exact absurd (hqp ▸ hqfile) hfile
      · simp only [BufferManager.setPage_of_ne _ hg] at hq hd
        exact hs.dirty_le g q hq hqfile hd
  | unpin f =>
    obtain ⟨hs', hfiles, hpool⟩ := hs.unpin hstep
    refine ⟨h.of_pinned (by rw [hfiles]) hs.le_count fun g j hj _ => ?_, hs'⟩
    have hg : g ≠ f := by
      rintro rfl
      simp [Op.about, hj] at hop
    obtain ⟨hid, -, hd, hp⟩ := hpool g
    rw [if_neg hg] at hp
    exact ⟨hid, hd, by omega⟩
  | flush =>
    cases hstep
    obtain ⟨hs', hcount, hpool, hwritten⟩ := hs.flush
    obtain ⟨j, hj, hcurrent⟩ := h.current_block
    refine ⟨⟨(hpool _).1.trans h.last_block, ⟨j, hj, (hpool _).1.trans hcurrent⟩,
      by rw [(hpool _).2.1]; exact h.last_pins, by rw [(hpool _).2.1]; exact h.current_pins,
      fun heq => by rw [(hpool _).2.1]; exact h.same_pins heq, fun heq => ?_⟩, hs'⟩
    have hle := hs.le_count
    dsimp only at heq
    rcases h.unwritten (by omega) with hzero | hd
    · exact .inl hzero
    · have := hwritten _ hd _ h.last_block rfl
      rw [toNat_ofNat_of_lt hs.last_lt] at this
      omega

end Opened

theorem Opened.create {id : Int} {last : Nat} {rs : List Record} {w w' : World n}
    {t : RandomAccessTable n} (hs : Stored id last rs w)
    (hzero : (w.manager.files id).count_pages = last → last = 0)
    (hcreate : RandomAccessTable.create w id = some (t, w')) :
    Opened last t w' ∧ Stored id last rs w' ∧ t.file_id = id := by
  obtain ⟨⟨f, w₁⟩, hfetch, hrest⟩ := Option.bind_eq_some_iff.mp hcreate
  obtain ⟨⟨f', w₂⟩, hfetch', heq⟩ := Option.map_eq_some_iff.mp hrest
  cases heq
  have hnumber : ∀ {v : World n}, Stored id last rs v →
      (w.manager.files id).count_pages ≤ (v.manager.files id).count_pages →
      v.manager.last_page_number id = last := by
    intro v hv hle
    have hcount := hv.count_le
    have hcount' := hs.le_count
    unfold BufferManager.last_page_number
    dsimp only
    split <;> omega
  rw [hnumber hs le_rfl] at hfetch
  obtain ⟨s, hget, hw₁⟩ := World.fetch_eq hfetch
  dsimp only at hget hw₁ hfetch'
  subst hw₁
  obtain ⟨hs₁, hcount₁⟩ := hs.get_page hget fun _ => by omega
  have hpages := (hs.coherent.get_page rfl hget).2
  rw [hnumber hs₁ hcount₁] at hfetch'
  obtain ⟨s', hget', hw₂⟩ := World.fetch_eq hfetch'
  dsimp only at hget' hw₂
  subst hw₂
  obtain ⟨hs₂, hcount₂⟩ := hs₁.get_page hget' fun _ => by omega
  -- the second call finds the page of the first one, and pins it twice
  have hpins₁ : 0 < (s.buffer_pool f).pins := by
    rcases BufferManager.get_page_frame hget f with ⟨-, -, -, hp⟩ | ⟨-, -, hone⟩
    · rw [hp, if_pos rfl]
      omega
    · omega
  have hpages' := (hs₁.coherent.get_page rfl hget').2
  have hid := ((hs₁.coherent.table _ f).mp hpages).2
  have hff : f' = f ∧ (s'.buffer_pool f).pins = (s.buffer_pool f).pins + 1 := by
    rcases BufferManager.get_page_spec rfl hget' with ⟨hf', rfl⟩ | ⟨hnone, -⟩
    · have heq : f' = f := Option.some.inj (hf'.symm.trans hpages)
      subst heq
      exact ⟨rfl, by simp [World.hand]⟩
    · exact absurd (hpages.symm.trans hnone) (by simp)
  obtain ⟨rfl, hpins₂⟩ := hff
  have hid' := ((hs₂.coherent.table _ f').mp hpages').2
  have hpos : 2 ≤ (s'.buffer_pool f').pins := by omega
  refine ⟨⟨hid', ⟨last, hs.last_lt, hid'⟩, by simp only [World.hand]; omega,
    by simp only [World.hand]; omega, fun _ => hpos, fun heq => .inl (hzero ?_)⟩, hs₂, rfl⟩
  have := hs.le_count
  simp only [World.hand] at heq hcount₂ hcount₁
  omega

theorem blockRecords_getElem? (rs : List Record) (pos : Nat) :
    (blockRecords rs (pos / max_records))[pos % max_records]? = rs[pos]? := by
  rw [blockRecords, List.getElem?_take_of_lt (Nat.mod_lt _ (by decide)), List.getElem?_drop,
    Nat.div_add_mod]

/-- Wherever the position lies, the block that is read holds the record of that position. -/
theorem Stored.finds {last : Nat} {tw : TableWorld n}
    (hs : Stored tw.table.file_id last tw.records tw.world) (h : Opened last tw.table tw.world)
    {pos : Nat} (hpos : pos / max_records < 2 ^ 32) : tw.Finds pos := by
  obtain ⟨w, t, rs⟩ := tw
  intro result t' w' hlookup
  obtain ⟨⟨t₁, w₁⟩, hseek, heq⟩ := Option.map_eq_some_iff.mp hlookup
  obtain ⟨hresult, hrest⟩ := Prod.mk.inj heq
  dsimp only at hseek hresult hs h ⊢
  have hblock : TableBlock.Holds (w₁.bytes t₁.current_block)
      (blockRecords rs (pos / max_records)) := by
    obtain ⟨j, hj, hcurrent⟩ := h.current_block
    unfold RandomAccessTable.seek at hseek
    rw [World.page_number_of_page_id hcurrent hj] at hseek
    split at hseek
    · obtain ⟨⟨f, w₂⟩, hreplace, heq'⟩ := Option.map_eq_some_iff.mp hseek
      cases heq'
      obtain ⟨⟨f', w₃⟩, hfetch, hrest'⟩ := Option.bind_eq_some_iff.mp hreplace
      obtain ⟨w₄, hunpin, heq'⟩ := Option.map_eq_some_iff.mp hrest'
      cases heq'
      obtain ⟨s, hget, hw₃⟩ := World.fetch_eq hfetch
      dsimp only at hget hw₃ hunpin
      subst hw₃
      obtain ⟨hcoherent, hpages⟩ := hs.coherent.get_page rfl hget
      have hcoherent' := World.coherent_step
        (w := w.hand t.file_id (pos / max_records) (f', s)) hcoherent hunpin
      simp only [World.step] at hunpin
      split at hunpin
      · simp at hunpin
      · cases hunpin
        obtain ⟨b, hb, hholds⟩ := hs.blocks _ hpos
        have hbytes := hcoherent'.cached _ f' b hpages hb
        rw [World.bytes, hbytes]
        exact hholds
    · next heq' =>
      cases hseek
      rw [not_not] at heq'
      rw [← heq']
      exact hs.bytes_frame hj hcurrent
  rw [← hresult, ← blockRecords_getElem?]
  split
  · next hlt =>
    rw [hblock.count] at hlt
    rw [hblock.get _ hlt, List.getElem?_eq_getElem]
  · next hge =>
    rw [hblock.count] at hge
    exact (List.getElem?_eq_none (by omega)).symm

section returns

variable {id : Int} {last k : Nat} {rs : List Record} {w : World n} {t : RandomAccessTable n}
  {f : Fin n}

theorem World.replaceBlock_isSome (hfree : ∃ f, (w.manager.buffer_pool f).pins = 0)
    (hpins : 0 < (w.manager.buffer_pool f).pins) : (w.replaceBlock f id k).isSome := by
  have hsome : (w.manager.get_page id k).isSome := BufferManager.get_page_isSome fun _ => hfree
  obtain ⟨⟨g, s⟩, hget⟩ := Option.isSome_iff_exists.mp hsome
  have hpins' : (s.buffer_pool f).pins ≠ 0 := by
    rcases BufferManager.get_page_frame hget f with ⟨-, -, -, hp⟩ | ⟨-, -, hone⟩ <;> omega
  simp [World.replaceBlock, World.fetch, hget, World.hand, World.step, hpins']

theorem World.step_modify_isSome {b : Bytes} {p : PageId}
    (hp : (w.manager.buffer_pool f).page_id = some p)
    (hpins : 0 < (w.manager.buffer_pool f).pins) : (w.step (.modify f b)).isSome := by
  simp [World.step, hp, Nat.pos_iff_ne_zero.mp hpins]

theorem Opened.lookup_isSome (h : Opened last t w)
    (hfree : ∃ f, (w.manager.buffer_pool f).pins = 0) (pos : Nat) : (t.lookup w pos).isSome := by
  unfold RandomAccessTable.lookup RandomAccessTable.seek
  dsimp only
  split
  · simpa using World.replaceBlock_isSome hfree h.current_pins
  · rfl

theorem Opened.append_record_isSome (h : Opened last t w) (hs : Stored t.file_id last rs w)
    (hfree : ∃ f, (w.manager.buffer_pool f).pins = 0)
    (hallowed : record_count (w.bytes t.last_block) < max_records ∨
      (w.manager.files t.file_id).count_pages = last + 1 ∧ last + 1 < 2 ^ 32) (r : Record) :
    (t.append_record 2 w r).isSome := by
  rw [RandomAccessTable.append_record]
  split
  · simpa using World.step_modify_isSome h.last_block h.last_pins
  · next hfull =>
    obtain ⟨hcount, hsize⟩ := hallowed.resolve_left hfull
    rw [hcount]
    have hsome : (w.replaceBlock t.last_block t.file_id (last + 1)).isSome :=
      World.replaceBlock_isSome hfree h.last_pins
    obtain ⟨⟨g, w₁⟩, hreplace⟩ := Option.isSome_iff_exists.mp hsome
    have hold : (w.manager.buffer_pool t.last_block).page_id ≠
        some ⟨t.file_id, UInt32.ofNat (last + 1)⟩ := by
      rw [h.last_block]
      intro heq
      have hcut : (UInt32.ofNat last).toNat = (UInt32.ofNat (last + 1)).toNat := by
        rw [(PageId.mk.inj (Option.some.inj heq)).2]
      rw [toNat_ofNat_of_lt hs.last_lt, toNat_ofNat_of_lt hsize] at hcut
      omega
    obtain ⟨hs', -, hg, -, -, -, hgpins, -⟩ :=
      hs.replaceBlock hreplace le_rfl hold h.current_pins h.last_pins
        fun heq => by
          rw [heq]
          exact h.same_pins heq.symm
    have hempty : record_count (w₁.bytes g) < max_records := by
      have hblock := hs'.bytes_frame hsize hg
      rw [hs.blockRecords_of_lt (by omega)] at hblock
      rw [hblock.count]
      exact show 0 < 170 by omega
    rw [hreplace, Option.bind_some, RandomAccessTable.append_record, if_pos hempty]
    simpa using World.step_modify_isSome hg hgpins

end returns

/-- The file of the table when the program starts: a new one, or the one an import left. -/
def TableFile (file : File) (rs : List Record) : Prop :=
  (file.size = 0 ∧ rs = []) ∨ ∃ uninitialized edges,
    file = EdgeTableMemImport.importFile uninitialized edges ∧
      rs = edges.map fun edge i => edge i.castSucc

theorem TableFile.holdsRecords {file : File} {rs : List Record} (h : TableFile file rs) :
    file.HoldsRecords rs := by
  rcases h with ⟨hsize, rfl⟩ | ⟨uninitialized, edges, rfl, rfl⟩
  · exact File.holdsRecords_of_empty hsize
  · exact EdgeTableMemImport.holdsRecords_importFile uninitialized edges

theorem Stored.start (hn : 0 < n) (files : Int → File) {id : Int} {rs : List Record}
    (h : (files id).HoldsRecords rs) (hpages : (files id).count_pages ≤ 2 ^ 32) :
    Stored id ((files id).count_pages - 1) rs (World.start hn files (World.whole files)) := by
  have hcoherent := BufferManager.Coherent.init ⟨0, hn⟩ files
  refine ⟨?_, fun j hj => ⟨_, ?_, h.blocks j⟩, ?_, h.le_length, by omega, ?_, ?_,
    fun f p hp => ?_⟩
  · simpa only [World.start, World.whole, Bool.not_eq_true', decide_eq_false_iff_not, ite_not]
      using hcoherent
  · have hwhole : ¬(files id).Torn (UInt32.ofNat j).toNat := fun ht => ht.2 h.whole
    simp only [World.start, World.whole, hwhole, decide_false, Bool.not_false, if_true]
    rw [toNat_ofNat_of_lt hj]
  · have := h.length_le
    rcases Nat.eq_zero_or_pos (files id).count_pages with hzero | hpos
    · simpa [hzero] using this
    · rwa [max_eq_right (by omega), ← Nat.sub_add_cancel hpos] at this
  · simp only [World.start, BufferManager.init]
    omega
  · simp only [World.start, BufferManager.init]
    omega
  · simp [World.start, BufferManager.init, Page.unassigned] at hp

namespace TableWorld

/-- A lookup is in a block of the table or in the one after its last block, and an append that
finds the last block full finds it on disk; block numbers have 32 bits. -/
def Allowed (tw : TableWorld n) : TableOp n → Prop
  | .lookup pos => pos / max_records ≤ tw.world.page_number tw.table.last_block + 1 ∧
      pos / max_records < 2 ^ 32
  | .append _ => record_count (tw.world.bytes tw.table.last_block) < max_records ∨
      (tw.world.manager.files tw.table.file_id).count_pages =
        tw.world.page_number tw.table.last_block + 1 ∧
      tw.world.page_number tw.table.last_block + 1 < 2 ^ 32
  | _ => True

/-- What the table promises: its lookups, and that its calls return while a frame is free. -/
structure Correct (tw : TableWorld n) : Prop where
  finds : ∀ pos, pos / max_records < 2 ^ 32 → tw.Finds pos
  lookup_returns : (∃ f, (tw.world.manager.buffer_pool f).pins = 0) →
    ∀ pos, (tw.table.lookup tw.world pos).isSome
  append_returns : (∃ f, (tw.world.manager.buffer_pool f).pins = 0) →
    ∀ r, tw.Allowed (.append r) → ∃ fuel, (tw.table.append_record fuel tw.world r).isSome

def Sound (tw : TableWorld n) : Prop :=
  ∃ last, Opened last tw.table tw.world ∧ Stored tw.table.file_id last tw.records tw.world

variable {tw tw' : TableWorld n} {op : TableOp n}

theorem Sound.correct (h : tw.Sound) : tw.Correct := by
  obtain ⟨last, hopen, hs⟩ := h
  refine ⟨fun pos hpos => hs.finds hopen hpos, hopen.lookup_isSome, fun hfree r hallowed => ?_⟩
  have hnumber := hopen.page_number_last hs
  simp only [Allowed, hnumber] at hallowed
  exact ⟨2, hopen.append_record_isSome hs hfree hallowed r⟩

theorem Sound.step (h : tw.Sound) (hstep : Step tw op tw') (hallowed : tw.Allowed op) :
    tw'.Sound := by
  obtain ⟨last, hopen, hs⟩ := h
  have hnumber := hopen.page_number_last hs
  cases hstep with
  | lookup hlookup =>
    obtain ⟨⟨t₁, w₁⟩, hseek, heq⟩ := Option.map_eq_some_iff.mp hlookup
    cases heq
    simp only [Allowed, hnumber] at hallowed
    obtain ⟨hopen', hs', hfile, -⟩ := hopen.seek hs hseek hallowed.1 hallowed.2
    exact ⟨last, hopen', hfile ▸ hs'⟩
  | append fuel happend =>
    simp only [Allowed, hnumber] at hallowed
    obtain ⟨last', hopen', hs', hfile⟩ := hopen.append_record_step hs hallowed happend
    exact ⟨last', hopen', hfile ▸ hs'⟩
  | flush hflush =>
    exact ⟨last, hopen.other hs rfl hflush⟩
  | reopen hn hcreate =>
    -- the flush at the end of the program wrote the last block, unless it never had a record
    obtain ⟨hopen', -⟩ := @Opened.other _ _ _ _ _ _ hopen hs .flush rfl rfl
    obtain ⟨hopen'', hs'', hfile⟩ := Opened.create (hs.restart hn) (fun heq => by
      rcases hopen'.unwritten heq with h0 | hd
      · exact h0
      · have := ((hs.flush).2.2.1 _).2.2 ▸ hd
        simp at this) hcreate
    exact ⟨last, hopen'', hfile ▸ hs''⟩
  | other hop hother => exact ⟨last, hopen.other hs hop hother⟩

/-- In every run of allowed calls, with the table reopened and the buffer shared with other
files, lookups find the records in the order in which they were appended. -/
theorem correct_of_run (hn : 0 < n) (files : Int → File) (id : Int) (rs : List Record)
    (hfile : TableFile (files id) rs) (hpages : (files id).count_pages ≤ 2 ^ 32)
    (t : RandomAccessTable n) (w : World n)
    (hcreate : RandomAccessTable.create (World.start hn files (World.whole files)) id =
      some (t, w))
    (ops : List (TableOp n)) (tw : TableWorld n)
    (hrun : Run (fun a op b => Step a op b ∧ a.Allowed op) ⟨w, t, rs⟩ ops tw) : tw.Correct := by
  have hstored := Stored.start hn files hfile.holdsRecords hpages
  have hstart : Sound ⟨w, t, rs⟩ := by
    obtain ⟨hopen, hs, hid⟩ := Opened.create hstored (fun heq => by
      simp only [World.start, BufferManager.init] at heq
      omega) hcreate
    exact ⟨_, hopen, hid ▸ hs⟩
  suffices hsound : tw.Sound from hsound.correct
  generalize (⟨w, t, rs⟩ : TableWorld n) = start at hstart hrun
  induction hrun with
  | nil => exact hstart
  | cons hstep _ ih => exact ih (hstart.step hstep.1 hstep.2)

/-- A manager of `n` frames over files without bytes. -/
def emptyDatabase (hn : 0 < n) : World n :=
  World.start hn (fun _ => noBytes) (World.whole fun _ => noBytes)

/-- The table is read, flushed and opened again between the records. -/
theorem correct_of_three_appends : ∃ (t : RandomAccessTable 2) (w : World 2) (tw : TableWorld 2),
    RandomAccessTable.create (emptyDatabase Nat.two_pos) 3 = some (t, w) ∧
      tw.records = [fun _ => 7, fun _ => 8, fun _ => 9] ∧ tw.Correct :=
  ⟨_, _, _, rfl, rfl, correct_of_run Nat.two_pos (fun _ => noBytes) 3 [] (.inl ⟨rfl, rfl⟩)
    (by decide) _ _ rfl [.append fun _ => 7, .lookup 0, .append fun _ => 8, .flush, .lookup 1,
      .reopen, .lookup 0, .append fun _ => 9] _
    (.cons ⟨.append 1 rfl, .inl (by decide)⟩ (.cons ⟨.lookup rfl, by decide, by decide⟩
      (.cons ⟨.append 1 rfl, .inl (by decide)⟩ (.cons ⟨.flush rfl, trivial⟩
        (.cons ⟨.lookup rfl, by decide, by decide⟩ (.cons ⟨.reopen (by decide) rfl, trivial⟩
          (.cons ⟨.lookup rfl, by decide, by decide⟩
            (.cons ⟨.append 1 rfl, .inl (by decide)⟩ (.nil _)))))))))⟩

/-- A lookup past the end moves the records appended after the next start. -/
theorem not_finds :
    ¬∀ (n : Nat) (hn : 0 < n) (files : Int → File) (id : Int) (rs : List Record)
      (t : RandomAccessTable n) (w : World n) (ops : List (TableOp n)) (tw : TableWorld n),
      TableFile (files id) rs →
      RandomAccessTable.create (World.start hn files (World.whole files)) id = some (t, w) →
      Run Step ⟨w, t, rs⟩ ops tw → ∀ pos, tw.Finds pos := by
  intro h
  have hfinds := h 2 (by decide) (fun _ => noBytes) 3 [] _ _
    [.append fun _ => 7, .lookup 850, .reopen, .append fun _ => 8] _ (.inl ⟨rfl, rfl⟩) rfl
    (.cons (.append 1 rfl) (.cons (.lookup rfl) (.cons (.reopen (by decide) rfl)
      (.cons (.append 1 rfl) (.nil _))))) 1
  have hnone := hfinds none _ _ rfl
  exact absurd hnone (by simp)

end TableWorld

end MillenniumDB.Storage
