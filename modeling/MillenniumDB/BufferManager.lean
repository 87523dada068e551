import Mathlib.Algebra.BigOperators.Fin
import Mathlib.Algebra.Order.BigOperators.Group.Finset
import Mathlib.Logic.Function.Basic
import MillenniumDB.Lib.Runs

/-!
# The buffer manager

Pages of 4096 bytes of the files of a database are kept in a pool of frames.  A page that is
asked for and not in the pool takes the frame that the clock finds, whose page is written
back when it is dirty.  `World` adds to the manager what its caller knows: the bytes written
last to each page and the page ids handed out.
-/

namespace MillenniumDB.Storage

/-- `Page::MDB_PAGE_SIZE`. -/
abbrev MDB_PAGE_SIZE : Nat := 4096

abbrev Bytes := Fin MDB_PAGE_SIZE → UInt8

@[ext] structure File where
  size : Nat
  byte : Nat → UInt8
  byte_past : ∀ i, size ≤ i → byte i = 0

namespace File

def ftruncate (file : File) (length : Nat) : File where
  size := length
  byte i := if i < length then file.byte i else 0
  byte_past _ hi := if_neg (Nat.not_lt.mpr hi)

def write (file : File) (offset : Nat) (bytes : Bytes) : File where
  size := max file.size (offset + MDB_PAGE_SIZE)
  byte i :=
    if h : offset ≤ i ∧ i < offset + MDB_PAGE_SIZE then bytes ⟨i - offset, by omega⟩
    else file.byte i
  byte_past i hi := by
    rw [dif_neg (by omega)]
    exact file.byte_past i (by omega)

def read (file : File) (offset : Nat) : Bytes := fun j => file.byte (offset + j)

/-- `FileManager::count_pages`. -/
def count_pages (file : File) : Nat := file.size / MDB_PAGE_SIZE

/-- `FileManager::flush`, for the page `page_number`. -/
def flush (file : File) (page_number : Nat) (bytes : Bytes) : File :=
  file.write (page_number * MDB_PAGE_SIZE) bytes

/-- `FileManager::read_page`: the file it leaves and the bytes it reads. -/
def read_page (file : File) (page_number : Nat) : File × Bytes :=
  if file.size / MDB_PAGE_SIZE ≤ page_number then
    -- new file page, write zeros
    (file.ftruncate (MDB_PAGE_SIZE * page_number), fun _ => 0)
  else (file, file.read (page_number * MDB_PAGE_SIZE))

/-- The page `m` is the last one and the file ends inside it. -/
def Torn (file : File) (m : Nat) : Prop := m = file.count_pages ∧ file.size % MDB_PAGE_SIZE ≠ 0

instance (file : File) (m : Nat) : Decidable (file.Torn m) := by unfold Torn; infer_instance

variable {file : File} {k m : Nat} {bytes : Bytes}

theorem read_of_count_pages_le (h : file.count_pages ≤ m) (hm : ¬file.Torn m) :
    file.read (m * MDB_PAGE_SIZE) = fun _ => 0 := by
  funext j
  refine file.byte_past _ ?_
  have hpages := Nat.div_add_mod file.size MDB_PAGE_SIZE
  unfold Torn at hm
  unfold count_pages at h hm
  dsimp only [MDB_PAGE_SIZE] at *
  by_cases hlast : m = file.size / 4096
  · have hmod : file.size % 4096 = 0 := by
      by_contra hmod
      exact hm ⟨hlast, hmod⟩
    omega
  · have hmod := Nat.mod_lt file.size (show 0 < 4096 by omega)
    omega

/-- The bytes `read_page` gives are those of the file, with zeros past its end, unless the file
ends inside the page. -/
theorem read_page_snd (hm : ¬file.Torn m) :
    (file.read_page m).2 = file.read (m * MDB_PAGE_SIZE) := by
  unfold read_page
  split
  · next h => exact (read_of_count_pages_le h hm).symm
  · rfl

theorem not_torn_read_page : ¬(file.read_page k).1.Torn k := by
  unfold read_page
  split
  · intro h
    exact h.2 (by simp [ftruncate])
  · next h =>
    intro ht
    have heq : k = file.size / MDB_PAGE_SIZE := ht.1
    omega

theorem torn_of_read_page (h : (file.read_page k).1.Torn m) : file.Torn m := by
  unfold read_page at h
  split at h
  · exact absurd (by simp [ftruncate]) h.2
  · exact h

theorem read_read_page (hm : ¬file.Torn m) :
    (file.read_page k).1.read (m * MDB_PAGE_SIZE) = file.read (m * MDB_PAGE_SIZE) := by
  unfold read_page
  split
  · next hk =>
    funext j
    have hj := j.isLt
    simp only [read, ftruncate]
    by_cases hpast : file.count_pages ≤ m
    · have hzero : file.byte (m * MDB_PAGE_SIZE + j) = 0 :=
        congrFun (read_of_count_pages_le hpast hm) j
      simp [hzero]
    · -- a whole page of the file lies before the new end
      unfold count_pages at hpast
      dsimp only [MDB_PAGE_SIZE] at *
      rw [if_pos (by omega)]
  · rfl

theorem torn_of_flush (h : (file.flush k bytes).Torn m) : file.Torn m := by
  obtain ⟨hm, hmod⟩ := h
  simp only [flush, write, count_pages, MDB_PAGE_SIZE] at hm hmod
  by_cases hsize : k * 4096 + 4096 ≤ file.size
  · rw [max_eq_left hsize] at hm hmod
    exact ⟨hm, hmod⟩
  · rw [max_eq_right (by omega)] at hmod
    omega

theorem read_flush_self : (file.flush k bytes).read (k * MDB_PAGE_SIZE) = bytes := by
  funext j
  have hj := j.isLt
  simp only [flush, write, read]
  rw [dif_pos ⟨by omega, by omega⟩]
  congr 1
  apply Fin.ext
  simp

theorem read_flush_of_ne (hk : m ≠ k) :
    (file.flush k bytes).read (m * MDB_PAGE_SIZE) = file.read (m * MDB_PAGE_SIZE) := by
  funext j
  have hj := j.isLt
  simp only [flush, write, read]
  rw [dif_neg]
  dsimp only [MDB_PAGE_SIZE] at *
  omega

end File

structure PageId where
  file_id : Int
  page_number : UInt32
deriving DecidableEq

/-- `Page`, a frame of the pool; a page id of `none` is that of `FileId::UNASSIGNED`. -/
structure Page where
  page_id : Option PageId
  bytes : Bytes
  pins : Nat
  usage : Nat
  dirty : Bool

/-- The default constructor of `Page`. -/
def Page.unassigned : Page := ⟨none, fun _ => 0, 0, 0, false⟩

/-- The manager and the files; `written` is the record of the pages `FileManager::flush` wrote
to them, the last one first, which the code does not keep. -/
structure BufferManager (n : Nat) where
  clock_pos : Fin n
  buffer_pool : Fin n → Page
  pages : PageId → Option (Fin n)
  files : Int → File
  written : List PageId

namespace BufferManager

variable {n : Nat} (s : BufferManager n)

def init (clock_pos : Fin n) (files : Int → File) : BufferManager n :=
  ⟨clock_pos, fun _ => Page.unassigned, fun _ => none, files, []⟩

def setPage (f : Fin n) (page : Page) : BufferManager n :=
  { s with buffer_pool := Function.update s.buffer_pool f page }

@[simp] theorem setPage_pages (f : Fin n) (page : Page) : (s.setPage f page).pages = s.pages := rfl

@[simp] theorem setPage_files (f : Fin n) (page : Page) : (s.setPage f page).files = s.files := rfl

@[simp] theorem setPage_self (f : Fin n) (page : Page) :
    (s.setPage f page).buffer_pool f = page := by simp [setPage]

theorem setPage_of_ne {f g : Fin n} (h : g ≠ f) (page : Page) :
    (s.setPage f page).buffer_pool g = s.buffer_pool g := by simp [setPage, h]

/-- One round of the loop of `get_buffer_available` that does not break. -/
def tick : BufferManager n :=
  let page := s.buffer_pool s.clock_pos
  let pos := s.clock_pos.val + 1
  { s with
    buffer_pool :=
      if page.pins = 0 then
        Function.update s.buffer_pool s.clock_pos { page with usage := page.usage - 1 }
      else s.buffer_pool
    clock_pos := if h : pos < n then ⟨pos, h⟩ else ⟨0, s.clock_pos.pos⟩ }

/-- The loop of `get_buffer_available`, for at most `fuel` rounds. -/
def clockSearch : Nat → BufferManager n → Option (BufferManager n)
  | 0, _ => none
  | fuel + 1, s =>
    let page := s.buffer_pool s.clock_pos
    if page.pins = 0 ∧ page.usage = 0 then some s else clockSearch fuel s.tick

/-- `get_buffer_available`: the clock stops at the frame it returns.  The rounds are enough
whenever the loop ends. -/
def get_buffer_available : Option (BufferManager n) :=
  clockSearch ((∑ f, (s.buffer_pool f).usage + 1) * n) s

/-- `file_manager.flush` on a frame. -/
def flushPage (f : Fin n) : BufferManager n :=
  let page := s.buffer_pool f
  match page.page_id with
  | some p =>
    { s with
      files := Function.update s.files p.file_id
        ((s.files p.file_id).flush p.page_number.toNat page.bytes)
      buffer_pool := Function.update s.buffer_pool f { page with dirty := false }
      written := p :: s.written }
  | none => s

/-- The frame's old page leaves it: out of the page table, and to its file when dirty. -/
def evict (f : Fin n) : BufferManager n :=
  let page := s.buffer_pool f
  let s := match page.page_id with
    | some p => { s with pages := Function.update s.pages p none }
    | none => s
  if page.dirty then s.flushPage f else s

/-- The page `p` is read into the frame. -/
def load (f : Fin n) (p : PageId) : BufferManager n :=
  let (file, bytes) := (s.files p.file_id).read_page p.page_number.toNat
  { s with
    -- `reassign`, whose assertions say that `dirty` is false
    buffer_pool := Function.update s.buffer_pool f
      { s.buffer_pool f with page_id := some p, bytes, pins := 1, usage := 1 }
    files := Function.update s.files p.file_id file
    pages := Function.update s.pages p (some f) }

/-- `get_page`: the frame it returns and the manager it leaves; `none` when the clock runs
for ever.  The page number is cut to the 32 bits of a page id. -/
def get_page (file_id : Int) (page_number : Nat) : Option (Fin n × BufferManager n) :=
  let p : PageId := ⟨file_id, UInt32.ofNat page_number⟩
  match s.pages p with
  | none =>
    s.get_buffer_available.map fun s =>
      (s.clock_pos, (s.evict s.clock_pos).load s.clock_pos p)
  | some f =>
    some (f, s.setPage f { s.buffer_pool f with pins := (s.buffer_pool f).pins + 1 })

def flush : BufferManager n :=
  (List.finRange n).foldl (fun s f => if (s.buffer_pool f).dirty then s.flushPage f else s) s

/-- The number that `get_last_page` asks `get_page` for. -/
def last_page_number (file_id : Int) : Nat :=
  let page_count := (s.files file_id).count_pages
  if page_count = 0 then 0 else page_count - 1

def get_last_page (file_id : Int) : Option (Fin n × BufferManager n) :=
  s.get_page file_id (s.last_page_number file_id)

def append_page (file_id : Int) : Option (Fin n × BufferManager n) :=
  s.get_page file_id (s.files file_id).count_pages

variable {s} {s' : BufferManager n} {f g : Fin n} {p q : PageId}

@[simp] theorem tick_pages : s.tick.pages = s.pages := rfl

@[simp] theorem tick_files : s.tick.files = s.files := rfl

theorem tick_buffer_pool (f : Fin n) : ∃ usage, s.tick.buffer_pool f =
    { s.buffer_pool f with usage } := by
  simp only [tick]
  split
  · by_cases hf : f = s.clock_pos
    · exact ⟨(s.buffer_pool s.clock_pos).usage - 1, by simp [hf]⟩
    · exact ⟨_, by simp [hf]; rfl⟩
  · exact ⟨_, rfl⟩

/-- `s'` differs from `s` in its clock and the usage of its frames only. -/
structure Ticked (s s' : BufferManager n) : Prop where
  pages : s'.pages = s.pages
  files : s'.files = s.files
  written : s'.written = s.written
  buffer_pool : ∀ f, ∃ usage, s'.buffer_pool f = { s.buffer_pool f with usage }

theorem Ticked.refl : Ticked s s := ⟨rfl, rfl, rfl, fun _ => ⟨_, rfl⟩⟩

theorem Ticked.trans {s'' : BufferManager n} (h : Ticked s s') (h' : Ticked s' s'') :
    Ticked s s'' := by
  refine ⟨h'.pages.trans h.pages, h'.files.trans h.files, h'.written.trans h.written,
    fun f => ?_⟩
  obtain ⟨usage, hf⟩ := h.buffer_pool f
  obtain ⟨usage', hf'⟩ := h'.buffer_pool f
  exact ⟨usage', by rw [hf', hf]⟩

theorem ticked_tick : Ticked s s.tick := ⟨rfl, rfl, rfl, tick_buffer_pool⟩

theorem clockSearch_spec {fuel : Nat} (h : clockSearch fuel s = some s') :
    Ticked s s' ∧ (s'.buffer_pool s'.clock_pos).pins = 0 := by
  induction fuel generalizing s with
  | zero => simp [clockSearch] at h
  | succ fuel ih =>
    simp only [clockSearch] at h
    split at h
    · next hstop =>
      cases h
      exact ⟨.refl, hstop.1⟩
    · obtain ⟨hticked, hpins⟩ := ih h
      exact ⟨ticked_tick.trans hticked, hpins⟩

/-- The rounds before the clock reaches the frame `f` with no usage left. -/
def rounds (s : BufferManager n) (f : Fin n) : Nat :=
  (s.buffer_pool f).usage * n + (f.val + n - s.clock_pos.val) % n

theorem rounds_tick (hpins : (s.buffer_pool f).pins = 0)
    (hgo : ¬((s.buffer_pool s.clock_pos).pins = 0 ∧ (s.buffer_pool s.clock_pos).usage = 0)) :
    s.tick.rounds f + 1 = s.rounds f := by
  have hf := f.isLt
  have hpos := s.clock_pos.isLt
  by_cases heq : f = s.clock_pos
  · -- the round lowers the usage, and the clock has the whole turn before it
    subst heq
    have husage : (s.buffer_pool s.clock_pos).usage ≠ 0 := fun h => hgo ⟨hpins, h⟩
    obtain ⟨usage, hu⟩ := Nat.exists_eq_succ_of_ne_zero husage
    have hself : (s.clock_pos.val + n - s.clock_pos.val) % n = 0 := by simp
    have hnext : (s.clock_pos.val + n - s.tick.clock_pos.val) % n = n - 1 := by
      simp only [tick]
      split
      · rw [Nat.mod_eq_of_lt (by simp; omega)]
        simp
        omega
      · have : s.clock_pos.val + n - 0 = (n - 1) + n := by omega
        simp only [this]
        rw [Nat.add_mod_right, Nat.mod_eq_of_lt (by omega)]
    have hlow : (s.tick.buffer_pool s.clock_pos).usage = usage := by
      simp [tick, hpins, hu]
    rw [rounds, rounds, hself, hnext, hlow, hu, Nat.succ_mul]
    omega
  · have hne : f.val ≠ s.clock_pos.val := fun h => heq (Fin.ext h)
    have hsame : (s.tick.buffer_pool f).usage = (s.buffer_pool f).usage := by
      simp only [tick]
      split <;> simp [heq]
    have hdist : (f.val + n - s.tick.clock_pos.val) % n + 1 =
        (f.val + n - s.clock_pos.val) % n := by
      by_cases hlt : s.clock_pos.val < f.val
      · have hmod : (f.val + n - s.clock_pos.val) % n = f.val - s.clock_pos.val := by
          have : f.val + n - s.clock_pos.val = (f.val - s.clock_pos.val) + n := by omega
          rw [this, Nat.add_mod_right, Nat.mod_eq_of_lt (by omega)]
        simp only [tick]
        rw [dif_pos (show s.clock_pos.val + 1 < n by omega), hmod]
        have : f.val + n - (s.clock_pos.val + 1) = (f.val - s.clock_pos.val - 1) + n := by omega
        simp only [this]
        rw [Nat.add_mod_right, Nat.mod_eq_of_lt (by omega)]
        omega
      · rw [Nat.mod_eq_of_lt (show f.val + n - s.clock_pos.val < n by omega)]
        simp only [tick]
        split
        · rw [Nat.mod_eq_of_lt (by simp; omega)]
          simp
          omega
        · simp
          rw [Nat.mod_eq_of_lt hf]
          omega
    rw [rounds, rounds, hsame, ← hdist]
    omega

theorem clockSearch_isSome {fuel : Nat} (hpins : (s.buffer_pool f).pins = 0)
    (hfuel : s.rounds f < fuel) : (clockSearch fuel s).isSome := by
  induction fuel generalizing s with
  | zero => omega
  | succ fuel ih =>
    simp only [clockSearch]
    split
    · rfl
    · next hgo =>
      have hround := rounds_tick hpins hgo
      obtain ⟨usage, hf⟩ := tick_buffer_pool (s := s) f
      exact ih (by rw [hf]; exact hpins) (by omega)

theorem get_buffer_available_isSome (h : ∃ f, (s.buffer_pool f).pins = 0) :
    s.get_buffer_available.isSome := by
  obtain ⟨f, hpins⟩ := h
  refine clockSearch_isSome hpins ?_
  have hn : 0 < n := f.pos
  have hdist := Nat.mod_lt (f.val + n - s.clock_pos.val) hn
  have husage : (s.buffer_pool f).usage ≤ ∑ f, (s.buffer_pool f).usage :=
    Finset.single_le_sum (f := fun f => (s.buffer_pool f).usage) (fun _ _ => Nat.zero_le _)
      (Finset.mem_univ f)
  have hmul := Nat.mul_le_mul_right n husage
  rw [rounds, Nat.add_mul]
  omega

/-- What the pool holds for its caller, who last wrote the bytes `content p` to the page `p`;
the frame `out` is being reassigned. -/
structure Coherent (s : BufferManager n) (content : PageId → Option Bytes)
    (out : Option (Fin n)) : Prop where
  table : ∀ p f, s.pages p = some f ↔ out ≠ some f ∧ (s.buffer_pool f).page_id = some p
  dirty : ∀ f, (s.buffer_pool f).dirty → (s.buffer_pool f).page_id ≠ none
  torn : ∀ p, (s.files p.file_id).Torn p.page_number.toNat → content p = none ∧ s.pages p = none
  cached : ∀ p f b, s.pages p = some f → content p = some b → (s.buffer_pool f).bytes = b
  stored : ∀ p b, content p = some b →
    (∀ f, s.pages p = some f → (s.buffer_pool f).dirty = false) →
    (s.files p.file_id).read (p.page_number.toNat * MDB_PAGE_SIZE) = b

variable {content : PageId → Option Bytes} {out : Option (Fin n)}

theorem Coherent.of_same (h : s.Coherent content out) (hpages : s'.pages = s.pages)
    (hfiles : s'.files = s.files)
    (hpool : ∀ f, (s'.buffer_pool f).page_id = (s.buffer_pool f).page_id ∧
      (s'.buffer_pool f).bytes = (s.buffer_pool f).bytes ∧
      (s'.buffer_pool f).dirty = (s.buffer_pool f).dirty) : s'.Coherent content out where
  table p f := by rw [hpages, h.table, (hpool f).1]
  dirty f := by rw [(hpool f).1, (hpool f).2.2]; exact h.dirty f
  torn p := by rw [hfiles, hpages]; exact h.torn p
  cached p f b := by rw [hpages, (hpool f).2.1]; exact h.cached p f b
  stored p b hb hclean := by
    rw [hfiles]
    refine h.stored p b hb fun f hf => ?_
    rw [← (hpool f).2.2]
    exact hclean f (hpages ▸ hf)

theorem Coherent.of_ticked (h : s.Coherent content out) (ht : Ticked s s') :
    s'.Coherent content out := by
  refine h.of_same ht.pages ht.files fun f => ?_
  obtain ⟨usage, hf⟩ := ht.buffer_pool f
  simp [hf]

theorem Coherent.flushPage (h : s.Coherent content none) (f : Fin n) :
    (s.flushPage f).Coherent content none := by
  unfold BufferManager.flushPage
  cases hp : (s.buffer_pool f).page_id with
  | none => simpa [hp] using h
  | some p =>
    simp only [hp]
    have hpages : s.pages p = some f := (h.table p f).mpr ⟨by simp, hp⟩
    have hfile : ∀ q : PageId, q.file_id = p.file_id → q ≠ p →
        q.page_number.toNat ≠ p.page_number.toNat := by
      intro q hfile hne hnum
      apply hne
      cases q
      cases p
      simp only [PageId.mk.injEq] at *
      exact ⟨hfile, UInt32.toNat_inj.mp hnum⟩
    refine ⟨fun q g => ?_, fun g => ?_, fun q ht => ?_, fun q g b hq hb => ?_,
      fun q b hb hclean => ?_⟩
    · by_cases hg : g = f
      · subst hg
        simp [h.table, hp]
      · simp [h.table, hg]
    · by_cases hg : g = f
      · simp [hg]
      · simpa [hg] using h.dirty g
    · apply h.torn q
      by_cases hq : q.file_id = p.file_id
      · simp only [hq, Function.update_self] at ht ⊢
        exact File.torn_of_flush ht
      · simpa [hq] using ht
    · have := h.cached q g b hq hb
      by_cases hg : g = f
      · subst hg
        simpa using this
      · simpa [hg] using this
    · by_cases hqp : q = p
      · subst hqp
        simp only [Function.update_self]
        rw [File.read_flush_self]
        exact h.cached q f b hpages hb
      · have hold := h.stored q b hb fun g hg => by
          have hgf : g ≠ f := by
            rintro rfl
            have := ((h.table q g).mp hg).2
            rw [hp] at this
            exact hqp (Option.some.inj this).symm
          simpa [hgf] using hclean g hg
        by_cases hq : q.file_id = p.file_id
        · simp only [hq, Function.update_self]
          rw [File.read_flush_of_ne (hfile q hq hqp), ← hq]
          exact hold
        · simpa [hq] using hold

theorem flushPage_of_some (hp : (s.buffer_pool f).page_id = some p) : s.flushPage f =
    { s with
      files := Function.update s.files p.file_id
        ((s.files p.file_id).flush p.page_number.toNat (s.buffer_pool f).bytes)
      buffer_pool := Function.update s.buffer_pool f { s.buffer_pool f with dirty := false }
      written := p :: s.written } := by
  simp [BufferManager.flushPage, hp]

theorem flushPage_of_none (hp : (s.buffer_pool f).page_id = none) : s.flushPage f = s := by
  simp [BufferManager.flushPage, hp]

@[simp] theorem flushPage_pages : (s.flushPage f).pages = s.pages := by
  cases hp : (s.buffer_pool f).page_id with
  | none => rw [flushPage_of_none hp]
  | some p => rw [flushPage_of_some hp]

theorem flushPage_frame : ∃ dirty, (s.flushPage f).buffer_pool g =
    { s.buffer_pool g with dirty } := by
  cases hp : (s.buffer_pool f).page_id with
  | none => exact ⟨_, by rw [flushPage_of_none hp]⟩
  | some p =>
    rw [flushPage_of_some hp]
    by_cases hg : g = f
    · exact ⟨false, by simp [hg]⟩
    · exact ⟨_, by simp [hg]; rfl⟩

@[simp] theorem flushPage_page_id :
    ((s.flushPage f).buffer_pool g).page_id = (s.buffer_pool g).page_id := by
  obtain ⟨dirty, hg⟩ := flushPage_frame (s := s) (f := f) (g := g)
  rw [hg]

@[simp] theorem flushPage_pins :
    ((s.flushPage f).buffer_pool g).pins = (s.buffer_pool g).pins := by
  obtain ⟨dirty, hg⟩ := flushPage_frame (s := s) (f := f) (g := g)
  rw [hg]

theorem flushPage_dirty (h : (s.buffer_pool f).page_id ≠ none) :
    ((s.flushPage f).buffer_pool f).dirty = false := by
  cases hp : (s.buffer_pool f).page_id with
  | none => exact absurd hp h
  | some p => simp [flushPage_of_some hp]

@[simp] theorem evict_page_id :
    ((s.evict f).buffer_pool g).page_id = (s.buffer_pool g).page_id := by
  cases hp : (s.buffer_pool f).page_id <;> simp only [BufferManager.evict, hp] <;> split <;> simp

theorem evict_pages_of_none (h : s.pages p = none) : (s.evict f).pages p = none := by
  cases hq : (s.buffer_pool f).page_id with
  | none =>
    simp only [BufferManager.evict, hq]
    split <;> simpa using h
  | some q =>
    simp only [BufferManager.evict, hq]
    by_cases hpq : p = q
    · split <;> simp [hpq]
    · split <;> simpa [hpq] using h

/-- `evict` may write the page back before it leaves the table as well as after. -/
theorem evict_eq (hp : (s.buffer_pool f).page_id = some p) :
    s.evict f =
      let s' := if (s.buffer_pool f).dirty then s.flushPage f else s
      { s' with pages := Function.update s'.pages p none } := by
  unfold BufferManager.evict
  simp only [hp]
  split
  · unfold BufferManager.flushPage
    simp [hp]
  · rfl

theorem Coherent.erase (h : s.Coherent content none) (hp : (s.buffer_pool f).page_id = some p)
    (hclean : (s.buffer_pool f).dirty = false) :
    Coherent { s with pages := Function.update s.pages p none } content (some f) := by
  refine ⟨fun q g => ?_, h.dirty, fun q ht => ?_, fun q g b hq hb => ?_, fun q b hb hq => ?_⟩
  · by_cases hqp : q = p
    · subst hqp
      simp only [Function.update_self]
      constructor
      · simp
      · rintro ⟨hout, hg⟩
        have hq := (h.table q f).mpr ⟨by simp, hp⟩
        have hq' := (h.table q g).mpr ⟨by simp, hg⟩
        exact absurd (hq.symm.trans hq') hout
    · simp only [ne_eq, hqp, not_false_eq_true, Function.update_of_ne, h.table, reduceCtorEq,
        true_and, Option.some.injEq]
      constructor
      · intro hg
        refine ⟨fun hgf => hqp ?_, hg⟩
        subst hgf
        exact Option.some.inj (hg.symm.trans hp)
      · exact fun hg => hg.2
  · have := h.torn q ht
    by_cases hqp : q = p <;> simp [hqp, this]
    exact hqp ▸ this.1
  · by_cases hqp : q = p
    · simp [hqp] at hq
    · exact h.cached q g b (by simpa [hqp] using hq) hb
  · refine h.stored q b hb fun g hg => ?_
    by_cases hqp : q = p
    · subst hqp
      have := (h.table q f).mpr ⟨by simp, hp⟩
      rw [Option.some.inj (hg.symm.trans this)]
      exact hclean
    · exact hq g (by simpa [hqp] using hg)

theorem Coherent.evict (h : s.Coherent content none) (f : Fin n) :
    (s.evict f).Coherent content (some f) ∧ ((s.evict f).buffer_pool f).dirty = false := by
  cases hp : (s.buffer_pool f).page_id with
  | none =>
    have hclean : (s.buffer_pool f).dirty = false := by
      by_contra hd
      exact h.dirty f (by simpa using hd) hp
    have heq : s.evict f = s := by simp [BufferManager.evict, hp, hclean]
    rw [heq]
    refine ⟨⟨fun q g => ?_, h.dirty, h.torn, h.cached, h.stored⟩, hclean⟩
    rw [h.table]
    constructor
    · rintro ⟨-, hg⟩
      refine ⟨fun hgf => ?_, hg⟩
      rw [← Option.some.inj hgf, hp] at hg
      exact absurd hg (by simp)
    · exact fun hg => ⟨by simp, hg.2⟩
  | some p =>
    rw [evict_eq hp]
    by_cases hd : (s.buffer_pool f).dirty
    · have hclean := flushPage_dirty (s := s) (f := f) (by simp [hp])
      rw [if_pos hd]
      exact ⟨(h.flushPage f).erase (by simpa using hp) hclean, hclean⟩
    · have hclean : (s.buffer_pool f).dirty = false := by simpa using hd
      rw [if_neg hd]
      exact ⟨h.erase hp hclean, hclean⟩

theorem Coherent.load (h : s.Coherent content (some f)) (hp : s.pages p = none)
    (hclean : (s.buffer_pool f).dirty = false) : (s.load f p).Coherent content none := by
  have hout : ∀ q g, s.pages q = some g → g ≠ f := fun q g hg hgf =>
    ((h.table q g).mp hg).1 (by rw [hgf])
  have htorn : ∀ q : PageId, ((s.load f p).files q.file_id).Torn q.page_number.toNat →
      (s.files q.file_id).Torn q.page_number.toNat := by
    intro q ht
    simp only [BufferManager.load] at ht
    by_cases hq : q.file_id = p.file_id
    · simp only [hq, Function.update_self] at ht ⊢
      exact File.torn_of_read_page ht
    · simpa [hq] using ht
  refine ⟨fun q g => ?_, fun g => ?_, fun q ht => ?_, fun q g b hq hb => ?_, fun q b hb hq => ?_⟩
  · simp only [BufferManager.load]
    by_cases hqp : q = p
    · subst hqp
      by_cases hg : g = f
      · simp [hg]
      · have hno : (s.buffer_pool g).page_id ≠ some q := by
          intro hgq
          have hout : some f ≠ some g := fun hfg => hg (Option.some.inj hfg).symm
          have := (h.table q g).mpr ⟨hout, hgq⟩
          simp [hp] at this
        simp [hg, hno, Ne.symm hg]
    · by_cases hg : g = f
      · subst hg
        have hno : s.pages q ≠ some g := fun hq => hout q g hq rfl
        simp [hqp, hno, Ne.symm hqp]
      · simp [hqp, hg, h.table, Ne.symm hg]
  · simp only [BufferManager.load]
    by_cases hg : g = f
    · simp [hg]
    · simpa [hg] using h.dirty g
  · have hold := h.torn q (htorn q ht)
    refine ⟨hold.1, ?_⟩
    by_cases hqp : q = p
    · subst hqp
      simp only [BufferManager.load, Function.update_self] at ht
      exact absurd ht File.not_torn_read_page
    · simpa [BufferManager.load, hqp] using hold.2
  · have hnot : ¬(s.files q.file_id).Torn q.page_number.toNat := fun ht => by
      simp [(h.torn q ht).1] at hb
    by_cases hqp : q = p
    · subst hqp
      have hgf : f = g := by simpa [BufferManager.load] using hq
      subst hgf
      simp only [BufferManager.load, Function.update_self]
      rw [File.read_page_snd hnot]
      exact h.stored q b hb fun g hg => by simp [hp] at hg
    · have hq' : s.pages q = some g := by simpa [BufferManager.load, hqp] using hq
      simpa [BufferManager.load, hout q g hq'] using h.cached q g b hq' hb
  · have hnot : ¬(s.files q.file_id).Torn q.page_number.toNat := fun ht => by
      simp [(h.torn q ht).1] at hb
    have hold := h.stored q b hb fun g hg => by
      have hqp : q ≠ p := by
        rintro rfl
        simp [hp] at hg
      have := hq g (by simpa [BufferManager.load, hqp] using hg)
      simpa [BufferManager.load, hout q g hg] using this
    simp only [BufferManager.load]
    by_cases hfile : q.file_id = p.file_id
    · simp only [hfile, Function.update_self] at hold hnot ⊢
      rw [File.read_read_page hnot]
      exact hold
    · simpa [hfile] using hold

theorem Coherent.init (clock_pos : Fin n) (files : Int → File) :
    (BufferManager.init clock_pos files).Coherent
      (fun p => if (files p.file_id).Torn p.page_number.toNat then none
        else some ((files p.file_id).read (p.page_number.toNat * MDB_PAGE_SIZE))) none := by
  refine ⟨fun p f => ?_, fun f => ?_, fun p ht => ?_, fun p f b hp => ?_, fun p b hb _ => ?_⟩
  · simp [BufferManager.init, Page.unassigned]
  · simp [BufferManager.init, Page.unassigned]
  · exact ⟨if_pos ht, rfl⟩
  · simp [BufferManager.init] at hp
  · split at hb
    · simp at hb
    · exact Option.some.inj hb

/-- What a `get_page` call does to the pool. -/
theorem get_page_spec {file_id : Int} {k : Nat} (hp : p = ⟨file_id, UInt32.ofNat k⟩)
    (h : s.get_page file_id k = some (f, s')) :
    (s.pages p = some f ∧
      s' = s.setPage f { s.buffer_pool f with pins := (s.buffer_pool f).pins + 1 }) ∨
    (s.pages p = none ∧ ∃ t, Ticked s t ∧ (t.buffer_pool f).pins = 0 ∧
      s' = (t.evict f).load f p) := by
  subst hp
  unfold BufferManager.get_page at h
  dsimp only at h
  split at h
  · next hp =>
    right
    simp only [Option.map_eq_some_iff] at h
    obtain ⟨t, ht, heq⟩ := h
    cases heq
    obtain ⟨hticked, hpins⟩ := clockSearch_spec ht
    exact ⟨hp, t, hticked, hpins, rfl⟩
  · next g hp =>
    cases h
    exact .inl ⟨hp, rfl⟩

theorem get_page_isSome {file_id : Int} {k : Nat}
    (h : s.pages ⟨file_id, UInt32.ofNat k⟩ = none → ∃ f, (s.buffer_pool f).pins = 0) :
    (s.get_page file_id k).isSome := by
  unfold BufferManager.get_page
  dsimp only
  split
  · next hp => simpa using get_buffer_available_isSome (h hp)
  · rfl

/-- `get_page` keeps the pool coherent and returns the frame of the page. -/
theorem Coherent.get_page (h : s.Coherent content none) {file_id : Int} {k : Nat}
    (hp : p = ⟨file_id, UInt32.ofNat k⟩) (hget : s.get_page file_id k = some (f, s')) :
    s'.Coherent content none ∧ s'.pages p = some f := by
  rcases get_page_spec hp hget with ⟨hf, rfl⟩ | ⟨hnone, t, ht, -, rfl⟩
  · refine ⟨h.of_same rfl rfl fun g => ?_, hf⟩
    by_cases hg : g = f
    · subst hg
      simp
    · simp [setPage_of_ne _ hg]
  · obtain ⟨hevict, hclean⟩ := (h.of_ticked ht).evict f
    have hpages : (t.evict f).pages p = none := evict_pages_of_none (ht.pages ▸ hnone)
    exact ⟨hevict.load hpages hclean, by simp [BufferManager.load]⟩

theorem Coherent.flush (h : s.Coherent content none) : s.flush.Coherent content none := by
  unfold BufferManager.flush
  generalize List.finRange n = frames
  induction frames generalizing s with
  | nil => exact h
  | cons f frames ih =>
    rw [List.foldl_cons]
    apply ih
    split
    · exact h.flushPage f
    · exact h

theorem flush_frames : (s.flush.buffer_pool f).page_id = (s.buffer_pool f).page_id ∧
    (s.flush.buffer_pool f).pins = (s.buffer_pool f).pins := by
  unfold BufferManager.flush
  generalize List.finRange n = frames
  induction frames generalizing s with
  | nil => exact ⟨rfl, rfl⟩
  | cons g frames ih =>
    rw [List.foldl_cons]
    split
    · simpa using ih (s := s.flushPage g)
    · exact ih

theorem Coherent.modify (h : s.Coherent content none) (hp : (s.buffer_pool f).page_id = some p)
    (bytes : Bytes) :
    (s.setPage f { s.buffer_pool f with bytes, dirty := true }).Coherent
      (Function.update content p (some bytes)) none := by
  have hpf := (h.table p f).mpr ⟨by simp, hp⟩
  have hother : ∀ q g, q ≠ p → s.pages q = some g → g ≠ f := by
    rintro q g hq hg rfl
    have := ((h.table q g).mp hg).2
    exact hq (Option.some.inj (this.symm.trans hp))
  refine ⟨fun q g => ?_, fun g => ?_, fun q ht => ?_, fun q g b hq hb => ?_, fun q b hb hq => ?_⟩
  · by_cases hg : g = f
    · subst hg
      simp [h.table]
    · simp [h.table, setPage_of_ne _ hg]
  · by_cases hg : g = f
    · subst hg
      simp [hp]
    · simpa [setPage_of_ne _ hg] using h.dirty g
  · have hold := h.torn q ht
    have hqp : q ≠ p := by
      rintro rfl
      simp [hpf] at hold
    simpa [hqp] using hold
  · by_cases hqp : q = p
    · subst hqp
      have hgf : f = g := Option.some.inj (hpf.symm.trans hq)
      subst hgf
      simpa using hb
    · have hgf := hother q g hqp hq
      rw [setPage_of_ne _ hgf]
      exact h.cached q g b hq (by simpa [hqp] using hb)
  · by_cases hqp : q = p
    · subst hqp
      simpa using hq f hpf
    · refine h.stored q b (by simpa [hqp] using hb) fun g hg => ?_
      have := hq g hg
      rwa [setPage_of_ne _ (hother q g hqp hg)] at this

end BufferManager

/-- The calls of one thread; `modify` writes the bytes of a page and calls `make_dirty`. -/
inductive Op (n : Nat)
  | get_page (file_id : Int) (page_number : Nat)
  | get_last_page (file_id : Int)
  | append_page (file_id : Int)
  | modify (frame : Fin n) (bytes : Bytes)
  | unpin (frame : Fin n)
  | flush

/-- The manager, the bytes last written to the pages whose bytes are known, and the page ids
returned so far, the last one first. -/
structure World (n : Nat) where
  manager : BufferManager n
  content : PageId → Option Bytes
  handed : List PageId

namespace World

variable {n : Nat}

/-- A new manager over the files; of the pages in `known` the caller expects the bytes in the
file, with zeros past the end. -/
def start (hn : 0 < n) (files : Int → File) (known : PageId → Bool) : World n where
  manager := .init ⟨0, hn⟩ files
  content p :=
    if known p then some ((files p.file_id).read (p.page_number.toNat * MDB_PAGE_SIZE)) else none
  handed := []

/-- The caller gets the page `p`. -/
def hand (w : World n) (file_id : Int) (page_number : Nat) (r : Fin n × BufferManager n) :
    World n :=
  { w with manager := r.2, handed := ⟨file_id, UInt32.ofNat page_number⟩ :: w.handed }

/-- One call; `none` when it does not return, or when it is made on a frame without pins. -/
def step (w : World n) : Op n → Option (World n)
  | .get_page file_id k => (w.manager.get_page file_id k).map (w.hand file_id k)
  | .get_last_page file_id =>
    (w.manager.get_last_page file_id).map (w.hand file_id (w.manager.last_page_number file_id))
  | .append_page file_id =>
    (w.manager.append_page file_id).map (w.hand file_id (w.manager.files file_id).count_pages)
  | .modify f bytes =>
    let page := w.manager.buffer_pool f
    match page.page_id with
    | none => none
    | some p =>
      if page.pins = 0 then none
      else some { w with
        manager := w.manager.setPage f { page with bytes, dirty := true }
        content := Function.update w.content p (some bytes) }
  | .unpin f =>
    let page := w.manager.buffer_pool f
    if page.pins = 0 then none
    else some { w with manager := w.manager.setPage f { page with pins := page.pins - 1 } }
  | .flush => some { w with manager := w.manager.flush }

abbrev Runs (w : World n) (ops : List (Op n)) (w' : World n) : Prop :=
  Run (fun w op w' => w.step op = some w') w ops w'

structure PoolCorrect (w : World n) : Prop where
  table : ∀ p f, w.manager.pages p = some f ↔ (w.manager.buffer_pool f).page_id = some p
  one_frame : ∀ p f g, (w.manager.buffer_pool f).page_id = some p →
    (w.manager.buffer_pool g).page_id = some p → f = g
  pinned : ∀ op w', w.step op = some w' → ∀ f, 0 < (w.manager.buffer_pool f).pins →
    (w'.manager.buffer_pool f).page_id = (w.manager.buffer_pool f).page_id
  returns : ∀ file_id k,
    (w.manager.pages ⟨file_id, UInt32.ofNat k⟩ = none →
      ∃ f, (w.manager.buffer_pool f).pins = 0) →
    ∃ f s, w.manager.get_page file_id k = some (f, s) ∧
      (s.buffer_pool f).page_id = some ⟨file_id, UInt32.ofNat k⟩ ∧
      ∀ b, w.content ⟨file_id, UInt32.ofNat k⟩ = some b → (s.buffer_pool f).bytes = b

variable {w w' : World n} {op : Op n}

/-- The calls that get a page do what one `get_page` call does. -/
theorem step_cases (h : w.step op = some w') :
    (∃ file_id k f s, w.manager.get_page file_id k = some (f, s) ∧
      w' = w.hand file_id k (f, s)) ∨
    (∃ f p bytes, (w.manager.buffer_pool f).page_id = some p ∧
      w' = { w with
        manager := w.manager.setPage f { w.manager.buffer_pool f with bytes, dirty := true }
        content := Function.update w.content p (some bytes) }) ∨
    (∃ f, w' = { w with
        manager := w.manager.setPage f
          { w.manager.buffer_pool f with pins := (w.manager.buffer_pool f).pins - 1 } }) ∨
    w' = { w with manager := w.manager.flush } := by
  cases op with
  | get_page file_id k =>
    obtain ⟨⟨f, s⟩, hget, rfl⟩ := Option.map_eq_some_iff.mp h
    exact .inl ⟨file_id, k, f, s, hget, rfl⟩
  | get_last_page file_id =>
    obtain ⟨⟨f, s⟩, hget, rfl⟩ := Option.map_eq_some_iff.mp h
    exact .inl ⟨file_id, _, f, s, hget, rfl⟩
  | append_page file_id =>
    obtain ⟨⟨f, s⟩, hget, rfl⟩ := Option.map_eq_some_iff.mp h
    exact .inl ⟨file_id, _, f, s, hget, rfl⟩
  | modify f bytes =>
    simp only [step] at h
    split at h
    · simp at h
    · next p hp =>
      split at h
      · simp at h
      · exact .inr (.inl ⟨f, p, bytes, hp, (Option.some.inj h).symm⟩)
  | unpin f =>
    simp only [step] at h
    split at h
    · simp at h
    · exact .inr (.inr (.inl ⟨f, (Option.some.inj h).symm⟩))
  | flush => exact .inr (.inr (.inr (Option.some.inj h).symm))

theorem coherent_step (hw : w.manager.Coherent w.content none) (h : w.step op = some w') :
    w'.manager.Coherent w'.content none := by
  rcases step_cases h with ⟨file_id, k, f, s, hget, rfl⟩ | ⟨f, p, bytes, hp, rfl⟩ | ⟨f, rfl⟩ | rfl
  · exact (hw.get_page rfl hget).1
  · exact hw.modify hp bytes
  · refine hw.of_same rfl rfl fun g => ?_
    by_cases hg : g = f
    · subst hg
      simp
    · simp [BufferManager.setPage_of_ne _ hg]
  · exact hw.flush

theorem coherent_run {ops : List (Op n)} (hw : w.manager.Coherent w.content none)
    (h : w.Runs ops w') : w'.manager.Coherent w'.content none := by
  induction h with
  | nil => exact hw
  | cons hstep _ ih => exact ih (coherent_step hw hstep)

theorem pinned_step (h : w.step op = some w') {f : Fin n}
    (hf : 0 < (w.manager.buffer_pool f).pins) :
    (w'.manager.buffer_pool f).page_id = (w.manager.buffer_pool f).page_id := by
  have hset : ∀ g page, page.page_id = (w.manager.buffer_pool g).page_id →
      ((w.manager.setPage g page).buffer_pool f).page_id =
        (w.manager.buffer_pool f).page_id := by
    intro g page hpage
    by_cases hg : f = g
    · subst hg
      simpa using hpage
    · rw [BufferManager.setPage_of_ne _ hg]
  rcases step_cases h with ⟨file_id, k, g, s, hget, rfl⟩ | ⟨g, p, bytes, hp, rfl⟩ | ⟨g, rfl⟩ | rfl
  · rcases BufferManager.get_page_spec rfl hget with ⟨-, rfl⟩ | ⟨-, t, ht, hpins, rfl⟩
    · exact hset _ _ rfl
    · -- the frame taken has no pins
      obtain ⟨usage, hsame⟩ := ht.buffer_pool f
      have hfg : f ≠ g := by
        rintro rfl
        rw [hsame] at hpins
        exact absurd hpins (by simpa using Nat.pos_iff_ne_zero.mp hf)
      simp [hand, BufferManager.load, hfg, hsame]
  · exact hset _ _ rfl
  · exact hset _ _ rfl
  · exact BufferManager.flush_frames.1

theorem poolCorrect_of_coherent (hw : w.manager.Coherent w.content none) : w.PoolCorrect where
  table p f := by simp [hw.table]
  one_frame p f g hf hg := by
    have hpf := (hw.table p f).mpr ⟨by simp, hf⟩
    have hpg := (hw.table p g).mpr ⟨by simp, hg⟩
    exact Option.some.inj (hpf.symm.trans hpg)
  pinned _ _ h _ hf := pinned_step h hf
  returns file_id k hfree := by
    obtain ⟨⟨f, s⟩, hget⟩ := Option.isSome_iff_exists.mp (BufferManager.get_page_isSome hfree)
    obtain ⟨hs, hf⟩ := hw.get_page rfl hget
    exact ⟨f, s, hget, ((hs.table _ f).mp hf).2, fun b hb => hs.cached _ f b hf hb⟩

/-- The pages that the caller may know: all but the one in which a file ends. -/
def whole (files : Int → File) (p : PageId) : Bool :=
  !decide ((files p.file_id).Torn p.page_number.toNat)

/-- Whatever the calls, the page table is exact, a pinned frame keeps its page, and `get_page`
returns the bytes last written as soon as it may take a frame. -/
theorem poolCorrect_of_runs (hn : 0 < n) (files : Int → File) (ops : List (Op n))
    (h : (start hn files (whole files)).Runs ops w) : w.PoolCorrect := by
  apply poolCorrect_of_coherent
  apply coherent_run _ h
  have hinit := BufferManager.Coherent.init ⟨0, hn⟩ files
  simpa only [start, whole, Bool.not_eq_true', decide_eq_false_iff_not, ite_not] using hinit

/-- A page is evicted with what was written to it and read again, while another one is pinned. -/
theorem poolCorrect_evicted : ∃ w : World 2,
    (start (by decide) (fun _ => ⟨0, fun _ => 0, fun _ _ => rfl⟩)
      (whole fun _ => ⟨0, fun _ => 0, fun _ _ => rfl⟩)).Runs
      [.get_page 3 0, .get_page 3 1, .modify 1 fun _ => 7, .unpin 1, .get_page 3 2, .unpin 1] w ∧
    w.manager.written = [⟨3, 1⟩] ∧ w.PoolCorrect ∧
    ∃ f s, w.manager.get_page 3 1 = some (f, s) ∧ (s.buffer_pool f).bytes = fun _ => 7 := by
  have hruns : (start (n := 2) (by decide) (fun _ => ⟨0, fun _ => 0, fun _ _ => rfl⟩)
      (whole fun _ => ⟨0, fun _ => 0, fun _ _ => rfl⟩)).Runs
      [.get_page 3 0, .get_page 3 1, .modify 1 fun _ => 7, .unpin 1, .get_page 3 2, .unpin 1] _ :=
    .cons rfl (.cons rfl (.cons rfl (.cons rfl (.cons rfl (.cons rfl (.nil _))))))
  have hcorrect := poolCorrect_of_runs (by decide) _ _ hruns
  obtain ⟨f, s, hget, -, hbytes⟩ := hcorrect.returns 3 1 fun _ => ⟨1, rfl⟩
  exact ⟨_, hruns, rfl, hcorrect, f, s, hget, hbytes _ rfl⟩

def oneByte : File where
  size := 1
  byte i := if i = 0 then 7 else 0
  byte_past i hi := if_neg (by omega)

/-- A file that ends inside a page loses the bytes of that page. -/
theorem not_poolCorrect_of_torn :
    ¬∀ (n : Nat) (hn : 0 < n) (files : Int → File) (ops : List (Op n)) (w : World n),
      (start hn files fun _ => true).Runs ops w → w.PoolCorrect := by
  intro h
  have hw := h 1 (by decide) (fun _ => oneByte) [] _ (.nil _)
  obtain ⟨f, s, hget, -, hbytes⟩ := hw.returns 3 0 fun _ => ⟨0, rfl⟩
  have hzero := hbytes _ rfl
  have hread : (s.buffer_pool f).bytes 0 = 0 := by
    cases hget
    rfl
  rw [hzero] at hread
  exact absurd hread (by decide)

end World

end MillenniumDB.Storage
