import MillenniumDB.BufferManager

/-!
# Appending pages

`append_page` asks for the page whose number is the page count of the file, and the file grows
only when a page is written to it, or when a page past its end is read.
-/

namespace MillenniumDB.Storage

namespace File

variable {file : File} {k : Nat} {bytes : Bytes}

theorem count_pages_flush : (file.flush k bytes).count_pages = max file.count_pages (k + 1) := by
  simp only [flush, write, count_pages, MDB_PAGE_SIZE]
  omega

theorem count_pages_read_page : (file.read_page k).1.count_pages = max file.count_pages k := by
  simp only [read_page, count_pages, MDB_PAGE_SIZE]
  split
  · simp only [ftruncate]
    omega
  · dsimp only
    omega

end File

variable {n : Nat}

/-- One more than the largest page of the file, or than the largest page handed out. -/
def nextPage (count : Nat) (file_id : Int) (handed : List PageId) : Nat :=
  handed.foldr (fun p next => if p.file_id = file_id then max (p.page_number.toNat + 1) next
    else next) count

section nextPage

variable {count : Nat} {file_id : Int} {handed : List PageId} {p : PageId} {k : Nat}

theorem le_nextPage : count ≤ nextPage count file_id handed := by
  induction handed with
  | nil => exact le_rfl
  | cons p handed ih =>
    simp only [nextPage, List.foldr_cons] at ih ⊢
    split <;> omega

theorem lt_nextPage (hp : p ∈ handed) (hfile : p.file_id = file_id) :
    p.page_number.toNat < nextPage count file_id handed := by
  induction handed with
  | nil => simp at hp
  | cons q handed ih =>
    simp only [nextPage, List.foldr_cons] at ih ⊢
    rcases List.mem_cons.mp hp with rfl | hp
    · rw [if_pos hfile]
      omega
    · have := ih hp
      split <;> omega

theorem nextPage_le (hcount : count ≤ k)
    (h : ∀ p ∈ handed, p.file_id = file_id → p.page_number.toNat < k) :
    nextPage count file_id handed ≤ k := by
  induction handed with
  | nil => exact hcount
  | cons q handed ih =>
    have := ih fun p hp => h p (List.mem_cons_of_mem _ hp)
    simp only [nextPage, List.foldr_cons] at this ⊢
    split
    · next hq =>
      have := h q List.mem_cons_self hq
      omega
    · exact this

end nextPage

/-- What the page count of the file stands for, `count` being the one at the start. -/
structure Counted (count : Nat) (file_id : Int) (w : World n) : Prop where
  frames : ∀ f p, (w.manager.buffer_pool f).page_id = some p → p ∈ w.handed
  writes : ∀ p ∈ w.manager.written, p ∈ w.handed
  start_le : count ≤ (w.manager.files file_id).count_pages
  written_lt : ∀ p ∈ w.manager.written, p.file_id = file_id →
    p.page_number.toNat < (w.manager.files file_id).count_pages
  -- nothing else makes the file longer than a page that was handed out
  le : (w.manager.files file_id).count_pages ≤ nextPage count file_id w.manager.written ∨
    ∃ p ∈ w.handed, p.file_id = file_id ∧
      (w.manager.files file_id).count_pages ≤ p.page_number.toNat

namespace Counted

variable {count : Nat} {file_id : Int} {w w' : World n} {s : BufferManager n} {f : Fin n}
  {p : PageId} {handed : List PageId} {content : PageId → Option Bytes}

theorem of_same (h : Counted count file_id ⟨s, content, handed⟩) {s' : BufferManager n}
    {content' : PageId → Option Bytes}
    (hfiles : s'.files = s.files) (hwritten : s'.written = s.written)
    (hpool : ∀ f, (s'.buffer_pool f).page_id = (s.buffer_pool f).page_id) :
    Counted count file_id ⟨s', content', handed⟩ where
  frames f p := by
    intro hf
    exact h.frames f p (by rw [← hf]; exact (hpool f).symm)
  writes := hwritten ▸ h.writes
  start_le := hfiles ▸ h.start_le
  written_lt := by
    dsimp only
    rw [hfiles, hwritten]
    exact h.written_lt
  le := by
    dsimp only
    rw [hfiles, hwritten]
    exact h.le

theorem hand (h : Counted count file_id ⟨s, content, handed⟩) (p : PageId) :
    Counted count file_id ⟨s, content, p :: handed⟩ where
  frames f q hq := List.mem_cons_of_mem _ (h.frames f q hq)
  writes q hq := List.mem_cons_of_mem _ (h.writes q hq)
  start_le := h.start_le
  written_lt := h.written_lt
  le := h.le.imp id fun ⟨q, hq, hle⟩ => ⟨q, List.mem_cons_of_mem _ hq, hle⟩

theorem flushPage (h : Counted count file_id ⟨s, content, handed⟩) (f : Fin n) :
    Counted count file_id ⟨s.flushPage f, content, handed⟩ := by
  cases hp : (s.buffer_pool f).page_id with
  | none => rwa [BufferManager.flushPage_of_none hp]
  | some p =>
    have hcount : ((s.flushPage f).files file_id).count_pages =
        if p.file_id = file_id then max (s.files file_id).count_pages (p.page_number.toNat + 1)
        else (s.files file_id).count_pages := by
      rw [BufferManager.flushPage_of_some hp]
      by_cases hfile : p.file_id = file_id
      · subst hfile
        simp [File.count_pages_flush]
      · simp [hfile, Ne.symm hfile]
    have hwritten : (s.flushPage f).written = p :: s.written := by
      rw [BufferManager.flushPage_of_some hp]
    have hnext : nextPage count file_id (p :: s.written) =
        if p.file_id = file_id then max (p.page_number.toNat + 1) (nextPage count file_id s.written)
        else nextPage count file_id s.written := rfl
    have hle := h.le
    have hstart := h.start_le
    dsimp only at hle hstart
    refine ⟨fun g q hq => ?_, fun q hq => ?_, ?_, fun q hq hqfile => ?_, ?_⟩
    · exact h.frames g q (by simpa using hq)
    · rcases List.mem_cons.mp (hwritten ▸ hq) with rfl | hq
      · exact h.frames f q hp
      · exact h.writes q hq
    · dsimp only
      rw [hcount]
      split <;> omega
    · dsimp only
      rw [hcount]
      rcases List.mem_cons.mp (hwritten ▸ hq) with rfl | hq
      · rw [if_pos hqfile]
        omega
      · have := h.written_lt q hq hqfile
        dsimp only at this
        split <;> omega
    · dsimp only
      rw [hcount, hwritten, hnext]
      by_cases hfile : p.file_id = file_id
      · simp only [if_pos hfile]
        rcases hle with hle | ⟨q, hq, hqfile, hle⟩
        · exact .inl (by omega)
        · by_cases hqp : (s.files file_id).count_pages ≤ p.page_number.toNat + 1
          · exact .inl (by omega)
          · exact .inr ⟨q, hq, hqfile, by omega⟩
      · simp only [if_neg hfile]
        exact hle

theorem evict (h : Counted count file_id ⟨s, content, handed⟩) (f : Fin n) :
    Counted count file_id ⟨s.evict f, content, handed⟩ := by
  cases hp : (s.buffer_pool f).page_id with
  | none =>
    have heq : s.evict f = s := by
      simp [BufferManager.evict, BufferManager.flushPage_of_none hp, hp]
    rwa [heq]
  | some p =>
    rw [BufferManager.evict_eq hp]
    dsimp only
    split
    · exact (h.flushPage f).of_same rfl rfl fun _ => rfl
    · exact h.of_same rfl rfl fun _ => rfl

theorem load (h : Counted count file_id ⟨s, content, handed⟩) (hp : p ∈ handed) (f : Fin n) :
    Counted count file_id ⟨s.load f p, content, handed⟩ := by
  have hcount : ((s.load f p).files file_id).count_pages =
      if p.file_id = file_id then max (s.files file_id).count_pages p.page_number.toNat
      else (s.files file_id).count_pages := by
    simp only [BufferManager.load]
    by_cases hfile : p.file_id = file_id
    · subst hfile
      simp [File.count_pages_read_page]
    · simp [hfile, Ne.symm hfile]
  have hstart := h.start_le
  have hle := h.le
  dsimp only at hstart hle
  refine ⟨fun g q hq => ?_, h.writes, ?_, fun q hq hqfile => ?_, ?_⟩
  · by_cases hg : g = f
    · have hqp : p = q := by simpa [BufferManager.load, hg] using hq
      exact hqp ▸ hp
    · exact h.frames g q (by simpa [BufferManager.load, hg] using hq)
  · dsimp only
    rw [hcount]
    split <;> omega
  · have := h.written_lt q hq hqfile
    dsimp only at this ⊢
    rw [hcount]
    split <;> omega
  · dsimp only
    rw [hcount]
    split
    · next hfile =>
      by_cases hgrow : (s.files file_id).count_pages ≤ p.page_number.toNat
      · exact .inr ⟨p, hp, hfile, by omega⟩
      · rw [max_eq_left (by omega)]
        exact hle
    · exact hle

theorem flush (h : Counted count file_id ⟨s, content, handed⟩) :
    Counted count file_id ⟨s.flush, content, handed⟩ := by
  unfold BufferManager.flush
  generalize List.finRange n = frames
  induction frames generalizing s with
  | nil => exact h
  | cons f frames ih =>
    rw [List.foldl_cons]
    apply ih
    split
    · exact h.flushPage f
    · exact h

theorem step {op : Op n} (h : Counted count file_id w) (hstep : w.step op = some w') :
    Counted count file_id w' := by
  obtain ⟨s, content, handed⟩ := w
  rcases World.step_cases hstep with
    ⟨file, k, g, s', hget, rfl⟩ | ⟨g, p, bytes, hp, rfl⟩ | ⟨g, rfl⟩ | rfl
  · dsimp only at hget
    rcases BufferManager.get_page_spec rfl hget with ⟨-, rfl⟩ | ⟨-, t, ht, -, rfl⟩
    · refine (h.hand _).of_same rfl rfl fun g' => ?_
      by_cases hg : g' = g
      · subst hg
        simp
      · rw [BufferManager.setPage_of_ne _ hg]
    · have hticked : Counted count file_id ⟨t, content, handed⟩ := by
        refine h.of_same ht.files ht.written fun g' => ?_
        obtain ⟨usage, hsame⟩ := ht.buffer_pool g'
        rw [hsame]
      exact ((hticked.evict g).hand _).load List.mem_cons_self g
  · refine h.of_same rfl rfl fun g' => ?_
    by_cases hg : g' = g
    · subst hg
      simp
    · simp [BufferManager.setPage_of_ne _ hg]
  · refine h.of_same rfl rfl fun g' => ?_
    by_cases hg : g' = g
    · subst hg
      simp
    · simp [BufferManager.setPage_of_ne _ hg]
  · exact h.flush

theorem run {ops : List (Op n)} (h : Counted count file_id w) (hrun : w.Runs ops w') :
    Counted count file_id w' := by
  induction hrun with
  | nil => exact h
  | cons hstep _ ih => exact ih (h.step hstep)

theorem start (hn : 0 < n) (files : Int → File) (known : PageId → Bool) (file_id : Int) :
    Counted (files file_id).count_pages file_id (World.start hn files known) where
  frames f p hp := by simp [World.start, BufferManager.init, Page.unassigned] at hp
  writes p hp := by simp [World.start, BufferManager.init] at hp
  start_le := le_rfl
  written_lt p hp := by simp [World.start, BufferManager.init] at hp
  le := .inl le_rfl

/-- The file has as many pages as were handed out exactly when the last of them is on disk. -/
theorem count_pages_eq_iff (h : Counted count file_id w) :
    (w.manager.files file_id).count_pages = nextPage count file_id w.handed ↔
      ∀ p ∈ w.handed, p.file_id = file_id → p.page_number.toNat < count ∨
        ∃ q ∈ w.manager.written, q.file_id = file_id ∧
          p.page_number.toNat ≤ q.page_number.toNat := by
  have hhanded : nextPage count file_id w.manager.written ≤ nextPage count file_id w.handed :=
    nextPage_le le_nextPage fun p hp hfile => lt_nextPage (h.writes p hp) hfile
  constructor
  · intro heq p hp hfile
    by_contra hno
    rw [not_or] at hno
    have hnext : nextPage count file_id w.manager.written ≤ p.page_number.toNat := by
      refine nextPage_le (by omega) fun q hq hqfile => ?_
      by_contra hle
      exact hno.2 ⟨q, hq, hqfile, by omega⟩
    have hlt : p.page_number.toNat < nextPage count file_id w.handed := lt_nextPage hp hfile
    rcases h.le with hle | ⟨q, hq, hqfile, hle⟩
    · omega
    · have : q.page_number.toNat < nextPage count file_id w.handed := lt_nextPage hq hqfile
      omega
  · intro hdisk
    apply le_antisymm
    · rcases h.le with hle | ⟨q, hq, hqfile, hle⟩
      · exact hle.trans hhanded
      · have : q.page_number.toNat < nextPage count file_id w.handed := lt_nextPage hq hqfile
        omega
    · refine nextPage_le h.start_le fun p hp hfile => ?_
      rcases hdisk p hp hfile with hlt | ⟨q, hq, hqfile, hle⟩
      · have := h.start_le
        omega
      · have := h.written_lt q hq hqfile
        omega

end Counted

/-- The call that led from `w` to `w'` returned a new page of the file, the one after the
largest page there was; the file had `count` pages at the start. -/
def AppendsNext (count : Nat) (file_id : Int) (w w' : World n) : Prop :=
  ∃ p, w'.handed = p :: w.handed ∧ p.file_id = file_id ∧ p ∉ w.handed ∧
    p.page_number.toNat = nextPage count file_id w.handed

/-- Every page handed out lies before a page that the file had at the start or that was written
to it, and its numbers have 32 bits. -/
def Flushed (count : Nat) (file_id : Int) (w : World n) : Prop :=
  nextPage count file_id w.handed < 2 ^ 32 ∧
    ∀ p ∈ w.handed, p.file_id = file_id → p.page_number.toNat < count ∨
      ∃ q ∈ w.manager.written, q.file_id = file_id ∧ p.page_number.toNat ≤ q.page_number.toNat

/-- Whatever the calls before it, `append_page` returns the next page exactly when the pages
handed out so far have been flushed. -/
theorem appendsNext_iff (hn : 0 < n) (files : Int → File) (known : PageId → Bool)
    (ops : List (Op n)) (file_id : Int) (w w' : World n)
    (hrun : (World.start hn files known).Runs ops w)
    (happend : w.step (.append_page file_id) = some w') :
    AppendsNext (files file_id).count_pages file_id w w' ↔
      Flushed (files file_id).count_pages file_id w := by
  have hw := (Counted.start hn files known file_id).run hrun
  obtain ⟨⟨f, s⟩, hget, rfl⟩ := Option.map_eq_some_iff.mp happend
  have hnext := hw.count_pages_eq_iff
  have hle : (w.manager.files file_id).count_pages ≤
      nextPage (files file_id).count_pages file_id w.handed := by
    rcases hw.le with hle | ⟨q, hq, hqfile, hle⟩
    · exact hle.trans (nextPage_le le_nextPage fun p hp hfile => lt_nextPage (hw.writes p hp) hfile)
    · have : q.page_number.toNat < nextPage (files file_id).count_pages file_id w.handed :=
        lt_nextPage hq hqfile
      omega
  constructor
  · rintro ⟨p, hp, -, -, hnum⟩
    have hpid : p = ⟨file_id, UInt32.ofNat (w.manager.files file_id).count_pages⟩ :=
      (List.cons.inj hp).1.symm
    have hcut : p.page_number.toNat = (w.manager.files file_id).count_pages % 2 ^ 32 := by
      rw [hpid]
      simp
    have hsize := p.page_number.toNat_lt
    refine ⟨by omega, hnext.mp ?_⟩
    have := Nat.mod_le (w.manager.files file_id).count_pages (2 ^ 32)
    omega
  · rintro ⟨hsize, hdisk⟩
    have heq := hnext.mpr hdisk
    have hcut : (UInt32.ofNat (w.manager.files file_id).count_pages).toNat =
        nextPage (files file_id).count_pages file_id w.handed := by
      rw [UInt32.toNat_ofNat', Nat.mod_eq_of_lt (by omega), heq]
    refine ⟨_, rfl, rfl, fun hmem => ?_, hcut⟩
    have hlt : (UInt32.ofNat (w.manager.files file_id).count_pages).toNat <
        nextPage (files file_id).count_pages file_id w.handed := lt_nextPage hmem rfl
    omega

def noBytes : File := ⟨0, fun _ => 0, fun _ _ => rfl⟩

theorem appendsNext_flushed : ∃ w w' : World 2,
    (World.start (by decide) (fun _ => noBytes) fun _ => true).Runs
      [.append_page 3, .modify 0 fun _ => 7, .flush] w ∧
    w.handed = [⟨3, 0⟩] ∧ w.step (.append_page 3) = some w' ∧ AppendsNext 0 3 w w' := by
  refine ⟨_, _, .cons rfl (.cons rfl (.cons rfl (.nil _))), rfl, rfl, ?_⟩
  refine (appendsNext_iff (n := 2) (by decide) (fun _ => noBytes) (fun _ => true)
    [.append_page 3, .modify 0 fun _ => 7, .flush] 3 _ _
    (.cons rfl (.cons rfl (.cons rfl (.nil _)))) rfl).mpr ⟨by decide, fun p hp _ => .inr ?_⟩
  have hpage : p = ⟨3, 0⟩ := List.mem_singleton.mp hp
  exact ⟨⟨3, 0⟩, List.mem_singleton.mpr rfl, rfl, hpage ▸ le_rfl⟩

/-- Two calls in a row return the same page. -/
theorem not_appendsNext :
    ¬∀ (n : Nat) (hn : 0 < n) (files : Int → File) (known : PageId → Bool) (ops : List (Op n))
      (file_id : Int) (w w' : World n), (World.start hn files known).Runs ops w →
      w.step (.append_page file_id) = some w' →
      AppendsNext (files file_id).count_pages file_id w w' := by
  intro h
  obtain ⟨p, hp, -, hnew, -⟩ := h 1 (by decide) (fun _ => noBytes) (fun _ => true)
    [.append_page 3] 3 _ _ (.cons rfl (.nil _)) rfl
  apply hnew
  rw [← (List.cons.inj hp).1]
  exact List.mem_cons_self

end MillenniumDB.Storage
