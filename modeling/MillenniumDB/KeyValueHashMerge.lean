import MillenniumDB.KeyValueHashSort

/-!
# Merging the pages of a bucket

While two runs are merged, the tuples that have been read stand on new pages, all full but the last
one, and the pages that are still to be read are as they were at the begin of the pass.  A page that
is written to is never one of these.
-/

namespace MillenniumDB
namespace KeyValueHash

section

variable {bucket page : Nat} {used used' : List Nat} {t : KeyValueHash}
  {numbers : Nat → List Nat}

def withPages (t : KeyValueHash) (numbers : Nat → List Nat) (bucket : Nat) (used : List Nat) :
    KeyValueHash :=
  { t with bucketsPageNumbers := Function.update numbers bucket used }

theorem mem_update {c : Nat} (h : page ∈ Function.update numbers bucket used c) :
    c = bucket ∧ page ∈ used ∨ c ≠ bucket ∧ page ∈ numbers c := by
  by_cases hc : c = bucket
  · rw [hc, Function.update_self] at h
    exact Or.inl ⟨hc, h⟩
  · rw [Function.update_of_ne hc] at h
    exact Or.inr ⟨hc, h⟩

theorem withPages_self (t : KeyValueHash) (bucket : Nat) :
    t.withPages t.bucketsPageNumbers bucket (t.bucketsPageNumbers bucket) = t := by
  rw [withPages, Function.update_eq_self]

theorem Owned.subset (h : Owned (t.withPages numbers bucket used)) (hnodup : used'.Nodup)
    (hsubset : ∀ p ∈ used', p ∈ used) : Owned (t.withPages numbers bucket used') := by
  have hmem : ∀ {c p : Nat}, p ∈ Function.update numbers bucket used' c →
      p ∈ (t.withPages numbers bucket used).bucketsPageNumbers c := by
    intro c p hp
    show p ∈ Function.update numbers bucket used c
    rcases mem_update hp with ⟨hc, hp⟩ | ⟨hc, hp⟩
    · rw [hc, Function.update_self]
      exact hsubset p hp
    · rw [Function.update_of_ne hc]
      exact hp
  refine ⟨fun c => ?_, fun c d hne p hp hp' => ?_, fun c p hp => ?_, h.nodup_available,
    fun p hp => ⟨(h.available p hp).1, fun c hc => (h.available p hp).2 c (hmem hc)⟩⟩
  · have hall := h.nodup c
    by_cases hc : c = bucket
    · subst hc
      show (Function.update numbers c used' c).Nodup
      rw [Function.update_self]
      exact hnodup
    · show (Function.update numbers bucket used' c).Nodup
      change (Function.update numbers bucket used c).Nodup at hall
      rw [Function.update_of_ne hc] at hall ⊢
      exact hall
  · exact h.disjoint c d hne p (hmem hp) (hmem hp')
  · exact h.lt_next c p (hmem hp)

theorem Owned.perm (h : Owned (t.withPages numbers bucket used)) (hperm : used'.Perm used) :
    Owned (t.withPages numbers bucket used') := by
  have hnodup := h.nodup bucket
  change (Function.update numbers bucket used bucket).Nodup at hnodup
  rw [Function.update_self] at hnodup
  exact h.subset (hperm.nodup_iff.mpr hnodup) fun p hp => hperm.mem_iff.mp hp

theorem Owned.release (h : Owned (t.withPages numbers bucket (page :: used))) :
    Owned (({ t with availablePages := t.availablePages ++ [page] } :
      KeyValueHash).withPages numbers bucket used) := by
  have hnodup := h.nodup bucket
  change (Function.update numbers bucket (page :: used) bucket).Nodup at hnodup
  rw [Function.update_self, List.nodup_cons] at hnodup
  have hless := h.subset hnodup.2 fun p hp => List.mem_cons_of_mem page hp
  have hpage : page ∈ (t.withPages numbers bucket (page :: used)).bucketsPageNumbers bucket := by
    show page ∈ Function.update numbers bucket (page :: used) bucket
    rw [Function.update_self]
    exact List.mem_cons_self
  refine ⟨hless.nodup, hless.disjoint, hless.lt_next, ?_, fun p hp => ?_⟩
  · show (t.availablePages ++ [page]).Nodup
    apply List.nodup_append.mpr
    refine ⟨h.nodup_available, List.nodup_singleton page, fun p hp q hq heq => ?_⟩
    rw [heq, List.mem_singleton.mp hq] at hp
    exact (h.available page hp).2 bucket hpage
  · rcases List.mem_append.mp hp with hp | hp
    · exact hless.available p hp
    · rw [List.mem_singleton.mp hp]
      refine ⟨h.lt_next bucket page hpage, fun c hc => ?_⟩
      rcases mem_update hc with ⟨_, hused⟩ | ⟨hne, hother⟩
      · exact hnodup.1 hused
      · apply h.disjoint bucket c hne.symm page hpage
        show page ∈ Function.update numbers bucket (page :: used) c
        rw [Function.update_of_ne hne]
        exact hother

theorem addPage_withPages (t : KeyValueHash) (numbers : Nat → List Nat) (bucket : Nat)
    (used newPageNumbers : List Nat) :
    (t.withPages numbers bucket used).addPage bucket =
      ((Merging.newPage t newPageNumbers).newPageNumber,
        (Merging.newPage t newPageNumbers).table.withPages numbers bucket
          (used ++ [(Merging.newPage t newPageNumbers).newPageNumber])) := by
  unfold addPage getNewPageNumber Merging.newPage getNewPageNumber withPages
  dsimp only
  cases t.availablePages <;>
    simp only [modifyPage, Function.update_self, Function.update_idem]

end

/-- In a pass over the pages of a bucket of `t`: what is written stands on the new pages, `rest` are
the pages that are still to be read. -/
structure Writing (maxTuples : Nat) (t : KeyValueHash) (bucket : Nat) (out : List KeyValueTuple)
    (rest : List Nat) (m : Merging) : Prop where
  owned : Owned (m.table.withPages t.bucketsPageNumbers bucket (m.newPageNumbers ++ rest))
  holds : Holds maxTuples m.table.file m.newPageNumbers out
  started : m.newPageNumbers ≠ []
  last : m.newPageNumbers.getLastD 0 = m.newPageNumber
  pages_eq : m.table.bucketsPageNumbers = t.bucketsPageNumbers
  members_eq : m.table.bucketsSizes = t.bucketsSizes ∧ m.table.tuplesCount = t.tuplesCount ∧
    m.table.depth = t.depth
  file_eq : ∀ page, (page ∈ rest ∨ ∃ c, c ≠ bucket ∧ page ∈ t.bucketsPageNumbers c) →
    m.table.file page = t.file page

structure Writes (maxTuples : Nat) (t : KeyValueHash) (bucket : Nat) (out : List KeyValueTuple)
    (rest : List Nat) (m : Merging) : Prop extends Writing maxTuples t bucket out rest m where
  tidy : m.newPageNumbers.length ≤ 1 ∨ (m.newPageNumbers.length - 1) * maxTuples < out.length

section

variable {maxTuples bucket page : Nat} {t : KeyValueHash} {out : List KeyValueTuple}
  {rest rest' : List Nat} {m : Merging} {x : KeyValueTuple}

theorem Writing.new_ne (h : Writing maxTuples t bucket out rest m)
    (hpage : page ∈ rest ∨ ∃ c, c ≠ bucket ∧ page ∈ t.bucketsPageNumbers c) :
    page ≠ m.newPageNumber := by
  have hnew : m.newPageNumber ∈ m.newPageNumbers := by
    rw [← h.last, getLastD_eq]
    exact getD_mem (Nat.sub_lt (List.length_pos_of_ne_nil h.started) Nat.one_pos)
  have hpages : (m.table.withPages t.bucketsPageNumbers bucket (m.newPageNumbers ++
      rest)).bucketsPageNumbers bucket = m.newPageNumbers ++ rest := Function.update_self _ _ _
  intro heq
  subst heq
  rcases hpage with hrest | ⟨c, hc, hpage⟩
  · have hnodup := h.owned.nodup bucket
    rw [hpages] at hnodup
    exact (List.nodup_append.mp hnodup).2.2 _ hnew _ hrest rfl
  · apply h.owned.disjoint bucket c hc.symm _ (hpages ▸ List.mem_append_left rest hnew)
    show m.newPageNumber ∈ Function.update t.bucketsPageNumbers bucket _ c
    rw [Function.update_of_ne hc]
    exact hpage

theorem Writes.perm (h : Writes maxTuples t bucket out rest m) (hperm : rest'.Perm rest) :
    Writes maxTuples t bucket out rest' m where
  owned := h.owned.perm (hperm.append_left m.newPageNumbers)
  holds := h.holds
  started := h.started
  last := h.last
  pages_eq := h.pages_eq
  members_eq := h.members_eq
  file_eq page hpage := h.file_eq page (hpage.imp_left hperm.mem_iff.mp)
  tidy := h.tidy

theorem Writes.release (h : Writes maxTuples t bucket out (page :: rest) m) :
    Writes maxTuples t bucket out rest (m.release page) where
  owned := (h.owned.perm List.perm_middle.symm).release
  holds := h.holds
  started := h.started
  last := h.last
  pages_eq := h.pages_eq
  members_eq := h.members_eq
  file_eq p hp := h.file_eq p (hp.imp_left (List.mem_cons_of_mem page))
  tidy := h.tidy

theorem writing_newPage {u : KeyValueHash} {newPageNumbers : List Nat}
    (howned : Owned (u.withPages t.bucketsPageNumbers bucket (newPageNumbers ++ rest)))
    (hholds : Holds maxTuples u.file newPageNumbers out)
    (hnumbers : u.bucketsPageNumbers = t.bucketsPageNumbers)
    (hmembers : u.bucketsSizes = t.bucketsSizes ∧ u.tuplesCount = t.tuplesCount ∧
      u.depth = t.depth)
    (hfile : ∀ page, (page ∈ rest ∨ ∃ c, c ≠ bucket ∧ page ∈ t.bucketsPageNumbers c) →
      u.file page = t.file page)
    (hfull : out.length = newPageNumbers.length * maxTuples) :
    Writing maxTuples t bucket out rest (Merging.newPage u newPageNumbers) := by
  have hadded := addPage_withPages u t.bucketsPageNumbers bucket (newPageNumbers ++ rest)
    newPageNumbers
  have hconcat : (Merging.newPage u newPageNumbers).newPageNumbers =
      newPageNumbers ++ [(Merging.newPage u newPageNumbers).newPageNumber] := rfl
  have hpages : (Merging.newPage u newPageNumbers).table.bucketsPageNumbers =
      u.bucketsPageNumbers := by
    unfold Merging.newPage getNewPageNumber
    cases u.availablePages <;> rfl
  generalize Merging.newPage u newPageNumbers = new at hadded hconcat hpages ⊢
  obtain ⟨hfree, howned', -, hfile', hcount, hdepth, hsizes⟩ := howned.addPage bucket hadded
  have hsame : ∀ {p : Nat}, p ∈ newPageNumbers ++ rest ∨
      (∃ c, c ≠ bucket ∧ p ∈ t.bucketsPageNumbers c) → new.table.file p = u.file p := by
    intro p hp
    have hne : p ≠ new.newPageNumber := by
      intro heq
      subst heq
      rcases hp with hp | ⟨c, hc, hp⟩
      · apply hfree bucket
        show _ ∈ Function.update t.bucketsPageNumbers bucket (newPageNumbers ++ rest) bucket
        rw [Function.update_self]
        exact hp
      · apply hfree c
        show _ ∈ Function.update t.bucketsPageNumbers bucket (newPageNumbers ++ rest) c
        rw [Function.update_of_ne hc]
        exact hp
    exact (congrFun hfile' p).trans (Function.update_of_ne hne _ _)
  have hempty : (new.table.file new.newPageNumber).content = [] := by
    have hnew := congrFun hfile' new.newPageNumber
    rw [Function.update_self] at hnew
    exact congrArg BucketPage.content hnew
  constructor
  · apply howned'.perm
    rw [hconcat, List.append_assoc, List.append_assoc]
    exact List.perm_append_comm.append_left newPageNumbers
  · rw [hconcat]
    exact hholds.addPage hfull hempty fun p hp => hsame (Or.inl (List.mem_append_left rest hp))
  · rw [hconcat]
    exact List.append_ne_nil_of_right_ne_nil _ (List.cons_ne_nil _ _)
  · rw [hconcat, List.getLastD_concat]
  · rw [hpages, hnumbers]
  · exact ⟨hsizes.trans hmembers.1, hcount.trans hmembers.2.1, hdepth.trans hmembers.2.2⟩
  · intro p hp
    rw [← hfile p hp]
    exact hsame (hp.imp_left (List.mem_append_right newPageNumbers))

theorem writes_start (h : Owned t) (maxTuples bucket : Nat) :
    Writes maxTuples t bucket [] (t.bucketsPageNumbers bucket) (Merging.newPage t []) where
  toWriting := by
    apply writing_newPage _ (Holds.nil maxTuples t.file) rfl ⟨rfl, rfl, rfl⟩ (fun _ _ => rfl)
    · rw [List.length_nil, List.length_nil, Nat.zero_mul]
    · rw [List.nil_append, withPages_self]
      exact h
  tidy := Or.inl (Nat.le_refl 1)

theorem Writing.insert (h : Writing maxTuples t bucket out rest m)
    (hroom : out.length < m.newPageNumbers.length * maxTuples) (x : KeyValueTuple) :
    Writes maxTuples t bucket (out ++ [x]) rest
      { m with table := m.table.modifyPage m.newPageNumber (BucketPage.insert x) } where
  owned := ⟨h.owned.nodup, h.owned.disjoint, h.owned.lt_next, h.owned.nodup_available,
    h.owned.available⟩
  holds := by
    have hnodup := h.owned.nodup bucket
    change (Function.update t.bucketsPageNumbers bucket (m.newPageNumbers ++ rest) bucket).Nodup
      at hnodup
    rw [Function.update_self] at hnodup
    have hinsert : Holds maxTuples _ _ (out ++ [x]) :=
      h.holds.insert (List.nodup_append.mp hnodup).1 h.started hroom
    rw [h.last] at hinsert
    exact hinsert
  started := h.started
  last := h.last
  pages_eq := h.pages_eq
  members_eq := h.members_eq
  file_eq p hp := (Function.update_of_ne (h.new_ne hp) _ _).trans (h.file_eq p hp)
  tidy := by
    rw [List.length_append, List.length_singleton]
    exact Or.inr (Nat.lt_succ_of_le h.holds.begun)

theorem Writing.add (hmax : 0 < maxTuples) (h : Writing maxTuples t bucket out rest m)
    (x : KeyValueTuple) : Writes maxTuples t bucket (out ++ [x]) rest (m.add maxTuples x) := by
  have hcount := h.holds.tupleCount_last h.started
  have hlength := List.length_pos_of_ne_nil h.started
  have hroom := h.holds.room
  obtain ⟨k, hk⟩ := Nat.exists_eq_add_one_of_ne_zero hlength.ne'
  rw [h.last, hk, Nat.add_sub_cancel] at hcount
  rw [hk, Nat.add_one_mul] at hroom
  unfold Merging.add
  rw [hcount]
  by_cases hfull : out.length - k * maxTuples ≥ maxTuples
  · rw [if_pos hfull]
    have hpages : out.length = m.newPageNumbers.length * maxTuples := by
      rw [hk, Nat.add_one_mul]
      omega
    apply (writing_newPage h.owned h.holds h.pages_eq h.members_eq h.file_eq hpages).insert
    show out.length < (m.newPageNumbers ++ [_]).length * maxTuples
    rw [List.length_append, List.length_singleton, Nat.add_one_mul, hpages]
    exact Nat.lt_add_of_pos_right hmax
  · rw [if_neg hfull]
    apply h.insert
    rw [hk, Nat.add_one_mul]
    omega

end

structure Source (maxTuples : Nat) (t : KeyValueHash) (pages : List Nat)
    (all : List KeyValueTuple) : Prop where
  max_pos : 0 < maxTuples
  holds : Holds maxTuples t.file pages all
  page_lt : ∀ i < pages.length, i * maxTuples < all.length

/-- The tuples of a run, up to the page `last`, that are still to be read. -/
structure Reads (maxTuples : Nat) (all : List KeyValueTuple) (last : Nat) (run : RunPlace)
    (left : List KeyValueTuple) : Prop where
  le : run.pageNumber ≤ last
  pos_lt : run.pageNumber < last → run.pos < (pageOf maxTuples all run.pageNumber).length
  left_eq : left = (all.take (last * maxTuples)).drop (run.pageNumber * maxTuples + run.pos)

def runPages (pages : List Nat) (last : Nat) (run : RunPlace) : List Nat :=
  (pages.take last).drop run.pageNumber

section

variable {maxTuples bucket last : Nat} {t : KeyValueHash} {pages others : List Nat}
  {all out left : List KeyValueTuple} {run : RunPlace} {m : Merging}

theorem runPages_of_le (h : last ≤ run.pageNumber) : runPages pages last run = [] := by
  apply List.drop_eq_nil_of_le
  rw [List.length_take]
  omega

theorem runPages_eq_cons (hlast : last ≤ pages.length) (h : run.pageNumber < last) :
    runPages pages last run =
      pages.getD run.pageNumber 0 :: runPages pages last ⟨run.pageNumber + 1, 0⟩ := by
  have hlt : run.pageNumber < (pages.take last).length := by
    rw [List.length_take]
    omega
  rw [runPages, List.drop_eq_getElem_cons hlt, List.getElem_take,
    List.getD_eq_getElem _ _ (by omega)]
  rfl

theorem Reads.left_eq_nil (h : Reads maxTuples all last run left) (hlast : last ≤ run.pageNumber) :
    left = [] := by
  have hmul := Nat.mul_le_mul_right maxTuples hlast
  rw [h.left_eq]
  apply List.drop_eq_nil_of_le
  rw [List.length_take]
  omega

theorem Reads.next (hsource : Source maxTuples t pages all) (hlast : last ≤ pages.length)
    (h : Reads maxTuples all last run left) (hlt : run.pageNumber < last) :
    ∃ left', left = (t.file (pages.getD run.pageNumber 0)).tuple run.pos :: left' ∧
      Reads maxTuples all last
        (if run.pos + 1 ≥ (t.file (pages.getD run.pageNumber 0)).tupleCount then
          ⟨run.pageNumber + 1, 0⟩ else ⟨run.pageNumber, run.pos + 1⟩) left' := by
  have hcontent := hsource.holds.page run.pageNumber (by omega)
  have hcount : (t.file (pages.getD run.pageNumber 0)).tupleCount =
      (pageOf maxTuples all run.pageNumber).length := by
    rw [← hcontent, length_content]
  have hpos := h.pos_lt hlt
  have hlength := length_pageOf maxTuples all run.pageNumber
  have hend : (run.pageNumber + 1) * maxTuples ≤ last * maxTuples := Nat.mul_le_mul_right _ hlt
  rw [Nat.add_one_mul] at hend
  have hget : (all.take (last * maxTuples))[run.pageNumber * maxTuples + run.pos]? =
      some ((t.file (pages.getD run.pageNumber 0)).tuple run.pos) := by
    rw [List.getElem?_take_of_lt (by omega), ← getElem?_pageOf (by omega), ← hcontent]
    exact getElem?_content _ (by omega)
  obtain ⟨hbound, hget⟩ := List.getElem?_eq_some_iff.mp hget
  refine ⟨(all.take (last * maxTuples)).drop (run.pageNumber * maxTuples + (run.pos + 1)), ?_, ?_⟩
  · rw [h.left_eq, List.drop_eq_getElem_cons hbound, hget]
    rfl
  rw [hcount]
  by_cases hpage : run.pos + 1 ≥ (pageOf maxTuples all run.pageNumber).length
  · rw [if_pos hpage]
    refine ⟨hlt, fun hnext => ?_, ?_⟩
    · have hnonempty := hsource.page_lt (run.pageNumber + 1) (hnext.trans_le hlast)
      have hmax := hsource.max_pos
      rw [length_pageOf]
      show 0 < min maxTuples (all.length - (run.pageNumber + 1) * maxTuples)
      omega
    · -- a page that is not full is the last one
      show _ = (all.take (last * maxTuples)).drop ((run.pageNumber + 1) * maxTuples)
      rw [Nat.add_one_mul]
      by_cases hfull : maxTuples ≤ run.pos + 1
      · rw [show run.pos + 1 = maxTuples by omega]
      · have hshort : all.length ≤ run.pageNumber * maxTuples + (run.pos + 1) := by omega
        rw [List.drop_eq_nil_of_le, List.drop_eq_nil_of_le]
        all_goals
          rw [List.length_take]
          omega
  · rw [if_neg hpage]
    exact ⟨h.le, fun _ => Nat.lt_of_not_le hpage, rfl⟩

theorem Writing.take (hsource : Source maxTuples t pages all) (hlast : last ≤ pages.length)
    (hreads : Reads maxTuples all last run left) (hlt : run.pageNumber < last)
    (h : Writing maxTuples t bucket out (runPages pages last run ++ others) m) :
    ∃ left', left = (t.file (pages.getD run.pageNumber 0)).tuple run.pos :: left' ∧
      Reads maxTuples all last (m.take maxTuples pages run).1 left' ∧
      Writes maxTuples t bucket (out ++ [(t.file (pages.getD run.pageNumber 0)).tuple run.pos])
        (runPages pages last (m.take maxTuples pages run).1 ++ others)
        (m.take maxTuples pages run).2 := by
  obtain ⟨left', hleft, hnext⟩ := hreads.next hsource hlast hlt
  have hpages := runPages_eq_cons hlast hlt
  have hpage : pages.getD run.pageNumber 0 ∈ runPages pages last run ++ others := by
    rw [hpages]
    exact List.mem_cons_self
  obtain ⟨added, hadded⟩ : ∃ added, added =
      m.add maxTuples ((t.file (pages.getD run.pageNumber 0)).tuple run.pos) := ⟨_, rfl⟩
  have hwrites := h.add hsource.max_pos ((t.file (pages.getD run.pageNumber 0)).tuple run.pos)
  rw [← hadded] at hwrites
  have htake : m.take maxTuples pages run =
      if run.pos + 1 ≥ (t.file (pages.getD run.pageNumber 0)).tupleCount then
        (⟨run.pageNumber + 1, 0⟩, added.release (pages.getD run.pageNumber 0))
      else (⟨run.pageNumber, run.pos + 1⟩, added) := by
    unfold Merging.take
    dsimp only
    rw [h.file_eq _ (Or.inl hpage), ← hadded, hwrites.file_eq _ (Or.inl hpage)]
  refine ⟨left', hleft, ?_⟩
  rw [htake]
  by_cases hend : run.pos + 1 ≥ (t.file (pages.getD run.pageNumber 0)).tupleCount
  · rw [if_pos hend] at hnext ⊢
    refine ⟨hnext, Writes.release ?_⟩
    rw [hpages] at hwrites
    exact hwrites
  · rw [if_neg hend] at hnext ⊢
    exact ⟨hnext, hwrites⟩

def smallerTuple (x y : KeyValueTuple) : Bool := KeyValueHashBucket.smallerKey x.key y.key

theorem insertRest_spec (hsource : Source maxTuples t pages all) (hlast : last ≤ pages.length)
    (fuel : Nat) : ∀ {run : RunPlace} {left out : List KeyValueTuple} {m : Merging},
    Reads maxTuples all last run left →
    Writes maxTuples t bucket out (runPages pages last run ++ others) m → left.length < fuel →
    ∃ m', m.insertRest maxTuples pages last fuel run = some m' ∧
      Writes maxTuples t bucket (out ++ left) others m' := by
  induction fuel with
  | zero =>
    intro run left out m _ _ hfuel
    exact absurd hfuel (Nat.not_lt_zero _)
  | succ fuel ih =>
    intro run left out m hreads h hfuel
    rw [Merging.insertRest]
    by_cases hlt : run.pageNumber < last
    · rw [if_pos hlt]
      obtain ⟨left', hleft, hnext, hwrites⟩ := h.toWriting.take hsource hlast hreads hlt
      rw [hleft, List.length_cons] at hfuel
      obtain ⟨m', hrest, hall⟩ := ih hnext hwrites (by omega)
      refine ⟨m', hrest, ?_⟩
      rw [List.append_assoc] at hall
      rw [hleft]
      exact hall
    · rw [if_neg hlt]
      have hend := Nat.le_of_not_lt hlt
      rw [runPages_of_le hend] at h
      rw [hreads.left_eq_nil hend, List.append_nil]
      exact ⟨m, rfl, h⟩

theorem mergeRuns_spec {leftLast rightLast : Nat} (hsource : Source maxTuples t pages all)
    (hleftLast : leftLast ≤ pages.length) (hrightLast : rightLast ≤ pages.length) (fuel : Nat) :
    ∀ {left right : RunPlace} {xs ys out : List KeyValueTuple} {m : Merging},
    Reads maxTuples all leftLast left xs → Reads maxTuples all rightLast right ys →
    Writes maxTuples t bucket out
      (runPages pages leftLast left ++ (runPages pages rightLast right ++ others)) m →
    xs.length + ys.length + 1 < fuel →
    ∃ m', m.mergeRuns maxTuples pages leftLast rightLast fuel left right = some m' ∧
      Writes maxTuples t bucket (out ++ xs.merge ys smallerTuple) others m' := by
  induction fuel with
  | zero =>
    intro left right xs ys out m _ _ _ hfuel
    exact absurd hfuel (Nat.not_lt_zero _)
  | succ fuel ih =>
    intro left right xs ys out m hxs hys h hfuel
    rw [Merging.mergeRuns]
    by_cases hleft : left.pageNumber < leftLast
    · by_cases hright : right.pageNumber < rightLast
      · rw [if_pos ⟨hleft, hright⟩]
        -- the tuples are read from pages that have not been written to
        have hmemLeft : pages.getD left.pageNumber 0 ∈
            runPages pages leftLast left ++ (runPages pages rightLast right ++ others) := by
          rw [runPages_eq_cons hleftLast hleft]
          exact List.mem_cons_self
        have hmemRight : pages.getD right.pageNumber 0 ∈
            runPages pages leftLast left ++ (runPages pages rightLast right ++ others) := by
          rw [runPages_eq_cons hrightLast hright]
          exact List.mem_append_right _ List.mem_cons_self
        have hfileLeft := h.file_eq _ (Or.inl hmemLeft)
        have hfileRight := h.file_eq _ (Or.inl hmemRight)
        dsimp only
        rw [hfileLeft, hfileRight]
        obtain ⟨xs', hxs', hnextLeft, hwritesLeft⟩ := h.toWriting.take hsource hleftLast hxs hleft
        have hswap := h.perm (List.perm_append_comm_assoc _ _ _)
        obtain ⟨ys', hys', hnextRight, hwritesRight⟩ :=
          hswap.toWriting.take hsource hrightLast hys hright
        rw [hxs', hys', List.length_cons, List.length_cons] at hfuel
        rw [hxs', hys', List.cons_merge_cons, smallerTuple]
        split
        · obtain ⟨m', hmerge, hall⟩ := ih hnextLeft hys hwritesLeft
            (by rw [hys', List.length_cons]; omega)
          refine ⟨m', hmerge, ?_⟩
          rw [List.append_assoc, hys'] at hall
          exact hall
        · obtain ⟨m', hmerge, hall⟩ := ih hxs hnextRight
            (hwritesRight.perm (List.perm_append_comm_assoc _ _ _))
            (by rw [hxs', List.length_cons]; omega)
          refine ⟨m', hmerge, ?_⟩
          rw [List.append_assoc, hxs'] at hall
          exact hall
      · rw [if_neg fun hboth => hright hboth.2, if_pos hleft]
        have hend := Nat.le_of_not_lt hright
        rw [runPages_of_le hend, List.nil_append] at h
        have hnil := hys.left_eq_nil hend
        rw [hnil, List.length_nil] at hfuel
        rw [hnil, List.merge_right]
        exact insertRest_spec hsource hleftLast fuel hxs h (by omega)
    · rw [if_neg fun hboth => hleft hboth.1, if_neg hleft]
      have hend := Nat.le_of_not_lt hleft
      rw [runPages_of_le hend, List.nil_append] at h
      have hnil := hxs.left_eq_nil hend
      rw [hnil, List.length_nil] at hfuel
      rw [hnil, List.nil_merge]
      exact insertRest_spec hsource hrightLast fuel hys h (by omega)

end

end KeyValueHash
end MillenniumDB
