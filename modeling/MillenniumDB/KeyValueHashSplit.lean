import MillenniumDB.KeyValueHash

/-!
# Splitting the buckets of a hash

While `split` goes over the tuples of a bucket, what stays is written to the pages that are read.
The place that is written to never passes the place that is read from, so nothing is lost.
-/

namespace MillenniumDB
namespace KeyValueHash

def stays (hash : List Nat → Nat) (numberOfBuckets bucketNumber : Nat) (x : KeyValueTuple) :
    Bool :=
  decide (hash x.key &&& (numberOfBuckets - 1) = bucketNumber)

def tupleAt (maxTuples : Nat) (file : Nat → BucketPage) (pages : List Nat) (j : Nat) :
    KeyValueTuple :=
  (file (pages.getD (j / maxTuples) 0)).tuple (j % maxTuples)

section

variable {maxTuples j page pos count : Nat} {file : Nat → BucketPage} {pages : List Nat}
  {tuples : List KeyValueTuple} {x : KeyValueTuple} {t : KeyValueHash}

theorem div_lt_length (hj : j < pages.length * maxTuples) : j / maxTuples < pages.length :=
  Nat.div_lt_of_lt_mul (Nat.mul_comm _ _ ▸ hj)

theorem getElem?_content (p : BucketPage) (hj : j < p.tupleCount) :
    p.content[j]? = some (p.tuple j) := by
  rw [BucketPage.content, List.getElem?_map, List.getElem?_range hj, Option.map_some]

theorem Holds.tupleAt (h : Holds maxTuples file pages tuples) (hmax : 0 < maxTuples)
    (hj : j < tuples.length) : some (tupleAt maxTuples file pages j) = tuples[j]? := by
  have hpage := div_lt_length (hj.trans_le h.room)
  have hpos := Nat.mod_lt j hmax
  have hplace := Nat.div_add_mod' j maxTuples
  have hcount := h.tupleCount hpage
  rw [KeyValueHash.tupleAt, ← getElem?_content _ (by omega), h.page _ hpage, getElem?_pageOf hpos,
    hplace]

theorem holds_of_tupleAt (hcount : ∀ i < pages.length,
      (file (pages.getD i 0)).tupleCount = min maxTuples (tuples.length - i * maxTuples))
    (htuple : ∀ j < tuples.length, some (tupleAt maxTuples file pages j) = tuples[j]?)
    (hbegun : (pages.length - 1) * maxTuples ≤ tuples.length)
    (hroom : tuples.length ≤ pages.length * maxTuples) : Holds maxTuples file pages tuples where
  page i hi := by
    have hlength := hcount i hi
    apply List.ext_getElem?
    intro k
    by_cases hk : k < (file (pages.getD i 0)).tupleCount
    · have hlt : k < maxTuples := by omega
      have hdiv : (i * maxTuples + k) / maxTuples = i := by
        rw [Nat.mul_comm, Nat.mul_add_div (by omega), Nat.div_eq_of_lt hlt, Nat.add_zero]
      have hmod : (i * maxTuples + k) % maxTuples = k := by
        rw [Nat.mul_comm, Nat.mul_add_mod, Nat.mod_eq_of_lt hlt]
      have heq := htuple (i * maxTuples + k) (by omega)
      rw [tupleAt, hdiv, hmod] at heq
      rw [getElem?_content _ hk, getElem?_pageOf hlt, heq]
    · rw [List.getElem?_eq_none (by rw [length_content]; omega),
        List.getElem?_eq_none (by rw [length_pageOf]; omega)]
  begun := hbegun
  room := hroom

theorem tupleAt_insertInPos (hmax : 0 < maxTuples) (hnodup : pages.Nodup)
    (hpage : page < pages.length) (hpos : pos < maxTuples) (hj : j < pages.length * maxTuples) :
    tupleAt maxTuples (Function.update file (pages.getD page 0)
        ((file (pages.getD page 0)).insertInPos x pos)) pages j =
      if j = page * maxTuples + pos then x else tupleAt maxTuples file pages j := by
  have hplace := Nat.div_add_mod' j maxTuples
  unfold tupleAt
  by_cases hsame : j / maxTuples = page
  · rw [hsame, Function.update_self]
    dsimp only [BucketPage.insertInPos]
    rw [hsame] at hplace
    by_cases hj' : j = page * maxTuples + pos
    · rw [if_pos hj', show j % maxTuples = pos by omega, Function.update_self]
    · rw [if_neg hj', Function.update_of_ne (by omega)]
  · have hne : pages.getD (j / maxTuples) 0 ≠ pages.getD page 0 :=
      fun heq => hsame (getD_injective hnodup (div_lt_length hj) hpage heq)
    have hj' : j ≠ page * maxTuples + pos := by
      intro heq
      apply hsame
      rw [heq, Nat.mul_comm, Nat.mul_add_div hmax, Nat.div_eq_of_lt hpos, Nat.add_zero]
    rw [Function.update_of_ne hne, if_neg hj']

theorem modifyPage_of_tupleCount (h : (t.file page).tupleCount = count) :
    t.modifyPage page (BucketPage.setTupleCount count) = t := by
  have hpage : (t.file page).setTupleCount count = t.file page := by
    rw [← h]
    rfl
  rw [modifyPage, hpage, Function.update_eq_self]

end

/-- A bucket has a last page with room for another tuple, and nothing else has changed. -/
structure HasPage (maxTuples : Nat) (t : KeyValueHash) (bucket : Nat)
    (tuples : List KeyValueTuple) (added : Nat × KeyValueHash) : Prop where
  owned : Owned added.2
  started : added.2.bucketsPageNumbers bucket ≠ []
  back : added.1 = added.2.back bucket
  pages_eq : ∀ c, c ≠ bucket → added.2.bucketsPageNumbers c = t.bucketsPageNumbers c
  file_eq : ∀ c, ∀ p ∈ t.bucketsPageNumbers c, added.2.file p = t.file p
  holds : Holds maxTuples added.2.file (added.2.bucketsPageNumbers bucket) tuples
  room : tuples.length < (added.2.bucketsPageNumbers bucket).length * maxTuples
  sizes : added.2.bucketsSizes = t.bucketsSizes
  depth : added.2.depth = t.depth
  tuplesCount : added.2.tuplesCount = t.tuplesCount

section

variable {maxTuples bucket : Nat} {tuples : List KeyValueTuple} {t : KeyValueHash}
  {added : Nat × KeyValueHash}

theorem hasPage_of_addPage (hmax : 0 < maxTuples) (howned : Owned t)
    (hholds : Holds maxTuples t.file (t.bucketsPageNumbers bucket) tuples)
    (hstarted : t.bucketsPageNumbers bucket ≠ [])
    (hadded : added = if (t.file (t.back bucket)).tupleCount ≥ maxTuples then t.addPage bucket
      else (t.back bucket, t)) : HasPage maxTuples t bucket tuples added := by
  have hcount := hholds.tupleCount_last hstarted
  rw [show (t.bucketsPageNumbers bucket).getLastD 0 = t.back bucket from rfl] at hcount
  have hlength := List.length_pos_of_ne_nil hstarted
  obtain ⟨k, hk⟩ := Nat.exists_eq_add_one_of_ne_zero hlength.ne'
  have hbegun := hholds.begun
  have hroom := hholds.room
  rw [hk, Nat.add_sub_cancel] at hbegun hcount
  rw [hk, Nat.add_one_mul] at hroom
  rw [hcount] at hadded
  by_cases hfull : tuples.length - k * maxTuples ≥ maxTuples
  · rw [if_pos hfull] at hadded
    obtain ⟨hfree, howned', hpages, hfile, hcount', hdepth, hsizes⟩ :=
      howned.addPage bucket hadded.symm
    have hsame : ∀ c, ∀ p ∈ t.bucketsPageNumbers c, added.2.file p = t.file p := by
      intro c p hp
      rw [hfile, Function.update_of_ne fun heq => hfree c (by rw [← heq]; exact hp)]
    have hnewPages : added.2.bucketsPageNumbers bucket =
        t.bucketsPageNumbers bucket ++ [added.1] := by
      rw [hpages, Function.update_self]
    have hempty : (added.2.file added.1).content = [] := by
      rw [hfile, Function.update_self]
      rfl
    refine ⟨howned', by rw [hnewPages]; simp, by rw [KeyValueHash.back, hnewPages]; simp,
      fun c hc => by rw [hpages, Function.update_of_ne hc], hsame, ?_, ?_, hsizes, hdepth, hcount'⟩
    · rw [hnewPages]
      apply hholds.addPage _ hempty (hsame bucket)
      rw [hk, Nat.add_one_mul]
      omega
    · rw [hnewPages, List.length_append, List.length_singleton, hk, Nat.add_one_mul,
        Nat.add_one_mul]
      omega
  · rw [if_neg hfull] at hadded
    subst hadded
    refine ⟨howned, hstarted, rfl, fun c _ => rfl, fun c p _ => rfl, hholds, ?_, rfl, rfl, rfl⟩
    rw [hk, Nat.add_one_mul]
    omega

theorem HasPage.ne_of_mem (h : HasPage maxTuples t bucket tuples added) {c p : Nat}
    (hc : c ≠ bucket) (hp : p ∈ t.bucketsPageNumbers c) : p ≠ added.1 := by
  intro heq
  have hlast : added.1 ∈ added.2.bucketsPageNumbers bucket := by
    rw [h.back, KeyValueHash.back, getLastD_eq]
    exact getD_mem (Nat.sub_lt (List.length_pos_of_ne_nil h.started) Nat.one_pos)
  apply h.owned.disjoint bucket c hc.symm _ hlast
  rw [h.pages_eq c hc, ← heq]
  exact hp

theorem HasPage.insert (h : HasPage maxTuples t bucket tuples added) (x : KeyValueTuple) :
    Holds maxTuples (added.2.modifyPage added.1 (BucketPage.insert x)).file
      (added.2.bucketsPageNumbers bucket) (tuples ++ [x]) := by
  have hinsert : Holds maxTuples _ _ (tuples ++ [x]) :=
    h.holds.insert (h.owned.nodup bucket) h.started h.room
  rw [show (added.2.bucketsPageNumbers bucket).getLastD 0 = added.1 from h.back.symm] at hinsert
  exact hinsert

theorem HasPage.insert_file_eq (h : HasPage maxTuples t bucket tuples added) (x : KeyValueTuple)
    {c p : Nat} (hc : c ≠ bucket) (hp : p ∈ t.bucketsPageNumbers c) :
    (added.2.modifyPage added.1 (BucketPage.insert x)).file p = t.file p := by
  dsimp only [modifyPage]
  rw [Function.update_of_ne (h.ne_of_mem hc hp)]
  exact h.file_eq c p hp

end

/-- After some tuples of a bucket have been read: those that stay stand at the first places of its
pages, those that were not read at their own, and the others in the new bucket. -/
structure SplitAt (maxTuples : Nat) (stay : KeyValueTuple → Bool) (t : KeyValueHash)
    (tuples : List KeyValueTuple) (bucket new r : Nat) (s : Splitting) : Prop where
  place : s.writingOldPos * maxTuples + s.writingOldTupleCount =
    ((tuples.take r).filter stay).length
  count_le : s.writingOldTupleCount ≤ maxTuples
  count_pos : s.writingOldTupleCount = 0 → s.writingOldPos = 0
  written : ∀ j < ((tuples.take r).filter stay).length,
    some (tupleAt maxTuples s.table.file (t.bucketsPageNumbers bucket) j) =
      ((tuples.take r).filter stay)[j]?
  unread : ∀ j, r ≤ j → j < tuples.length →
    some (tupleAt maxTuples s.table.file (t.bucketsPageNumbers bucket) j) = tuples[j]?
  counts : ∀ page ∈ t.bucketsPageNumbers bucket,
    (s.table.file page).tupleCount = (t.file page).tupleCount
  others : ∀ c, c ≠ bucket → c ≠ new → ∀ page ∈ t.bucketsPageNumbers c,
    s.table.file page = t.file page
  moved : Holds maxTuples s.table.file (s.table.bucketsPageNumbers new)
    ((tuples.take r).filter fun x => !stay x)
  tidy : (s.table.bucketsPageNumbers new).length ≤ 1 ∨
    ((s.table.bucketsPageNumbers new).length - 1) * maxTuples <
      ((tuples.take r).filter fun x => !stay x).length
  started : s.table.bucketsPageNumbers new ≠ []
  back : s.newBucketPage = s.table.back new
  pages_eq : ∀ c, c ≠ new → s.table.bucketsPageNumbers c = t.bucketsPageNumbers c
  sizes_bucket : s.table.bucketsSizes bucket +
    ((tuples.take r).filter fun x => !stay x).length = t.bucketsSizes bucket
  sizes_new : s.table.bucketsSizes new = ((tuples.take r).filter fun x => !stay x).length
  sizes_eq : ∀ c, c ≠ bucket → c ≠ new → s.table.bucketsSizes c = t.bucketsSizes c
  owned : Owned s.table
  depth : s.table.depth = t.depth
  tuplesCount : s.table.tuplesCount = t.tuplesCount

section

variable {hash : List Nat → Nat} {maxTuples numberOfBuckets bucket new r : Nat}
  {stay : KeyValueTuple → Bool} {t : KeyValueHash} {tuples : List KeyValueTuple} {s : Splitting}
  {x : KeyValueTuple}

theorem SplitAt.length_le (h : SplitAt maxTuples stay t tuples bucket new r s) :
    s.writingOldPos * maxTuples + s.writingOldTupleCount ≤ r := by
  have hfilter := List.length_filter_le stay (tuples.take r)
  rw [h.place]
  rw [List.length_take] at hfilter
  omega

theorem SplitAt.keep (hmax : 0 < maxTuples)
    (hholds : Holds maxTuples t.file (t.bucketsPageNumbers bucket) tuples)
    (hnodup : (t.bucketsPageNumbers bucket).Nodup) (hnew : bucket ≠ new)
    (h : SplitAt maxTuples stay t tuples bucket new r s) (hr : tuples[r]? = some x)
    (hstay : stay x = true) {page pos : Nat} (hplace : page * maxTuples + pos =
      s.writingOldPos * maxTuples + s.writingOldTupleCount) (hpos : pos < maxTuples) :
    SplitAt maxTuples stay t tuples bucket new (r + 1)
      ⟨s.table.modifyPage ((t.bucketsPageNumbers bucket).getD page 0) (BucketPage.insertInPos x pos),
        s.newBucketPage, page, pos + 1⟩ := by
  obtain ⟨hlt, hx⟩ := List.getElem?_eq_some_iff.mp hr
  have hle := h.length_le
  have hroom := hholds.room
  have hwritten : page * maxTuples + pos = ((tuples.take r).filter stay).length :=
    hplace.trans h.place
  have hpage : page < (t.bucketsPageNumbers bucket).length := by
    apply Nat.lt_of_mul_lt_mul_right (a := maxTuples)
    omega
  have hkept : (tuples.take (r + 1)).filter stay = (tuples.take r).filter stay ++ [x] := by
    rw [List.take_add_one, hr, Option.toList_some, List.filter_append, List.filter_singleton,
      hstay, cond_true]
  have hmoved : (tuples.take (r + 1)).filter (fun x => !stay x) =
      (tuples.take r).filter fun x => !stay x := by
    rw [List.take_add_one, hr, Option.toList_some, List.filter_append, List.filter_singleton,
      hstay, Bool.not_true, cond_false, List.append_nil]
  have hat : ∀ j < (t.bucketsPageNumbers bucket).length * maxTuples, tupleAt maxTuples
      (s.table.modifyPage ((t.bucketsPageNumbers bucket).getD page 0)
        (BucketPage.insertInPos x pos)).file (t.bucketsPageNumbers bucket) j =
      if j = page * maxTuples + pos then x
      else tupleAt maxTuples s.table.file (t.bucketsPageNumbers bucket) j :=
    fun j hj => tupleAt_insertInPos hmax hnodup hpage hpos hj
  -- a page of another bucket is not the one that is written to
  have hother : ∀ c, c ≠ bucket → ∀ p ∈ s.table.bucketsPageNumbers c,
      p ≠ (t.bucketsPageNumbers bucket).getD page 0 := by
    intro c hc p hp heq
    apply h.owned.disjoint c bucket hc p hp
    rw [heq, h.pages_eq bucket hnew]
    exact getD_mem hpage
  refine ⟨?_, hpos, fun hzero => absurd hzero (Nat.succ_ne_zero pos), ?_, ?_, ?_, ?_, ?_, ?_,
    h.started, h.back, h.pages_eq, ?_, ?_, h.sizes_eq, ?_, h.depth, h.tuplesCount⟩
  · dsimp only
    rw [hkept, List.length_append, List.length_singleton]
    omega
  · intro j hj
    rw [hkept, List.length_append, List.length_singleton] at hj
    rw [hat j (by omega), hkept]
    by_cases hjw : j = page * maxTuples + pos
    · rw [if_pos hjw, hjw, hwritten, List.getElem?_append_right (Nat.le_refl _), Nat.sub_self]
      rfl
    · have hjlt : j < ((tuples.take r).filter stay).length := by omega
      rw [if_neg hjw, List.getElem?_append_left hjlt]
      exact h.written j hjlt
  · intro j hj hjlt
    rw [hat j (by omega), if_neg (by omega)]
    exact h.unread j (by omega) hjlt
  · intro p hp
    rw [← h.counts p hp]
    dsimp only [modifyPage]
    by_cases heq : p = (t.bucketsPageNumbers bucket).getD page 0
    · rw [heq, Function.update_self]
      rfl
    · rw [Function.update_of_ne heq]
  · intro c hc hcnew p hp
    rw [← h.others c hc hcnew p hp]
    exact Function.update_of_ne (hother c hc p (by rw [h.pages_eq c hcnew]; exact hp)) _ _
  · rw [hmoved]
    exact h.moved.congr fun p hp => Function.update_of_ne (hother new hnew.symm p hp) _ _
  · rw [hmoved]
    exact h.tidy
  · rw [hmoved]
    exact h.sizes_bucket
  · rw [hmoved]
    exact h.sizes_new
  · exact ⟨h.owned.nodup, h.owned.disjoint, h.owned.lt_next, h.owned.nodup_available,
      h.owned.available⟩

theorem SplitAt.move (hmax : 0 < maxTuples) (hnew : bucket ≠ new)
    (h : SplitAt maxTuples stay t tuples bucket new r s) (hr : tuples[r]? = some x)
    (hstay : stay x = false) {table : KeyValueHash}
    (hsize : t.bucketsSizes bucket = tuples.length)
    (hold : tuples.length ≤ (t.bucketsPageNumbers bucket).length * maxTuples)
    (htable : table = { s.table with
      bucketsSizes := Function.update (Function.update s.table.bucketsSizes new
        (s.table.bucketsSizes new + 1)) bucket (s.table.bucketsSizes bucket - 1) }) {added : Nat × KeyValueHash}
    (hadded : added = if (table.file s.newBucketPage).tupleCount ≥ maxTuples then table.addPage new
      else (s.newBucketPage, table)) :
    SplitAt maxTuples stay t tuples bucket new (r + 1)
      ⟨added.2.modifyPage added.1 (BucketPage.insert x), added.1, s.writingOldPos,
        s.writingOldTupleCount⟩ := by
  obtain ⟨hlt, hx⟩ := List.getElem?_eq_some_iff.mp hr
  have hkept : (tuples.take (r + 1)).filter stay = (tuples.take r).filter stay := by
    rw [List.take_add_one, hr, Option.toList_some, List.filter_append, List.filter_singleton,
      hstay, cond_false, List.append_nil]
  have hmoved : (tuples.take (r + 1)).filter (fun x => !stay x) =
      ((tuples.take r).filter fun x => !stay x) ++ [x] := by
    rw [List.take_add_one, hr, Option.toList_some, List.filter_append, List.filter_singleton,
      hstay, Bool.not_false, cond_true]
  have howned : Owned table := by
    rw [htable]
    exact ⟨h.owned.nodup, h.owned.disjoint, h.owned.lt_next, h.owned.nodup_available,
      h.owned.available⟩
  have hpages : table.bucketsPageNumbers = s.table.bucketsPageNumbers := by rw [htable]
  have hfile : table.file = s.table.file := by rw [htable]
  have hback : s.newBucketPage = table.back new := by
    rw [KeyValueHash.back, hpages]
    exact h.back
  rw [hback] at hadded
  have hpage := hasPage_of_addPage hmax howned (by rw [hpages, hfile]; exact h.moved)
    (by rw [hpages]; exact h.started) hadded
  have hkeep : ∀ c, c ≠ new → ∀ p ∈ t.bucketsPageNumbers c,
      (added.2.modifyPage added.1 (BucketPage.insert x)).file p = s.table.file p := by
    intro c hc p hp
    rw [hpage.insert_file_eq x hc (by rw [hpages, h.pages_eq c hc]; exact hp), hfile]
  -- a place of the old pages
  have hat : ∀ j < tuples.length,
      tupleAt maxTuples (added.2.modifyPage added.1 (BucketPage.insert x)).file
        (t.bucketsPageNumbers bucket) j =
      tupleAt maxTuples s.table.file (t.bucketsPageNumbers bucket) j := by
    intro j hj
    rw [tupleAt, tupleAt, hkeep bucket hnew _ (getD_mem (div_lt_length (hj.trans_le hold)))]
  have hkeptle := List.length_filter_le stay (tuples.take r)
  have hmovedle := List.length_filter_le (fun x => !stay x) (tuples.take r)
  have hbucketSize := h.sizes_bucket
  rw [List.length_take] at hkeptle hmovedle
  have hsizesEq : (added.2.modifyPage added.1 (BucketPage.insert x)).bucketsSizes =
      Function.update (Function.update s.table.bucketsSizes new (s.table.bucketsSizes new + 1))
        bucket (s.table.bucketsSizes bucket - 1) := by
    rw [show (added.2.modifyPage added.1 (BucketPage.insert x)).bucketsSizes =
      added.2.bucketsSizes from rfl, hpage.sizes, htable]
  refine ⟨?_, h.count_le, h.count_pos, ?_, ?_, ?_, ?_, ?_, ?_, hpage.started, hpage.back, ?_, ?_,
    ?_, ?_, ?_, ?_, ?_⟩
  · rw [hkept]
    exact h.place
  · intro j hj
    rw [hkept] at hj ⊢
    rw [hat j (by omega)]
    exact h.written j hj
  · intro j hj hjlt
    rw [hat j hjlt]
    exact h.unread j (Nat.le_of_succ_le hj) hjlt
  · intro p hp
    rw [hkeep bucket hnew p hp]
    exact h.counts p hp
  · intro c hc hcnew p hp
    rw [hkeep c hcnew p hp]
    exact h.others c hc hcnew p hp
  · rw [hmoved]
    exact hpage.insert x
  · rw [hmoved, List.length_append, List.length_singleton]
    exact Or.inr (Nat.lt_succ_of_le hpage.holds.begun)
  · intro c hc
    exact (hpage.pages_eq c hc).trans (by rw [hpages, h.pages_eq c hc])
  · rw [hsizesEq, Function.update_self, hmoved, List.length_append, List.length_singleton]
    omega
  · rw [hsizesEq, Function.update_of_ne hnew.symm, Function.update_self, hmoved,
      List.length_append, List.length_singleton, h.sizes_new]
  · intro c hc hcnew
    rw [hsizesEq, Function.update_of_ne hc, Function.update_of_ne hcnew]
    exact h.sizes_eq c hc hcnew
  · exact ⟨hpage.owned.nodup, hpage.owned.disjoint, hpage.owned.lt_next,
      hpage.owned.nodup_available, hpage.owned.available⟩
  · rw [show (added.2.modifyPage added.1 (BucketPage.insert x)).depth = added.2.depth from rfl,
      hpage.depth, htable]
    exact h.depth
  · rw [show (added.2.modifyPage added.1 (BucketPage.insert x)).tuplesCount = added.2.tuplesCount
      from rfl, hpage.tuplesCount, htable]
    exact h.tuplesCount

theorem SplitAt.step (hmax : 0 < maxTuples) (hnew : bucket ≠ new)
    (hholds : Holds maxTuples t.file (t.bucketsPageNumbers bucket) tuples)
    (hnodup : (t.bucketsPageNumbers bucket).Nodup) (hsize : t.bucketsSizes bucket = tuples.length)
    (hmoves : ∀ x ∈ tuples, stays hash numberOfBuckets bucket x = false →
      hash x.key &&& (numberOfBuckets - 1) = new)
    (h : SplitAt maxTuples (stays hash numberOfBuckets bucket) t tuples bucket new r s)
    (hr : r < tuples.length) :
    SplitAt maxTuples (stays hash numberOfBuckets bucket) t tuples bucket new (r + 1)
      (splitTuple hash maxTuples numberOfBuckets bucket (t.bucketsPageNumbers bucket)
        ((t.bucketsPageNumbers bucket).getD (r / maxTuples) 0) s (r % maxTuples)) := by
  have hread := h.unread r (Nat.le_refl r) hr
  obtain ⟨x, hx⟩ : ∃ x, x = (s.table.file
      ((t.bucketsPageNumbers bucket).getD (r / maxTuples) 0)).tuple (r % maxTuples) := ⟨_, rfl⟩
  rw [tupleAt, ← hx] at hread
  have hle := h.length_le
  have hroom := hholds.room
  unfold splitTuple
  rw [← hx]
  dsimp only
  cases hstay : stays hash numberOfBuckets bucket x with
  | true =>
    rw [if_pos (of_decide_eq_true hstay)]
    by_cases hfull : s.writingOldTupleCount ≥ maxTuples
    · rw [if_pos hfull]
      have hcount : s.writingOldTupleCount = maxTuples := Nat.le_antisymm h.count_le hfull
      have hend : (s.writingOldPos + 1) * maxTuples ≤ r := by
        rw [Nat.add_one_mul]
        omega
      have hpage : s.writingOldPos < (t.bucketsPageNumbers bucket).length := by
        apply Nat.lt_of_mul_lt_mul_right (a := maxTuples)
        rw [Nat.add_one_mul] at hend
        omega
      -- the page had been full, so it keeps its count
      have hsame : (s.table.file ((t.bucketsPageNumbers bucket).getD s.writingOldPos 0)).tupleCount
          = s.writingOldTupleCount := by
        rw [h.counts _ (getD_mem hpage), hholds.tupleCount hpage, hcount]
        rw [Nat.add_one_mul] at hend
        omega
      rw [modifyPage_of_tupleCount hsame]
      apply h.keep hmax hholds hnodup hnew hread.symm hstay _ hmax
      rw [Nat.add_one_mul, hcount, Nat.add_zero]
    · rw [if_neg hfull]
      exact h.keep hmax hholds hnodup hnew hread.symm hstay rfl (Nat.lt_of_not_le hfull)
  | false =>
    have hdest := hmoves x (List.mem_of_getElem? hread.symm) hstay
    rw [if_neg (of_decide_eq_false hstay), hdest, Function.update_of_ne hnew]
    exact h.move hmax hnew hread.symm hstay hsize hholds.room rfl rfl

theorem splitAt_end (hmax : 0 < maxTuples) (hnew : bucket ≠ new)
    (hholds : Holds maxTuples t.file (t.bucketsPageNumbers bucket) tuples)
    (hnodup : (t.bucketsPageNumbers bucket).Nodup) (hsize : t.bucketsSizes bucket = tuples.length)
    (hmoves : ∀ x ∈ tuples, stays hash numberOfBuckets bucket x = false →
      hash x.key &&& (numberOfBuckets - 1) = new)
    (h : SplitAt maxTuples (stays hash numberOfBuckets bucket) t tuples bucket new 0 s) :
    SplitAt maxTuples (stays hash numberOfBuckets bucket) t tuples bucket new tuples.length
      ((t.bucketsPageNumbers bucket).foldl (fun s page =>
        (List.range (s.table.file page).tupleCount).foldl
          (splitTuple hash maxTuples numberOfBuckets bucket (t.bucketsPageNumbers bucket) page) s)
        s) := by
  obtain ⟨pages, hpages⟩ : ∃ pages, pages = t.bucketsPageNumbers bucket := ⟨_, rfl⟩
  have hroom := hholds.room
  have hbegun := hholds.begun
  rw [← hpages] at hroom hbegun
  -- one page
  have hpage : ∀ i < pages.length, ∀ s,
      SplitAt maxTuples (stays hash numberOfBuckets bucket) t tuples bucket new
        (min (i * maxTuples) tuples.length) s →
      SplitAt maxTuples (stays hash numberOfBuckets bucket) t tuples bucket new
        (min ((i + 1) * maxTuples) tuples.length)
        ((List.range (s.table.file (pages.getD i 0)).tupleCount).foldl
          (splitTuple hash maxTuples numberOfBuckets bucket pages (pages.getD i 0)) s) := by
    intro i hi s hs
    have hcount := hs.counts (pages.getD i 0) (hpages ▸ getD_mem hi)
    rw [hpages, hholds.tupleCount (hpages ▸ hi), ← hpages] at hcount
    have hstart : i * maxTuples ≤ tuples.length :=
      (Nat.mul_le_mul_right maxTuples (Nat.le_sub_one_of_lt hi)).trans hbegun
    rw [Nat.min_eq_left hstart] at hs
    have htuples : ∀ k ≤ min maxTuples (tuples.length - i * maxTuples),
        SplitAt maxTuples (stays hash numberOfBuckets bucket) t tuples bucket new
          (i * maxTuples + k) ((List.range k).foldl
            (splitTuple hash maxTuples numberOfBuckets bucket pages (pages.getD i 0)) s) := by
      intro k
      induction k with
      | zero => exact fun _ => hs
      | succ k ih =>
        intro hk
        have hstep := (ih (Nat.le_of_succ_le hk)).step hmax hnew hholds hnodup hsize hmoves
          (by omega)
        rw [Nat.mul_comm i, Nat.mul_add_div hmax, Nat.div_eq_of_lt (by omega), Nat.add_zero,
          Nat.mul_add_mod, Nat.mod_eq_of_lt (by omega), ← hpages, Nat.mul_comm maxTuples] at hstep
        rw [List.range_succ, List.foldl_append, List.foldl_cons, List.foldl_nil]
        exact hstep
    rw [hcount, Nat.add_one_mul]
    have hend := htuples _ (Nat.le_refl _)
    rw [show i * maxTuples + min maxTuples (tuples.length - i * maxTuples) =
      min (i * maxTuples + maxTuples) tuples.length by omega] at hend
    exact hend
  have hall : ∀ k ≤ pages.length,
      SplitAt maxTuples (stays hash numberOfBuckets bucket) t tuples bucket new
        (min (k * maxTuples) tuples.length)
        ((pages.take k).foldl (fun s page => (List.range (s.table.file page).tupleCount).foldl
          (splitTuple hash maxTuples numberOfBuckets bucket pages page) s) s) := by
    intro k
    induction k with
    | zero =>
      intro _
      rw [Nat.zero_mul, Nat.zero_min]
      exact h
    | succ k ih =>
      intro hk
      rw [List.take_add_one, List.getElem?_eq_getElem hk, Option.toList_some, List.foldl_append,
        List.foldl_cons, List.foldl_nil, ← List.getD_eq_getElem pages 0 hk]
      exact hpage k hk _ (ih (Nat.le_of_succ_le hk))
  have hend := hall pages.length (Nat.le_refl _)
  rw [Nat.min_eq_right hroom, List.take_length] at hend
  rw [← hpages]
  exact hend

end

structure Stored (maxTuples : Nat) (t : KeyValueHash) (content : Nat → List KeyValueTuple) :
    Prop where
  owned : Owned t
  holds : ∀ b, Holds maxTuples t.file (t.bucketsPageNumbers b) (content b)
  tidy : ∀ b, (t.bucketsPageNumbers b).length ≤ 1 ∨
    ((t.bucketsPageNumbers b).length - 1) * maxTuples < (content b).length
  sizes : ∀ b, t.bucketsSizes b = (content b).length

section

variable {hash : List Nat → Nat} {maxTuples numberOfBuckets bucket new : Nat}
  {content : Nat → List KeyValueTuple} {t : KeyValueHash} {tuples : List KeyValueTuple}
  {s : Splitting}

theorem Stored.content_eq_nil (h : Stored maxTuples t content)
    (hpages : t.bucketsPageNumbers bucket = []) : content bucket = [] := by
  have hroom := (h.holds bucket).room
  rw [hpages, List.length_nil, Nat.zero_mul] at hroom
  exact List.length_eq_zero_iff.mp (Nat.le_zero.mp hroom)

/-- Pages that a bucket gives up become available. -/
theorem Owned.dropPages (h : Owned t) (bucket k : Nat) : Owned
    { t with
      availablePages := t.availablePages ++ (t.bucketsPageNumbers bucket).drop k
      bucketsPageNumbers := Function.update t.bucketsPageNumbers bucket
        ((t.bucketsPageNumbers bucket).take k) } := by
  have hsub : ∀ c, ∀ p ∈ Function.update t.bucketsPageNumbers bucket
      ((t.bucketsPageNumbers bucket).take k) c, p ∈ t.bucketsPageNumbers c := by
    intro c p hp
    by_cases hc : c = bucket
    · subst hc
      rw [Function.update_self] at hp
      exact List.mem_of_mem_take hp
    · rw [Function.update_of_ne hc] at hp
      exact hp
  have hnodup := h.nodup bucket
  refine ⟨fun c => ?_, fun b c hbc p hb hc => h.disjoint b c hbc p (hsub b p hb) (hsub c p hc),
    fun c p hp => h.lt_next c p (hsub c p hp), ?_, fun p hp => ?_⟩
  · by_cases hc : c = bucket
    · subst hc
      dsimp only
      rw [Function.update_self]
      exact hnodup.sublist (List.take_sublist _ _)
    · dsimp only
      rw [Function.update_of_ne hc]
      exact h.nodup c
  · refine List.nodup_append.mpr ⟨h.nodup_available,
      hnodup.sublist (List.drop_sublist _ _), fun p hp q hq heq => ?_⟩
    exact (h.available p hp).2 bucket (heq ▸ List.mem_of_mem_drop hq)
  · rcases List.mem_append.mp hp with hfree | hfree
    · exact ⟨(h.available p hfree).1, fun c hc => (h.available p hfree).2 c (hsub c p hc)⟩
    · have hmem : p ∈ t.bucketsPageNumbers bucket := List.mem_of_mem_drop hfree
      refine ⟨h.lt_next bucket p hmem, fun c hc => ?_⟩
      by_cases hcb : c = bucket
      · subst hcb
        dsimp only at hc
        rw [Function.update_self] at hc
        exact List.disjoint_take_drop hnodup (Nat.le_refl _) hc hfree
      · exact h.disjoint c bucket hcb p (hsub c p hc) hmem

section

variable {stay : KeyValueTuple → Bool}
  (hs : SplitAt maxTuples stay t tuples bucket new tuples.length s)

include hs

theorem SplitAt.pos_lt (hbucket : Holds maxTuples t.file (t.bucketsPageNumbers bucket) tuples)
    (hstarted : t.bucketsPageNumbers bucket ≠ []) :
    s.writingOldPos < (t.bucketsPageNumbers bucket).length := by
  have hle := hs.length_le
  have hroom := hbucket.room
  rcases Nat.eq_zero_or_pos s.writingOldTupleCount with hzero | hpos
  · rw [hs.count_pos hzero]
    exact List.length_pos_of_ne_nil hstarted
  · apply Nat.lt_of_mul_lt_mul_right (a := maxTuples)
    omega

/-- The pages of the other buckets stay as they are. -/
theorem SplitAt.file_eq (hnew : bucket ≠ new)
    (hpos : s.writingOldPos < (t.bucketsPageNumbers bucket).length) {c p : Nat} (hc : c ≠ bucket)
    (hp : p ∈ s.table.bucketsPageNumbers c) :
    (s.table.modifyPage ((t.bucketsPageNumbers bucket).getD s.writingOldPos 0)
      (BucketPage.setTupleCount s.writingOldTupleCount)).file p = s.table.file p := by
  apply Function.update_of_ne
  intro heq
  apply hs.owned.disjoint c bucket hc p hp
  rw [hs.pages_eq bucket hnew, heq]
  exact getD_mem hpos

/-- The last page that is kept gets its count, and so the pages hold the tuples that stay. -/
theorem SplitAt.holds_kept (hbucket : Holds maxTuples t.file (t.bucketsPageNumbers bucket) tuples)
    (hmax : 0 < maxTuples) (hnodup : (t.bucketsPageNumbers bucket).Nodup)
    (hpos : s.writingOldPos < (t.bucketsPageNumbers bucket).length) :
    Holds maxTuples (s.table.modifyPage ((t.bucketsPageNumbers bucket).getD s.writingOldPos 0)
        (BucketPage.setTupleCount s.writingOldTupleCount)).file
      ((t.bucketsPageNumbers bucket).take (s.writingOldPos + 1)) (tuples.filter stay) := by
  have hplace := hs.place
  have hwritten := hs.written
  have hcount := hs.count_le
  have hle := hs.length_le
  rw [List.take_length] at hplace hwritten
  have htake : ((t.bucketsPageNumbers bucket).take (s.writingOldPos + 1)).length =
      s.writingOldPos + 1 := by
    rw [List.length_take]
    omega
  have hgetD : ∀ i ≤ s.writingOldPos, ((t.bucketsPageNumbers bucket).take (s.writingOldPos + 1)).getD i 0 =
      (t.bucketsPageNumbers bucket).getD i 0 := by
    intro i hi
    rw [List.getD_eq_getElem?_getD, List.getElem?_take_of_lt (Nat.lt_succ_of_le hi),
      ← List.getD_eq_getElem?_getD]
  dsimp only [modifyPage]
  refine holds_of_tupleAt (fun i hi => ?_) (fun j hj => ?_) ?_ ?_
  · rw [htake] at hi
    rw [hgetD i (Nat.le_of_lt_succ hi)]
    by_cases hlast : i = s.writingOldPos
    · rw [hlast, Function.update_self]
      dsimp only [BucketPage.setTupleCount]
      omega
    · have hne : (t.bucketsPageNumbers bucket).getD i 0 ≠
          (t.bucketsPageNumbers bucket).getD s.writingOldPos 0 :=
        fun heq => hlast (getD_injective hnodup (by omega) hpos heq)
      rw [Function.update_of_ne hne, hs.counts _ (getD_mem (by omega)), hbucket.tupleCount (by omega)]
      have hmul : (i + 1) * maxTuples ≤ s.writingOldPos * maxTuples :=
        Nat.mul_le_mul_right _ (by omega)
      rw [Nat.add_one_mul] at hmul
      omega
  · have hj' : j / maxTuples ≤ s.writingOldPos := by
      apply Nat.le_of_lt_succ
      apply Nat.div_lt_of_lt_mul
      rw [Nat.mul_comm, Nat.succ_mul]
      omega
    have htuple : ∀ p, (Function.update s.table.file
        ((t.bucketsPageNumbers bucket).getD s.writingOldPos 0)
        ((s.table.file ((t.bucketsPageNumbers bucket).getD s.writingOldPos 0)).setTupleCount
          s.writingOldTupleCount) p).tuple = (s.table.file p).tuple := by
      intro p
      by_cases hp : p = (t.bucketsPageNumbers bucket).getD s.writingOldPos 0
      · rw [hp, Function.update_self]
        rfl
      · rw [Function.update_of_ne hp]
    rw [← hwritten j hj, tupleAt, tupleAt, hgetD _ hj', htuple]
  · rw [htake, Nat.add_sub_cancel]
    omega
  · rw [htake, Nat.add_one_mul]
    omega

end

/-- The end of the split of a bucket: its last page gets its count, and the pages behind it become
available. -/
theorem SplitAt.finish {stay : KeyValueTuple → Bool}
    (hholds : ∀ b, Holds maxTuples t.file (t.bucketsPageNumbers b) (content b) ∨ b = new)
    (htidy : ∀ b, (t.bucketsPageNumbers b).length ≤ 1 ∨
      ((t.bucketsPageNumbers b).length - 1) * maxTuples < (content b).length)
    (hsizes : ∀ b, t.bucketsSizes b = (content b).length) (hmax : 0 < maxTuples)
    (hnew : bucket ≠ new) (hstarted : t.bucketsPageNumbers bucket ≠ [])
    (hs : SplitAt maxTuples stay t (content bucket) bucket new (content bucket).length s) :
    Stored maxTuples
      { s.table.modifyPage ((t.bucketsPageNumbers bucket).getD s.writingOldPos 0)
          (BucketPage.setTupleCount s.writingOldTupleCount) with
        availablePages := s.table.availablePages ++
          (t.bucketsPageNumbers bucket).drop (s.writingOldPos + 1)
        bucketsPageNumbers := Function.update s.table.bucketsPageNumbers bucket
          ((t.bucketsPageNumbers bucket).take (s.writingOldPos + 1)) }
      (Function.update (Function.update content bucket ((content bucket).filter stay)) new
        ((content bucket).filter fun x => !stay x)) ∧ s.writingOldPos <
          (t.bucketsPageNumbers bucket).length := by
  have hbucket := (hholds bucket).resolve_right hnew
  have hpos := hs.pos_lt hbucket hstarted
  have hplace := hs.place
  have hmovedHolds := hs.moved
  have hmovedTidy := hs.tidy
  have hsizeBucket := hs.sizes_bucket
  have hsizeNew := hs.sizes_new
  rw [List.take_length] at hplace hmovedHolds hmovedTidy hsizeBucket hsizeNew
  have hsum := List.length_eq_length_filter_add (l := content bucket) stay
  have hsamePages := hs.pages_eq bucket hnew
  have howned := hs.owned.dropPages bucket (s.writingOldPos + 1)
  rw [hsamePages] at howned
  refine ⟨⟨⟨howned.nodup, howned.disjoint, howned.lt_next, howned.nodup_available, howned.available⟩,
    fun c => ?_, fun c => ?_, fun c => ?_⟩, hpos⟩
  · dsimp only
    by_cases hcnew : c = new
    · subst hcnew
      rw [Function.update_of_ne hnew.symm, Function.update_self]
      exact hmovedHolds.congr fun p hp => hs.file_eq hnew hpos hnew.symm hp
    · rw [Function.update_of_ne hcnew]
      by_cases hcb : c = bucket
      · subst hcb
        rw [Function.update_self, Function.update_self]
        exact hs.holds_kept hbucket hmax (hsamePages ▸ hs.owned.nodup c) hpos
      · rw [Function.update_of_ne hcb, Function.update_of_ne hcb, hs.pages_eq c hcnew]
        apply ((hholds c).resolve_right hcnew).congr
        intro p hp
        rw [← hs.others c hcb hcnew p hp]
        exact hs.file_eq hnew hpos hcb (by rw [hs.pages_eq c hcnew]; exact hp)
  · dsimp only
    by_cases hcnew : c = new
    · subst hcnew
      rw [Function.update_of_ne hnew.symm, Function.update_self]
      exact hmovedTidy
    · rw [Function.update_of_ne hcnew]
      by_cases hcb : c = bucket
      · subst hcb
        rw [Function.update_self, Function.update_self, List.length_take]
        rcases Nat.eq_zero_or_pos s.writingOldTupleCount with hzero | hcount
        · have := hs.count_pos hzero
          exact Or.inl (by omega)
        · refine Or.inr ?_
          rw [show min (s.writingOldPos + 1) (t.bucketsPageNumbers c).length - 1 = s.writingOldPos by
            omega]
          omega
      · rw [Function.update_of_ne hcb, Function.update_of_ne hcb, hs.pages_eq c hcnew]
        exact htidy c
  · dsimp only [modifyPage]
    by_cases hcnew : c = new
    · subst hcnew
      rw [Function.update_self]
      exact hsizeNew
    · rw [Function.update_of_ne hcnew]
      by_cases hcb : c = bucket
      · subst hcb
        rw [Function.update_self]
        have := hsizes c
        omega
      · rw [Function.update_of_ne hcb, hs.sizes_eq c hcb hcnew]
        exact hsizes c

end
end KeyValueHash
end MillenniumDB
