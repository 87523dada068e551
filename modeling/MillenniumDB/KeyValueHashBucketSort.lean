import MillenniumDB.KeyValueHashSorted

/-!
# The sort of a bucket as a whole

Whatever has been inserted and sorted before, `sort_bucket` keeps the tuples of the bucket, and they
are sorted just if each page is in order when the merge reads it.  In a sorted bucket `find_first`
finds the first tuple with a key.
-/

namespace MillenniumDB
namespace KeyValueHash

/-- A page is in order when it is read after its sort: the sort has put it in order and is kept, or
the page is read as it was before. -/
def PageSorts (kept : Nat → Bool) (t : KeyValueHash) (page : Nat) : Prop :=
  if kept page then
    KeyValueHashBucket.LastChecksAgree 0 ((t.file page).tupleCount - 1) (t.file page).content
  else (t.file page).content.Pairwise KeyValueTuple.Le

section

variable {maxTuples bucket fuel keySize page : Nat} {kept : Nat → Bool} {t : KeyValueHash}
  {content : Nat → List KeyValueTuple}

theorem content_sort (p : BucketPage) (hkeys : ∀ x ∈ p.content, x.key.length = keySize) :
    p.sort.content = KeyValueHashBucket.partition 0 (p.tupleCount - 1) p.content ∧
      p.sort.tupleCount = p.tupleCount := by
  have hlength := (KeyValueHashBucket.partition_all hkeys).1.length_eq
  rw [length_content] at hlength
  unfold BucketPage.sort
  split
  · next hmany =>
    refine ⟨?_, rfl⟩
    apply List.ext_getElem?
    intro i
    by_cases hi : i < p.tupleCount
    · have hlt := hi.trans_eq hlength
      refine Eq.trans (getElem?_content _ ?_) ?_
      · exact hi
      · rw [List.getElem?_eq_getElem hlt]
        exact congrArg some (List.getD_eq_getElem _ _ hlt)
    · rw [List.getElem?_eq_none, List.getElem?_eq_none]
      · omega
      · rw [length_content]
        exact Nat.le_of_not_lt hi
  · next hfew =>
    rw [KeyValueHashBucket.partition_of_le (by omega)]
    exact ⟨rfl, rfl⟩

def sortedPage (kept : Nat → Bool) (t : KeyValueHash) (page : Nat) : BucketPage :=
  if kept page then (t.file page).sort else t.file page

theorem sortedPage_spec (kept : Nat → Bool) (t : KeyValueHash) (page : Nat)
    (hkeys : ∀ x ∈ (t.file page).content, x.key.length = keySize) :
    (sortedPage kept t page).content.Perm (t.file page).content ∧
      ((sortedPage kept t page).content.Pairwise KeyValueTuple.Le ↔ PageSorts kept t page) := by
  unfold sortedPage PageSorts
  by_cases hkept : kept page = true
  · rw [if_pos hkept, if_pos hkept, (content_sort _ hkeys).1, ← length_content]
    have hall := KeyValueHashBucket.partition_all hkeys
    exact ⟨hall.1.symm, hall.2⟩
  · rw [if_neg hkept, if_neg hkept]
    exact ⟨List.Perm.refl _, Iff.rfl⟩

def sortedFile (kept : Nat → Bool) (t : KeyValueHash) (pages : List Nat) (page : Nat) : BucketPage :=
  if page ∈ pages then sortedPage kept t page else t.file page

theorem foldl_sort_eq (kept : Nat → Bool) {pages : List Nat} (hnodup : pages.Nodup)
    (t : KeyValueHash) :
    pages.foldl (fun t page => if kept page then t.modifyPage page BucketPage.sort else t) t =
      { t with file := sortedFile kept t pages } := by
  induction pages generalizing t with
  | nil =>
    have hfile : sortedFile kept t [] = t.file := by
      funext p
      exact if_neg List.not_mem_nil
    rw [hfile]
    rfl
  | cons page pages ih =>
    obtain ⟨hnew, hnodup⟩ := List.nodup_cons.mp hnodup
    have hhead : (if kept page then t.modifyPage page BucketPage.sort else t) =
        { t with file := Function.update t.file page (sortedPage kept t page) } := by
      rw [sortedPage]
      by_cases hkept : kept page = true
      · rw [if_pos hkept, if_pos hkept]
        rfl
      · rw [if_neg hkept, if_neg hkept, Function.update_eq_self]
    rw [List.foldl_cons, hhead, ih hnodup]
    congr 1
    funext p
    by_cases hp : p = page
    · rw [hp, sortedFile, sortedFile, if_neg hnew, if_pos List.mem_cons_self]
      exact Function.update_self _ _ _
    · have hfile : Function.update t.file page (sortedPage kept t page) p = t.file p :=
        Function.update_of_ne hp _ _
      simp only [sortedFile, sortedPage, List.mem_cons, hp, false_or]
      rw [← sortedPage, hfile]

theorem sortPages_eq (kept : Nat → Bool) (howned : Owned t) (bucket : Nat) :
    t.sortPages kept bucket =
      { t with file := sortedFile kept t (t.bucketsPageNumbers bucket) } :=
  foldl_sort_eq kept (howned.nodup bucket) t

theorem Stored.sortPages (h : Stored maxTuples t content) (kept : Nat → Bool)
    (hkeys : ∀ x ∈ content bucket, x.key.length = keySize) :
    ∃ all, Rearranges maxTuples t content bucket all (t.sortPages kept bucket) ∧
      (RunsSorted KeyValueTuple.Le maxTuples all ↔
        ∀ page ∈ t.bucketsPageNumbers bucket, PageSorts kept t page) := by
  obtain ⟨pages, hpages⟩ : ∃ pages, pages = t.bucketsPageNumbers bucket := ⟨_, rfl⟩
  have hholds := h.holds bucket
  rw [← hpages] at hholds
  have hmem : ∀ {i : Nat}, i < pages.length → pages.getD i 0 ∈ pages := getD_mem
  have hpageKeys : ∀ page ∈ pages, ∀ x ∈ (t.file page).content, x.key.length = keySize := by
    intro page hpage x hx
    apply hkeys x
    rw [← hholds.flatMap_eq]
    exact List.mem_flatMap.mpr ⟨page, hpage, hx⟩
  -- the pages hold as much as before
  have hlengths : ∀ i < pages.length, (sortedPage kept t (pages.getD i 0)).content.length =
      (pageOf maxTuples (content bucket) i).length := by
    intro i hi
    rw [(sortedPage_spec kept t _ (hpageKeys _ (hmem hi))).1.length_eq, hholds.page i hi]
  obtain ⟨hall, htotal⟩ := holdsPages_flatMap hlengths
  obtain ⟨all, hallEq⟩ : ∃ all, all = (List.range pages.length).flatMap
      fun i => (sortedPage kept t (pages.getD i 0)).content := ⟨_, rfl⟩
  rw [← hallEq, Nat.min_eq_right hholds.room] at htotal
  rw [← hallEq] at hall
  have hperm : all.Perm (content bucket) := by
    rw [← List.take_of_length_le hholds.room, ← flatMap_pageOf, hallEq]
    apply List.Perm.flatMap_left
    intro i hi
    rw [← hholds.page i (List.mem_range.mp hi)]
    exact (sortedPage_spec kept t _ (hpageKeys _ (hmem (List.mem_range.mp hi)))).1
  rw [sortPages_eq kept h.owned bucket, ← hpages]
  have hfile : ∀ {i : Nat}, i < pages.length → (sortedFile kept t pages (pages.getD i 0)).content =
      pageOf maxTuples all i := by
    intro i hi
    rw [sortedFile, if_pos (hmem hi)]
    exact hall i hi
  have hpassed : Passed maxTuples t bucket all { t with file := sortedFile kept t pages } := by
    refine ⟨⟨h.owned.nodup, h.owned.disjoint, h.owned.lt_next, h.owned.nodup_available,
      h.owned.available⟩, ?_, htotal ▸ h.tidy bucket, fun _ _ => rfl, fun c hc page hpage => ?_,
      rfl, rfl, rfl⟩
    · show Holds maxTuples (sortedFile kept t pages) (t.bucketsPageNumbers bucket) all
      rw [← hpages]
      exact ⟨fun i hi => hfile hi, htotal ▸ hholds.begun, htotal ▸ hholds.room⟩
    · exact if_neg fun hin => h.owned.disjoint c bucket hc page hpage (hpages ▸ hin)
  refine ⟨all, ⟨h.passed htotal hpassed, hperm, fun _ => rfl, rfl, rfl, rfl⟩, ?_⟩
  rw [runsSorted_iff_pageOf]
  constructor
  · intro hsorted page hpage
    obtain ⟨i, hi, hget⟩ := List.getElem_of_mem hpage
    rw [← List.getD_eq_getElem _ 0 hi] at hget
    rw [← (sortedPage_spec kept t page (hpageKeys page hpage)).2, ← hget]
    have hpage' : (sortedPage kept t (pages.getD i 0)).content = pageOf maxTuples all i := hall i hi
    rw [hpage']
    exact hsorted i
  · intro hsorts i
    by_cases hi : i < pages.length
    · rw [← hall i hi]
      exact (sortedPage_spec kept t _ (hpageKeys _ (hmem hi))).2.mpr (hsorts _ (hmem hi))
    · have hle := Nat.mul_le_mul_right maxTuples (Nat.le_of_not_lt hi)
      rw [pageOf_of_length_le ((htotal ▸ hholds.room).trans hle)]
      exact List.Pairwise.nil

/-- `sort_bucket` ends; the tuples are sorted just if each page is in order for the merge. -/
theorem Stored.sortBucket (h : Stored maxTuples t content) (kept : Nat → Bool)
    (hkeys : ∀ x ∈ content bucket, x.key.length = keySize) :
    ∃ t' out enough,
      (∀ fuel ≥ enough, t.sortBucket maxTuples kept bucket fuel = some t') ∧
      Rearranges maxTuples t content bucket out t' ∧
      (out.Pairwise KeyValueTuple.Le ↔
        ∀ page ∈ t.bucketsPageNumbers bucket, PageSorts kept t page) := by
  obtain ⟨all, hpages, hruns⟩ := h.sortPages kept hkeys
  have hcompares : Compares smallerTuple KeyValueTuple.Le all := by
    intro x hx y hy
    have hlength : x.key.length = y.key.length := by
      rw [hkeys x (hpages.perm.mem_iff.mp hx), hkeys y (hpages.perm.mem_iff.mp hy)]
    exact ⟨KeyValueHashBucket.le_of_smaller hlength, KeyValueHashBucket.le_of_not_smaller hlength⟩
  rw [← Function.update_self bucket all content] at hcompares
  obtain ⟨enough, henough⟩ : ∃ enough, enough =
      (content bucket).length + (t.bucketsPageNumbers bucket).length + 2 := ⟨_, rfl⟩
  have hlength : (Function.update content bucket all bucket).length + 1 < enough := by
    rw [Function.update_self, hpages.perm.length_eq]
    omega
  have hcount := hpages.length_pages bucket
  obtain ⟨t', out, hsort, hmerged, hsorted⟩ :=
    hpages.stored.mergePasses enough Nat.one_pos hcompares hlength (by omega)
  rw [Function.update_self, Nat.one_mul] at hsorted
  exact ⟨t', out, enough, fun fuel hfuel => sortBucket_mono hfuel hsort, hpages.trans hmerged,
    hsorted.trans hruns⟩

end

/-- What a hash can become by insertions and sorts of its buckets, with the tuples inserted since the
last `reset`. -/
inductive Used (hash : List Nat → Nat) (maxTuples : Nat) : List KeyValueTuple → KeyValueHash → Prop
  | begin (file : Nat → BucketPage) {initialDepth : Nat} :
      initialDepth ≤ 30 → Used hash maxTuples [] (begin file initialDepth)
  | reset {tuples : List KeyValueTuple} {t : KeyValueHash} {newDepth : Nat} :
      Used hash maxTuples tuples t → newDepth ≤ 30 → Used hash maxTuples [] (t.reset newDepth)
  | insert {tuples : List KeyValueTuple} {t t' : KeyValueHash} {fuel : Nat}
      {tuple : KeyValueTuple} : Used hash maxTuples tuples t →
      t.insert hash maxTuples fuel tuple = some t' → Used hash maxTuples (tuples ++ [tuple]) t'
  | sortBucket {tuples : List KeyValueTuple} {t t' : KeyValueHash} {kept : Nat → Bool}
      {bucketNumber fuel : Nat} : Used hash maxTuples tuples t →
      t.sortBucket maxTuples kept bucketNumber fuel = some t' → Used hash maxTuples tuples t'

section

variable {hash : List Nat → Nat} {maxTuples keySize bucket : Nat} {tuples out : List KeyValueTuple}
  {t t' : KeyValueHash} {content : Nat → List KeyValueTuple} {x : KeyValueTuple}

theorem Inv.mem (h : Inv hash maxTuples tuples t content) (hx : x ∈ content bucket) :
    x ∈ tuples := by
  by_cases hb : bucket < 2 ^ t.depth
  · rw [(h.perm bucket hb).mem_iff] at hx
    exact (List.mem_filter.mp hx).1
  · rw [h.stored.content_eq_nil (h.beyond bucket (Nat.le_of_not_lt hb))] at hx
    cases hx

theorem Inv.rearranges (h : Inv hash maxTuples tuples t content)
    (hout : Rearranges maxTuples t content bucket out t') :
    Inv hash maxTuples tuples t' (Function.update content bucket out) where
  stored := hout.stored
  perm c hc := by
    rw [hout.members_eq.2.2] at hc ⊢
    by_cases heq : c = bucket
    · subst heq
      rw [Function.update_self]
      exact hout.perm.trans (h.perm c hc)
    · rw [Function.update_of_ne heq]
      exact h.perm c hc
  beyond c hc := by
    rw [hout.members_eq.2.2] at hc
    apply List.eq_nil_of_length_eq_zero
    rw [hout.length_pages, h.beyond c hc]
    rfl
  count := hout.members_eq.2.1.trans h.count
  depth_le := hout.members_eq.2.2.trans_le h.depth_le

theorem Used.inv (h : Used hash maxTuples tuples t) :
    (∀ x ∈ tuples, x.key.length = keySize) → ∃ content, Inv hash maxTuples tuples t content := by
  induction h with
  | begin file hdepth => exact fun _ => ⟨_, inv_begin file hdepth⟩
  | reset _ hdepth _ => exact fun _ => ⟨_, inv_begin _ hdepth⟩
  | insert _ hsome ih =>
    intro hkeys
    obtain ⟨content, h⟩ := ih fun x hx => hkeys x (List.mem_append_left _ hx)
    rcases Nat.eq_zero_or_pos maxTuples with rfl | hmax
    · rw [insert_zero] at hsome
      cases hsome
    · exact (h.insert hmax hsome).1
  | sortBucket _ hsome ih =>
    intro hkeys
    rename_i kept bucketNumber fuel _
    obtain ⟨content, h⟩ := ih hkeys
    have hcontent : ∀ x ∈ content bucketNumber, x.key.length = keySize :=
      fun x hx => hkeys x (h.mem hx)
    obtain ⟨t'', out, enough, hsort, hout, _⟩ := h.stored.sortBucket kept hcontent
    have hmore := sortBucket_mono (Nat.le_max_left fuel enough) hsome
    rw [hsort _ (Nat.le_max_right fuel enough), Option.some.injEq] at hmore
    exact ⟨_, hmore ▸ h.rearranges hout⟩

theorem Inv.findFirst (h : Inv hash maxTuples tuples t content)
    (hkeys : ∀ x ∈ tuples, x.key.length = keySize)
    (hsorted : (content bucket).Pairwise KeyValueTuple.Le) {key : List Nat}
    (hkey : key.length = keySize) :
    let get := tupleAt maxTuples t.file (t.bucketsPageNumbers bucket)
    (∀ pos, (findFirst key (t.bucketsSizes bucket) get).2 = some pos ↔
      pos < t.bucketsSizes bucket ∧ (get pos).key = key ∧ ∀ j < pos, (get j).key ≠ key) ∧
    ((∃ pos, (findFirst key (t.bucketsSizes bucket) get).2 = some pos) ↔
      ∃ x ∈ content bucket, x.key = key) := by
  intro get
  have hsize := h.stored.sizes bucket
  have hget : ∀ j (hj : j < (content bucket).length), get j = (content bucket)[j] := by
    intro j hj
    rcases Nat.eq_zero_or_pos maxTuples with hzero | hmax
    · have hroom := (h.stored.holds bucket).room
      rw [hzero, Nat.mul_zero] at hroom
      omega
    · have hplace := (h.stored.holds bucket).tupleAt hmax hj
      rw [List.getElem?_eq_getElem hj] at hplace
      exact Option.some.inj hplace
  have horder : ∀ i j, i ≤ j → j < t.bucketsSizes bucket → (get i).Le (get j) := by
    intro i j hij hj
    rw [hsize] at hj
    rw [hget j hj, hget i (Nat.lt_of_le_of_lt hij hj)]
    rcases Nat.lt_or_eq_of_le hij with hlt | rfl
    · exact List.pairwise_iff_getElem.mp hsorted i j _ hj hlt
    · exact le_refl _
  have hlength : ∀ i < t.bucketsSizes bucket, (get i).key.length = key.length := by
    intro i hi
    rw [hsize] at hi
    rw [hget i hi, hkey]
    exact hkeys _ (h.mem (List.getElem_mem hi))
  refine ⟨findFirst_eq_some_iff horder hlength, fun hfound => ?_, fun hpresent => ?_⟩
  · obtain ⟨pos, hpos⟩ := hfound
    obtain ⟨hlt, hposKey, _⟩ := (findFirst_eq_some_iff horder hlength pos).mp hpos
    rw [hsize] at hlt
    rw [hget pos hlt] at hposKey
    exact ⟨_, List.getElem_mem hlt, hposKey⟩
  · obtain ⟨x, hx, hxKey⟩ := hpresent
    obtain ⟨i, hi, rfl⟩ := List.getElem_of_mem hx
    rw [← hget i hi] at hxKey
    exact findFirst_finds horder hlength (hsize ▸ hi) hxKey

end

/-- After any insertions and sorts, `sort_bucket` ends and keeps the tuples of the bucket and its
pages as full as they were; the tuples are sorted just if each page is in order when the merge reads
it.  In a sorted bucket `find_first` finds the first place of a key that is there, and no other. -/
theorem sortBucket_sorts_iff {hash : List Nat → Nat} {keySize valueSize : Nat}
    {tuples : List KeyValueTuple} {t : KeyValueHash}
    (h : Used hash (maxTuples keySize valueSize) tuples t)
    (hkeys : ∀ x ∈ tuples, x.key.length = keySize) (bucket : Nat) :
    (∀ kept : Nat → Bool, ∃ t' enough,
      (∀ fuel ≥ enough, t.sortBucket (maxTuples keySize valueSize) kept bucket fuel = some t') ∧
      (t'.bucketTuples bucket).Perm (t.bucketTuples bucket) ∧
      (∀ c, c ≠ bucket → t'.bucketTuples c = t.bucketTuples c) ∧
      t'.bucketsSizes = t.bucketsSizes ∧
      (∀ c, (t'.bucketsPageNumbers c).length = (t.bucketsPageNumbers c).length) ∧
      Distributes hash (maxTuples keySize valueSize) tuples t' ∧
      ((t'.bucketTuples bucket).Pairwise KeyValueTuple.Le ↔
        ∀ page ∈ t.bucketsPageNumbers bucket, PageSorts kept t page)) ∧
    ((t.bucketTuples bucket).Pairwise KeyValueTuple.Le → ∀ key : List Nat, key.length = keySize →
      let get := tupleAt (maxTuples keySize valueSize) t.file (t.bucketsPageNumbers bucket)
      (∀ pos, (findFirst key (t.bucketsSizes bucket) get).2 = some pos ↔
        pos < t.bucketsSizes bucket ∧ (get pos).key = key ∧ ∀ j < pos, (get j).key ≠ key) ∧
      ((∃ pos, (findFirst key (t.bucketsSizes bucket) get).2 = some pos) ↔
        ∃ x ∈ t.bucketTuples bucket, x.key = key)) := by
  obtain ⟨content, hinv⟩ := h.inv hkeys
  refine ⟨fun kept => ?_, fun hsorted key hkey => ?_⟩
  · obtain ⟨t', out, enough, hsort, hout, hiff⟩ :=
      hinv.stored.sortBucket kept fun x hx => hkeys x (hinv.mem hx)
    have hafter := hinv.rearranges hout
    have hbucket : t'.bucketTuples bucket = out := by
      rw [hafter.bucketTuples_eq, Function.update_self]
    refine ⟨t', enough, hsort, ?_, fun c hc => ?_, hout.members_eq.1, hout.length_pages,
      hafter.distributes, ?_⟩
    · rw [hbucket, hinv.bucketTuples_eq]
      exact hout.perm
    · rw [hafter.bucketTuples_eq, hinv.bucketTuples_eq, Function.update_of_ne hc]
    · rw [hbucket]
      exact hiff
  · rw [hinv.bucketTuples_eq] at hsorted ⊢
    exact hinv.findFirst hkeys hsorted hkey

def insertAll (hash : List Nat → Nat) (maxTuples : Nat) (tuples : List KeyValueTuple)
    (t : KeyValueHash) : Option KeyValueHash :=
  tuples.foldlM (fun t tuple => t.insert hash maxTuples 2 tuple) t

theorem used_insertAll {hash : List Nat → Nat} {maxTuples : Nat} {tuples : List KeyValueTuple} :
    ∀ {before : List KeyValueTuple} {t t' : KeyValueHash}, Used hash maxTuples before t →
    insertAll hash maxTuples tuples t = some t' → Used hash maxTuples (before ++ tuples) t' := by
  induction tuples with
  | nil =>
    intro before t t' h hsome
    rw [List.append_nil, ← Option.some.inj hsome]
    exact h
  | cons x tuples ih =>
    intro before t t' h hsome
    rw [insertAll, List.foldlM_cons] at hsome
    obtain ⟨t₁, hinsert, hrest⟩ := Option.bind_eq_some_iff.mp hsome
    have hall := ih (Used.insert h hinsert) hrest
    rw [List.append_assoc] at hall
    exact hall

/-- A tuple with two columns of keys and as many values that three of them fill a page. -/
def wideTuple (a b : Nat) : KeyValueTuple := ⟨[a, b], List.replicate 126 0⟩

/-- In order; but when the third one has been put in its place, the others are exchanged. -/
def fourTuples : List KeyValueTuple :=
  [wideTuple 0 4, wideTuple 2 3, wideTuple 4 4, wideTuple 5 0]

theorem used_fourTuples : ∃ t, Used (fun _ => 0) (maxTuples 2 126) fourTuples t ∧
    t.bucketsPageNumbers 0 = [0, 1] ∧ (t.file 0).content = fourTuples.take 3 ∧
    (t.file 1).content = fourTuples.drop 3 := by
  have hinserted : ∃ t, insertAll (fun _ => 0) (maxTuples 2 126) fourTuples (begin noTuples 8) =
      some t ∧ t.bucketsPageNumbers 0 = [0, 1] ∧ (t.file 0).content = fourTuples.take 3 ∧
      (t.file 1).content = fourTuples.drop 3 := ⟨_, rfl, rfl, rfl, rfl⟩
  have hdepth : 8 ≤ 30 := by decide
  obtain ⟨t, hsome, hpages⟩ := hinserted
  exact ⟨t, used_insertAll (Used.begin noTuples hdepth) hsome, hpages⟩

theorem length_key_fourTuples : ∀ x ∈ fourTuples, x.key.length = 2 := by
  decide

theorem not_lastChecksAgree :
    ¬ KeyValueHashBucket.LastChecksAgree 0 2 (fourTuples.take 3) := by
  have hplaced : KeyValueHashBucket.placePivot 0 2 (fourTuples.take 3) =
      ([wideTuple 2 3, wideTuple 0 4, wideTuple 4 4], 2) := rfl
  rw [KeyValueHashBucket.lastChecksAgree_of_lt (by decide), hplaced]
  intro h
  have hleft := h.2.1
  rw [KeyValueHashBucket.lastChecksAgree_of_lt (by decide)] at hleft
  -- of (2, 3) and (0, 4), the first is smaller in a column
  exact absurd (hleft.1 _ rfl rfl) Bool.false_ne_true

theorem sortBucket_fourTuples : ∃ t, Used (fun _ => 0) (maxTuples 2 126) fourTuples t ∧
    ∃ t' enough, (∀ fuel ≥ enough,
      t.sortBucket (maxTuples 2 126) (fun _ => false) 0 fuel = some t') ∧
    (t'.bucketTuples 0).Perm fourTuples := by
  obtain ⟨t, hused, hpages, hfirst, hsecond⟩ := used_fourTuples
  have htuples : t.bucketTuples 0 = fourTuples := by
    rw [bucketTuples, hpages, List.flatMap_cons, List.flatMap_singleton, hfirst, hsecond,
      List.take_append_drop]
  obtain ⟨t', enough, hsort, hperm, -⟩ :=
    (sortBucket_sorts_iff hused length_key_fourTuples 0).1 fun _ => false
  rw [htuples] at hperm
  exact ⟨t, hused, t', enough, hsort, hperm⟩

/-- Both pages are sorted by key before, but the bucket is not afterwards. -/
theorem not_sorted_fourTuples : ∃ t, Used (fun _ => 0) (maxTuples 2 126) fourTuples t ∧
    t.bucketsPageNumbers 0 = [0, 1] ∧
    (∀ page ∈ t.bucketsPageNumbers 0, (t.file page).content.Pairwise KeyValueTuple.Le) ∧
    ∃ t' enough, (∀ fuel ≥ enough,
      t.sortBucket (maxTuples 2 126) (fun _ => true) 0 fuel = some t') ∧
    ¬ (t'.bucketTuples 0).Pairwise KeyValueTuple.Le := by
  obtain ⟨t, hused, hpages, hfirst, hsecond⟩ := used_fourTuples
  obtain ⟨content, hinv⟩ := hused.inv length_key_fourTuples
  have hkeys : ∀ x ∈ content 0, x.key.length = 2 :=
    fun x hx => length_key_fourTuples x (hinv.mem hx)
  obtain ⟨t', out, enough, hsort, hout, hiff⟩ := hinv.stored.sortBucket (fun _ => true) hkeys
  have horder : fourTuples.Pairwise fun x y => x.key ≤ y.key := by decide
  refine ⟨t, hused, hpages, fun page hpage => ?_, t', enough, hsort, fun hsorted => ?_⟩
  · rw [hpages] at hpage
    rcases List.mem_pair.mp hpage with rfl | rfl
    · rw [hfirst]
      exact horder.sublist (List.take_sublist 3 _)
    · rw [hsecond]
      exact horder.sublist (List.drop_sublist 3 _)
  · rw [(hinv.rearranges hout).bucketTuples_eq, Function.update_self] at hsorted
    have hpage : 0 ∈ t.bucketsPageNumbers 0 := by
      rw [hpages]
      exact List.mem_cons_self
    have hagree : KeyValueHashBucket.LastChecksAgree 0 ((t.file 0).tupleCount - 1)
        (t.file 0).content := hiff.mp hsorted 0 hpage
    rw [← length_content, hfirst] at hagree
    exact not_lastChecksAgree hagree

end KeyValueHash
end MillenniumDB
