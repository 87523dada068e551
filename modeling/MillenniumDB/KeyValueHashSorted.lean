import MillenniumDB.KeyValueHashFind
import MillenniumDB.KeyValueHashMerge
import MillenniumDB.KeyValueHashResults

/-!
# What the sort of a bucket leaves

A pass merges neighbouring runs of the bucket; its last run may stay in its pages.  After all passes
the bucket holds the tuples that it had, and they are sorted just if every page was when the merge
read it.
-/

namespace MillenniumDB
namespace KeyValueHash

section

variable {maxTuples bucket mergeSize fuel first last k : Nat} {t : KeyValueHash}
  {pages : List Nat} {all out : List KeyValueTuple} {m : Merging}

theorem reads_start (hsource : Source maxTuples t pages all) (hfirst : first ≤ last)
    (hlast : last ≤ pages.length) : Reads maxTuples all last ⟨first, 0⟩
      ((all.take (last * maxTuples)).drop (first * maxTuples)) where
  le := hfirst
  pos_lt hlt := by
    have hpage := hsource.page_lt first (Nat.lt_of_lt_of_le hlt hlast)
    have hmax := hsource.max_pos
    rw [length_pageOf]
    show 0 < min maxTuples (all.length - first * maxTuples)
    omega
  left_eq := rfl

theorem take_min_mul (hlength : all.length ≤ pages.length * maxTuples) (last : Nat) :
    all.take (min last pages.length * maxTuples) = all.take (last * maxTuples) := by
  rcases Nat.le_total last pages.length with hle | hle
  · rw [Nat.min_eq_left hle]
  · have hmul := Nat.mul_le_mul_right maxTuples hle
    rw [Nat.min_eq_right hle, List.take_of_length_le hlength,
      List.take_of_length_le (hlength.trans hmul)]

theorem drop_take_eq_pageOf (mergeSize maxTuples i : Nat) (all : List KeyValueTuple) :
    (all.take ((i * mergeSize + mergeSize) * maxTuples)).drop (i * mergeSize * maxTuples) =
      pageOf (mergeSize * maxTuples) all i := by
  rw [List.drop_take, Nat.add_mul, Nat.add_sub_cancel_left, Nat.mul_assoc, pageOf]

theorem runPages_append (pages : List Nat) {lo middle hi : Nat} (hlo : lo ≤ middle)
    (hhi : middle ≤ hi) (hlength : hi ≤ pages.length) :
    runPages pages middle ⟨lo, 0⟩ ++ (runPages pages hi ⟨middle, 0⟩ ++ pages.drop hi) =
      pages.drop lo := by
  have hrest : (pages.take hi).drop lo ++ pages.drop hi = pages.drop lo := by
    have hslice : (pages.take hi).drop lo ++ (pages.take pages.length).drop hi =
        (pages.take pages.length).drop lo := slice_append (hlo.trans hhi) hlength
    rw [List.take_length] at hslice
    exact hslice
  rw [← List.append_assoc, runPages, runPages, slice_append hlo hhi, hrest]

theorem mergeStep_spec (hsource : Source maxTuples t pages all)
    (hlt : k * (2 * mergeSize) + mergeSize < pages.length) (hfuel : all.length + 1 < fuel)
    (h : Writes maxTuples t bucket (mergedRuns smallerTuple (mergeSize * maxTuples) all k)
      (pages.drop (k * (2 * mergeSize))) m) :
    ∃ m', m.mergeStep maxTuples pages mergeSize fuel (k * (2 * mergeSize)) = some m' ∧
      Writes maxTuples t bucket (mergedRuns smallerTuple (mergeSize * maxTuples) all (k + 1))
        (pages.drop ((k + 1) * (2 * mergeSize))) m' := by
  obtain ⟨step, hstep⟩ : ∃ step, step = k * (2 * mergeSize) := ⟨_, rfl⟩
  have heven : step = 2 * k * mergeSize := by
    rw [hstep, ← Nat.mul_assoc, Nat.mul_comm k 2]
  have hodd : step + mergeSize = (2 * k + 1) * mergeSize := by
    rw [heven, Nat.add_one_mul (2 * k)]
  have hnext : (k + 1) * (2 * mergeSize) = step + mergeSize + mergeSize := by
    rw [Nat.add_one_mul, ← hstep, Nat.two_mul, Nat.add_assoc]
  rw [← hstep] at hlt h ⊢
  have hdrop : pages.drop (min (step + 2 * mergeSize) pages.length) =
      pages.drop ((k + 1) * (2 * mergeSize)) := by
    rw [hnext, Nat.add_assoc, ← Nat.two_mul]
    rcases Nat.le_total (step + 2 * mergeSize) pages.length with hle | hle
    · rw [Nat.min_eq_left hle]
    · rw [Nat.min_eq_right hle, List.drop_length, List.drop_eq_nil_of_le hle]
  have hmiddle : step + mergeSize ≤ min (step + 2 * mergeSize) pages.length := by omega
  have hleft := reads_start hsource (Nat.le_add_right step mergeSize) hlt.le
  have hright := reads_start hsource hmiddle (Nat.min_le_right _ _)
  have hxs : (all.take ((step + mergeSize) * maxTuples)).drop (step * maxTuples) =
      pageOf (mergeSize * maxTuples) all (2 * k) := by
    rw [heven]
    exact drop_take_eq_pageOf mergeSize maxTuples (2 * k) all
  have hys : (all.take (min (step + 2 * mergeSize) pages.length * maxTuples)).drop
      ((step + mergeSize) * maxTuples) = pageOf (mergeSize * maxTuples) all (2 * k + 1) := by
    rw [take_min_mul hsource.holds.room, Nat.two_mul, ← Nat.add_assoc, hodd]
    exact drop_take_eq_pageOf mergeSize maxTuples (2 * k + 1) all
  rw [hxs] at hleft
  rw [hys] at hright
  rw [← runPages_append pages (Nat.le_add_right step mergeSize) hmiddle (Nat.min_le_right _ _),
    hdrop] at h
  have hlength : (pageOf (mergeSize * maxTuples) all (2 * k)).length +
      (pageOf (mergeSize * maxTuples) all (2 * k + 1)).length ≤ all.length := by
    rw [← List.length_append, pageOf_append, length_pageOf]
    omega
  rw [Merging.mergeStep, if_neg (Nat.not_le_of_lt hlt), mergedRuns_succ]
  exact mergeRuns_spec hsource hlt.le (Nat.min_le_right _ _) fuel hleft hright h (by omega)

theorem mergeSteps_spec (hsource : Source maxTuples t (t.bucketsPageNumbers bucket) all)
    (howned : Owned t) (hfuel : all.length + 1 < fuel) (count : Nat) :
    (∀ k < count, k * (2 * mergeSize) + mergeSize < (t.bucketsPageNumbers bucket).length) →
    ∃ m, (Merging.newPage t []).mergeSteps maxTuples (t.bucketsPageNumbers bucket) mergeSize fuel
        count = some m ∧
      Writes maxTuples t bucket (mergedRuns smallerTuple (mergeSize * maxTuples) all count)
        ((t.bucketsPageNumbers bucket).drop (count * (2 * mergeSize))) m := by
  induction count with
  | zero =>
    intro _
    refine ⟨Merging.newPage t [], rfl, ?_⟩
    rw [Nat.zero_mul, List.drop_zero]
    exact writes_start howned maxTuples bucket
  | succ count ih =>
    intro hlt
    obtain ⟨m, hsteps, hwrites⟩ := ih fun k hk => hlt k (Nat.lt_succ_of_lt hk)
    rw [mergeSteps_succ, hsteps, Option.bind_some]
    exact mergeStep_spec hsource (hlt count (Nat.lt_succ_self count)) hfuel hwrites

end

section

variable {maxTuples bucket mergeSize fuel step : Nat} {file : Nat → BucketPage}
  {pages pages' : List Nat} {t t' : KeyValueHash} {all out xs ys : List KeyValueTuple}
  {m : Merging}

theorem Holds.drop (h : Holds maxTuples file pages all) (step : Nat) :
    Holds maxTuples file (pages.drop step) (all.drop (step * maxTuples)) where
  page i hi := by
    rw [List.length_drop] at hi
    have hget : (pages.drop step).getD i 0 = pages.getD (step + i) 0 := by
      rw [List.getD_eq_getElem?_getD, List.getD_eq_getElem?_getD, List.getElem?_drop]
    rw [hget, h.page (step + i) (by omega), pageOf, pageOf, List.drop_drop, Nat.add_mul]
  begun := by
    have hbegun := h.begun
    rw [List.length_drop, List.length_drop]
    rw [Nat.sub_right_comm, Nat.sub_mul]
    omega
  room := by
    have hroom := h.room
    rw [List.length_drop, List.length_drop, Nat.sub_mul]
    omega

theorem Holds.append (h : Holds maxTuples file pages xs) (h' : Holds maxTuples file pages' ys)
    (hfull : xs.length = pages.length * maxTuples) (hne : pages' ≠ []) :
    Holds maxTuples file (pages ++ pages') (xs ++ ys) where
  page i hi := by
    rw [List.length_append] at hi
    rcases Nat.lt_or_ge i pages.length with hlt | hge
    · rw [List.getD_append _ _ _ _ hlt, h.page i hlt,
        pageOf_append_left (hfull ▸ Nat.mul_le_mul_right _ hlt)]
    · obtain ⟨j, rfl⟩ := Nat.exists_eq_add_of_le hge
      rw [List.getD_append_right _ _ _ _ hge, Nat.add_sub_cancel_left, h'.page j (by omega), pageOf,
        pageOf, Nat.add_mul, ← hfull, List.drop_length_add_append]
  begun := by
    have hbegun := h'.begun
    have hpos := List.length_pos_of_ne_nil hne
    rw [List.length_append, List.length_append, Nat.add_sub_assoc hpos, Nat.add_mul, ← hfull]
    exact Nat.add_le_add_left hbegun _
  room := by
    have hroom := h'.room
    rw [List.length_append, List.length_append, Nat.add_mul, ← hfull]
    exact Nat.add_le_add_left hroom _

structure Passed (maxTuples : Nat) (t : KeyValueHash) (bucket : Nat) (out : List KeyValueTuple)
    (t' : KeyValueHash) : Prop where
  owned : Owned t'
  holds : Holds maxTuples t'.file (t'.bucketsPageNumbers bucket) out
  tidy : (t'.bucketsPageNumbers bucket).length ≤ 1 ∨
    ((t'.bucketsPageNumbers bucket).length - 1) * maxTuples < out.length
  pages_eq : ∀ c, c ≠ bucket → t'.bucketsPageNumbers c = t.bucketsPageNumbers c
  file_eq : ∀ c, c ≠ bucket → ∀ page ∈ t.bucketsPageNumbers c, t'.file page = t.file page
  members_eq : t'.bucketsSizes = t.bucketsSizes ∧ t'.tuplesCount = t.tuplesCount ∧
    t'.depth = t.depth

theorem Writes.passed (h : Writes maxTuples t bucket out [] m) : Passed maxTuples t bucket out
    (m.table.withPages m.table.bucketsPageNumbers bucket m.newPageNumbers) where
  owned := by
    have howned := h.owned
    rw [List.append_nil, ← h.pages_eq] at howned
    exact howned
  holds := by
    show Holds maxTuples m.table.file (Function.update m.table.bucketsPageNumbers bucket
      m.newPageNumbers bucket) out
    rw [Function.update_self]
    exact h.holds
  tidy := by
    show (Function.update m.table.bucketsPageNumbers bucket m.newPageNumbers bucket).length ≤ 1 ∨
      ((Function.update m.table.bucketsPageNumbers bucket m.newPageNumbers bucket).length - 1) *
        maxTuples < out.length
    rw [Function.update_self]
    exact h.tidy
  pages_eq c hc := (Function.update_of_ne hc _ _).trans (congrFun h.pages_eq c)
  file_eq c hc page hpage := h.file_eq page (Or.inr ⟨c, hc, hpage⟩)
  members_eq := h.members_eq

/-- The pages of a run without a neighbour come behind those that have been written. -/
theorem Writes.passed_rest (hsource : Source maxTuples t (t.bucketsPageNumbers bucket) all)
    (hpos : 0 < step) (hlt : step < (t.bucketsPageNumbers bucket).length)
    (hlength : out.length = step * maxTuples)
    (h : Writes maxTuples t bucket out ((t.bucketsPageNumbers bucket).drop step) m) :
    Passed maxTuples t bucket (out ++ all.drop (step * maxTuples))
      (m.table.withPages m.table.bucketsPageNumbers bucket
        (m.newPageNumbers ++ (t.bucketsPageNumbers bucket).drop step)) := by
  obtain ⟨rest, hrest⟩ : ∃ rest, rest = (t.bucketsPageNumbers bucket).drop step := ⟨_, rfl⟩
  have hrestLength : rest.length = (t.bucketsPageNumbers bucket).length - step := by
    rw [hrest, List.length_drop]
  rw [← hrest] at h ⊢
  have hpages : Function.update m.table.bucketsPageNumbers bucket (m.newPageNumbers ++ rest) bucket =
      m.newPageNumbers ++ rest := Function.update_self _ _ _
  -- all pages that have been written are full
  have hroom := h.holds.room
  rw [hlength] at hroom
  have hcount : m.newPageNumbers.length = step := by
    apply Nat.le_antisymm
    · rcases h.tidy with hshort | hmore
      · omega
      · rw [hlength] at hmore
        have := Nat.lt_of_mul_lt_mul_right hmore
        omega
    · exact Nat.le_of_mul_le_mul_right hroom hsource.max_pos
  have hholds : Holds maxTuples m.table.file rest (all.drop (step * maxTuples)) := by
    apply (hrest ▸ hsource.holds.drop step : Holds maxTuples t.file rest _).congr
    exact fun page hpage => h.file_eq page (Or.inl hpage)
  have hlast := hsource.page_lt ((t.bucketsPageNumbers bucket).length - 1) (by omega)
  constructor
  · rw [h.pages_eq]
    exact h.owned
  · show Holds maxTuples m.table.file (Function.update m.table.bucketsPageNumbers bucket
      (m.newPageNumbers ++ rest) bucket) _
    rw [hpages]
    apply h.holds.append hholds (by rw [hlength, hcount])
    exact List.ne_nil_of_length_pos (by omega)
  · right
    show ((Function.update m.table.bucketsPageNumbers bucket (m.newPageNumbers ++ rest)
      bucket).length - 1) * maxTuples < _
    have hall : step * maxTuples ≤ all.length :=
      (Nat.mul_le_mul_right maxTuples (by omega : step ≤ _ - 1)).trans hlast.le
    rw [hpages, List.length_append, hcount, hrestLength, Nat.add_sub_cancel' hlt.le,
      List.length_append, hlength, List.length_drop, Nat.add_sub_cancel' hall]
    exact hlast
  · exact fun c hc => (Function.update_of_ne hc _ _).trans (congrFun h.pages_eq c)
  · exact fun c hc page hpage => h.file_eq page (Or.inr ⟨c, hc, hpage⟩)
  · exact h.members_eq

theorem steps_bounds {n d : Nat} (hn : 0 < n) (hd : 0 < d) :
    ∃ k, (n + d - 1) / d = k + 1 ∧ k * d < n ∧ n ≤ (k + 1) * d := by
  have hpos : 0 < (n + d - 1) / d := Nat.div_pos (by omega) hd
  obtain ⟨k, hk⟩ := Nat.exists_eq_add_one_of_ne_zero hpos.ne'
  have hle := Nat.div_mul_le_self (n + d - 1) d
  have hlt := Nat.lt_div_mul_add hd (a := n + d - 1)
  rw [hk, Nat.add_one_mul] at hle hlt
  refine ⟨k, hk, by omega, ?_⟩
  rw [Nat.add_one_mul]
  omega

theorem mergePass_spec (hsource : Source maxTuples t (t.bucketsPageNumbers bucket) all)
    (howned : Owned t) (hsize : 0 < mergeSize)
    (hlt : mergeSize < (t.bucketsPageNumbers bucket).length) (hfuel : all.length + 1 < fuel) :
    ∃ t' count, mergePass maxTuples bucket fuel mergeSize t = some t' ∧
      all.length ≤ count * (2 * (mergeSize * maxTuples)) ∧
      Passed maxTuples t bucket (mergedRuns smallerTuple (mergeSize * maxTuples) all count) t' := by
  have hroom := hsource.holds.room
  obtain ⟨k, hsteps, hbegun, hend⟩ := steps_bounds (Nat.zero_lt_of_lt hlt)
    (Nat.mul_pos Nat.two_pos hsize)
  have hbefore : ∀ j < k,
      j * (2 * mergeSize) + mergeSize < (t.bucketsPageNumbers bucket).length := by
    intro j hj
    have hmul := Nat.mul_le_mul_right (2 * mergeSize) (Nat.succ_le_of_lt hj)
    rw [Nat.succ_mul] at hmul
    omega
  have hcount : all.length ≤ (k + 1) * (2 * (mergeSize * maxTuples)) := by
    rw [← Nat.mul_assoc 2, ← Nat.mul_assoc]
    exact hroom.trans (Nat.mul_le_mul_right maxTuples hend)
  obtain ⟨m, hm, hwrites⟩ := mergeSteps_spec hsource howned hfuel k hbefore
  unfold mergePass
  dsimp only
  rw [hsteps, mergeSteps_succ, hm, Option.bind_some]
  by_cases hpair : k * (2 * mergeSize) + mergeSize < (t.bucketsPageNumbers bucket).length
  · obtain ⟨m', hm', hwrites'⟩ := mergeStep_spec hsource hpair hfuel hwrites
    rw [hm', Option.map_some]
    rw [List.drop_eq_nil_of_le hend] at hwrites'
    exact ⟨_, k + 1, rfl, hcount, hwrites'.passed⟩
  · -- the last run has no neighbour
    rw [Merging.mergeStep, if_pos (Nat.le_of_not_lt hpair), Option.map_some]
    have hpos : 0 < k * (2 * mergeSize) := by
      apply Nat.pos_of_ne_zero
      intro hzero
      rw [hzero, Nat.zero_add] at hpair
      exact hpair hlt
    have hstart : k * (2 * (mergeSize * maxTuples)) = k * (2 * mergeSize) * maxTuples := by
      rw [← Nat.mul_assoc 2, ← Nat.mul_assoc]
    have hshort := hsource.page_lt _ hbegun
    have hlength : (mergedRuns smallerTuple (mergeSize * maxTuples) all k).length =
        k * (2 * mergeSize) * maxTuples := by
      rw [(mergedRuns_perm smallerTuple _ all k).length_eq, List.length_take, hstart]
      omega
    have hpassed := hwrites.passed_rest hsource hpos hbegun hlength
    have hmore : all.length ≤ k * (2 * mergeSize) * maxTuples + mergeSize * maxTuples := by
      rw [← Nat.add_mul]
      exact hroom.trans (Nat.mul_le_mul_right maxTuples (Nat.le_of_not_lt hpair))
    have heven : 2 * k * (mergeSize * maxTuples) = k * (2 * mergeSize) * maxTuples := by
      rw [← hstart, Nat.mul_comm 2 k, Nat.mul_assoc]
    have hnone : pageOf (mergeSize * maxTuples) all (2 * k + 1) = [] := by
      apply pageOf_of_length_le
      rw [Nat.add_one_mul, heven]
      exact hmore
    have hall : pageOf (mergeSize * maxTuples) all (2 * k) =
        all.drop (k * (2 * mergeSize) * maxTuples) := by
      rw [pageOf, heven]
      apply List.take_of_length_le
      rw [List.length_drop]
      omega
    refine ⟨_, k + 1, rfl, hcount, ?_⟩
    rw [mergedRuns_succ, hnone, List.merge_right, hall]
    exact hpassed

theorem length_pages_eq (h : Holds maxTuples file pages xs) {file' : Nat → BucketPage}
    (h' : Holds maxTuples file' pages' ys) (hlength : ys.length = xs.length)
    (hmany : 1 < pages.length) (htidy : (pages.length - 1) * maxTuples < xs.length)
    (htidy' : pages'.length ≤ 1 ∨ (pages'.length - 1) * maxTuples < ys.length) :
    pages'.length = pages.length := by
  have hroom := h.room
  have hroom' := h'.room
  apply Nat.le_antisymm
  · rcases htidy' with hshort | hmore
    · omega
    · have := Nat.lt_of_mul_lt_mul_right (hmore.trans_le (hlength ▸ hroom))
      omega
  · have := Nat.lt_of_mul_lt_mul_right (htidy.trans_le (hlength ▸ hroom'))
    omega

variable {content : Nat → List KeyValueTuple}

theorem Stored.source (h : Stored maxTuples t content)
    (hmany : 1 < (t.bucketsPageNumbers bucket).length) :
    Source maxTuples t (t.bucketsPageNumbers bucket) (content bucket) := by
  have hroom := (h.holds bucket).room
  have htidy := (h.tidy bucket).resolve_left (Nat.not_le_of_lt hmany)
  refine ⟨?_, h.holds bucket, fun i hi => ?_⟩
  · apply Nat.pos_of_ne_zero
    intro hzero
    rw [hzero, Nat.mul_zero] at hroom htidy
    omega
  · exact (Nat.mul_le_mul_right maxTuples (Nat.le_sub_one_of_lt hi)).trans_lt htidy

theorem Stored.passed (h : Stored maxTuples t content) (hlength : out.length = (content bucket).length)
    (hpassed : Passed maxTuples t bucket out t') :
    Stored maxTuples t' (Function.update content bucket out) where
  owned := hpassed.owned
  holds c := by
    by_cases hc : c = bucket
    · subst hc
      rw [Function.update_self]
      exact hpassed.holds
    · rw [Function.update_of_ne hc, hpassed.pages_eq c hc]
      exact (h.holds c).congr (hpassed.file_eq c hc)
  tidy c := by
    by_cases hc : c = bucket
    · subst hc
      rw [Function.update_self]
      exact hpassed.tidy
    · rw [Function.update_of_ne hc, hpassed.pages_eq c hc]
      exact h.tidy c
  sizes c := by
    rw [hpassed.members_eq.1, h.sizes c]
    by_cases hc : c = bucket
    · subst hc
      rw [Function.update_self, hlength]
    · rw [Function.update_of_ne hc]

/-- What the passes leave of a bucket: its tuples in some order, and all else as it was. -/
structure Rearranges (maxTuples : Nat) (t : KeyValueHash) (content : Nat → List KeyValueTuple)
    (bucket : Nat) (out : List KeyValueTuple) (t' : KeyValueHash) : Prop where
  stored : Stored maxTuples t' (Function.update content bucket out)
  perm : out.Perm (content bucket)
  length_pages : ∀ c, (t'.bucketsPageNumbers c).length = (t.bucketsPageNumbers c).length
  members_eq : t'.bucketsSizes = t.bucketsSizes ∧ t'.tuplesCount = t.tuplesCount ∧
    t'.depth = t.depth

theorem Rearranges.trans {t₁ t₂ : KeyValueHash} {mid : List KeyValueTuple}
    (h : Rearranges maxTuples t content bucket mid t₁)
    (h' : Rearranges maxTuples t₁ (Function.update content bucket mid) bucket out t₂) :
    Rearranges maxTuples t content bucket out t₂ where
  stored := by
    have hstored := h'.stored
    rw [Function.update_idem] at hstored
    exact hstored
  perm := by
    have hperm := h'.perm
    rw [Function.update_self] at hperm
    exact hperm.trans h.perm
  length_pages c := (h'.length_pages c).trans (h.length_pages c)
  members_eq := ⟨h'.members_eq.1.trans h.members_eq.1,
    h'.members_eq.2.1.trans h.members_eq.2.1, h'.members_eq.2.2.trans h.members_eq.2.2⟩

theorem Stored.mergePass (h : Stored maxTuples t content) (hsize : 0 < mergeSize)
    (hlt : mergeSize < (t.bucketsPageNumbers bucket).length)
    (hcompares : Compares smallerTuple KeyValueTuple.Le (content bucket))
    (hfuel : (content bucket).length + 1 < fuel) :
    ∃ t' out, mergePass maxTuples bucket fuel mergeSize t = some t' ∧
      Rearranges maxTuples t content bucket out t' ∧
      (RunsSorted KeyValueTuple.Le (2 * (mergeSize * maxTuples)) out ↔
        RunsSorted KeyValueTuple.Le (mergeSize * maxTuples) (content bucket)) := by
  have hmany : 1 < (t.bucketsPageNumbers bucket).length := by omega
  have hsource := h.source hmany
  obtain ⟨t', count, hpass, hcount, hpassed⟩ := mergePass_spec hsource h.owned hsize hlt hfuel
  have hperm := mergedRuns_perm smallerTuple (mergeSize * maxTuples) (content bucket) count
  rw [List.take_of_length_le hcount] at hperm
  refine ⟨t', _, hpass, ⟨h.passed hperm.length_eq hpassed, hperm, fun c => ?_,
    hpassed.members_eq⟩, runsSorted_mergedRuns_iff KeyValueTuple.trans_le hcompares hcount⟩
  by_cases hc : c = bucket
  · subst hc
    exact length_pages_eq hsource.holds hpassed.holds hperm.length_eq hmany
      ((h.tidy c).resolve_left (Nat.not_le_of_lt hmany)) hpassed.tidy
  · rw [hpassed.pages_eq c hc]

theorem Stored.mergePasses (rounds : Nat) : ∀ {mergeSize : Nat} {t : KeyValueHash}
    {content : Nat → List KeyValueTuple}, Stored maxTuples t content → 0 < mergeSize →
    Compares smallerTuple KeyValueTuple.Le (content bucket) →
    (content bucket).length + 1 < fuel →
    (t.bucketsPageNumbers bucket).length - mergeSize < rounds →
    ∃ t' out, mergePasses maxTuples bucket fuel rounds mergeSize t = some t' ∧
      Rearranges maxTuples t content bucket out t' ∧
      (out.Pairwise KeyValueTuple.Le ↔
        RunsSorted KeyValueTuple.Le (mergeSize * maxTuples) (content bucket)) := by
  induction rounds with
  | zero =>
    intro mergeSize t content _ _ _ _ hrounds
    exact absurd hrounds (Nat.not_lt_zero _)
  | succ rounds ih =>
    intro mergeSize t content h hsize hcompares hfuel hrounds
    rw [KeyValueHash.mergePasses]
    by_cases hlt : (t.bucketsPageNumbers bucket).length > mergeSize
    · rw [if_pos hlt]
      obtain ⟨t₁, mid, hpass, hfirst, hruns⟩ := h.mergePass hsize hlt hcompares hfuel
      have hlength := hfirst.length_pages bucket
      have hcompares' := hcompares.perm hfirst.perm
      rw [← hfirst.perm.length_eq] at hfuel
      rw [← Function.update_self bucket mid content] at hcompares' hfuel
      obtain ⟨t', out, hpasses, hmore, hsorted⟩ := ih hfirst.stored
        (Nat.mul_pos hsize Nat.two_pos) hcompares' hfuel (by omega)
      rw [hpass, Option.bind_some]
      refine ⟨t', out, hpasses, hfirst.trans hmore, ?_⟩
      rw [Function.update_self, Nat.mul_comm mergeSize 2, Nat.mul_assoc] at hsorted
      exact hsorted.trans hruns
    · -- the runs are as long as the bucket
      have hle := Nat.mul_le_mul_right maxTuples (Nat.le_of_not_lt hlt)
      have hstored : Stored maxTuples t (Function.update content bucket (content bucket)) := by
        rw [Function.update_eq_self]
        exact h
      rw [if_neg hlt]
      exact ⟨t, content bucket, rfl, ⟨hstored, List.Perm.refl _, fun _ => rfl, rfl, rfl, rfl⟩,
        RunsSorted.of_pairwise, fun hruns => hruns.pairwise ((h.holds bucket).room.trans hle)⟩

end

end KeyValueHash
end MillenniumDB
