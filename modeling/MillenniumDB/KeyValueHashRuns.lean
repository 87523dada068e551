import MillenniumDB.KeyValueHashSplit

/-!
# Runs of insertions

After any insertions each bucket holds the tuples with its low bits.  An insertion returns exactly
when a tuple fits a page and the last page of its bucket has room, or may get a successor, at some
depth for which `1 << depth` is still an `int`.
-/

namespace MillenniumDB
namespace KeyValueHash

theorem and_mask (n d : Nat) : n &&& (1 <<< d - 1) = n % 2 ^ d := by
  rw [Nat.one_shiftLeft, Nat.and_two_pow_sub_one_eq_mod]

section

variable {hash : List Nat → Nat} {maxTuples numberOfBuckets previous bucket : Nat}
  {content : Nat → List KeyValueTuple} {t t' : KeyValueHash}

theorem splitBucket_spec (hmax : 0 < maxTuples) (hprevious : 0 < previous)
    (h : Stored maxTuples t content) (hempty : t.bucketsPageNumbers (previous + bucket) = [])
    (hmoves : ∀ x ∈ content bucket, stays hash numberOfBuckets bucket x = false →
      hash x.key &&& (numberOfBuckets - 1) = previous + bucket)
    (ht' : splitBucket hash maxTuples previous numberOfBuckets t bucket = t') :
    Stored maxTuples t' (Function.update (Function.update content bucket
      ((content bucket).filter (stays hash numberOfBuckets bucket))) (previous + bucket)
        ((content bucket).filter fun x => !stays hash numberOfBuckets bucket x)) ∧
    (∀ c, c ≠ bucket → c ≠ previous + bucket →
      t'.bucketsPageNumbers c = t.bucketsPageNumbers c) ∧
    (t.bucketsPageNumbers bucket ≠ [] → t'.bucketsPageNumbers bucket ≠ [] ∧
      t'.bucketsPageNumbers (previous + bucket) ≠ []) ∧
    t'.depth = t.depth ∧ t'.tuplesCount = t.tuplesCount := by
  obtain ⟨new, hnewEq⟩ : ∃ new, new = previous + bucket := ⟨_, rfl⟩
  rw [← hnewEq] at hempty hmoves ⊢
  have hnew : bucket ≠ new := by omega
  have hsizeNew : t.bucketsSizes new = 0 := by
    rw [h.sizes, h.content_eq_nil hempty]
    rfl
  have hpages : Function.update t.bucketsPageNumbers new [] = t.bucketsPageNumbers :=
    Function.update_eq_self_iff.mpr hempty.symm
  have hsizes : Function.update t.bucketsSizes new 0 = t.bucketsSizes :=
    Function.update_eq_self_iff.mpr hsizeNew.symm
  unfold splitBucket at ht'
  rw [← hnewEq] at ht'
  dsimp only at ht'
  rw [hpages, hsizes] at ht'
  by_cases hnil : t.bucketsPageNumbers bucket = []
  · -- a bucket without pages
    rw [if_pos hnil] at ht'
    have hcontent := h.content_eq_nil hnil
    have hsame : Function.update (Function.update content bucket
        ((content bucket).filter (stays hash numberOfBuckets bucket))) new
        ((content bucket).filter fun x => !stays hash numberOfBuckets bucket x) = content := by
      have hold : Function.update content bucket [] = content :=
        Function.update_eq_self_iff.mpr hcontent.symm
      rw [hcontent, List.filter_nil, List.filter_nil, hold]
      exact Function.update_eq_self_iff.mpr (h.content_eq_nil hempty).symm
    rw [hsame, ← ht']
    exact ⟨h, fun c _ _ => rfl, fun hne => absurd hnil hne, rfl, rfl⟩
  · rw [if_neg hnil] at ht'
    obtain ⟨added, hadded⟩ : ∃ added, t.addPage new = added := ⟨_, rfl⟩
    obtain ⟨hfree, howned, hpages', hfile', hcount, hdepth, hsizes'⟩ := h.owned.addPage new hadded
    have hsamePages : ∀ c, c ≠ new →
        added.2.bucketsPageNumbers c = t.bucketsPageNumbers c := by
      intro c hc
      rw [hpages', Function.update_of_ne hc]
    have hnewPages : added.2.bucketsPageNumbers new = [added.1] := by
      rw [hpages', Function.update_self, hempty, List.nil_append]
    have hholds : ∀ b, b ≠ new →
        Holds maxTuples added.2.file (added.2.bucketsPageNumbers b) (content b) := by
      intro b hb
      rw [hsamePages b hb]
      apply (h.holds b).congr
      intro p hp
      rw [hfile']
      exact Function.update_of_ne (fun heq => hfree b (by rw [← heq]; exact hp)) _ _
    have hbucket := hholds bucket hnew
    have hfirst : SplitAt maxTuples (stays hash numberOfBuckets bucket) added.2 (content bucket)
        bucket new 0 ⟨added.2, added.1, 0, 0⟩ := by
      refine ⟨by simp, Nat.zero_le _, fun _ => rfl, fun j hj => by simp at hj,
        fun j _ hj => hbucket.tupleAt hmax hj, fun _ _ => rfl, fun _ _ _ _ _ => rfl, ?_, ?_, ?_, ?_,
        fun _ _ => rfl, rfl, ?_, fun _ _ _ => rfl, howned, rfl, rfl⟩
      · dsimp only
        rw [hnewPages]
        have hempty' : (added.2.file added.1).content = [] := by
          rw [hfile', Function.update_self]
          rfl
        exact (Holds.nil maxTuples added.2.file).addPage (Nat.zero_mul _).symm hempty'
          fun _ _ => rfl
      · dsimp only
        rw [hnewPages]
        exact Or.inl (Nat.le_refl 1)
      · dsimp only
        rw [hnewPages]
        exact List.cons_ne_nil _ _
      · dsimp only
        rw [back, hnewPages]
        rfl
      · dsimp only
        rw [hsizes', hsizeNew]
        rfl
    have hsizeBucket : added.2.bucketsSizes bucket = (content bucket).length := by
      rw [hsizes', h.sizes]
    have hend := splitAt_end hmax hnew hbucket (howned.nodup bucket) hsizeBucket hmoves hfirst
    obtain ⟨s, hs⟩ : ∃ s, s = (added.2.bucketsPageNumbers bucket).foldl (fun s page =>
      (List.range (s.table.file page).tupleCount).foldl
        (splitTuple hash maxTuples numberOfBuckets bucket (added.2.bucketsPageNumbers bucket) page)
        s) ⟨added.2, added.1, 0, 0⟩ := ⟨_, rfl⟩
    rw [← hs] at hend
    obtain ⟨hstored, hpage⟩ := SplitAt.finish
      (fun b => (Decidable.em (b = new)).symm.imp_left (hholds b)) (fun b => by
        by_cases hb : b = new
        · rw [hb, hnewPages]
          exact Or.inl (Nat.le_refl 1)
        · rw [hsamePages b hb]
          exact h.tidy b)
      (fun b => by rw [hsizes', h.sizes]) hmax hnew (by rw [hsamePages bucket hnew]; exact hnil)
      hend
    rw [hadded, ← hsamePages bucket hnew, ← hs] at ht'
    rw [← ht']
    refine ⟨hstored, fun c hc hcnew => ?_, fun _ => ⟨?_, ?_⟩, hend.depth.trans hdepth,
      hend.tuplesCount.trans hcount⟩
    · dsimp only [modifyPage]
      rw [Function.update_of_ne hc, hend.pages_eq c hcnew, hsamePages c hcnew]
    · dsimp only
      rw [Function.update_self]
      apply List.ne_nil_of_length_pos
      rw [List.length_take]
      omega
    · dsimp only
      rw [Function.update_of_ne hnew.symm]
      exact hend.started

def splitContent (stay : Nat → KeyValueTuple → Bool) (previous count : Nat)
    (content : Nat → List KeyValueTuple) (c : Nat) : List KeyValueTuple :=
  if c < count then (content c).filter (stay c)
  else if previous ≤ c ∧ c < previous + count then
    (content (c - previous)).filter fun x => !stay (c - previous) x
  else content c

theorem splitContent_succ (stay : Nat → KeyValueTuple → Bool) {count : Nat}
    (hcount : count < previous) :
    Function.update (Function.update (splitContent stay previous count content) count
        ((splitContent stay previous count content count).filter (stay count))) (previous + count)
      ((splitContent stay previous count content count).filter fun x => !stay count x) =
    splitContent stay previous (count + 1) content := by
  have hsame : splitContent stay previous count content count = content count := by
    rw [splitContent, if_neg (Nat.lt_irrefl _), if_neg (by omega)]
  rw [hsame]
  funext c
  by_cases hnew : c = previous + count
  · rw [hnew, Function.update_self, splitContent, if_neg (by omega), if_pos (by omega),
      Nat.add_sub_cancel_left]
  · rw [Function.update_of_ne hnew]
    by_cases hold : c = count
    · rw [hold, Function.update_self, splitContent, if_pos (Nat.lt_succ_self _)]
    · rw [Function.update_of_ne hold, splitContent, splitContent]
      split_ifs
      all_goals first | rfl | omega

theorem splitBuckets_spec (hmax : 0 < maxTuples) (hprevious : 0 < previous)
    (h : Stored maxTuples t content)
    (hempty : ∀ c, previous ≤ c → t.bucketsPageNumbers c = [])
    (hmoves : ∀ b < previous, ∀ x ∈ content b, stays hash numberOfBuckets b x = false →
      hash x.key &&& (numberOfBuckets - 1) = previous + b) (count : Nat) :
    count ≤ previous → ∀ t', (List.range count).foldl
      (splitBucket hash maxTuples previous numberOfBuckets) t = t' →
    Stored maxTuples t' (splitContent (stays hash numberOfBuckets) previous count content) ∧
    (∀ c, previous + count ≤ c → t'.bucketsPageNumbers c = []) ∧
    (∀ c, count ≤ c → c < previous → t'.bucketsPageNumbers c = t.bucketsPageNumbers c) ∧
    (∀ c < count, t.bucketsPageNumbers c ≠ [] → t'.bucketsPageNumbers c ≠ [] ∧
      t'.bucketsPageNumbers (previous + c) ≠ []) ∧
    t'.depth = t.depth ∧ t'.tuplesCount = t.tuplesCount := by
  induction count with
  | zero =>
    intro _ t' ht'
    have hsame : splitContent (stays hash numberOfBuckets) previous 0 content = content := by
      funext c
      rw [splitContent, if_neg (Nat.not_lt_zero c), if_neg (by omega)]
    rw [← ht', hsame]
    exact ⟨h, fun c hc => hempty c hc, fun _ _ _ => rfl,
      fun c hc => absurd hc (Nat.not_lt_zero c), rfl, rfl⟩
  | succ count ih =>
    intro hcount t' ht'
    obtain ⟨hstored, hbeyond, hsame, hstarted, hdepth, htuples⟩ :=
      ih (Nat.le_of_succ_le hcount) _ rfl
    rw [List.range_succ, List.foldl_append, List.foldl_cons, List.foldl_nil] at ht'
    have hunsplit : splitContent (stays hash numberOfBuckets) previous count content count =
        content count := by
      rw [splitContent, if_neg (Nat.lt_irrefl _), if_neg (by omega)]
    obtain ⟨hstored', hothers, hstarted', hdepth', htuples'⟩ := splitBucket_spec hmax hprevious
      hstored (hbeyond _ (Nat.le_refl _)) (by rw [hunsplit]; exact hmoves count hcount) ht'
    rw [splitContent_succ _ hcount] at hstored'
    refine ⟨hstored', fun c hc => ?_, fun c hc hlt => ?_, fun c hc hne => ?_,
      hdepth'.trans hdepth, htuples'.trans htuples⟩
    · rw [hothers c (by omega) (by omega)]
      exact hbeyond c (by omega)
    · rw [hothers c (by omega) (by omega)]
      exact hsame c (by omega) hlt
    · rcases Nat.lt_or_eq_of_le (Nat.le_of_lt_succ hc) with hlt | rfl
      · rw [hothers c (by omega) (by omega), hothers (previous + c) (by omega) (by omega)]
        exact hstarted c hlt hne
      · exact hstarted' (by rw [hsame c (Nat.le_refl c) hcount]; exact hne)

end

def agreeing (hash : List Nat → Nat) (tuples : List KeyValueTuple) (d b : Nat) :
    List KeyValueTuple :=
  tuples.filter fun x => decide (hash x.key % 2 ^ d = b)

structure Inv (hash : List Nat → Nat) (maxTuples : Nat) (tuples : List KeyValueTuple)
    (t : KeyValueHash) (content : Nat → List KeyValueTuple) : Prop where
  stored : Stored maxTuples t content
  perm : ∀ b < 2 ^ t.depth, (content b).Perm (agreeing hash tuples t.depth b)
  beyond : ∀ b, 2 ^ t.depth ≤ b → t.bucketsPageNumbers b = []
  count : t.tuplesCount = tuples.length
  depth_le : t.depth ≤ 30

section

variable {hash : List Nat → Nat} {maxTuples fuel : Nat} {content : Nat → List KeyValueTuple}
  {tuples : List KeyValueTuple} {t t' : KeyValueHash} {key : List Nat} {x : KeyValueTuple}

theorem getBucket_eq (key : List Nat) (t : KeyValueHash) :
    t.getBucket hash key = hash key % 2 ^ t.depth := and_mask _ _

theorem getBucket_lt (key : List Nat) (t : KeyValueHash) : t.getBucket hash key < 2 ^ t.depth := by
  rw [getBucket_eq]
  exact Nat.mod_lt _ (Nat.two_pow_pos _)

theorem inv_begin (file : Nat → BucketPage) {d : Nat} (hd : d ≤ 30) :
    Inv hash maxTuples [] (begin file d) fun _ => [] where
  stored := ⟨⟨fun _ => List.nodup_nil, fun _ _ _ _ hp => absurd hp List.not_mem_nil,
    fun _ _ hp => absurd hp List.not_mem_nil, List.nodup_nil,
    fun _ hp => absurd hp List.not_mem_nil⟩, fun _ => Holds.nil _ _,
    fun _ => Or.inl (Nat.zero_le 1), fun _ => rfl⟩
  perm _ _ := .refl _
  beyond _ _ := rfl
  count := rfl
  depth_le := hd

theorem Inv.split (hmax : 0 < maxTuples) (h : Inv hash maxTuples tuples t content)
    (ht' : t.split hash maxTuples = some t') :
    (∃ content', Inv hash maxTuples tuples t' content') ∧ t'.depth = t.depth + 1 ∧
      ∀ key, t.bucketsPageNumbers (t.getBucket hash key) ≠ [] →
        t'.bucketsPageNumbers (t'.getBucket hash key) ≠ [] := by
  unfold KeyValueHash.split at ht'
  split at ht'
  · cases ht'
  next hdepth =>
  have ht' := Option.some.inj ht'
  rw [Nat.one_shiftLeft] at ht'
  have hpos := Nat.two_pow_pos t.depth
  have hmod : ∀ n, n % 2 ^ (t.depth + 1) = n % 2 ^ t.depth ∨
      n % 2 ^ (t.depth + 1) = 2 ^ t.depth + n % 2 ^ t.depth :=
    fun n => ExtHash.mod_two_pow_succ_cases n t.depth
  have hlow : ∀ n, n % 2 ^ t.depth < 2 ^ t.depth := fun n => Nat.mod_lt n hpos
  have hmem : ∀ b < 2 ^ t.depth, ∀ x ∈ content b, hash x.key % 2 ^ t.depth = b := by
    intro b hb x hx
    have := (List.mem_filter.mp ((h.perm b hb).mem_iff.mp hx)).2
    exact of_decide_eq_true this
  have hstays : ∀ b x, stays hash (1 <<< (t.depth + 1)) b x =
      decide (hash x.key % 2 ^ (t.depth + 1) = b) := by
    intro b x
    rw [stays, and_mask]
  have hmoves : ∀ b < 2 ^ t.depth, ∀ x ∈ content b,
      stays hash (1 <<< (t.depth + 1)) b x = false →
      hash x.key &&& (1 <<< (t.depth + 1) - 1) = 2 ^ t.depth + b := by
    intro b hb x hx hstay
    rw [hstays] at hstay
    have hne := of_decide_eq_false hstay
    have hb' := hmem b hb x hx
    rw [and_mask]
    have := hmod (hash x.key)
    omega
  obtain ⟨hstored, hbeyond, -, hstarted, hdepth', hcount⟩ :=
    splitBuckets_spec (t := { t with depth := t.depth + 1 }) hmax hpos
      ⟨⟨h.stored.owned.nodup, h.stored.owned.disjoint, h.stored.owned.lt_next,
        h.stored.owned.nodup_available, h.stored.owned.available⟩, h.stored.holds, h.stored.tidy,
        h.stored.sizes⟩ h.beyond hmoves (2 ^ t.depth) (Nat.le_refl _) t' ht'
  have hdouble : 2 ^ (t.depth + 1) = 2 ^ t.depth + 2 ^ t.depth := by
    rw [Nat.pow_succ]
    omega
  refine ⟨⟨_, hstored, fun b hb => ?_, fun b hb => ?_, hcount.trans h.count, ?_⟩, hdepth',
    fun key hne => ?_⟩
  · rw [hdepth'] at hb ⊢
    dsimp only at hb ⊢
    rw [splitContent]
    by_cases hlt : b < 2 ^ t.depth
    · rw [if_pos hlt]
      apply ((h.perm b hlt).filter _).trans
      apply List.Perm.of_eq
      rw [agreeing, agreeing, List.filter_filter]
      apply List.filter_congr
      intro x _
      rw [hstays]
      have := hmod (hash x.key)
      have := hlow (hash x.key)
      by_cases hx : hash x.key % 2 ^ (t.depth + 1) = b
      · rw [decide_eq_true hx, decide_eq_true (by omega), Bool.true_and]
      · rw [decide_eq_false hx, Bool.false_and]
    · rw [if_neg hlt, if_pos (by omega)]
      have hb' : b - 2 ^ t.depth < 2 ^ t.depth := by omega
      apply ((h.perm _ hb').filter _).trans
      apply List.Perm.of_eq
      rw [agreeing, agreeing, List.filter_filter]
      apply List.filter_congr
      intro x _
      rw [hstays]
      have := hmod (hash x.key)
      have := hlow (hash x.key)
      by_cases hx : hash x.key % 2 ^ (t.depth + 1) = b
      · have hlow' : hash x.key % 2 ^ t.depth = b - 2 ^ t.depth := by omega
        have hmoved : ¬ hash x.key % 2 ^ (t.depth + 1) = b - 2 ^ t.depth := by omega
        rw [decide_eq_true hx, decide_eq_true hlow', decide_eq_false hmoved]
        rfl
      · rw [decide_eq_false hx]
        by_cases hlow' : hash x.key % 2 ^ t.depth = b - 2 ^ t.depth
        · have hkept : hash x.key % 2 ^ (t.depth + 1) = b - 2 ^ t.depth := by omega
          rw [decide_eq_true hkept, Bool.not_true, Bool.false_and]
        · rw [decide_eq_false hlow', Bool.and_false]
  · rw [hdepth'] at hb
    dsimp only at hb
    exact hbeyond b (by omega)
  · rw [hdepth']
    dsimp only
    omega
  · rw [getBucket_eq] at hne
    obtain ⟨hold, hnew⟩ := hstarted _ (hlow (hash key)) hne
    rw [getBucket_eq, hdepth']
    dsimp only
    rcases hmod (hash key) with hkey | hkey
    · rw [hkey]
      exact hold
    · rw [hkey]
      exact hnew

def sharing (hash : List Nat → Nat) (tuples : List KeyValueTuple) (key : List Nat) (d : Nat) :
    Nat :=
  (agreeing hash tuples d (hash key % 2 ^ d)).length

def FullAt (hash : List Nat → Nat) (maxTuples : Nat) (tuples : List KeyValueTuple)
    (key : List Nat) (d : Nat) : Prop :=
  0 < sharing hash tuples key d ∧ maxTuples ∣ sharing hash tuples key d

/-- At the depth, or after some splits, there is room on the last page, or the number of tuples is
below the threshold and the bucket gets another page. -/
def HasRoom (hash : List Nat → Nat) (maxTuples : Nat) (tuples : List KeyValueTuple)
    (key : List Nat) (depth : Nat) : Prop :=
  ∃ d, depth ≤ d ∧ d ≤ 30 ∧
    (tuples.length < maxTuples * 2 ^ d % 2 ^ 32 ∨ ¬ FullAt hash maxTuples tuples key d)

theorem Inv.length_content (h : Inv hash maxTuples tuples t content) (key : List Nat) :
    (content (t.getBucket hash key)).length = sharing hash tuples key t.depth := by
  have hlt : t.getBucket hash key < 2 ^ t.depth := getBucket_lt key t
  have hperm := h.perm _ hlt
  rw [hperm.length_eq, getBucket_eq]
  rfl

theorem Inv.full_iff (hmax : 0 < maxTuples) (h : Inv hash maxTuples tuples t content)
    (key : List Nat) (hstarted : t.bucketsPageNumbers (t.getBucket hash key) ≠ []) :
    (t.file (t.back (t.getBucket hash key))).tupleCount ≥ maxTuples ↔
      FullAt hash maxTuples tuples key t.depth := by
  have hholds := h.stored.holds (t.getBucket hash key)
  have htidy := h.stored.tidy (t.getBucket hash key)
  have hcount := hholds.tupleCount_last hstarted
  have hroom := hholds.room
  have hlength := List.length_pos_of_ne_nil hstarted
  rw [h.length_content key] at hcount hroom htidy
  obtain ⟨k, hk⟩ := Nat.exists_eq_add_one_of_ne_zero hlength.ne'
  rw [hk, Nat.add_sub_cancel] at hcount htidy
  rw [hk] at hroom
  rw [back, hcount, FullAt]
  constructor
  · intro hfull
    have heq : sharing hash tuples key t.depth = (k + 1) * maxTuples := by
      rw [Nat.add_one_mul] at hroom ⊢
      omega
    rw [heq]
    exact ⟨Nat.mul_pos (Nat.succ_pos k) hmax, Nat.dvd_mul_left _ _⟩
  · intro hfull
    obtain ⟨hpos, m, hm⟩ := hfull
    rw [Nat.mul_comm] at hm
    have hkm : k < m := by
      rcases htidy with htidy | htidy
      · have : m ≠ 0 := by
          intro hzero
          rw [hzero, Nat.zero_mul] at hm
          omega
        omega
      · rw [hm] at htidy
        exact Nat.lt_of_mul_lt_mul_right htidy
    have hmul : (k + 1) * maxTuples ≤ m * maxTuples := Nat.mul_le_mul_right _ hkm
    rw [Nat.add_one_mul] at hmul
    omega

theorem getSplitTreshold_eq (maxTuples : Nat) (t : KeyValueHash) :
    t.getSplitTreshold maxTuples = maxTuples * 2 ^ t.depth % 2 ^ 32 := by
  rw [getSplitTreshold, Nat.one_shiftLeft]

theorem makeRoom_addPage (hmax : 0 < maxTuples) (howned : Owned t) (key : List Nat) (fuel : Nat) :
    makeRoom hash maxTuples key (fuel + 1) (t.addPage (t.getBucket hash key)).2 =
      some (t.addPage (t.getBucket hash key)).2 := by
  obtain ⟨added, hadded⟩ : ∃ added, t.addPage (t.getBucket hash key) = added := ⟨_, rfl⟩
  obtain ⟨-, -, hpages, hfile, -, hdepth, -⟩ := howned.addPage _ hadded
  have hbucket : added.2.getBucket hash key = t.getBucket hash key := by
    rw [getBucket_eq, getBucket_eq, hdepth]
  have hback : added.2.back (t.getBucket hash key) = added.1 := by
    rw [back, hpages, Function.update_self]
    simp
  have hempty : ¬ (added.2.file added.1).tupleCount ≥ maxTuples := by
    rw [hfile, Function.update_self]
    exact Nat.not_le.mpr hmax
  rw [hadded, makeRoom]
  rw [hbucket, hback, if_neg hempty]

theorem makeRoom_spec (hmax : 0 < maxTuples) (fuel : Nat) :
    ∀ {t : KeyValueHash} {content : Nat → List KeyValueTuple},
    Inv hash maxTuples tuples t content → t.bucketsPageNumbers (t.getBucket hash key) ≠ [] →
    makeRoom hash maxTuples key fuel t = some t' →
    HasRoom hash maxTuples tuples key t.depth ∧ ∃ t₁ content₁,
      Inv hash maxTuples tuples t₁ content₁ ∧
      t₁.bucketsPageNumbers (t₁.getBucket hash key) ≠ [] ∧
      t' = (if (t₁.file (t₁.back (t₁.getBucket hash key))).tupleCount ≥ maxTuples then
        t₁.addPage (t₁.getBucket hash key) else (t₁.back (t₁.getBucket hash key), t₁)).2 := by
  induction fuel with
  | zero =>
    intro t content _ _ hsome
    cases hsome
  | succ fuel ih =>
    intro t content h hstarted hsome
    rw [makeRoom] at hsome
    have hfull := h.full_iff hmax key hstarted
    by_cases hcount : (t.file (t.back (t.getBucket hash key))).tupleCount ≥ maxTuples
    · rw [if_pos hcount] at hsome
      by_cases hmany : t.tuplesCount ≥ t.getSplitTreshold maxTuples
      · rw [if_pos hmany] at hsome
        obtain ⟨t₂, hsplit, hsome'⟩ := Option.bind_eq_some_iff.mp hsome
        obtain ⟨⟨content₂, h₂⟩, hdepth, hstarted₂⟩ := h.split hmax hsplit
        obtain ⟨⟨d, hd, hd', hroom⟩, hrest⟩ := ih h₂ (hstarted₂ key hstarted) hsome'
        exact ⟨⟨d, by omega, hd', hroom⟩, hrest⟩
      · rw [if_neg hmany] at hsome
        refine ⟨⟨t.depth, Nat.le_refl _, h.depth_le, Or.inl ?_⟩, t, content, h, hstarted, ?_⟩
        · rw [h.count, getSplitTreshold_eq] at hmany
          exact Nat.lt_of_not_le hmany
        · cases fuel with
          | zero => cases hsome
          | succ fuel =>
            rw [makeRoom_addPage hmax h.stored.owned] at hsome
            rw [if_pos hcount]
            exact (Option.some.inj hsome).symm
    · rw [if_neg hcount] at hsome
      refine ⟨⟨t.depth, Nat.le_refl _, h.depth_le, Or.inr (mt hfull.mpr hcount)⟩, t, content, h,
        hstarted, ?_⟩
      rw [if_neg hcount]
      exact (Option.some.inj hsome).symm

theorem makeRoom_returns (hmax : 0 < maxTuples) (fuel : Nat) :
    ∀ {t : KeyValueHash} {content : Nat → List KeyValueTuple},
    Inv hash maxTuples tuples t content → t.bucketsPageNumbers (t.getBucket hash key) ≠ [] →
    HasRoom hash maxTuples tuples key t.depth → 32 - t.depth ≤ fuel →
    ∃ t', makeRoom hash maxTuples key fuel t = some t' := by
  induction fuel with
  | zero =>
    intro t content h _ _ hfuel
    have := h.depth_le
    omega
  | succ fuel ih =>
    intro t content h hstarted hroom hfuel
    have hdepth := h.depth_le
    rw [makeRoom]
    by_cases hcount : (t.file (t.back (t.getBucket hash key))).tupleCount ≥ maxTuples
    · rw [if_pos hcount]
      by_cases hmany : t.tuplesCount ≥ t.getSplitTreshold maxTuples
      · rw [if_pos hmany]
        -- there is no room at this depth
        obtain ⟨d, hd, hd', hroom⟩ := hroom
        have hne : d ≠ t.depth := by
          intro heq
          subst heq
          rcases hroom with hfew | hnotfull
          · rw [h.count, getSplitTreshold_eq] at hmany
            omega
          · exact hnotfull ((h.full_iff hmax key hstarted).mp hcount)
        have hsplit : t.split hash maxTuples = some ((List.range (1 <<< t.depth)).foldl
            (splitBucket hash maxTuples (1 <<< t.depth) (1 <<< (t.depth + 1)))
            { t with depth := t.depth + 1 }) := if_neg (by omega)
        obtain ⟨⟨content₂, h₂⟩, hdepth₂, hstarted₂⟩ := h.split hmax hsplit
        rw [hsplit, Option.bind_some]
        exact ih h₂ (hstarted₂ key hstarted) ⟨d, by omega, hd', hroom⟩ (by omega)
      · rw [if_neg hmany]
        obtain ⟨turns, rfl⟩ : ∃ turns, fuel = turns + 1 := ⟨fuel - 1, by omega⟩
        exact ⟨_, makeRoom_addPage hmax h.stored.owned key turns⟩
    · rw [if_neg hcount]
      exact ⟨t, rfl⟩

theorem Inv.start (h : Inv hash maxTuples tuples t content) (key : List Nat) {t₀ : KeyValueHash}
    (ht₀ : t₀ = if t.bucketsPageNumbers (t.getBucket hash key) ≠ [] then t
      else (t.addPage (t.getBucket hash key)).2) :
    Inv hash maxTuples tuples t₀ content ∧ t₀.depth = t.depth ∧
      t₀.bucketsPageNumbers (t₀.getBucket hash key) ≠ [] := by
  by_cases hstarted : t.bucketsPageNumbers (t.getBucket hash key) ≠ []
  · rw [if_pos hstarted] at ht₀
    subst ht₀
    exact ⟨h, rfl, hstarted⟩
  · rw [if_neg hstarted] at ht₀
    rw [ne_eq, not_not] at hstarted
    obtain ⟨bucket, hbucket⟩ : ∃ bucket, bucket = t.getBucket hash key := ⟨_, rfl⟩
    have hlt : bucket < 2 ^ t.depth := hbucket ▸ getBucket_lt key t
    rw [← hbucket] at ht₀ hstarted
    obtain ⟨added, hadded⟩ : ∃ added, t.addPage bucket = added := ⟨_, rfl⟩
    obtain ⟨hfree, howned, hpages, hfile, hcount, hdepth, hsizes⟩ :=
      h.stored.owned.addPage bucket hadded
    rw [hadded] at ht₀
    subst ht₀
    have hnewPages : added.2.bucketsPageNumbers bucket = [added.1] := by
      rw [hpages, Function.update_self, hstarted, List.nil_append]
    have hothers : ∀ c, c ≠ bucket →
        added.2.bucketsPageNumbers c = t.bucketsPageNumbers c := by
      intro c hc
      rw [hpages, Function.update_of_ne hc]
    refine ⟨⟨⟨howned, fun c => ?_, fun c => ?_, fun c => ?_⟩, ?_, fun c hc => ?_, ?_, ?_⟩, hdepth, ?_⟩
    · by_cases hc : c = bucket
      · rw [hc, hnewPages, h.stored.content_eq_nil hstarted]
        have hempty : (added.2.file added.1).content = [] := by
          rw [hfile, Function.update_self]
          rfl
        exact (Holds.nil maxTuples added.2.file).addPage (Nat.zero_mul _).symm hempty
          fun _ _ => rfl
      · rw [hothers c hc]
        apply (h.stored.holds c).congr
        intro p hp
        rw [hfile]
        exact Function.update_of_ne (fun heq => hfree c (by rw [← heq]; exact hp)) _ _
    · by_cases hc : c = bucket
      · rw [hc, hnewPages]
        exact Or.inl (Nat.le_refl 1)
      · rw [hothers c hc]
        exact h.stored.tidy c
    · rw [hsizes, h.stored.sizes]
    · rw [hdepth]
      exact h.perm
    · rw [hdepth] at hc
      rw [hothers c (by omega)]
      exact h.beyond c hc
    · rw [hcount, h.count]
    · rw [hdepth]
      exact h.depth_le
    · rw [getBucket_eq, hdepth, ← getBucket_eq, ← hbucket, hnewPages]
      exact List.cons_ne_nil _ _

theorem Inv.put (hmax : 0 < maxTuples) (h : Inv hash maxTuples tuples t content)
    (hstarted : t.bucketsPageNumbers (t.getBucket hash x.key) ≠ []) {added : Nat × KeyValueHash}
    (hadded : added =
      if (t.file (t.back (t.getBucket hash x.key))).tupleCount ≥ maxTuples then
        t.addPage (t.getBucket hash x.key) else (t.back (t.getBucket hash x.key), t))
    (ht' : t' = { added.2.modifyPage (added.2.back (added.2.getBucket hash x.key))
        (BucketPage.insert x) with
      bucketsSizes := Function.update added.2.bucketsSizes (added.2.getBucket hash x.key)
        (added.2.bucketsSizes (added.2.getBucket hash x.key) + 1)
      tuplesCount := added.2.tuplesCount + 1 }) :
    ∃ content', Inv hash maxTuples (tuples ++ [x]) t' content' := by
  obtain ⟨bucket, hbucket⟩ : ∃ bucket, bucket = t.getBucket hash x.key := ⟨_, rfl⟩
  have hlt : bucket < 2 ^ t.depth := hbucket ▸ getBucket_lt x.key t
  have hhash : hash x.key % 2 ^ t.depth = bucket := by rw [hbucket, getBucket_eq]
  rw [← hbucket] at hstarted hadded
  have hpage := hasPage_of_addPage hmax h.stored.owned (h.stored.holds bucket) hstarted hadded
  have hsame : added.2.getBucket hash x.key = bucket := by
    rw [getBucket_eq, hpage.depth, hhash]
  rw [hsame, ← hpage.back] at ht'
  subst ht'
  refine ⟨Function.update content bucket (content bucket ++ [x]), ⟨⟨hpage.owned.nodup,
    hpage.owned.disjoint, hpage.owned.lt_next, hpage.owned.nodup_available,
    hpage.owned.available⟩, fun c => ?_, fun c => ?_, fun c => ?_⟩, fun c hc => ?_,
    fun c hc => ?_, ?_, ?_⟩
  · by_cases hcb : c = bucket
    · rw [hcb, Function.update_self]
      exact hpage.insert x
    · rw [Function.update_of_ne hcb]
      dsimp only
      rw [show (added.2.modifyPage added.1 (BucketPage.insert x)).bucketsPageNumbers c =
        t.bucketsPageNumbers c from hpage.pages_eq c hcb]
      exact (h.stored.holds c).congr fun p hp => hpage.insert_file_eq x hcb hp
  · dsimp only [modifyPage]
    by_cases hcb : c = bucket
    · rw [hcb, Function.update_self, List.length_append, List.length_singleton]
      exact Or.inr (Nat.lt_succ_of_le hpage.holds.begun)
    · rw [Function.update_of_ne hcb, hpage.pages_eq c hcb]
      exact h.stored.tidy c
  · dsimp only
    by_cases hcb : c = bucket
    · rw [hcb, Function.update_self, Function.update_self, hpage.sizes, h.stored.sizes,
        List.length_append, List.length_singleton]
    · rw [Function.update_of_ne hcb, Function.update_of_ne hcb, hpage.sizes]
      exact h.stored.sizes c
  · dsimp only [modifyPage] at hc ⊢
    rw [hpage.depth] at hc ⊢
    rw [agreeing, List.filter_append, List.filter_singleton]
    by_cases hcb : c = bucket
    · rw [hcb, Function.update_self, decide_eq_true hhash, cond_true]
      exact (h.perm bucket hlt).append_right [x]
    · have hne : ¬ hash x.key % 2 ^ t.depth = c := by
        rw [hhash]
        exact fun heq => hcb heq.symm
      rw [Function.update_of_ne hcb, decide_eq_false hne, cond_false, List.append_nil]
      exact h.perm c hc
  · dsimp only [modifyPage] at hc ⊢
    rw [hpage.depth] at hc
    rw [hpage.pages_eq c (by omega)]
    exact h.beyond c hc
  · dsimp only
    rw [hpage.tuplesCount, h.count, List.length_append, List.length_singleton]
  · dsimp only [modifyPage]
    rw [hpage.depth]
    exact h.depth_le

theorem Inv.insert (hmax : 0 < maxTuples) (h : Inv hash maxTuples tuples t content)
    (hsome : t.insert hash maxTuples fuel x = some t') :
    (∃ content', Inv hash maxTuples (tuples ++ [x]) t' content') ∧
      HasRoom hash maxTuples tuples x.key t.depth := by
  unfold KeyValueHash.insert at hsome
  dsimp only at hsome
  obtain ⟨h₀, hdepth, hstarted⟩ := h.start x.key rfl
  obtain ⟨t₂, hroom, ht'⟩ := Option.map_eq_some_iff.mp hsome
  obtain ⟨hhas, t₁, content₁, h₁, hstarted₁, ht₂⟩ := makeRoom_spec hmax fuel h₀ hstarted hroom
  rw [hdepth] at hhas
  exact ⟨h₁.put hmax hstarted₁ rfl (by rw [← ht₂]; exact ht'.symm), hhas⟩

theorem Inv.insert_returns (hmax : 0 < maxTuples) (h : Inv hash maxTuples tuples t content)
    (hroom : HasRoom hash maxTuples tuples x.key t.depth) (hfuel : 32 ≤ fuel) :
    ∃ t', t.insert hash maxTuples fuel x = some t' := by
  obtain ⟨h₀, hdepth, hstarted⟩ := h.start x.key rfl
  obtain ⟨t₂, ht₂⟩ := makeRoom_returns hmax fuel h₀ hstarted (by rw [hdepth]; exact hroom)
    (by omega)
  unfold KeyValueHash.insert
  dsimp only
  rw [ht₂]
  exact ⟨_, rfl⟩

end
end KeyValueHash
end MillenniumDB
