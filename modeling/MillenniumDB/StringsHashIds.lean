import MillenniumDB.StringsHash

/-!
# Every string keeps its id

While the page of a bucket is the suffix of its hashes, both writers split buckets in the same
way, and every string is found with the id that it was given.
-/

namespace MillenniumDB
namespace StringsHash

def table (globalDepth : Nat) (dir : Nat → Nat) (pages : Nat → Bucket) : ExtHash (Nat × Nat) where
  depth := globalDepth
  dir := dir
  localDepth := fun number => (pages number).localDepth
  entries := fun number => (pages number).keys

theorem mask_eq {depth : Nat} (hle : depth ≤ 64) : mask depth = 2 ^ depth - 1 := by
  have hpow : (0xFFFFFFFFFFFFFFFF : Nat) = 2 ^ 64 - 1 := rfl
  have hsplit : 2 ^ 64 = 2 ^ depth * 2 ^ (64 - depth) := by
    rw [← Nat.pow_add, Nat.add_sub_cancel' hle]
  have hpos := Nat.two_pow_pos depth
  have hpos' := Nat.two_pow_pos (64 - depth)
  rw [mask, Nat.shiftRight_eq_div_pow, hpow, hsplit]
  rw [Nat.div_eq_iff (by omega)]
  have hmul : (2 ^ depth - 1) * 2 ^ (64 - depth) = 2 ^ depth * 2 ^ (64 - depth) - 2 ^ (64 - depth) := by
    rw [Nat.sub_mul, Nat.one_mul]
  have hle' : 2 ^ (64 - depth) ≤ 2 ^ depth * 2 ^ (64 - depth) := Nat.le_mul_of_pos_left _ hpos
  omega

theorem and_mask {depth : Nat} (hle : depth ≤ 64) (hash : Nat) :
    hash &&& mask depth = hash % 2 ^ depth := by
  rw [mask_eq hle, Nat.and_two_pow_sub_one_eq_mod]

theorem mask_and {depth : Nat} (hle : depth ≤ 64) (hash : Nat) :
    mask depth &&& hash = hash % 2 ^ depth := by
  rw [Nat.and_comm, and_mask hle]

theorem or_suffix {depth suffix : Nat} (hlt : suffix < 2 ^ depth) (i : Nat) :
    i <<< depth ||| suffix = i * 2 ^ depth + suffix := by
  rw [← Nat.shiftLeft_add_eq_or_of_lt hlt, Nat.shiftLeft_eq]

theorem updateDirs_apply {globalDepth localDepth suffix : Nat} (hle : localDepth ≤ globalDepth)
    (hlt : suffix < 2 ^ localDepth) (dir : Nat → Nat) (new j : Nat) :
    updateDirs dir (1 <<< (globalDepth - localDepth)) localDepth suffix new j =
      if j < 2 ^ globalDepth ∧ j % 2 ^ localDepth = suffix then new else dir j := by
  have hloop : ∀ n, (List.range n).foldl
      (fun dir i => Function.update dir (i <<< localDepth ||| suffix) new) dir j =
        if ∃ i < n, j = i * 2 ^ localDepth + suffix then new else dir j := by
    intro n
    induction n with
    | zero => simp
    | succ n ih =>
      rw [List.range_succ, List.foldl_append, List.foldl_cons, List.foldl_nil, or_suffix hlt]
      by_cases hj : j = n * 2 ^ localDepth + suffix
      · rw [if_pos ⟨n, Nat.lt_succ_self n, hj⟩, hj, Function.update_self]
      · have hiff : (∃ i < n + 1, j = i * 2 ^ localDepth + suffix) ↔
            ∃ i < n, j = i * 2 ^ localDepth + suffix := by
          constructor
          · rintro ⟨i, hi, hij⟩
            refine ⟨i, ?_, hij⟩
            by_contra hge
            rw [show i = n by omega] at hij
            exact hj hij
          · rintro ⟨i, hi, hij⟩
            exact ⟨i, by omega, hij⟩
        rw [Function.update_of_ne hj, ih, if_congr hiff rfl rfl]
  have hiff : (∃ i < 1 <<< (globalDepth - localDepth), j = i * 2 ^ localDepth + suffix) ↔
      j < 2 ^ globalDepth ∧ j % 2 ^ localDepth = suffix := by
    have hpow : 2 ^ globalDepth = 2 ^ (globalDepth - localDepth) * 2 ^ localDepth := by
      rw [← Nat.pow_add, Nat.sub_add_cancel hle]
    rw [Nat.shiftLeft_eq, Nat.one_mul, hpow]
    constructor
    · rintro ⟨i, hi, rfl⟩
      refine ⟨?_, ?_⟩
      · calc i * 2 ^ localDepth + suffix < (i + 1) * 2 ^ localDepth := by
              rw [Nat.succ_mul]
              omega
          _ ≤ 2 ^ (globalDepth - localDepth) * 2 ^ localDepth := Nat.mul_le_mul_right _ hi
      · rw [Nat.mul_comm, Nat.mul_add_mod, Nat.mod_eq_of_lt hlt]
    · rintro ⟨hj, hmod⟩
      refine ⟨j / 2 ^ localDepth, Nat.div_lt_of_lt_mul (by rwa [Nat.mul_comm]), ?_⟩
      rw [← hmod, Nat.mul_comm, Nat.div_add_mod]
  rw [updateDirs, hloop, if_congr hiff rfl rfl]

theorem localDepth_update (pages : Nat → Bucket) (number : Nat) (bucket : Bucket) :
    (fun i => (Function.update pages number bucket i).localDepth) =
      Function.update (fun i => (pages i).localDepth) number bucket.localDepth :=
  funext fun i => Function.apply_update (fun _ => Bucket.localDepth) pages number bucket i

theorem keys_update (pages : Nat → Bucket) (number : Nat) (bucket : Bucket) :
    (fun i => (Function.update pages number bucket i).keys) =
      Function.update (fun i => (pages i).keys) number bucket.keys :=
  funext fun i => Function.apply_update (fun _ => Bucket.keys) pages number bucket i

/-- The pages after a bucket was split: the new page has the hashes that end in the suffix. -/
def halves (pages : Nat → Bucket) (bucketNumber new suffix : Nat) : Nat → Bucket :=
  let bucket := pages bucketNumber
  let depth := bucket.localDepth + 1
  Function.update
    (Function.update pages bucketNumber
      ⟨depth, bucket.keys.filter fun key => key.1 % 2 ^ depth ≠ suffix⟩)
    new ⟨depth, bucket.keys.filter fun key => key.1 % 2 ^ depth = suffix⟩

theorem redistribute_eq (keys : List (Nat × Nat)) {depth : Nat} (hle : depth ≤ 64)
    (suffix : Nat) :
    (⟨depth, keys⟩ : Bucket).redistribute ⟨depth, []⟩ (mask depth) suffix =
      (⟨depth, keys.filter fun key => key.1 % 2 ^ depth ≠ suffix⟩,
        ⟨depth, keys.filter fun key => key.1 % 2 ^ depth = suffix⟩) := by
  simp only [Bucket.redistribute, mask_and hle]

theorem table_split {globalDepth bucketNumber new suffix : Nat} {dir dir' : Nat → Nat}
    {pages : Nat → Bucket}
    (hdir : ∀ j, dir' j = if j < 2 ^ globalDepth ∧
      j % 2 ^ ((pages bucketNumber).localDepth + 1) = suffix then new else dir j) :
    table globalDepth dir' (halves pages bucketNumber new suffix) =
      (table globalDepth dir pages).split Prod.fst bucketNumber new suffix := by
  have hdir' : dir' = _ := funext hdir
  rw [ExtHash.split, table, halves, localDepth_update, localDepth_update, keys_update,
    keys_update, hdir']
  rfl

theorem table_double (globalDepth : Nat) (dir : Nat → Nat) (pages : Nat → Bucket) :
    table (globalDepth + 1) (duplicateDirs globalDepth dir) pages =
      (table globalDepth dir pages).double := by
  have hdir : duplicateDirs globalDepth dir = fun j => dir (j % 2 ^ globalDepth) := by
    funext j
    rw [duplicateDirs, Nat.shiftLeft_eq, Nat.one_mul]
  rw [hdir]
  rfl

section

variable {globalDepth hash new : Nat} {dir : Nat → Nat} {pages : Nat → Bucket}

def movedSuffix (pages : Nat → Bucket) (bucketNumber hash : Nat) : Nat :=
  2 ^ (pages bucketNumber).localDepth + hash % 2 ^ (pages bucketNumber).localDepth

theorem movedSuffix_lt (pages : Nat → Bucket) (bucketNumber hash : Nat) :
    movedSuffix pages bucketNumber hash < 2 ^ ((pages bucketNumber).localDepth + 1) := by
  have hlt := ExtHash.mod_two_pow_lt hash (pages bucketNumber).localDepth
  rw [movedSuffix, Nat.pow_succ]
  omega

theorem movedSuffix_eq (pages : Nat → Bucket) {bucketNumber : Nat}
    (hle : (pages bucketNumber).localDepth ≤ globalDepth)
    (hle' : (pages bucketNumber).localDepth ≤ 64) (hash : Nat) :
    1 <<< (pages bucketNumber).localDepth |||
        (mask (pages bucketNumber).localDepth &&& hash % 2 ^ globalDepth) =
      movedSuffix pages bucketNumber hash := by
  rw [mask_and hle', ExtHash.mod_two_pow_mod hle, or_suffix (ExtHash.mod_two_pow_lt _ _),
    Nat.one_mul, movedSuffix]

theorem split_shallow (hash : Nat) (hinv : (table globalDepth dir pages).Inv Prod.fst)
    (hlt : (pages (dir (hash % 2 ^ globalDepth))).localDepth < globalDepth)
    (hnew : ∀ j < 2 ^ globalDepth, dir j ≠ new) :
    let bucketNumber := dir (hash % 2 ^ globalDepth)
    let depth := (pages bucketNumber).localDepth + 1
    let suffix := movedSuffix pages bucketNumber hash
    let t' := table globalDepth
      (updateDirs dir (1 <<< (globalDepth - depth)) depth suffix new)
      (halves pages bucketNumber new suffix)
    t'.Inv Prod.fst ∧ (∀ key, t'.Stored key ↔ (table globalDepth dir pages).Stored key) ∧
      ∀ keys, (table globalDepth dir pages).Holds Prod.fst keys → t'.Holds Prod.fst keys := by
  have hsplits : (table globalDepth dir pages).Splits hash new := ⟨hlt, hnew⟩
  intro bucketNumber depth suffix t'
  have ht' : t' = (table globalDepth dir pages).split Prod.fst bucketNumber new suffix :=
    table_split fun j => updateDirs_apply hlt (movedSuffix_lt pages bucketNumber hash) dir new j
  rw [ht']
  exact ⟨hinv.split hsplits, fun key => hinv.stored_split hsplits,
    fun keys => hinv.holds_split hsplits⟩

theorem split_deep (hash : Nat) (hinv : (table globalDepth dir pages).Inv Prod.fst)
    (heq : (pages (dir (hash % 2 ^ globalDepth))).localDepth = globalDepth)
    (hnew : ∀ j < 2 ^ globalDepth, dir j ≠ new) :
    let bucketNumber := dir (hash % 2 ^ globalDepth)
    let suffix := movedSuffix pages bucketNumber hash
    let t' := table (globalDepth + 1)
      (Function.update (duplicateDirs globalDepth dir) suffix new)
      (halves pages bucketNumber new suffix)
    t'.Inv Prod.fst ∧ (∀ key, t'.Stored key ↔ (table globalDepth dir pages).Stored key) ∧
      ∀ keys, (table globalDepth dir pages).Holds Prod.fst keys → t'.Holds Prod.fst keys := by
  intro bucketNumber suffix t'
  have hdouble := table_double globalDepth dir pages
  have hinv' := hinv.double
  have hslot : (table globalDepth dir pages).double.slot hash = bucketNumber := by
    show dir (hash % 2 ^ (globalDepth + 1) % 2 ^ globalDepth) = _
    rw [ExtHash.mod_two_pow_mod (Nat.le_succ _)]
  have hsplits : (table globalDepth dir pages).double.Splits hash new := by
    refine ⟨?_, fun j _ => hnew _ (ExtHash.mod_two_pow_lt j globalDepth)⟩
    rw [hslot]
    exact Nat.lt_succ_of_le heq.le
  have hsuffix : (table globalDepth dir pages).double.newSuffix hash = suffix := by
    rw [ExtHash.newSuffix, hslot]
    rfl
  have hlt : suffix < 2 ^ (globalDepth + 1) := heq ▸ movedSuffix_lt pages bucketNumber hash
  have ht' : t' = (table globalDepth dir pages).double.split Prod.fst bucketNumber new suffix := by
    rw [← hdouble]
    apply table_split
    intro j
    rw [heq]
    by_cases hj : j = suffix
    · rw [hj, Function.update_self, if_pos ⟨hlt, Nat.mod_eq_of_lt hlt⟩]
    · rw [Function.update_of_ne hj, if_neg]
      rintro ⟨hjlt, hmod⟩
      exact hj (by rw [← hmod, Nat.mod_eq_of_lt hjlt])
  have hinv'' := hinv'.split hsplits
  have hstored := fun key => hinv'.stored_split (e := key) hsplits
  have hholds := fun keys (h : (table globalDepth dir pages).Holds Prod.fst keys) =>
    hinv'.holds_split hsplits (hinv.holds_double h)
  rw [hslot, hsuffix, ← ht'] at hinv'' hstored hholds
  exact ⟨hinv'', fun key => (hstored key).trans ExtHash.Inv.stored_double, hholds⟩

theorem inv_congr {pages' : Nat → Bucket} (hpages : ∀ j < 2 ^ globalDepth, pages' (dir j) = pages (dir j))
    (hinv : (table globalDepth dir pages).Inv Prod.fst) :
    (table globalDepth dir pages').Inv Prod.fst := by
  constructor
  · intro j hj
    show (pages' (dir j)).localDepth ≤ globalDepth
    rw [hpages j hj]
    exact hinv.le_depth j hj
  · intro i hi j hj
    show dir i = dir j ↔ i % 2 ^ (pages' (dir j)).localDepth = j % 2 ^ (pages' (dir j)).localDepth
    rw [hpages j hj]
    exact hinv.shared i hi j hj
  · intro j hj key hkey
    have hkey : key ∈ (pages' (dir j)).keys := hkey
    show key.1 % 2 ^ (pages' (dir j)).localDepth = j % 2 ^ (pages' (dir j)).localDepth
    rw [hpages j hj] at hkey ⊢
    exact hinv.placed j hj key hkey

theorem stored_congr {pages' : Nat → Bucket}
    (hpages : ∀ j < 2 ^ globalDepth, pages' (dir j) = pages (dir j)) (key : Nat × Nat) :
    (table globalDepth dir pages').Stored key ↔ (table globalDepth dir pages).Stored key := by
  apply exists_congr
  intro j
  apply and_congr_right
  intro hj
  show key ∈ (pages' (dir j)).keys ↔ key ∈ (pages (dir j)).keys
  rw [hpages j hj]

theorem table_insert (globalDepth : Nat) (dir : Nat → Nat) (pages : Nat → Bucket)
    (key : Nat × Nat) :
    table globalDepth dir (Function.update pages (dir (key.1 % 2 ^ globalDepth))
      { pages (dir (key.1 % 2 ^ globalDepth)) with
        keys := (pages (dir (key.1 % 2 ^ globalDepth))).keys ++ [key] }) =
      (table globalDepth dir pages).insert ((table globalDepth dir pages).slot key.1) key := by
  have hdepth : Function.update (fun i => (pages i).localDepth) (dir (key.1 % 2 ^ globalDepth))
      (pages (dir (key.1 % 2 ^ globalDepth))).localDepth = fun i => (pages i).localDepth :=
    Function.update_eq_self (dir (key.1 % 2 ^ globalDepth)) fun i => (pages i).localDepth
  rw [table, localDepth_update, keys_update, hdepth]
  rfl

end

theorem depth_le {depth : Nat} (hle : depth ≤ maxDepth) : depth ≤ 64 :=
  Nat.le_trans hle (by decide)

namespace BulkImport

/-- The table of an import is well formed, and its pages are the first of the file. -/
structure Ok (t : BulkImport) : Prop where
  depth : t.globalDepth ≤ maxDepth
  inv : (table t.globalDepth t.dir t.pages).Inv Prod.fst
  used : ∀ j < 2 ^ t.globalDepth, t.dir j < t.pagesSize

def Stored (t : BulkImport) (key : Nat × Nat) : Prop :=
  (table t.globalDepth t.dir t.pages).Stored key

theorem ok_init : Ok init := by
  refine ⟨by decide, ⟨fun j hj => ?_, fun i hi j hj => ?_, fun j hj key hkey => ?_⟩, fun j hj => hj⟩
  · exact Nat.le_refl _
  · have hi : i < 2 ^ 8 := hi
    have hj : j < 2 ^ 8 := hj
    show i = j ↔ i % 2 ^ 8 = j % 2 ^ 8
    rw [Nat.mod_eq_of_lt hi, Nat.mod_eq_of_lt hj]
  · cases hkey

theorem not_stored_init (key : Nat × Nat) : ¬ init.Stored key := by
  rintro ⟨j, _, hkey⟩
  cases hkey

section

variable {t t' : BulkImport}

theorem Ok.split_eq (hok : Ok t) (hash : Nat)
    (h : t.split (hash &&& mask t.globalDepth) = some t') :
    let bucketNumber := t.dir (hash % 2 ^ t.globalDepth)
    let localDepth := (t.pages bucketNumber).localDepth
    let suffix := movedSuffix t.pages bucketNumber hash
    localDepth < maxDepth ∧
      ((localDepth < t.globalDepth ∧ t' =
        { t with
          dir := updateDirs t.dir (1 <<< (t.globalDepth - (localDepth + 1))) (localDepth + 1)
            suffix t.pagesSize
          pages := halves t.pages bucketNumber t.pagesSize suffix
          pagesSize := t.pagesSize + 1 }) ∨
      (localDepth = t.globalDepth ∧ t' =
        { globalDepth := t.globalDepth + 1
          dir := Function.update (duplicateDirs t.globalDepth t.dir) suffix t.pagesSize
          pages := halves t.pages bucketNumber t.pagesSize suffix
          pagesSize := t.pagesSize + 1 })) := by
  intro bucketNumber localDepth suffix
  rw [and_mask (depth_le hok.depth)] at h
  have hle : localDepth ≤ t.globalDepth :=
    hok.inv.le_depth _ (ExtHash.mod_two_pow_lt hash t.globalDepth)
  have hle' := depth_le (hle.trans hok.depth)
  have hsuffix : 1 <<< localDepth ||| (mask localDepth &&& hash % 2 ^ t.globalDepth) = suffix :=
    movedSuffix_eq t.pages hle hle' hash
  simp only [BulkImport.split] at h
  split_ifs at h with hmax hshallow hdeep
  · refine ⟨Nat.lt_of_not_le hmax, .inl ⟨hshallow, ?_⟩⟩
    have hdepth : localDepth + 1 ≤ 64 := Nat.le_trans (Nat.lt_of_not_le hmax) (by decide)
    rw [redistribute_eq _ hdepth, hsuffix] at h
    exact (Option.some.inj h).symm
  · refine ⟨Nat.lt_of_not_le hmax, .inr ⟨hdeep, ?_⟩⟩
    have hdepth : localDepth + 1 ≤ 64 := Nat.le_trans (Nat.lt_of_not_le hmax) (by decide)
    have hmask : mask (t.globalDepth + 1) = mask (localDepth + 1) := by
      rw [← hdeep]
    have hsuffix' : 1 <<< t.globalDepth ||| hash % 2 ^ t.globalDepth = suffix := by
      rw [or_suffix (ExtHash.mod_two_pow_lt _ _), Nat.one_mul]
      show _ = 2 ^ localDepth + hash % 2 ^ localDepth
      rw [show localDepth = t.globalDepth from hdeep]
    rw [hmask, redistribute_eq _ hdepth, hsuffix'] at h
    exact (Option.some.inj h).symm

theorem Ok.split (hok : Ok t) (hash : Nat) (h : t.split (hash &&& mask t.globalDepth) = some t') :
    Ok t' ∧ ∀ key, t'.Stored key ↔ t.Stored key := by
  have hnew : ∀ j < 2 ^ t.globalDepth, t.dir j ≠ t.pagesSize := fun j hj => (hok.used j hj).ne
  obtain ⟨hmax, ⟨hshallow, rfl⟩ | ⟨hdeep, rfl⟩⟩ := hok.split_eq hash h
  · obtain ⟨hinv, hstored, _⟩ := split_shallow hash hok.inv hshallow hnew
    refine ⟨⟨hok.depth, hinv, fun j hj => ?_⟩, hstored⟩
    show updateDirs _ _ _ _ _ j < t.pagesSize + 1
    rw [updateDirs_apply hshallow (movedSuffix_lt t.pages _ hash)]
    split_ifs
    · exact Nat.lt_succ_self _
    · exact Nat.lt_succ_of_lt (hok.used j hj)
  · obtain ⟨hinv, hstored, _⟩ := split_deep hash hok.inv hdeep hnew
    refine ⟨⟨hdeep ▸ hmax, hinv, fun j hj => ?_⟩, hstored⟩
    show Function.update (duplicateDirs t.globalDepth t.dir) _ t.pagesSize j < t.pagesSize + 1
    rw [Function.update_apply]
    split_ifs
    · exact Nat.lt_succ_self _
    · apply Nat.lt_succ_of_lt
      apply hok.used
      rw [Nat.shiftLeft_eq, Nat.one_mul]
      exact ExtHash.mod_two_pow_lt j _

theorem Ok.createId (hok : Ok t) (hash id fuel : Nat) (h : t.createId hash id fuel = some t') :
    Ok t' ∧ ∀ key, t'.Stored key ↔ t.Stored key ∨ key = (hash, id) := by
  induction fuel generalizing t with
  | zero => cases h
  | succ fuel ih =>
    rw [BulkImport.createId] at h
    split_ifs at h with hfull
    · obtain ⟨t₁, hsplit, hrest⟩ := Option.bind_eq_some_iff.mp h
      obtain ⟨hok₁, hstored₁⟩ := hok.split hash hsplit
      obtain ⟨hok', hstored'⟩ := ih hok₁ hrest
      refine ⟨hok', fun key => ?_⟩
      rw [hstored', hstored₁]
    · rw [and_mask (depth_le hok.depth)] at h
      cases h
      have htable := table_insert t.globalDepth t.dir t.pages (hash, id)
      refine ⟨⟨hok.depth, ?_, hok.used⟩, fun key => ?_⟩
      · rw [htable]
        exact hok.inv.insert (hash, id)
      · rw [Stored, htable]
        exact ExtHash.Inv.stored_insert (hash, id) key

end

end BulkImport

theorem importStrings_ok {xxh3 : Bytes → Nat} {strings : List (Nat × Bytes)} {t : BulkImport}
    (h : importStrings xxh3 strings = some t) :
    t.Ok ∧ ∀ key, t.Stored key ↔ ∃ string ∈ strings, key = (xxh3 string.2, string.1) := by
  have hfold : ∀ (strings : List (Nat × Bytes)) (t₀ t : BulkImport), t₀.Ok →
      strings.foldlM (fun t string => t.createId (xxh3 string.2) string.1 (maxDepth + 1)) t₀ =
        some t →
      t.Ok ∧ ∀ key, t.Stored key ↔
        t₀.Stored key ∨ ∃ string ∈ strings, key = (xxh3 string.2, string.1) := by
    intro strings
    induction strings with
    | nil =>
      intro t₀ t hok h
      cases h
      exact ⟨hok, fun key => by simp⟩
    | cons string strings ih =>
      intro t₀ t hok h
      rw [List.foldlM_cons] at h
      obtain ⟨t₁, hfirst, hrest⟩ := Option.bind_eq_some_iff.mp h
      obtain ⟨hok₁, hstored₁⟩ := hok.createId _ _ _ hfirst
      obtain ⟨hok', hstored'⟩ := ih t₁ t hok₁ hrest
      refine ⟨hok', fun key => ?_⟩
      rw [hstored', hstored₁, or_assoc, List.exists_mem_cons_iff]
  obtain ⟨hok, hstored⟩ := hfold strings .init t BulkImport.ok_init h
  refine ⟨hok, fun key => ?_⟩
  rw [hstored, or_iff_right (BulkImport.not_stored_init key)]

structure Good (xxh3 : Bytes → Nat) (t : StringsHash) : Prop where
  depth : t.globalDepth ≤ maxDepth
  inv : (table t.globalDepth t.dir t.pages).Inv Prod.fst
  stored : ∀ key, (table t.globalDepth t.dir t.pages).Stored key ↔
    ∃ string ∈ t.strings, key = (xxh3 string.2, string.1)
  ids : (t.strings.map Prod.fst).Nodup
  strs : (t.strings.map Prod.snd).Nodup

def bucketOf (t : StringsHash) (hash : Nat) : Bucket := t.pages (t.dir (hash % 2 ^ t.globalDepth))

section

variable {xxh3 : Bytes → Nat} {t t' : StringsHash} {str : Bytes} {id : Nat}

theorem Good.bucketOf_eq (h : Good xxh3 t) (hash : Nat) :
    t.pages (t.dir (hash &&& mask t.globalDepth)) = t.bucketOf hash := by
  rw [and_mask (depth_le h.depth), bucketOf]

theorem Good.find_eq (h : Good xxh3 t) (hmem : (id, str) ∈ t.strings) :
    t.find str (xxh3 str) (t.bucketOf (xxh3 str)) = some id := by
  have hkey : (xxh3 str, id) ∈ (t.bucketOf (xxh3 str)).keys :=
    (h.inv.stored_iff (e := (xxh3 str, id))).mp ((h.stored _).mpr ⟨_, hmem, rfl⟩)
  -- no other id is one of the string
  have honly : ∀ key : Nat × Nat, key.1 = xxh3 str ∧ t.strEq str key.2 = true →
      key.2 = id := by
    intro key hkey
    have hmem' : (key.2, str) ∈ t.strings := of_decide_eq_true hkey.2
    have heq := List.inj_on_of_nodup_map h.strs hmem' hmem rfl
    exact congrArg Prod.fst heq
  rw [find]
  cases hfind : (t.bucketOf (xxh3 str)).keys.find? fun key =>
      key.1 = xxh3 str ∧ t.strEq str key.2 with
  | none =>
    have hnone := List.find?_eq_none.mp hfind _ hkey
    exact absurd (decide_eq_true ⟨rfl, decide_eq_true hmem⟩) hnone
  | some key =>
    have hsome := List.find?_some hfind
    rw [Option.map_some, honly key (of_decide_eq_true hsome)]

theorem find_eq_none (hnew : ∀ id, (id, str) ∉ t.strings) (hash : Nat) (bucket : Bucket) :
    t.find str hash bucket = none := by
  rw [find, Option.map_eq_none_iff, List.find?_eq_none]
  intro key _ hfound
  exact hnew key.2 (of_decide_eq_true (of_decide_eq_true hfound).2)

theorem splitPages_eq (pages : Nat → Bucket) {number new : Nat} (hne : number ≠ new)
    (hle : (pages number).localDepth + 1 ≤ 64) :
    splitPages pages number new (mask ((pages number).localDepth + 1)) =
      halves pages number new new := by
  simp only [splitPages, Function.update_self, Function.update_of_ne hne]
  rw [redistribute_eq _ hle, halves]
  funext i
  simp only [Function.update_apply]
  split_ifs <;> rfl

/-- What the server asks of a bucket that it splits for a new string: that its page is the suffix
of its hashes, and that no page it splits off, as far as it has to split, is in use. -/
def SplitsRight (xxh3 : Bytes → Nat) (t : StringsHash) (str : Bytes) : Prop :=
  (∀ id, (id, str) ∉ t.strings) → (t.bucketOf (xxh3 str)).keys.length = maxKeys →
    t.dir (xxh3 str % 2 ^ t.globalDepth) =
        xxh3 str % 2 ^ (t.bucketOf (xxh3 str)).localDepth ∧
      ∀ depth, (t.bucketOf (xxh3 str)).localDepth ≤ depth →
        (∀ key ∈ (t.bucketOf (xxh3 str)).keys, key.1 % 2 ^ depth = xxh3 str % 2 ^ depth) →
        ∀ j < 2 ^ t.globalDepth, t.dir j ≠ 2 ^ depth + xxh3 str % 2 ^ depth

theorem split_eq_halves (hglobal : t.globalDepth ≤ maxDepth) (hash : Nat)
    (hnumber : t.dir (hash % 2 ^ t.globalDepth) = hash % 2 ^ (t.bucketOf hash).localDepth)
    (h : t.split (hash &&& mask t.globalDepth) = some t') :
    let bucketNumber := t.dir (hash % 2 ^ t.globalDepth)
    let localDepth := (t.pages bucketNumber).localDepth
    let suffix := movedSuffix t.pages bucketNumber hash
    localDepth < maxDepth ∧
      ((localDepth < t.globalDepth ∧ t' =
        { t with
          dir := updateDirs t.dir (1 <<< (t.globalDepth - (localDepth + 1))) (localDepth + 1)
            suffix suffix
          pages := halves t.pages bucketNumber suffix suffix }) ∨
      (localDepth = t.globalDepth ∧ t' =
        { t with
          globalDepth := t.globalDepth + 1
          dir := Function.update (duplicateDirs t.globalDepth t.dir) suffix suffix
          pages := halves t.pages bucketNumber suffix suffix })) := by
  intro bucketNumber localDepth suffix
  have hlt := ExtHash.mod_two_pow_lt hash localDepth
  have hnumber : bucketNumber = hash % 2 ^ localDepth := hnumber
  rw [and_mask (depth_le hglobal)] at h
  -- the page of the other half is the suffix of its hashes, and it is another page
  have hsuffix : bucketNumber ||| 1 <<< localDepth = suffix := by
    rw [Nat.or_comm, hnumber, or_suffix hlt, Nat.one_mul]
    rfl
  have hne : bucketNumber ≠ suffix := by
    have : suffix = 2 ^ localDepth + hash % 2 ^ localDepth := rfl
    omega
  simp only [StringsHash.split] at h
  split_ifs at h with hmax hshallow hcount hdeep hcount
  · refine ⟨Nat.lt_of_not_le hmax, .inl ⟨hshallow, ?_⟩⟩
    have hdepth : localDepth + 1 ≤ 64 := Nat.le_trans (Nat.lt_of_not_le hmax) (by decide)
    rw [hsuffix, splitPages_eq t.pages hne hdepth] at h
    exact (Option.some.inj h).symm
  · refine ⟨Nat.lt_of_not_le hmax, .inr ⟨hdeep.2, ?_⟩⟩
    have hdepth : localDepth + 1 ≤ 64 := Nat.le_trans (Nat.lt_of_not_le hmax) (by decide)
    have hglobal : t.globalDepth = localDepth := hdeep.2.symm
    have hsuffix' : bucketNumber ||| 1 <<< t.globalDepth = suffix := by
      rw [hglobal, hsuffix]
    have hmask : mask (t.globalDepth + 1) = mask (localDepth + 1) := by
      rw [hglobal]
    rw [hsuffix', hmask, splitPages_eq t.pages hne hdepth] at h
    exact (Option.some.inj h).symm

/-- After a split, the bucket of the hash is one of the halves, and what would be split off it
next is not in use. -/
theorem SplitsRight.of_halves (hright : SplitsRight xxh3 t str)
    (hnew : ∀ id, (id, str) ∉ t.strings)
    (hfull : (t.bucketOf (xxh3 str)).keys.length = maxKeys)
    (hpages : t'.pages = halves t.pages (t.dir (xxh3 str % 2 ^ t.globalDepth))
      (movedSuffix t.pages (t.dir (xxh3 str % 2 ^ t.globalDepth)) (xxh3 str))
      (movedSuffix t.pages (t.dir (xxh3 str % 2 ^ t.globalDepth)) (xxh3 str)))
    (hdir : t'.dir (xxh3 str % 2 ^ t'.globalDepth) =
      if xxh3 str % 2 ^ ((t.bucketOf (xxh3 str)).localDepth + 1) =
          movedSuffix t.pages (t.dir (xxh3 str % 2 ^ t.globalDepth)) (xxh3 str)
      then movedSuffix t.pages (t.dir (xxh3 str % 2 ^ t.globalDepth)) (xxh3 str)
      else t.dir (xxh3 str % 2 ^ t.globalDepth))
    (hnames : ∀ j < 2 ^ t'.globalDepth,
      t'.dir j = movedSuffix t.pages (t.dir (xxh3 str % 2 ^ t.globalDepth)) (xxh3 str) ∨
        ∃ i < 2 ^ t.globalDepth, t'.dir j = t.dir i) : SplitsRight xxh3 t' str := by
  obtain ⟨hnumber, hunused⟩ := hright hnew hfull
  intro _ hfull'
  have hlt := movedSuffix_lt t.pages (t.dir (xxh3 str % 2 ^ t.globalDepth)) (xxh3 str)
  have hmoved : movedSuffix t.pages (t.dir (xxh3 str % 2 ^ t.globalDepth)) (xxh3 str) =
      2 ^ (t.bucketOf (xxh3 str)).localDepth +
        xxh3 str % 2 ^ (t.bucketOf (xxh3 str)).localDepth := rfl
  have hbucket : t.pages (t.dir (xxh3 str % 2 ^ t.globalDepth)) = t.bucketOf (xxh3 str) := rfl
  have hbits := ExtHash.mod_two_pow_succ_cases (xxh3 str) (t.bucketOf (xxh3 str)).localDepth
  rw [hbucket] at hlt
  generalize hmovedEq : movedSuffix t.pages (t.dir (xxh3 str % 2 ^ t.globalDepth)) (xxh3 str) = moved at *
  -- the half that the hash is in
  have hhalf : t'.dir (xxh3 str % 2 ^ t'.globalDepth) =
        xxh3 str % 2 ^ ((t.bucketOf (xxh3 str)).localDepth + 1) ∧
      ∃ keep : Nat × Nat → Bool, t'.bucketOf (xxh3 str) =
        ⟨(t.bucketOf (xxh3 str)).localDepth + 1, (t.bucketOf (xxh3 str)).keys.filter keep⟩ := by
    have hbucket' : t'.bucketOf (xxh3 str) =
        t'.pages (t'.dir (xxh3 str % 2 ^ t'.globalDepth)) := rfl
    rw [hbucket', hpages, hdir, halves, hbucket]
    by_cases hmove : xxh3 str % 2 ^ ((t.bucketOf (xxh3 str)).localDepth + 1) = moved
    · rw [if_pos hmove, hmove, Function.update_self]
      exact ⟨rfl, _, rfl⟩
    · have hold := hbits.resolve_right (hmoved ▸ hmove)
      have hne : t.dir (xxh3 str % 2 ^ t.globalDepth) ≠ moved := by
        rw [hnumber, ← hold]
        exact hmove
      rw [if_neg hmove, Function.update_of_ne hne, Function.update_self, hold]
      exact ⟨hnumber, _, rfl⟩
  obtain ⟨hnumber', keep, hbucket'⟩ := hhalf
  rw [hbucket'] at hfull' ⊢
  have hkeys : (t.bucketOf (xxh3 str)).keys.filter keep = (t.bucketOf (xxh3 str)).keys :=
    List.filter_eq_self.mpr (List.length_filter_eq_length_iff.mp (hfull'.trans hfull.symm))
  refine ⟨hnumber', fun depth hdepth hagree j hj => ?_⟩
  simp only [hkeys] at hagree
  rcases hnames j hj with hname | ⟨i, hi, hname⟩
  · rw [hname]
    have hpow : 2 ^ ((t.bucketOf (xxh3 str)).localDepth + 1) ≤ 2 ^ depth :=
      Nat.pow_le_pow_right (by omega) hdepth
    omega
  · rw [hname]
    exact hunused depth (Nat.le_of_succ_le hdepth) hagree i hi

theorem Good.split (hgood : Good xxh3 t) (hright : SplitsRight xxh3 t str)
    (hnew : ∀ id, (id, str) ∉ t.strings)
    (hfull : (t.bucketOf (xxh3 str)).keys.length = maxKeys)
    (h : t.split (xxh3 str &&& mask t.globalDepth) = some t') :
    Good xxh3 t' ∧ SplitsRight xxh3 t' str ∧ t'.strings = t.strings := by
  obtain ⟨hnumber, hunused⟩ := hright hnew hfull
  have hle : (t.bucketOf (xxh3 str)).localDepth ≤ t.globalDepth :=
    hgood.inv.le_depth _ (ExtHash.mod_two_pow_lt (xxh3 str) t.globalDepth)
  have hplaced : ∀ key ∈ (t.bucketOf (xxh3 str)).keys,
      key.1 % 2 ^ (t.bucketOf (xxh3 str)).localDepth =
        xxh3 str % 2 ^ (t.bucketOf (xxh3 str)).localDepth := by
    intro key hkey
    have hplaced := hgood.inv.placed _ (ExtHash.mod_two_pow_lt (xxh3 str) t.globalDepth) key hkey
    exact hplaced.trans (ExtHash.mod_two_pow_mod hle _)
  have hunused' := hunused _ (Nat.le_refl _) hplaced
  obtain ⟨hmax, ⟨hshallow, rfl⟩ | ⟨hdeep, rfl⟩⟩ := split_eq_halves hgood.depth (xxh3 str) hnumber h
  · obtain ⟨hinv, hstored, _⟩ := split_shallow (xxh3 str) hgood.inv hshallow hunused'
    refine ⟨⟨hgood.depth, hinv, fun key => (hstored key).trans (hgood.stored key), hgood.ids,
      hgood.strs⟩, hright.of_halves hnew hfull rfl ?_ fun j hj => ?_, rfl⟩
    · show updateDirs _ _ _ _ _ _ = _
      rw [updateDirs_apply hshallow (movedSuffix_lt t.pages _ _),
        ExtHash.mod_two_pow_mod hshallow]
      exact if_congr (and_iff_right (ExtHash.mod_two_pow_lt _ _)) rfl rfl
    · show updateDirs _ _ _ _ _ j = _ ∨ ∃ i < 2 ^ t.globalDepth, updateDirs _ _ _ _ _ j = t.dir i
      rw [updateDirs_apply hshallow (movedSuffix_lt t.pages _ _)]
      split_ifs
      · exact .inl rfl
      · exact .inr ⟨j, hj, rfl⟩
  · obtain ⟨hinv, hstored, _⟩ := split_deep (xxh3 str) hgood.inv hdeep hunused'
    refine ⟨⟨hdeep ▸ hmax, hinv, fun key => (hstored key).trans (hgood.stored key), hgood.ids,
      hgood.strs⟩, hright.of_halves hnew hfull rfl ?_ fun j hj => ?_, rfl⟩
    · show Function.update (duplicateDirs t.globalDepth t.dir) _ _ _ = _
      rw [Function.update_apply, duplicateDirs, Nat.shiftLeft_eq, Nat.one_mul,
        ExtHash.mod_two_pow_mod (Nat.le_succ _)]
      rw [bucketOf, hdeep]
    · show Function.update (duplicateDirs t.globalDepth t.dir) _ _ j = _ ∨
        ∃ i < 2 ^ t.globalDepth, Function.update (duplicateDirs t.globalDepth t.dir) _ _ j = t.dir i
      rw [Function.update_apply]
      split_ifs
      · exact .inl rfl
      · refine .inr ⟨j % 2 ^ t.globalDepth, ExtHash.mod_two_pow_lt _ _, ?_⟩
        rw [duplicateDirs, Nat.shiftLeft_eq, Nat.one_mul]

/-- A call of `get_or_create_str_id` gives a stored string its id, and adds any other string. -/
theorem Good.getOrCreateStrId {createNew : List (Nat × Bytes) → Bytes → Nat}
    (hfresh : ∀ strings str, createNew strings str ∉ strings.map Prod.fst)
    (hgood : Good xxh3 t) (hright : SplitsRight xxh3 t str) (fuel : Nat)
    (h : t.getOrCreateStrId createNew str (xxh3 str) fuel = some (id, t')) :
    Good xxh3 t' ∧ t.strings <+: t'.strings := by
  induction fuel generalizing t with
  | zero => cases h
  | succ fuel ih =>
    rw [StringsHash.getOrCreateStrId, hgood.bucketOf_eq] at h
    cases hfind : t.find str (xxh3 str) (t.bucketOf (xxh3 str)) with
    | some id =>
      rw [hfind] at h
      cases h
      exact ⟨hgood, List.prefix_refl _⟩
    | none =>
      have hnew : ∀ id, (id, str) ∉ t.strings := by
        intro id hmem
        rw [hgood.find_eq hmem] at hfind
        cases hfind
      simp only [hfind] at h
      split_ifs at h with hfull
      · obtain ⟨t₁, hsplit, hrest⟩ := Option.bind_eq_some_iff.mp h
        obtain ⟨hgood₁, hright₁, hstrings₁⟩ := hgood.split hright hnew hfull hsplit
        rw [← hstrings₁]
        exact ih hgood₁ hright₁ hrest
      · rw [and_mask (depth_le hgood.depth)] at h
        cases h
        have htable := table_insert t.globalDepth t.dir t.pages
          (xxh3 str, createNew t.strings str)
        have hinv := hgood.inv.insert (xxh3 str, createNew t.strings str)
        have hstored := @ExtHash.Inv.stored_insert _ Prod.fst (table t.globalDepth t.dir t.pages)
          (xxh3 str, createNew t.strings str)
        rw [← htable] at hinv hstored
        refine ⟨⟨hgood.depth, hinv, fun key => ?_, ?_, ?_⟩, List.prefix_append _ _⟩
        · refine (hstored key).trans ((or_congr_left (hgood.stored key)).trans ?_)
          simp only [List.mem_append, List.mem_singleton, or_and_right, exists_or, exists_eq_left]
        · rw [List.map_append, List.map_singleton, ← List.concat_eq_append]
          exact hgood.ids.concat (hfresh t.strings str)
        · rw [List.map_append, List.map_singleton, ← List.concat_eq_append]
          apply hgood.strs.concat
          intro hmem
          obtain ⟨string, hstring, hstr⟩ := List.mem_map.mp hmem
          have heq : string = (string.1, str) := Prod.ext rfl hstr
          exact hnew string.1 (heq ▸ hstring)

theorem getOrCreateStrId_new {createNew : List (Nat × Bytes) → Bytes → Nat}
    (hnew : ∀ id, (id, str) ∉ t.strings) (hash fuel : Nat)
    (h : t.getOrCreateStrId createNew str hash fuel = some (id, t')) :
    id = createNew t.strings str := by
  induction fuel generalizing t with
  | zero => cases h
  | succ fuel ih =>
    rw [StringsHash.getOrCreateStrId] at h
    simp only [find_eq_none hnew] at h
    split_ifs at h with hfull
    · obtain ⟨t₁, hsplit, hrest⟩ := Option.bind_eq_some_iff.mp h
      have hstrings : t₁.strings = t.strings := by
        simp only [StringsHash.split] at hsplit
        split_ifs at hsplit <;> cases hsplit <;> rfl
      rw [← hstrings] at hnew ⊢
      exact ih hnew hrest
    · cases h
      rfl

/-- The pages that the buffer shows do not change when a page leaves it that is dirty or as it is
on disk. -/
theorem pages_evict {number : Nat}
    (hmarked : t.dirty number = true ∨ t.pages number = t.disk number) :
    (t.evict number).pages = t.pages := by
  rw [evict]
  split_ifs with hdirty
  · rfl
  · rw [← hmarked.resolve_left hdirty]
    exact Function.update_eq_self number t.pages

theorem evict_rest (t : StringsHash) (number : Nat) :
    (t.evict number).globalDepth = t.globalDepth ∧ (t.evict number).dir = t.dir ∧
      (t.evict number).strings = t.strings := by
  rw [StringsHash.evict]
  split_ifs <;> exact ⟨rfl, rfl, rfl⟩

theorem Good.evict (hgood : Good xxh3 t) {number : Nat}
    (hmarked : t.dirty number = true ∨ t.pages number = t.disk number) :
    Good xxh3 (t.evict number) := by
  have hpages := pages_evict hmarked
  obtain ⟨hdepth, hdir, hstrings⟩ := evict_rest t number
  constructor
  · rw [hdepth]
    exact hgood.depth
  · rw [hdepth, hdir, hpages]
    exact hgood.inv
  · rw [hdepth, hdir, hpages, hstrings]
    exact hgood.stored
  · rw [hstrings]
    exact hgood.ids
  · rw [hstrings]
    exact hgood.strs

end

inductive Event
  | call (str : Bytes)
  | evict (number : Nat)

def step (xxh3 : Bytes → Nat) (createNew : List (Nat × Bytes) → Bytes → Nat) (t : StringsHash) :
    Event → Option StringsHash
  | .call str => (t.getOrCreateStrId createNew str (xxh3 str) (maxDepth + 1)).map Prod.snd
  | .evict number => some (t.evict number)

def Safe (xxh3 : Bytes → Nat) (t : StringsHash) : Event → Prop
  | .call str => SplitsRight xxh3 t str
  | .evict number => t.dirty number = true ∨ t.pages number = t.disk number

/-- Every string is found with its id, and a call creates an id exactly for the strings that are
not stored. -/
structure Keeps (xxh3 : Bytes → Nat) (createNew : List (Nat × Bytes) → Bytes → Nat)
    (t : StringsHash) : Prop where
  found : ∀ string ∈ t.strings, t.getStrId xxh3 string.2 = some string.1
  created : ∀ str id t', t.getOrCreateStrId createNew str (xxh3 str) (maxDepth + 1) = some (id, t') →
    (id ∉ t.strings.map Prod.fst ↔ ∀ id', (id', str) ∉ t.strings)

section

variable {xxh3 : Bytes → Nat} {createNew : List (Nat × Bytes) → Bytes → Nat} {t t' : StringsHash}

theorem Good.keeps (hfresh : ∀ strings str, createNew strings str ∉ strings.map Prod.fst)
    (hgood : Good xxh3 t) : Keeps xxh3 createNew t where
  found string hmem := by
    rw [getStrId]
    simp only [hgood.bucketOf_eq]
    exact hgood.find_eq hmem
  created str id t' h := by
    by_cases hnew : ∀ id', (id', str) ∉ t.strings
    · rw [getOrCreateStrId_new hnew _ _ h]
      exact iff_of_true (hfresh t.strings str) hnew
    · refine iff_of_false ?_ hnew
      push Not at hnew ⊢
      obtain ⟨id', hmem⟩ := hnew
      rw [StringsHash.getOrCreateStrId, hgood.bucketOf_eq] at h
      simp only [hgood.find_eq hmem] at h
      cases h
      exact List.mem_map_of_mem hmem

theorem Good.step (hfresh : ∀ strings str, createNew strings str ∉ strings.map Prod.fst)
    (hgood : Good xxh3 t) {event : Event} (hsafe : Safe xxh3 t event)
    (h : t.step xxh3 createNew event = some t') : Good xxh3 t' ∧ t.strings <+: t'.strings := by
  cases event with
  | call str =>
    obtain ⟨⟨id, t₁⟩, hcall, rfl⟩ := Option.map_eq_some_iff.mp h
    exact hgood.getOrCreateStrId hfresh hsafe _ hcall
  | evict number =>
    cases h
    refine ⟨hgood.evict hsafe, ?_⟩
    rw [StringsHash.evict]
    split_ifs <;> exact List.prefix_refl _

theorem good_reopen {strings : List (Nat × Bytes)} {imported : BulkImport}
    (hids : (strings.map Prod.fst).Nodup) (hstrs : (strings.map Prod.snd).Nodup)
    (himport : importStrings xxh3 strings = some imported) :
    Good xxh3 (reopen imported strings) := by
  obtain ⟨hok, hstored⟩ := importStrings_ok himport
  have hpages : ∀ j < 2 ^ imported.globalDepth, (reopen imported strings).pages (imported.dir j) =
      imported.pages (imported.dir j) := fun j hj => if_pos (hok.used j hj)
  exact ⟨hok.depth, inv_congr hpages hok.inv,
    fun key => (stored_congr hpages key).trans (hstored key), hids, hstrs⟩

theorem Good.run (hfresh : ∀ strings str, createNew strings str ∉ strings.map Prod.fst)
    (hgood : Good xxh3 t) {events : List Event}
    (hrun : Run (fun t event t' => Safe xxh3 t event ∧ t.step xxh3 createNew event = some t') t
      events t') : Good xxh3 t' ∧ t.strings <+: t'.strings := by
  induction hrun with
  | nil => exact ⟨hgood, List.prefix_refl _⟩
  | cons hstep _ ih =>
    obtain ⟨hgood', hfirstPart⟩ := hgood.step hfresh hstep.1 hstep.2
    obtain ⟨hgood'', hfirstPart'⟩ := ih hgood'
    exact ⟨hgood'', hfirstPart.trans hfirstPart'⟩

/-- After an import, in every run of calls that split buckets rightly and of pages that leave the
buffer with no change unmarked, every string keeps its id. -/
theorem keeps_of_run (hfresh : ∀ strings str, createNew strings str ∉ strings.map Prod.fst)
    {strings : List (Nat × Bytes)} {imported : BulkImport}
    (hids : (strings.map Prod.fst).Nodup) (hstrs : (strings.map Prod.snd).Nodup)
    (himport : importStrings xxh3 strings = some imported) {events : List Event}
    (hrun : Run (fun t event t' => Safe xxh3 t event ∧ t.step xxh3 createNew event = some t')
      (reopen imported strings) events t) :
    strings <+: t.strings ∧ Keeps xxh3 createNew t := by
  obtain ⟨hgood, hfirstPart⟩ := (good_reopen hids hstrs himport).run hfresh hrun
  exact ⟨hfirstPart, hgood.keeps hfresh⟩

end

def nextId (strings : List (Nat × Bytes)) (_ : Bytes) : Nat :=
  (strings.map Prod.fst).foldr max 0 + 1

theorem nextId_notMem (strings : List (Nat × Bytes)) (str : Bytes) :
    nextId strings str ∉ strings.map Prod.fst := by
  have hle : ∀ ids : List Nat, ∀ id ∈ ids, id ≤ ids.foldr max 0 := by
    intro ids
    induction ids with
    | nil => simp
    | cons first ids ih =>
      intro id hid
      rw [List.foldr_cons]
      rcases List.mem_cons.mp hid with rfl | hid
      · exact Nat.le_max_left _ _
      · exact Nat.le_trans (ih id hid) (Nat.le_max_right _ _)
  intro hmem
  have := hle _ _ hmem
  simp only [nextId] at this
  omega

theorem createIds_fill (xxh3 : Bytes → Nat) (t : BulkImport) (number : Nat)
    (strings : List (Nat × Bytes))
    (hdir : ∀ string ∈ strings, t.dir (xxh3 string.2 &&& mask t.globalDepth) = number)
    (hlength : (t.pages number).keys.length + strings.length ≤ maxKeys) :
    strings.foldlM (fun t string => t.createId (xxh3 string.2) string.1 (maxDepth + 1)) t =
      some
        { t with
          pages := Function.update t.pages number
            ⟨(t.pages number).localDepth, (t.pages number).keys ++
              strings.map fun string => (xxh3 string.2, string.1)⟩ } := by
  induction strings generalizing t with
  | nil =>
    rw [List.foldlM_nil, List.map_nil, List.append_nil]
    exact congrArg (fun pages => some { t with pages := pages })
      (Function.update_eq_self number t.pages).symm
  | cons string strings ih =>
    rw [List.length_cons] at hlength
    let t₁ : BulkImport :=
      { t with
        pages := Function.update t.pages number
          ⟨(t.pages number).localDepth, (t.pages number).keys ++ [(xxh3 string.2, string.1)]⟩ }
    have hfirst : t.createId (xxh3 string.2) string.1 (maxDepth + 1) = some t₁ := by
      rw [BulkImport.createId, hdir string List.mem_cons_self]
      exact if_neg (by omega)
    have hpage : t₁.pages number =
        ⟨(t.pages number).localDepth, (t.pages number).keys ++ [(xxh3 string.2, string.1)]⟩ :=
      Function.update_self ..
    have hrest := ih t₁ (fun s hs => hdir s (List.mem_cons_of_mem _ hs)) (by
      rw [hpage, List.length_append, List.length_singleton]
      omega)
    rw [hpage, List.append_assoc, List.singleton_append] at hrest
    rw [List.foldlM_cons, hfirst, List.map_cons]
    refine hrest.trans ?_
    rw [show t₁.pages = Function.update t.pages number _ from rfl, Function.update_idem]

def filledTwo (xxh3 : Bytes → Nat) (number₁ number₂ : Nat) (strings₁ strings₂ : List (Nat × Bytes)) :
    BulkImport :=
  { BulkImport.init with
    pages := Function.update
      (Function.update BulkImport.init.pages number₁
        ⟨defaultGlobalDepth, strings₁.map fun string => (xxh3 string.2, string.1)⟩)
      number₂ ⟨defaultGlobalDepth, strings₂.map fun string => (xxh3 string.2, string.1)⟩ }

theorem importStrings_fill (xxh3 : Bytes → Nat) {number₁ number₂ : Nat} (hne : number₂ ≠ number₁)
    {strings₁ strings₂ : List (Nat × Bytes)} (last : Nat × Bytes)
    (hdir₁ : ∀ string ∈ strings₁, xxh3 string.2 &&& mask defaultGlobalDepth = number₁)
    (hdir₂ : ∀ string ∈ strings₂, xxh3 string.2 &&& mask defaultGlobalDepth = number₂)
    (hlength₁ : strings₁.length ≤ maxKeys) (hlength₂ : strings₂.length ≤ maxKeys) :
    importStrings xxh3 (strings₁ ++ (strings₂ ++ [last])) =
      (filledTwo xxh3 number₁ number₂ strings₁ strings₂).createId (xxh3 last.2) last.1
        (maxDepth + 1) := by
  have hfirst := createIds_fill xxh3 .init number₁ strings₁ hdir₁
    (by rw [show (BulkImport.init.pages number₁).keys = [] from rfl, List.length_nil]; omega)
  rw [show (BulkImport.init.pages number₁).keys = [] from rfl, List.nil_append] at hfirst
  rw [importStrings, List.foldlM_append, hfirst]
  let t₁ : BulkImport :=
    { BulkImport.init with
      pages := Function.update BulkImport.init.pages number₁
        ⟨defaultGlobalDepth, strings₁.map fun string => (xxh3 string.2, string.1)⟩ }
  have hpage : t₁.pages number₂ = ⟨defaultGlobalDepth, []⟩ := Function.update_of_ne hne ..
  have hsecond := createIds_fill xxh3 t₁ number₂ strings₂ hdir₂
    (by rw [hpage, List.length_nil]; omega)
  rw [hpage, List.nil_append] at hsecond
  have hlast : (strings₂ ++ [last]).foldlM
      (fun t string => t.createId (xxh3 string.2) string.1 (maxDepth + 1)) t₁ =
        (filledTwo xxh3 number₁ number₂ strings₁ strings₂).createId (xxh3 last.2) last.1
          (maxDepth + 1) := by
    rw [List.foldlM_append, hsecond]
    simp only [Option.bind_eq_bind, Option.bind_some, List.foldlM_cons, List.foldlM_nil]
    exact Option.bind_fun_some _
  exact hlast

def lostHash : Bytes → Nat
  | [0, i] => 512 * i.toNat
  | [5, i] => 5 + 512 * i.toNat
  | [6] => 261
  | _ => 256

def fullBucket (firstId : Nat) (tag : UInt8) : List (Nat × Bytes) :=
  (List.range maxKeys).map fun i => (firstId + i, [tag, UInt8.ofNat i])

/-- The strings that fill the bucket of the page 0, and one of another bucket. -/
def fullStrings : List (Nat × Bytes) := fullBucket 0 0 ++ ([] ++ [(maxKeys, [6])])

theorem splitsRight_fullStrings {imported : BulkImport}
    (himport : importStrings lostHash fullStrings = some imported) :
    SplitsRight lostHash ((reopen imported fullStrings).evict 1) [7] := by
  have hfill := @importStrings_fill lostHash 0 5 (by decide) (fullBucket 0 0) [] (maxKeys, [6])
    (by decide +kernel) (by decide) (by decide +kernel) (by decide)
  obtain rfl : _ = imported := Option.some.inj (hfill.symm.trans himport)
  intro _ _
  refine ⟨rfl, fun depth hdepth hagree j hj => ?_⟩
  have hfirst := hagree (0, 0) (by decide +kernel)
  have hdeep : ¬ 9 ≤ depth := by
    intro hle
    have hlt : 2 ^ 9 ≤ 2 ^ depth := Nat.pow_le_pow_right (by decide) hle
    rw [show lostHash [7] = 256 from rfl, Nat.zero_mod, Nat.mod_eq_of_lt (by omega)] at hfirst
    cases hfirst
  obtain rfl : depth = 8 := Nat.le_antisymm (by omega) hdepth
  exact Nat.ne_of_lt hj

/-- The call splits the full bucket, and the page of the new string leaves the buffer after it. -/
theorem keeps_of_run_split : ∃ imported t, importStrings lostHash fullStrings = some imported ∧
    t.globalDepth = 9 ∧ fullStrings <+: t.strings ∧ Keeps lostHash nextId t := by
  have hcall : ((importStrings lostHash fullStrings).bind fun imported =>
      (((reopen imported fullStrings).evict 1).step lostHash nextId (.call [7])).map fun t =>
        (t.globalDepth, t.dirty 256)) = some (9, true) := by
    rw [fullStrings, @importStrings_fill lostHash 0 5 (by decide) (fullBucket 0 0) [] (maxKeys, [6])
      (by decide +kernel) (by decide) (by decide +kernel) (by decide)]
    decide +kernel
  obtain ⟨imported, himport, hstep⟩ := Option.bind_eq_some_iff.mp hcall
  obtain ⟨t, ht, hvalues⟩ := Option.map_eq_some_iff.mp hstep
  obtain ⟨hdepth, hdirty⟩ := Prod.mk.inj hvalues
  have hevict : Safe lostHash (reopen imported fullStrings) (.evict 1) := Or.inr rfl
  have hright : Safe lostHash ((reopen imported fullStrings).evict 1) (.call [7]) :=
    splitsRight_fullStrings himport
  have hevict' : Safe lostHash t (.evict 256) := Or.inl hdirty
  have hdepth' : (t.evict 256).globalDepth = 9 := by
    rw [evict, if_pos hdirty]
    exact hdepth
  have hids : (fullStrings.map Prod.fst).Nodup := by
    rw [show fullStrings.map Prod.fst = List.range 256 by decide +kernel]
    exact List.nodup_range
  have hstrs : (fullStrings.map Prod.snd).Nodup := by
    apply List.Nodup.of_map fun str : Bytes => (str.getD 1 255).toNat
    rw [show (fullStrings.map Prod.snd).map (fun str : Bytes => (str.getD 1 255).toNat) =
      List.range 256 by decide +kernel]
    exact List.nodup_range
  exact ⟨imported, t.evict 256, himport, hdepth', keeps_of_run nextId_notMem hids hstrs himport
      (.cons ⟨hevict, rfl⟩ (.cons ⟨hright, ht⟩ (.single ⟨hevict', rfl⟩)))⟩

/- The import splits the bucket of the page 5 and takes the page 256 for it.  The server splits the
bucket of the page 0 and takes the page 256 for it too. -/

/-- The strings that fill the buckets of the pages 0 and 5, and one that splits the latter. -/
def lostStrings : List (Nat × Bytes) :=
  fullBucket 0 0 ++ (fullBucket maxKeys 5 ++ [(2 * maxKeys, [6])])

/-- The call for a string of the bucket of the page 0 loses the string that the page 256 held. -/
theorem not_keeps_lostStrings : ∃ imported t, importStrings lostHash lostStrings = some imported ∧
    Run (fun t event t' => t.step lostHash nextId event = some t') (reopen imported lostStrings)
      [.call [7]] t ∧ ¬ Keeps lostHash nextId t := by
  have himport := @importStrings_fill lostHash 0 5 (by decide) (fullBucket 0 0)
    (fullBucket maxKeys 5) (2 * maxKeys, [6]) (by decide +kernel) (by decide +kernel)
    (by decide +kernel) (by decide +kernel)
  have hlost : ((importStrings lostHash lostStrings).bind fun imported =>
      ((reopen imported lostStrings).getOrCreateStrId nextId [7] 256 (maxDepth + 1)).bind fun r =>
        some (r.2.getStrId lostHash [6], decide ((2 * maxKeys, [6]) ∈ r.2.strings))) =
          some (none, true) := by
    rw [lostStrings, himport]
    decide +kernel
  obtain ⟨imported, himported, hcall⟩ := Option.bind_eq_some_iff.mp hlost
  obtain ⟨r, hr, hfound⟩ := Option.bind_eq_some_iff.mp hcall
  have hpair := Prod.mk.inj (Option.some.inj hfound)
  refine ⟨imported, r.2, himported, .single (congrArg (Option.map Prod.snd) hr), fun hkeeps => ?_⟩
  have hget := hkeeps.found _ (of_decide_eq_true hpair.2)
  rw [hpair.1] at hget
  cases hget

end StringsHash
end MillenniumDB
