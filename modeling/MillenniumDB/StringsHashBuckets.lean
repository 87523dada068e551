import MillenniumDB.StringsHashIds

/-!
# What the buckets of the hash of strings hold

The import and the server's own hash keep the invariant of extendible hashing: entries of the
directory share a bucket when they agree in its depth, and every bucket holds all keys with its low
bits, in the order in which they came.
-/

namespace MillenniumDB
namespace StringsHash

structure Distributes (globalDepth : Nat) (dir : Nat → Nat) (pages : Nat → Bucket)
    (keys : List (Nat × Nat)) : Prop where
  le_depth : ∀ j < 2 ^ globalDepth, (pages (dir j)).localDepth ≤ globalDepth
  shared : ∀ i < 2 ^ globalDepth, ∀ j < 2 ^ globalDepth, dir i = dir j ↔
    i % 2 ^ (pages (dir j)).localDepth = j % 2 ^ (pages (dir j)).localDepth
  holds : ∀ j < 2 ^ globalDepth, (pages (dir j)).keys = keys.filter fun key =>
    key.1 % 2 ^ (pages (dir j)).localDepth = j % 2 ^ (pages (dir j)).localDepth
  capacity : ∀ j < 2 ^ globalDepth, (pages (dir j)).keys.length ≤ maxKeys

/-- The keys with the same low 31 bits are not more than a bucket holds. -/
def Fits (keys : List (Nat × Nat)) : Prop :=
  ∀ hash, (keys.filter fun key => key.1 % 2 ^ maxDepth = hash % 2 ^ maxDepth).length ≤ maxKeys

theorem localDepth_halves {pages : Nat → Bucket} {bucketNumber new suffix number : Nat}
    (hne : bucketNumber ≠ new) (hnumber : number = new ∨ number = bucketNumber) :
    (halves pages bucketNumber new suffix number).localDepth =
      (pages bucketNumber).localDepth + 1 := by
  rw [halves]
  rcases hnumber with rfl | rfl
  · rw [Function.update_self]
  · rw [Function.update_of_ne hne, Function.update_self]

theorem length_halves_add {pages : Nat → Bucket} {number new suffix : Nat} (hne : number ≠ new) :
    (halves pages number new suffix number).keys.length +
      (halves pages number new suffix new).keys.length = (pages number).keys.length := by
  rw [halves, Function.update_of_ne hne, Function.update_self, Function.update_self]
  have hsum := List.length_eq_length_filter_add (l := (pages number).keys)
    fun key => decide (key.1 % 2 ^ ((pages number).localDepth + 1) = suffix)
  rw [hsum, Nat.add_comm]
  congr 2
  apply List.filter_congr
  intro key _
  exact decide_not

namespace Distributes

variable {globalDepth new : Nat} {dir : Nat → Nat} {pages : Nat → Bucket} {keys : List (Nat × Nat)}

theorem inv (h : Distributes globalDepth dir pages keys) :
    (table globalDepth dir pages).Inv Prod.fst where
  le_depth := h.le_depth
  shared := h.shared
  placed j hj key hkey := by
    have hkey : key ∈ (pages (dir j)).keys := hkey
    rw [h.holds j hj, List.mem_filter, decide_eq_true_eq] at hkey
    exact hkey.2

theorem of_inv (hinv : (table globalDepth dir pages).Inv Prod.fst)
    (hholds : (table globalDepth dir pages).Holds Prod.fst keys)
    (hcapacity : ∀ j < 2 ^ globalDepth, (pages (dir j)).keys.length ≤ maxKeys) :
    Distributes globalDepth dir pages keys :=
  ⟨hinv.le_depth, hinv.shared, hholds, hcapacity⟩

theorem insert (h : Distributes globalDepth dir pages keys) (key : Nat × Nat)
    (hroom : (pages (dir (key.1 % 2 ^ globalDepth))).keys.length ≠ maxKeys) :
    Distributes globalDepth dir
      (Function.update pages (dir (key.1 % 2 ^ globalDepth))
        { pages (dir (key.1 % 2 ^ globalDepth)) with
          keys := (pages (dir (key.1 % 2 ^ globalDepth))).keys ++ [key] }) (keys ++ [key]) := by
  have htable := table_insert globalDepth dir pages key
  have hlt := ExtHash.mod_two_pow_lt key.1 globalDepth
  have hle := h.capacity _ hlt
  apply of_inv
  · rw [htable]
    exact h.inv.insert key
  · rw [htable]
    exact h.inv.holds_insert h.holds key
  · intro j hj
    by_cases hbucket : dir j = dir (key.1 % 2 ^ globalDepth)
    · rw [hbucket, Function.update_self, List.length_append, List.length_singleton]
      omega
    · rw [Function.update_of_ne hbucket]
      exact h.capacity j hj

theorem length_halves (h : Distributes globalDepth dir pages keys) {i j suffix : Nat}
    (hi : i < 2 ^ globalDepth) {dir' : Nat → Nat}
    (hj : dir' j = new ∨ ∃ i < 2 ^ globalDepth, dir' j = dir i) :
    (halves pages (dir i) new suffix (dir' j)).keys.length ≤ maxKeys := by
  have hfull := h.capacity i hi
  rw [halves]
  by_cases hnew : dir' j = new
  · rw [hnew, Function.update_self]
    exact (List.length_filter_le _ _).trans hfull
  · obtain ⟨i', hi', hname⟩ := hj.resolve_left hnew
    rw [Function.update_of_ne hnew]
    by_cases hold : dir' j = dir i
    · rw [hold, Function.update_self]
      exact (List.length_filter_le _ _).trans hfull
    · rw [Function.update_of_ne hold, hname]
      exact h.capacity i' hi'

theorem shallow (h : Distributes globalDepth dir pages keys) (hash : Nat)
    (hlt : (pages (dir (hash % 2 ^ globalDepth))).localDepth < globalDepth)
    (hnew : ∀ j < 2 ^ globalDepth, dir j ≠ new) :
    let bucketNumber := dir (hash % 2 ^ globalDepth)
    let depth := (pages bucketNumber).localDepth + 1
    let suffix := movedSuffix pages bucketNumber hash
    let dir' := updateDirs dir (1 <<< (globalDepth - depth)) depth suffix new
    Distributes globalDepth dir' (halves pages bucketNumber new suffix) keys ∧
      (halves pages bucketNumber new suffix (dir' (hash % 2 ^ globalDepth))).localDepth = depth := by
  intro bucketNumber depth suffix dir'
  have hmod := ExtHash.mod_two_pow_lt hash globalDepth
  have happly : ∀ j, dir' j = if j < 2 ^ globalDepth ∧ j % 2 ^ depth = suffix then new else dir j :=
    fun j => updateDirs_apply hlt (movedSuffix_lt pages bucketNumber hash) dir new j
  have hname : ∀ j, dir' j = new ∨ dir' j = dir j := by
    intro j
    rw [happly]
    split_ifs
    · exact Or.inl rfl
    · exact Or.inr rfl
  obtain ⟨hinv, _, hholds⟩ := split_shallow hash h.inv hlt hnew
  constructor
  · apply of_inv hinv (hholds keys h.holds)
    intro j hj
    exact h.length_halves hmod ((hname j).imp_right fun hold => ⟨j, hj, hold⟩)
  · exact localDepth_halves (hnew _ hmod) (hname _)

theorem deep (h : Distributes globalDepth dir pages keys) (hash : Nat)
    (heq : (pages (dir (hash % 2 ^ globalDepth))).localDepth = globalDepth)
    (hnew : ∀ j < 2 ^ globalDepth, dir j ≠ new) :
    let bucketNumber := dir (hash % 2 ^ globalDepth)
    let suffix := movedSuffix pages bucketNumber hash
    let dir' := Function.update (duplicateDirs globalDepth dir) suffix new
    Distributes (globalDepth + 1) dir' (halves pages bucketNumber new suffix) keys ∧
      (halves pages bucketNumber new suffix (dir' (hash % 2 ^ (globalDepth + 1)))).localDepth =
        (pages bucketNumber).localDepth + 1 := by
  intro bucketNumber suffix dir'
  have hmod := ExtHash.mod_two_pow_lt hash globalDepth
  have hold : ∀ j, j ≠ suffix → dir' j = dir (j % 2 ^ globalDepth) := by
    intro j hj
    rw [show dir' j = _ from Function.update_of_ne hj _ _, duplicateDirs, Nat.shiftLeft_eq,
      Nat.one_mul]
  have hsuffix : dir' suffix = new := Function.update_self _ _ _
  have hname : ∀ j, dir' j = new ∨ dir' j = dir (j % 2 ^ globalDepth) := by
    intro j
    by_cases hj : j = suffix
    · exact Or.inl (hj ▸ hsuffix)
    · exact Or.inr (hold j hj)
  obtain ⟨hinv, _, hholds⟩ := split_deep hash h.inv heq hnew
  constructor
  · apply of_inv hinv (hholds keys h.holds)
    intro j _
    exact h.length_halves hmod
      ((hname j).imp_right fun hold => ⟨_, ExtHash.mod_two_pow_lt j globalDepth, hold⟩)
  · have hhalf := hname (hash % 2 ^ (globalDepth + 1))
    rw [ExtHash.mod_two_pow_mod (Nat.le_succ _)] at hhalf
    exact localDepth_halves (hnew _ hmod) hhalf

theorem localDepth_lt (h : Distributes globalDepth dir pages keys) (hle : globalDepth ≤ maxDepth)
    {hash : Nat} (hfull : (pages (dir (hash % 2 ^ globalDepth))).keys.length = maxKeys)
    (hroom : (keys.filter fun key => key.1 % 2 ^ maxDepth = hash % 2 ^ maxDepth).length < maxKeys) :
    (pages (dir (hash % 2 ^ globalDepth))).localDepth < maxDepth := by
  have hlt := ExtHash.mod_two_pow_lt hash globalDepth
  have hdepth := h.le_depth _ hlt
  by_contra hge
  have heq : (pages (dir (hash % 2 ^ globalDepth))).localDepth = maxDepth := by omega
  have hglobal : globalDepth = maxDepth := by omega
  rw [h.holds _ hlt, heq, hglobal, Nat.mod_mod] at hfull
  omega

theorem fits (h : Distributes globalDepth dir pages keys) (hle : globalDepth ≤ maxDepth) :
    Fits keys := by
  intro hash
  have hlt := ExtHash.mod_two_pow_lt hash globalDepth
  have hdepth := h.le_depth _ hlt
  refine le_trans ?_ (h.capacity _ hlt)
  rw [h.holds _ hlt]
  apply List.Sublist.length_le
  apply List.monotone_filter_right
  intro key hkey
  rw [decide_eq_true_eq] at hkey ⊢
  rw [ExtHash.mod_two_pow_mod hdepth, ← ExtHash.mod_two_pow_mod (hdepth.trans hle) key.1, hkey,
    ExtHash.mod_two_pow_mod (hdepth.trans hle)]

end Distributes

namespace BulkImport

/-- Calls of `create_id`, of hashes with ids. -/
def createIds (keys : List (Nat × Nat)) (t : BulkImport) : Option BulkImport :=
  keys.foldlM (fun t key => t.createId key.1 key.2 (maxDepth + 1)) t

structure Filled (t : BulkImport) (keys : List (Nat × Nat)) : Prop where
  depth : t.globalDepth ≤ maxDepth
  used : ∀ j < 2 ^ t.globalDepth, t.dir j < t.pagesSize
  distributes : Distributes t.globalDepth t.dir t.pages keys

variable {t t' : BulkImport} {keys : List (Nat × Nat)}

theorem filled_init : init.Filled [] := by
  refine ⟨ok_init.depth, ok_init.used, .of_inv ok_init.inv (fun _ _ => rfl) fun _ _ => ?_⟩
  exact Nat.zero_le _

theorem Filled.ok (h : t.Filled keys) : t.Ok := ⟨h.depth, h.distributes.inv, h.used⟩

theorem Filled.split (h : t.Filled keys) (hash : Nat)
    (hlt : (t.pages (t.dir (hash % 2 ^ t.globalDepth))).localDepth < maxDepth) :
    ∃ t', t.split (hash &&& mask t.globalDepth) = some t' ∧ t'.Filled keys ∧
      (t'.pages (t'.dir (hash % 2 ^ t'.globalDepth))).localDepth =
        (t.pages (t.dir (hash % 2 ^ t.globalDepth))).localDepth + 1 := by
  have hmod := ExtHash.mod_two_pow_lt hash t.globalDepth
  have hle := h.distributes.le_depth _ hmod
  have hnew : ∀ j < 2 ^ t.globalDepth, t.dir j ≠ t.pagesSize := fun j hj => (h.used j hj).ne
  obtain ⟨t', ht'⟩ : ∃ t', t.split (hash &&& mask t.globalDepth) = some t' := by
    rw [and_mask (depth_le h.depth), BulkImport.split]
    simp only [if_neg (not_le.mpr hlt)]
    by_cases hshallow : (t.pages (t.dir (hash % 2 ^ t.globalDepth))).localDepth < t.globalDepth
    · rw [if_pos hshallow]
      exact ⟨_, rfl⟩
    · rw [if_neg hshallow, if_pos (by omega)]
      exact ⟨_, rfl⟩
  have hok := (h.ok.split hash ht').1
  refine ⟨t', ht', ?_⟩
  obtain ⟨_, ⟨hshallow, rfl⟩ | ⟨hdeep, rfl⟩⟩ := h.ok.split_eq hash ht'
  · obtain ⟨hdistributes, hdepth⟩ := h.distributes.shallow hash hshallow hnew
    exact ⟨⟨hok.depth, hok.used, hdistributes⟩, hdepth⟩
  · obtain ⟨hdistributes, hdepth⟩ := h.distributes.deep hash hdeep hnew
    exact ⟨⟨hok.depth, hok.used, hdistributes⟩, hdepth⟩

theorem Filled.createId (id : Nat) {hash : Nat}
    (hroom : (keys.filter fun key => key.1 % 2 ^ maxDepth = hash % 2 ^ maxDepth).length < maxKeys) :
    ∀ (fuel : Nat) (t : BulkImport), t.Filled keys →
      maxDepth < (t.pages (t.dir (hash % 2 ^ t.globalDepth))).localDepth + fuel →
      ∃ t', t.createId hash id fuel = some t' ∧ t'.Filled (keys ++ [(hash, id)]) := by
  intro fuel
  induction fuel with
  | zero =>
    intro t h hfuel
    have hle := h.distributes.le_depth _ (ExtHash.mod_two_pow_lt hash t.globalDepth)
    have := h.depth
    omega
  | succ fuel ih =>
    intro t h hfuel
    rw [BulkImport.createId]
    simp only [and_mask (depth_le h.depth)]
    by_cases hfull : (t.pages (t.dir (hash % 2 ^ t.globalDepth))).keys.length = maxKeys
    · obtain ⟨t₁, hsplit, h₁, hdepth⟩ :=
        h.split hash (h.distributes.localDepth_lt h.depth hfull hroom)
      rw [and_mask (depth_le h.depth)] at hsplit
      rw [if_pos hfull, hsplit, Option.bind_some]
      exact ih t₁ h₁ (by omega)
    · rw [if_neg hfull]
      exact ⟨_, rfl, h.depth, h.used, h.distributes.insert (hash, id) hfull⟩

theorem Filled.createIds (more : List (Nat × Nat)) : ∀ (keys : List (Nat × Nat)) (t : BulkImport),
    t.Filled keys → Fits (keys ++ more) →
      ∃ t', BulkImport.createIds more t = some t' ∧ t'.Filled (keys ++ more) := by
  induction more with
  | nil =>
    intro keys t h _
    exact ⟨t, rfl, by rwa [List.append_nil]⟩
  | cons key more ih =>
    intro keys t h hfits
    have hroom : (keys.filter fun other =>
        other.1 % 2 ^ maxDepth = key.1 % 2 ^ maxDepth).length < maxKeys := by
      have hlength := hfits key.1
      rw [List.filter_append, List.length_append, List.filter_cons_of_pos (by simp),
        List.length_cons] at hlength
      omega
    obtain ⟨t₁, hcreate, h₁⟩ := Filled.createId key.2 hroom (maxDepth + 1) t h (by omega)
    rw [List.append_cons] at hfits ⊢
    rw [BulkImport.createIds, List.foldlM_cons, hcreate]
    exact ih (keys ++ [key]) t₁ h₁ hfits

theorem fits_of_createIds (hcreate : createIds keys .init = some t)
    (h : Distributes t.globalDepth t.dir t.pages keys) : Fits keys := by
  have hfold : ∀ (keys : List (Nat × Nat)) (t₀ : BulkImport), t₀.Ok →
      createIds keys t₀ = some t → t.Ok := by
    intro keys
    induction keys with
    | nil =>
      intro t₀ hok hcreate
      exact Option.some.inj hcreate ▸ hok
    | cons key keys ih =>
      intro t₀ hok hcreate
      rw [createIds, List.foldlM_cons] at hcreate
      obtain ⟨t₁, hfirst, hrest⟩ := Option.bind_eq_some_iff.mp hcreate
      exact ih t₁ (hok.createId _ _ _ hfirst).1 hrest
  exact h.fits (hfold keys .init ok_init hcreate).depth

end BulkImport

/-- The hash that the constructor makes when there is no directory.  The pages after it are not yet
in the file. -/
def created (disk : Nat → Bucket) : StringsHash where
  globalDepth := defaultGlobalDepth
  dir := id
  pages := fun number =>
    if number < 1 <<< defaultGlobalDepth then ⟨defaultGlobalDepth, []⟩ else disk number
  disk := disk
  dirty := fun number => number < 1 <<< defaultGlobalDepth
  strings := []

def keysOf (xxh3 : Bytes → Nat) (strings : List (Nat × Bytes)) : List (Nat × Nat) :=
  strings.map fun string => (xxh3 string.2, string.1)

structure Served (xxh3 : Bytes → Nat) (t : StringsHash) : Prop where
  depth : t.globalDepth ≤ maxDepth
  number : ∀ j < 2 ^ t.globalDepth, t.dir j = j % 2 ^ (t.pages (t.dir j)).localDepth
  distributes : Distributes t.globalDepth t.dir t.pages (keysOf xxh3 t.strings)

/-- When a step does what it should: the string is there, or a bucket has room for all keys with its
low 31 bits; a page that leaves the buffer has no change that is not marked. -/
def Meets (xxh3 : Bytes → Nat) (t : StringsHash) : Event → Prop
  | .call str => (∃ id, (id, str) ∈ t.strings) ∨ ((keysOf xxh3 t.strings).filter fun key =>
      key.1 % 2 ^ maxDepth = xxh3 str % 2 ^ maxDepth).length < maxKeys
  | .evict number => t.dirty number = true ∨ t.pages number = t.disk number

variable {xxh3 : Bytes → Nat} {t t' : StringsHash} {str : Bytes}

theorem served_created (xxh3 : Bytes → Nat) (disk : Nat → Bucket) : (created disk).Served xxh3 := by
  have hpage : ∀ j < 2 ^ 8, (created disk).pages j = ⟨8, []⟩ := fun j hj => if_pos hj
  refine ⟨show defaultGlobalDepth ≤ maxDepth by decide, fun j hj => ?_, fun j hj => ?_,
    fun i hi j hj => ?_, fun j hj => ?_, fun j hj => ?_⟩
  · have hj : j < 2 ^ 8 := hj
    show j = j % 2 ^ ((created disk).pages j).localDepth
    rw [hpage j hj, Nat.mod_eq_of_lt hj]
  · show ((created disk).pages j).localDepth ≤ 8
    rw [hpage j hj]
  · have hi : i < 2 ^ 8 := hi
    have hj : j < 2 ^ 8 := hj
    show i = j ↔ i % 2 ^ ((created disk).pages j).localDepth =
      j % 2 ^ ((created disk).pages j).localDepth
    rw [hpage j hj, Nat.mod_eq_of_lt hi, Nat.mod_eq_of_lt hj]
  · show ((created disk).pages j).keys = _
    rw [hpage j hj]
    rfl
  · show ((created disk).pages j).keys.length ≤ maxKeys
    rw [hpage j hj]
    exact Nat.zero_le _

theorem or_bit_eq_movedSuffix (pages : Nat → Bucket) {number hash : Nat}
    (hnumber : number = hash % 2 ^ (pages number).localDepth) :
    number ||| 1 <<< (pages number).localDepth = movedSuffix pages number hash := by
  have hlt := ExtHash.mod_two_pow_lt hash (pages number).localDepth
  rw [← hnumber] at hlt
  rw [Nat.or_comm, or_suffix hlt, Nat.one_mul, movedSuffix, ← hnumber]

namespace Served

theorem unused (h : t.Served xxh3) (hash : Nat) : ∀ j < 2 ^ t.globalDepth,
    t.dir j ≠ movedSuffix t.pages (t.dir (hash % 2 ^ t.globalDepth)) hash := by
  intro j hj heq
  have hmod := ExtHash.mod_two_pow_lt hash t.globalDepth
  have hle := h.distributes.le_depth _ hmod
  have hnumber := h.number _ hmod
  have hlt := ExtHash.mod_two_pow_lt hash (t.pages (t.dir (hash % 2 ^ t.globalDepth))).localDepth
  rw [ExtHash.mod_two_pow_mod hle] at hnumber
  rw [movedSuffix] at heq
  have hj' := h.number j hj
  -- the bucket of the entry would be deeper, and so it would be one of the bucket's own entries
  have hdeeper : (t.pages (t.dir (hash % 2 ^ t.globalDepth))).localDepth ≤
      (t.pages (t.dir j)).localDepth := by
    have hpow := ExtHash.mod_two_pow_lt j (t.pages (t.dir j)).localDepth
    by_contra hshallow
    have := Nat.pow_le_pow_right (show 0 < 2 by decide) (le_of_not_ge hshallow)
    omega
  have hlow : j % 2 ^ (t.pages (t.dir (hash % 2 ^ t.globalDepth))).localDepth =
      hash % 2 ^ (t.pages (t.dir (hash % 2 ^ t.globalDepth))).localDepth := by
    rw [← ExtHash.mod_two_pow_mod hdeeper, ← hj', heq, Nat.add_mod_left, Nat.mod_mod]
  have hsame : t.dir j = t.dir (hash % 2 ^ t.globalDepth) := by
    rw [h.distributes.shared j hj _ hmod, ExtHash.mod_two_pow_mod hle]
    exact hlow
  omega

theorem number_halves (h : t.Served xxh3) (hash : Nat) {globalDepth' : Nat} {dir' : Nat → Nat}
    (hdir : ∀ j < 2 ^ globalDepth', dir' j =
      if j % 2 ^ ((t.pages (t.dir (hash % 2 ^ t.globalDepth))).localDepth + 1) =
          movedSuffix t.pages (t.dir (hash % 2 ^ t.globalDepth)) hash
      then movedSuffix t.pages (t.dir (hash % 2 ^ t.globalDepth)) hash
      else t.dir (j % 2 ^ t.globalDepth)) :
    ∀ j < 2 ^ globalDepth', dir' j =
      j % 2 ^ (halves t.pages (t.dir (hash % 2 ^ t.globalDepth))
        (movedSuffix t.pages (t.dir (hash % 2 ^ t.globalDepth)) hash)
        (movedSuffix t.pages (t.dir (hash % 2 ^ t.globalDepth)) hash) (dir' j)).localDepth := by
  intro j hj
  have hmod := ExtHash.mod_two_pow_lt hash t.globalDepth
  have hne := h.unused hash _ hmod
  have hle := h.distributes.le_depth _ hmod
  rw [hdir j hj]
  split_ifs with hsuffix
  · rw [localDepth_halves hne (Or.inl rfl), hsuffix]
  · have hi := ExtHash.mod_two_pow_lt j t.globalDepth
    have hbits := ExtHash.mod_two_pow_succ_cases j
      (t.pages (t.dir (hash % 2 ^ t.globalDepth))).localDepth
    by_cases hbucket : t.dir (j % 2 ^ t.globalDepth) = t.dir (hash % 2 ^ t.globalDepth)
    · have hlow := (h.distributes.shared _ hi _ hmod).mp hbucket
      have hnumber := h.number _ hmod
      rw [ExtHash.mod_two_pow_mod hle, ExtHash.mod_two_pow_mod hle] at hlow
      rw [ExtHash.mod_two_pow_mod hle] at hnumber
      rw [hbucket, localDepth_halves hne (Or.inr rfl)]
      rcases hbits with hbits | hbits
      · rw [hbits, hlow]
        exact hnumber
      · rw [hbits, hlow] at hsuffix
        exact absurd rfl hsuffix
    · have hnumber := h.number _ hi
      rw [ExtHash.mod_two_pow_mod (h.distributes.le_depth _ hi)] at hnumber
      rw [halves, Function.update_of_ne (h.unused hash _ hi), Function.update_of_ne hbucket]
      exact hnumber

theorem split (h : t.Served xxh3) (hash : Nat)
    (hfull : (t.pages (t.dir (hash % 2 ^ t.globalDepth))).keys.length = maxKeys)
    (hlt : (t.pages (t.dir (hash % 2 ^ t.globalDepth))).localDepth < maxDepth) :
    ∃ t', t.split (hash &&& mask t.globalDepth) = some t' ∧ t'.Served xxh3 ∧
      t'.strings = t.strings ∧ (t'.pages (t'.dir (hash % 2 ^ t'.globalDepth))).localDepth =
        (t.pages (t.dir (hash % 2 ^ t.globalDepth))).localDepth + 1 := by
  have hmod := ExtHash.mod_two_pow_lt hash t.globalDepth
  have hle := h.distributes.le_depth _ hmod
  have hnew := h.unused hash
  have hne := hnew _ hmod
  have hnumber := h.number _ hmod
  rw [ExtHash.mod_two_pow_mod hle] at hnumber
  have hbit := or_bit_eq_movedSuffix t.pages hnumber
  have hdepth : (t.pages (t.dir (hash % 2 ^ t.globalDepth))).localDepth + 1 ≤ 64 :=
    Nat.le_trans hlt (by decide)
  have hpages := splitPages_eq t.pages hne hdepth
  have hcount : (halves t.pages (t.dir (hash % 2 ^ t.globalDepth))
        (movedSuffix t.pages (t.dir (hash % 2 ^ t.globalDepth)) hash)
        (movedSuffix t.pages (t.dir (hash % 2 ^ t.globalDepth)) hash)
        (t.dir (hash % 2 ^ t.globalDepth))).keys.length +
      (halves t.pages (t.dir (hash % 2 ^ t.globalDepth))
        (movedSuffix t.pages (t.dir (hash % 2 ^ t.globalDepth)) hash)
        (movedSuffix t.pages (t.dir (hash % 2 ^ t.globalDepth)) hash)
        (movedSuffix t.pages (t.dir (hash % 2 ^ t.globalDepth)) hash)).keys.length = maxKeys :=
    (length_halves_add hne).trans hfull
  obtain ⟨t', ht'⟩ : ∃ t', t.split (hash &&& mask t.globalDepth) = some t' := by
    rw [and_mask (depth_le h.depth), StringsHash.split]
    simp only [if_neg (not_le.mpr hlt)]
    by_cases hshallow : (t.pages (t.dir (hash % 2 ^ t.globalDepth))).localDepth < t.globalDepth
    · rw [if_pos hshallow, hbit, hpages, if_pos hcount]
      exact ⟨_, rfl⟩
    · have heq : (t.pages (t.dir (hash % 2 ^ t.globalDepth))).localDepth = t.globalDepth := by omega
      have hsuffix : hash % 2 ^ t.globalDepth = t.dir (hash % 2 ^ t.globalDepth) := by
        rw [heq] at hnumber
        exact hnumber.symm
      have hbit' : t.dir (hash % 2 ^ t.globalDepth) ||| 1 <<< t.globalDepth =
          movedSuffix t.pages (t.dir (hash % 2 ^ t.globalDepth)) hash := by
        rw [← hbit, heq]
      have hpages' : splitPages t.pages (t.dir (hash % 2 ^ t.globalDepth))
          (movedSuffix t.pages (t.dir (hash % 2 ^ t.globalDepth)) hash) (mask (t.globalDepth + 1)) =
          halves t.pages (t.dir (hash % 2 ^ t.globalDepth))
            (movedSuffix t.pages (t.dir (hash % 2 ^ t.globalDepth)) hash)
            (movedSuffix t.pages (t.dir (hash % 2 ^ t.globalDepth)) hash) := by
        rw [← hpages, heq]
      rw [if_neg hshallow, if_pos ⟨hsuffix, heq⟩, hbit', hpages', if_pos hcount]
      exact ⟨_, rfl⟩
  refine ⟨t', ht', ?_⟩
  obtain ⟨_, ⟨hshallow, rfl⟩ | ⟨hdeep, rfl⟩⟩ := split_eq_halves h.depth hash hnumber ht'
  · obtain ⟨hdistributes, hdeeper⟩ := h.distributes.shallow hash hshallow hnew
    refine ⟨⟨h.depth, h.number_halves hash fun j hj => ?_, hdistributes⟩, rfl, hdeeper⟩
    show updateDirs _ _ _ _ _ j = _
    rw [Nat.mod_eq_of_lt hj, updateDirs_apply hshallow (movedSuffix_lt t.pages _ hash)]
    exact if_congr (and_iff_right hj) rfl rfl
  · obtain ⟨hdistributes, hdeeper⟩ := h.distributes.deep hash hdeep hnew
    refine ⟨⟨?_, h.number_halves hash fun j hj => ?_, hdistributes⟩, rfl, hdeeper⟩
    · show t.globalDepth + 1 ≤ maxDepth
      omega
    · show Function.update (duplicateDirs t.globalDepth t.dir) _ _ j = _
      rw [hdeep, Nat.mod_eq_of_lt hj, Function.update_apply, duplicateDirs, Nat.shiftLeft_eq,
        Nat.one_mul]

theorem mem_of_find {hash id : Nat} {bucket : Bucket} (h : t.find str hash bucket = some id) :
    (id, str) ∈ t.strings := by
  obtain ⟨key, hkey, rfl⟩ := Option.map_eq_some_iff.mp h
  have hfound := List.find?_some hkey
  exact of_decide_eq_true (of_decide_eq_true hfound).2

theorem find_ne_none (h : t.Served xxh3) {id : Nat} (hmem : (id, str) ∈ t.strings) :
    t.find str (xxh3 str) (t.pages (t.dir (xxh3 str % 2 ^ t.globalDepth))) ≠ none := by
  have hmod := ExtHash.mod_two_pow_lt (xxh3 str) t.globalDepth
  have hle := h.distributes.le_depth _ hmod
  intro hnone
  rw [find, Option.map_eq_none_iff, List.find?_eq_none] at hnone
  apply hnone (xxh3 str, id)
  · rw [h.distributes.holds _ hmod, List.mem_filter, decide_eq_true_eq, ExtHash.mod_two_pow_mod hle]
    exact ⟨List.mem_map_of_mem hmem, rfl⟩
  · simpa [strEq] using hmem

theorem getOrCreateStrId (createNew : List (Nat × Bytes) → Bytes → Nat) :
    ∀ (fuel : Nat) (t : StringsHash), t.Served xxh3 → Meets xxh3 t (.call str) →
      maxDepth < (t.pages (t.dir (xxh3 str % 2 ^ t.globalDepth))).localDepth + fuel →
      ∃ id t', t.getOrCreateStrId createNew str (xxh3 str) fuel = some (id, t') ∧
        t'.Served xxh3 ∧ (id, str) ∈ t'.strings ∧ t.strings <+: t'.strings := by
  intro fuel
  induction fuel with
  | zero =>
    intro t h _ hfuel
    have hle := h.distributes.le_depth _ (ExtHash.mod_two_pow_lt (xxh3 str) t.globalDepth)
    have := h.depth
    omega
  | succ fuel ih =>
    intro t h hmeets hfuel
    rw [StringsHash.getOrCreateStrId]
    simp only [and_mask (depth_le h.depth)]
    cases hfind : t.find str (xxh3 str) (t.pages (t.dir (xxh3 str % 2 ^ t.globalDepth))) with
    | some id => exact ⟨id, t, rfl, h, mem_of_find hfind, List.prefix_refl _⟩
    | none =>
      have hnew : ¬ ∃ id, (id, str) ∈ t.strings := by
        rintro ⟨id, hmem⟩
        exact h.find_ne_none hmem hfind
      have hroom := hmeets.resolve_left hnew
      by_cases hfull : (t.pages (t.dir (xxh3 str % 2 ^ t.globalDepth))).keys.length = maxKeys
      · obtain ⟨t₁, hsplit, h₁, hstrings, hdepth⟩ :=
          h.split (xxh3 str) hfull (h.distributes.localDepth_lt h.depth hfull hroom)
        rw [and_mask (depth_le h.depth)] at hsplit
        simp only [if_pos hfull, hsplit, Option.bind_some]
        have hmeets₁ : Meets xxh3 t₁ (.call str) := by
          rw [Meets, hstrings]
          exact hmeets
        rw [← hstrings]
        exact ih t₁ h₁ hmeets₁ (by omega)
      · simp only [if_neg hfull]
        refine ⟨_, _, rfl, ⟨h.depth, fun j hj => ?_, ?_⟩,
          List.mem_append_right _ (List.mem_singleton_self _), List.prefix_append _ _⟩
        · have hdepths := localDepth_update t.pages (t.dir (xxh3 str % 2 ^ t.globalDepth))
            { t.pages (t.dir (xxh3 str % 2 ^ t.globalDepth)) with
              keys := (t.pages (t.dir (xxh3 str % 2 ^ t.globalDepth))).keys ++
                [(xxh3 str, createNew t.strings str)] }
          have hsame := congrFun hdepths (t.dir j)
          rw [Function.update_eq_self] at hsame
          show t.dir j = j % 2 ^ _
          rw [hsame]
          exact h.number j hj
        · show Distributes _ _ _ (keysOf xxh3 (t.strings ++ [(createNew t.strings str, str)]))
          rw [keysOf, List.map_append]
          exact h.distributes.insert (xxh3 str, createNew t.strings str) hfull

theorem evict (h : t.Served xxh3) {number : Nat} (hmeets : Meets xxh3 t (.evict number)) :
    (t.evict number).Served xxh3 := by
  have hpages := pages_evict hmeets
  obtain ⟨hdepth, hdir, hstrings⟩ := evict_rest t number
  constructor
  · rw [hdepth]
    exact h.depth
  · rw [hdepth, hdir, hpages]
    exact h.number
  · rw [hdepth, hdir, hpages, hstrings]
    exact h.distributes

theorem run {createNew : List (Nat × Bytes) → Bytes → Nat} (h : t.Served xxh3) {events : List Event}
    (hrun : Run (fun t event t' => Meets xxh3 t event ∧ t.step xxh3 createNew event = some t') t
      events t') : t'.Served xxh3 := by
  induction hrun with
  | nil => exact h
  | cons hstep _ ih =>
    apply ih
    obtain ⟨hmeets, hstep⟩ := hstep
    rename_i event _ _
    cases event with
    | call str =>
      obtain ⟨id, t₁, hcall, h₁, _⟩ :=
        Served.getOrCreateStrId createNew (maxDepth + 1) _ h hmeets (by omega)
      rw [StringsHash.step, hcall, Option.map_some, Option.some.injEq] at hstep
      exact hstep ▸ h₁
    | evict number => exact Option.some.inj hstep ▸ h.evict hmeets

end Served

/-- An import distributes its keys exactly when no more of them agree in 31 bits than a bucket holds.
In every run of the server's own hash whose steps do what they should, the keys of all strings are
distributed, and a call returns an id of its string. -/
theorem distributes_iff_fits (xxh3 : Bytes → Nat) (createNew : List (Nat × Bytes) → Bytes → Nat)
    (disk : Nat → Bucket) :
    (∀ keys, (∃ t, BulkImport.createIds keys .init = some t ∧
      Distributes t.globalDepth t.dir t.pages keys) ↔ Fits keys) ∧
    ∀ events t,
      Run (fun t event t' => Meets xxh3 t event ∧ t.step xxh3 createNew event = some t')
        (created disk) events t →
      Distributes t.globalDepth t.dir t.pages (keysOf xxh3 t.strings) ∧
      ∀ str, Meets xxh3 t (.call str) → ∃ id t',
        t.getOrCreateStrId createNew str (xxh3 str) (maxDepth + 1) = some (id, t') ∧
          (id, str) ∈ t'.strings ∧ t.strings <+: t'.strings := by
  refine ⟨fun keys => ⟨?_, fun hfits => ?_⟩, fun events t hrun => ?_⟩
  · intro ⟨t, hcreate, hdistributes⟩
    exact BulkImport.fits_of_createIds hcreate hdistributes
  · obtain ⟨t, hcreate, h⟩ := BulkImport.Filled.createIds keys [] .init BulkImport.filled_init hfits
    exact ⟨t, hcreate, h.distributes⟩
  · have h := (served_created xxh3 disk).run hrun
    refine ⟨h.distributes, fun str hmeets => ?_⟩
    obtain ⟨id, t', hcall, _, hmem, hprefix⟩ :=
      Served.getOrCreateStrId createNew (maxDepth + 1) t h hmeets (by omega)
    exact ⟨id, t', hcall, hmem, hprefix⟩

/-- Two strings get ids in a hash that is made new, and a page leaves the buffer between the calls. -/
theorem distributes_two_strings : ∃ t : StringsHash, t.strings = [(1, [65]), (2, [66, 67])] ∧
    Distributes t.globalDepth t.dir t.pages (keysOf List.length t.strings) := by
  have hrun : Run (fun t event t' => Meets List.length t event ∧
      t.step List.length nextId event = some t') (created fun _ => ⟨0, []⟩)
        [.call [65], .evict 1, .call [66, 67], .call [65]] _ :=
    .cons ⟨.inr (by decide), rfl⟩ (.cons ⟨.inl rfl, rfl⟩ (.cons ⟨.inr (by decide), rfl⟩
      (.single ⟨.inl ⟨1, by decide⟩, rfl⟩)))
  exact ⟨_, rfl, ((distributes_iff_fits List.length nextId fun _ => ⟨0, []⟩).2 _ _ hrun).1⟩

/-- As many keys of one hash as no bucket holds. -/
theorem not_distributes_same : ¬ ∀ keys, ∃ t, BulkImport.createIds keys .init = some t ∧
    Distributes t.globalDepth t.dir t.pages keys := by
  intro hall
  obtain ⟨t, hcreate, hdistributes⟩ := hall ((List.range (maxKeys + 1)).map fun id => (0, id))
  have hlength := BulkImport.fits_of_createIds hcreate hdistributes 0
  rw [List.filter_eq_self.mpr, List.length_map, List.length_range] at hlength
  · omega
  · intro key hkey
    obtain ⟨id, _, rfl⟩ := List.mem_map.mp hkey
    rfl

end StringsHash
end MillenniumDB
